import ToyUnix.Proofs.Shell.Straight

/-!
Parallel commands whose left side does not pause. A run pauses only within a program, so what matters
is which programs it comes to start, in calls and script files as well: `starts` follows the tree as
`execute` does. If the left side starts no program that suspends, it is run to its end before the
right side begins, whatever it comes to: see `parallel_sequential`.
-/

set_option autoImplicit false

namespace ToyUnix

/-- A program that is run, and the world where it begins. -/
structure Start where
  program : Program
  run : Invocation
  world : World

/-- Some bound on removals lets the program get as far as a pause. -/
def Start.Suspends (start : Start) : Prop :=
  ∃ limit, ¬ (start.program.run limit start.run start.world).Straight

theorem Start.Suspends.paced {start : Start} (h : start.Suspends) :
    start.program.Paced start.run start.world := by
  obtain ⟨limit, hlimit⟩ := h
  by_contra hpaced
  exact hlimit (Program.straight hpaced limit)

/-! Which programs a run starts, up to its first pause. -/

/-- The programs that the body of a function or a script starts. -/
abbrev Called := Context → Console → Instruction → World → Start → Prop

def executableStarts (called : Called) (config : ShellConfig) (child c : Nat) (computer : Computer)
    (console : Console) (path : String) (args : List String) (w : World) (start : Start) :
    Executable → Prop
  | .native program =>
    start = ⟨program, ⟨child, computer, console, args⟩,
      w.updateProcesses (·.setName child (PathText.fileName path))⟩
  | .script source => ∃ tree, parseScript {} source true = .ok tree ∧
    let (shell, v) := enterScript config child c console path args w
    called shell console tree v start

def programStarts (called : Called) (ctx : Context) (console : Console) (name : String)
    (args : List String) (w : World) (start : Start) : Prop :=
  ∃ p c config computer path executable child forked, ctx.host? = some (p, c, config) ∧
    w.computers[c]? = some computer ∧
    w.resolveProgram computer p name = some (path, executable) ∧
    w.processes.fork p = (.ok child, forked) ∧
    executableStarts called config child c computer console path args
      { w with processes := forked } start executable

def commandStarts (called : Called) (ctx : Context) (console : Console) (name : String)
    (args : List String) (w : World) (start : Start) : Prop :=
  match ctx.resolve? w name with
  | some (.function owner body) =>
    called owner console body (w.pushed owner.ownScope name args) start
  | some (.builtin _ _ _ _) => False
  | none => programStarts called ctx console name args w start

/-- The right side of a pipeline reads what the left side has written. -/
def feed (pipe console : Console) (w : World) : Console × World :=
  Console.addInput (pipe.drain w).2 (pipe.drain w).1 console

def Instruction.starts (called : Called) (call : Caller) (limit : Nat) :
    Instruction → Context → Console → World → Start → Prop
  | .empty, _, _, _, _ => False
  | .command assignments words, ctx, console, w, start =>
    ∃ name args, expandAll w ctx words = name :: args ∧
      commandStarts called ctx console name args (assign ctx assignments w) start
  | .pipe left right, ctx, console, w, start =>
    let (output, v) := Console.addPipe w console
    left.starts called call limit ctx output v start ∨
      ∃ s code, left.run call limit ctx output v = .done s (.ok code) ∧
        right.starts called call limit ctx (feed output console s).1 (feed output console s).2 start
  | .sequential first next, ctx, console, w, start =>
    first.starts called call limit ctx console w start ∨
      ∃ s code, first.run call limit ctx console w = .done s (.ok code) ∧
        next.starts called call limit ctx console s start
  | .parallel first next, ctx, console, w, start =>
    first.starts called call limit ctx console w start ∨
      ∃ s result, first.run call limit ctx console w = .done s result ∧
        next.starts called call limit ctx console s start
  | .conditional logic left right, ctx, console, w, start =>
    left.starts called call limit ctx console w start ∨
      ∃ s code, left.run call limit ctx console w = .done s (.ok code) ∧
        logic.goesOn code = true ∧ right.starts called call limit ctx console s start
  | .redirect mode target inner, ctx, console, w, start =>
    ∃ redirected v, ctx.openConsole w console (expandOne w ctx target) mode = (.ok redirected, v) ∧
      inner.starts called call limit ctx redirected v start
  | .function _ _, _, _, _, _ => False
  | .scoped inner, ctx, console, w, start =>
    inner.starts called call limit (.nested w.addScope.1 ctx) console w.addScope.2 start

/-- Until it pauses, the run that begins in `w` starts this program. -/
def starts : Nat → Called
  | 0 => fun _ _ _ _ _ => False
  | depth + 1 => fun ctx console tree w start =>
    tree.starts (starts depth) (execute depth) depth ctx console w start

/-! Runs without a pause. -/

/-- Where none of the programs that a body starts suspends, the call does not pause. -/
def Caller.Honest (call : Caller) (called : Called) : Prop :=
  ∀ ctx console tree w, (∀ start, called ctx console tree w start → ¬ start.Suspends) →
    (call ctx console tree w).Straight

section

variable {call : Caller} {called : Called} {limit : Nat} {console : Console} {name : String}
  {args : List String} {w : World}

theorem straight_callFunction (hcall : call.Honest called) {owner : Context} {body : Instruction}
    (h : ∀ start, called owner console body (w.pushed owner.ownScope name args) start →
      ¬ start.Suspends) :
    (callFunction call owner body console name args w).Straight := by
  rw [callFunction_eq]
  exact (hcall _ _ _ _ h).bind fun _ _ _ => trivial

theorem straight_runExecutable (hcall : call.Honest called) {config : ShellConfig} {child c : Nat}
    {computer : Computer} {path : String} {executable : Executable}
    (h : ∀ start, executableStarts called config child c computer console path args w start
      executable → ¬ start.Suspends) :
    (runExecutable call limit (some config) child c computer console path args executable
      (w.updateProcesses (·.setName child (PathText.fileName path)))).Straight := by
  cases executable with
  | native program =>
    by_contra hpause
    exact h _ rfl ⟨limit, hpause⟩
  | script source =>
    cases hparse : parseScript {} source true with
    | ok tree =>
      rw [runExecutable, runScriptFile_entered call c console path args w config child hparse]
      exact (hcall _ _ _ _ fun start hstart => h start ⟨tree, hparse, hstart⟩).bind
        fun _ _ _ => trivial
    | error fault =>
      simp only [runExecutable, runScriptFile, runScript, hparse]
      trivial

theorem straight_executeProgram (hcall : call.Honest called) {ctx : Context} {p c : Nat}
    {config : ShellConfig} (hhost : ctx.host? = some (p, c, config))
    (h : ∀ start, programStarts called ctx console name args w start → ¬ start.Suspends) :
    (executeProgram call limit (some config) p c console name args w).Straight := by
  cases hcomputer : w.computers[c]? with
  | none =>
    simp only [executeProgram, Job.get_bind, hcomputer]
    trivial
  | some computer =>
    cases hfound : w.resolveProgram computer p name with
    | none =>
      simp only [executeProgram, Job.get_bind, hcomputer, hfound]
      trivial
    | some found =>
      obtain ⟨path, executable⟩ := found
      rw [executeProgram_forked hcomputer hfound]
      split
      · trivial
      · rename_i child forked hfork
        refine (straight_runExecutable hcall fun start hstart => h start ?_).bind
          fun _ _ _ => trivial
        exact ⟨p, c, config, computer, path, executable, child, forked, hhost, hcomputer, hfound,
          hfork, hstart⟩

theorem runUnknown_unhosted {ctx : Context} (hhost : ctx.host? = none) :
    runUnknown call limit console name args ctx = reportNotFound console name := by
  induction ctx with
  | standalone title directory s => rfl
  | process p c config s => cases hhost
  | shell id s settings host ih => exact ih hhost
  | nested s parent ih => exact ih hhost

theorem straight_runUnknown (hcall : call.Honest called) {ctx : Context}
    (h : ∀ start, programStarts called ctx console name args w start → ¬ start.Suspends) :
    (runUnknown call limit console name args ctx w).Straight := by
  cases hhost : ctx.host? with
  | none =>
    rw [runUnknown_unhosted hhost]
    trivial
  | some host =>
    obtain ⟨p, c, config⟩ := host
    rw [runUnknown_hosted hhost]
    refine Job.straight_bind (straight_executeProgram hcall hhost h) fun s found _ => ?_
    cases found <;> trivial

theorem straight_runCommand (hcall : call.Honest called) {ctx : Context}
    (h : ∀ start, commandStarts called ctx console name args w start → ¬ start.Suspends) :
    (runCommand call limit ctx console name args w).Straight := by
  unfold commandStarts at h
  cases hresolve : ctx.resolve? w name with
  | none =>
    rw [hresolve] at h
    rw [runCommand_unknown hresolve]
    exact straight_runUnknown hcall h
  | some resolution =>
    rw [hresolve] at h
    cases resolution with
    | function owner body =>
      rw [runCommand_function hresolve]
      exact straight_callFunction hcall h
    | builtin id scope settings host =>
      rw [runCommand_builtin hresolve]
      trivial

end

/-- By induction on the tree; a parallel command is run one side after the other. -/
theorem straight_run {call : Caller} {called : Called} (hcall : call.Honest called) (limit : Nat)
    (tree : Instruction) {ctx : Context} {console : Console} {w : World}
    (h : ∀ start, tree.starts called call limit ctx console w start → ¬ start.Suspends) :
    (tree.run call limit ctx console w).Straight := by
  induction tree generalizing ctx console w with
  | empty => trivial
  | command assignments words =>
    rw [Instruction.run, runSimple, Job.update_bind]
    cases hwords : expandAll w ctx words with
    | nil => trivial
    | cons name args =>
      refine Job.straight_bind (straight_runCommand hcall fun start hstart => ?_)
        fun _ _ _ => trivial
      exact h start ⟨name, args, hwords, hstart⟩
  | pipe left right ihleft ihright =>
    rw [Instruction.run, Job.update_bind]
    refine Job.straight_bind (ihleft fun start hstart => h start (.inl hstart)) fun s code hs => ?_
    rw [Job.update_bind]
    exact ihright fun start hstart => h start (.inr ⟨s, code, hs, hstart⟩)
  | sequential first next ihfirst ihnext =>
    refine Job.straight_bind (ihfirst fun start hstart => h start (.inl hstart)) fun s code hs => ?_
    exact ihnext fun start hstart => h start (.inr ⟨s, code, hs, hstart⟩)
  | parallel first next ihfirst ihnext =>
    have hfirst := ihfirst fun start hstart => h start (.inl hstart)
    refine Job.straight_bind (Job.straight_both hfirst fun s result hs => ?_)
      fun s results _ => Job.straight_ofExcept _ s
    exact ihnext fun start hstart => h start (.inr ⟨s, result, hs, hstart⟩)
  | conditional logic left right ihleft ihright =>
    refine Job.straight_bind (ihleft fun start hstart => h start (.inl hstart)) fun s code hs => ?_
    split
    · rename_i hlogic
      exact ihright fun start hstart => h start (.inr ⟨s, code, hs, hlogic, hstart⟩)
    · trivial
  | redirect mode target inner ih =>
    rw [Instruction.run]
    refine Job.straight_bind trivial fun s redirected hopen => ?_
    have hinner : (inner.run call limit ctx redirected s).Straight :=
      ih fun start hstart => h start ⟨redirected, s, Job.step_done hopen, hstart⟩
    refine Job.straight_attempt_bind hinner fun s' result _ => ?_
    refine Job.straight_attempt_bind trivial fun s'' flushed _ => ?_
    rw [Job.modify_bind]
    exact Job.straight_ofExcept _ _
  | function name body => trivial
  | «scoped» inner ih =>
    rw [Instruction.run, Job.update_bind]
    exact ih h

theorem straight_execute (depth : Nat) : (execute depth).Honest (starts depth) := by
  induction depth with
  | zero => exact fun _ _ _ _ _ => trivial
  | succ depth ih => exact fun ctx console tree w h => straight_run ih depth tree h

/-- No program that the left side starts suspends, be it `rm` with something to delete or `ping` of a
host with an address; there are no others. Then a parallel command is the left side run to its end,
with a fault or without, and after it the right side; a fault of the left side is what it comes to,
and otherwise the right side says that. If the right side, which begins where the left one has ended,
starts no such program either, then there is no pause at all. -/
theorem parallel_sequential {depth : Nat} {ctx : Context} {console : Console}
    {first next : Instruction} {w : World}
    (hfirst : ∀ start, starts depth ctx console first w start → ¬ start.Suspends) :
    (∀ start : Start, start.Suspends → start.program.Paced start.run start.world) ∧
    execute depth ctx console (.parallel first next) w =
      (do
        let left ← Job.attempt (execute depth ctx console first)
        let right ← Job.attempt (execute depth ctx console next)
        match left with
        | .error fault => Job.throw fault
        | .ok _ => Job.ofExcept right : Job Int) w ∧
    ((∀ v result, execute depth ctx console first w = .done v result →
        ∀ start, starts depth ctx console next v start → ¬ start.Suspends) →
      (execute depth ctx console (.parallel first next) w).Straight) := by
  refine ⟨fun start => Start.Suspends.paced, ?_, fun hnext => ?_⟩
  · have hstraight := straight_execute depth ctx console first w hfirst
    cases depth with
    | zero => rfl
    | succ depth =>
      refine (Job.both_bind hstraight fun results => Job.ofExcept (joinResults results)).trans ?_
      refine congrArg (fun f => (Job.attempt (execute (depth + 1) ctx console first) >>= f) w) ?_
      refine funext fun left => congrArg (Job.attempt (execute (depth + 1) ctx console next) >>= ·) ?_
      funext right
      cases left <;> rfl
  · refine straight_execute depth ctx console _ w fun start hstart => ?_
    cases depth with
    | zero => exact hstart.elim
    | succ depth =>
      rcases hstart with hstart | ⟨v, result, hdone, hstart⟩
      · exact hfirst start hstart
      · exact hnext v result hdone start hstart

namespace Sample

/-- `ping nowhere` -/
def lost : Instruction := .command [] [.ofText "ping", .ofText "nowhere"]

/-- `ping h`, which pauses -/
def reaching : Instruction := .command [] [.ofText "ping", .ofText "h"]

theorem lost_starts {start : Start} (h : starts 9 boxShell (.buffer 0) lost box start) :
    start.program = .ping ∧ start.run.args = ["nowhere"] ∧ start.run.computer.network = some 0 ∧
      start.world.networks = box.networks := by
  obtain ⟨name, args, hwords, hstart⟩ := h
  have hping : expandAll box boxShell [.ofText "ping", .ofText "nowhere"] = ["ping", "nowhere"] := by
    decide +kernel
  rw [hping] at hwords
  cases hwords
  obtain ⟨p, c, config, computer, path, executable, child, forked, hhost, hcomputer, hfound, -,
    hexecutable⟩ := hstart
  cases hhost
  cases hcomputer
  have hnative : box.resolveProgram
      ⟨0, "box", none, "", [root], .memory 0, 0, 0, 0, some 0, some .utilities⟩ 0 "ping" =
        some ("ping", .native .ping) := by
    cbv
  cases hnative.symm.trans hfound
  cases hexecutable
  exact ⟨rfl, rfl, rfl, rfl⟩

theorem lost_sequential :
    (∀ start, starts 9 boxShell (.buffer 0) lost box start → ¬ start.Suspends) ∧
    execute 9 boxShell (.buffer 0) (.parallel lost reaching) box =
      (do
        let left ← Job.attempt (execute 9 boxShell (.buffer 0) lost)
        let right ← Job.attempt (execute 9 boxShell (.buffer 0) reaching)
        match left with
        | .error fault => Job.throw fault
        | .ok _ => Job.ofExcept right : Job Int) box := by
  have hlost : ∀ start, starts 9 boxShell (.buffer 0) lost box start → ¬ start.Suspends := by
    intro start hstart hsuspends
    obtain ⟨hprogram, hargs, hnetwork, hnetworks⟩ := lost_starts hstart
    have hpaced := hsuspends.paced
    rw [hprogram] at hpaced
    obtain ⟨host, rest, network, address, hhost, hnumber, hresolve⟩ := hpaced
    rw [hargs] at hhost
    cases hhost
    cases hnetwork.symm.trans hnumber
    rw [hnetworks] at hresolve
    have hnone : (box.networks[0]?).bind (·.resolve? "nowhere") = none := by decide +kernel
    cases hnone.symm.trans hresolve
  exact ⟨hlost, (parallel_sequential hlost).2.1⟩

end Sample

end ToyUnix
