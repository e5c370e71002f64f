import ToyUnix.Proofs.Shell.Parallel

/-!
What commands call. A command calls at most one tree: the body of a function, or the text of a
script file. Then it is run like that tree, with something before and after that shows on no console.
Any other command acts on its own console, and nobody else's. See `runCommand_callee` and
`runCommand_acts`.
-/

set_option autoImplicit false

namespace ToyUnix

/-- Nothing has happened to files and consoles. -/
structure World.Silent (v w : World) : Prop where
  files : w.files = v.files
  buffers : w.buffers = v.buffers
  terminals : w.terminals = v.terminals
  pipes : w.pipes = v.pipes
  inputs : w.inputs = v.inputs

namespace World.Silent

variable {u v w : World}

theorem refl (w : World) : w.Silent w := ⟨rfl, rfl, rfl, rfl, rfl⟩

theorem trans (huv : u.Silent v) (hvw : v.Silent w) : u.Silent w where
  files := hvw.files.trans huv.files
  buffers := hvw.buffers.trans huv.buffers
  terminals := hvw.terminals.trans huv.terminals
  pipes := hvw.pipes.trans huv.pipes
  inputs := hvw.inputs.trans huv.inputs

theorem updateScope (w : World) (i : Nat) (f : Scope → Scope) : w.Silent (w.updateScope i f) :=
  ⟨rfl, rfl, rfl, rfl, rfl⟩

theorem updateShell (w : World) (id : Nat) (f : ShellState → ShellState) :
    w.Silent (w.updateShell id f) :=
  ⟨rfl, rfl, rfl, rfl, rfl⟩

theorem updateProcesses (w : World) (f : Processes → Processes) : w.Silent (w.updateProcesses f) :=
  ⟨rfl, rfl, rfl, rfl, rfl⟩

theorem set (w : World) (name value : String) (ctx : Context) : w.Silent (ctx.set w name value) := by
  induction ctx with
  | process p c config scope =>
    simp only [Context.set]
    split
    · exact updateProcesses ..
    · exact updateScope ..
  | shell id scope settings host ih => exact ih
  | _ => exact updateScope ..

theorem assign (ctx : Context) (assignments : List (String × Word)) (w : World) :
    w.Silent (assign ctx assignments w) := by
  induction assignments generalizing w with
  | nil => exact refl w
  | cons first rest ih => exact (set w _ _ ctx).trans (ih _)

theorem setCwd (w : World) (path : String) (ctx : Context) : w.Silent (ctx.setCwd w path) := by
  induction ctx with
  | standalone title directory scope => exact ⟨rfl, rfl, rfl, rfl, rfl⟩
  | process p c config scope => exact updateProcesses ..
  | shell id scope settings host ih => exact ih
  | nested scope parent ih => exact ih

theorem setMode (shell : Context) (mode : ShellMode) (w : World) :
    w.Silent (setMode shell mode w) := by
  cases shell <;> exact ⟨rfl, rfl, rfl, rfl, rfl⟩

end World.Silent

open World (Silent)

abbrev Console.sounding (console : Console) : Upkeep := console.acting World.Silent

namespace Console

variable {console : Console} {v w : World}

theorem sounding_silent (h : v.Silent w) : console.sounding.keeps v w := acting_aside console h

theorem sounding_complain (w : World) (message : Option String) :
    console.sounding.keeps w (Builtin.complain w console message) := by
  cases message with
  | none => exact Upkeep.refl _ w
  | some text => exact acting_writeLine ..

end Console

open Console (sounding_silent sounding_complain)

theorem runBuiltin_acts (id scope : Nat) (settings : ShellSettings) (host : Context)
    (console : Console) (name : String) (args : List String) (w : World) :
    console.sounding.keeps w (runBuiltin id scope settings host console name args w).2 := by
  unfold runBuiltin
  split
  · exact Upkeep.trans _ (sounding_silent (.updateShell ..)) (Console.acting_setTitle ..)
  · exact sounding_complain ..
  · exact sounding_complain ..
  · exact Console.acting_clear ..
  · exact Console.acting_write ..
  · unfold Builtin.changeDirectory
    dsimp only
    split_ifs
    · exact sounding_silent (.setCwd ..)
    · exact Console.acting_writeLine ..
  · exact sounding_complain ..

/-- A tree that is called: where and from which state on it is run, and what is done with its result
in the state that it ends in. -/
structure Callee where
  owner : Context
  tree : Instruction
  start : World
  leave : Except Fault Int → World → Except Fault Int × World

/-- The body of a function, called with a frame for the arguments. -/
def functionCallee (owner : Context) (tree : Instruction) (name : String) (args : List String)
    (w : World) : Callee where
  owner
  tree
  start := w.pushed owner.ownScope name args
  leave result s :=
    (catchReturn result, s.popped owner.ownScope (w.scope owner.ownScope).nextFrame)

def scriptCallee (config : ShellConfig) (child c : Nat) (console : Console) (path : String)
    (args : List String) (tree : Instruction) (w : World) : Callee where
  owner := (enterScript config child c console path args w).1
  tree
  start := (enterScript config child c console path args w).2
  leave result s :=
    (catchEnd (catchEnd result),
      (setMode (enterScript config child c console path args w).1 .idle s).updateProcesses
        (·.kill child (exitCode (catchEnd result))))

def script? (p c : Nat) (config : ShellConfig) (console : Console) (name : String)
    (args : List String) (w : World) : Option Callee := do
  let computer ← w.computers[c]?
  match ← w.resolveProgram computer p name with
  | (_, .native _) => none
  | (path, .script source) =>
    match w.processes.fork p, parseScript {} source true with
    | (.ok child, forked), .ok tree =>
      some (scriptCallee config child c console path args tree { w with processes := forked })
    | _, _ => none

def Context.callee? (ctx : Context) (console : Console) (name : String) (args : List String)
    (w : World) : Option Callee :=
  match ctx.resolve? w name with
  | some (.function owner tree) => some (functionCallee owner tree name args w)
  | some (.builtin _ _ _ _) => none
  | none => do
    let (p, c, config) ← ctx.host?
    script? p c config console name args w

section

variable {call : Caller} {limit : Nat} {ctx : Context} {console : Console} {name : String}
  {args : List String} {w : World} {callee : Callee}

theorem Context.callee?_cases (h : ctx.callee? console name args w = some callee) :
    (∃ owner tree, ctx.resolve? w name = some (.function owner tree) ∧
      callee = functionCallee owner tree name args w) ∨
    ∃ p c config computer path source child forked tree, ctx.resolve? w name = none ∧
      ctx.host? = some (p, c, config) ∧ w.computers[c]? = some computer ∧
      w.resolveProgram computer p name = some (path, .script source) ∧
      w.processes.fork p = (.ok child, forked) ∧ parseScript {} source true = .ok tree ∧
      callee = scriptCallee config child c console path args tree { w with processes := forked } := by
  unfold Context.callee? at h
  split at h
  case h_1 owner tree hresolve =>
    cases h
    exact .inl ⟨owner, tree, hresolve, rfl⟩
  case h_2 => cases h
  case h_3 hresolve =>
    obtain ⟨⟨p, c, config⟩, hhost, h⟩ := Option.bind_eq_some_iff.1 h
    obtain ⟨computer, hcomputer, h⟩ := Option.bind_eq_some_iff.1 h
    obtain ⟨⟨path, program | source⟩, hfound, h⟩ := Option.bind_eq_some_iff.1 h
    · cases h
    simp only at h
    split at h
    case h_1 child forked tree hfork hparse =>
      cases h
      exact .inr ⟨p, c, config, computer, path, source, child, forked, tree, hresolve, hhost,
        hcomputer, hfound, hfork, hparse, rfl⟩
    case h_2 => cases h

theorem Callee.silent_start (h : ctx.callee? console name args w = some callee) :
    w.Silent callee.start := by
  rcases Context.callee?_cases h with ⟨owner, tree, -, rfl⟩ |
    ⟨p, c, config, computer, path, source, child, forked, tree, -, -, -, -, -, -, rfl⟩
  · exact .updateScope ..
  · exact ⟨rfl, rfl, rfl, rfl, rfl⟩

theorem Callee.silent_leave (h : ctx.callee? console name args w = some callee)
    (result : Except Fault Int) (s : World) : s.Silent (callee.leave result s).2 := by
  rcases Context.callee?_cases h with ⟨owner, tree, -, rfl⟩ |
    ⟨p, c, config, computer, path, source, child, forked, tree, -, -, -, -, -, -, rfl⟩
  · exact .updateScope ..
  · let shell := (enterScript config child c console path args { w with processes := forked }).1
    exact (World.Silent.setMode shell .idle s).trans ⟨rfl, rfl, rfl, rfl, rfl⟩

theorem runCommand_callee (h : ctx.callee? console name args w = some callee) :
    runCommand call limit ctx console name args w =
      (call callee.owner console callee.tree callee.start).bind fun s result =>
        .done (callee.leave result s).2 (callee.leave result s).1 := by
  rcases Context.callee?_cases h with ⟨owner, tree, hresolve, rfl⟩ |
    ⟨p, c, config, computer, path, source, child, forked, tree, hresolve, hhost, hcomputer, hfound,
      hfork, hparse, rfl⟩
  · rw [runCommand_function hresolve, callFunction_eq]
    rfl
  · have hscript := runScriptFile_entered call c console path args { w with processes := forked }
      config child hparse
    rw [runCommand_unknown hresolve, runUnknown_hosted hhost]
    change (executeProgram call limit (some config) p c console name args w).bind _ = _
    rw [executeProgram_forked hcomputer hfound, hfork]
    simp only [runExecutable, hscript, Course.bind_assoc, Course.bind]
    refine congrArg (fun f => Course.bind f _) (funext fun s => funext fun result => ?_)
    simp only [scriptCallee]
    cases catchEnd (catchEnd result) <;> rfl

theorem executeProgram_acts {p c : Nat} {config : ShellConfig}
    (h : script? p c config console name args w = none) :
    (executeProgram call limit (some config) p c console name args w).Minds console.sounding w := by
  cases hcomputer : w.computers[c]? with
  | none =>
    rw [executeProgram, Job.get_bind, hcomputer]
    exact Upkeep.refl _ w
  | some computer =>
    cases hfound : w.resolveProgram computer p name with
    | none =>
      simp only [executeProgram, Job.get_bind, hcomputer, hfound]
      exact Upkeep.refl _ w
    | some found =>
      obtain ⟨path, executable⟩ := found
      rw [executeProgram_forked hcomputer hfound]
      split
      case h_1 fault forked _ => exact sounding_silent ⟨rfl, rfl, rfl, rfl, rfl⟩
      case h_2 child forked hfork =>
        have hnamed : w.Silent (({ w with processes := forked } : World).updateProcesses
          (·.setName child (PathText.fileName path))) := ⟨rfl, rfl, rfl, rfl, rfl⟩
        refine (Course.Minds.after (sounding_silent hnamed) ?_).bind fun s result =>
          sounding_silent (.updateProcesses ..)
        cases executable with
        | native program =>
          exact (program.run_acts World.Silent limit ⟨child, computer, console, args⟩).course _
        | script source =>
          cases hparse : parseScript {} source true with
          | ok tree =>
            rw [script?, hcomputer, Option.bind_eq_bind, Option.bind_some, hfound,
              Option.bind_eq_bind, Option.bind_some] at h
            simp only at h
            rw [hfork, hparse] at h
            cases h
          | error fault =>
            simp only [runExecutable, runScriptFile, runScript, hparse]
            exact sounding_silent ⟨rfl, rfl, rfl, rfl, rfl⟩

theorem runCommand_acts (h : ctx.callee? console name args w = none) :
    (runCommand call limit ctx console name args w).Minds console.sounding w := by
  have hmissing : (reportNotFound console name).Minds console.sounding :=
    (Job.Minds.modify fun _ => Console.acting_writeLine ..).bind fun _ => Job.Minds.pure 127
  unfold Context.callee? at h
  cases hresolve : ctx.resolve? w name with
  | some resolution =>
    rw [hresolve] at h
    cases resolution with
    | function owner tree => cases h
    | builtin id scope settings host =>
      rw [runCommand_builtin hresolve]
      exact runBuiltin_acts id scope settings host console name args w
  | none =>
    rw [hresolve] at h
    rw [runCommand_unknown hresolve]
    cases hhost : ctx.host? with
    | none =>
      rw [runUnknown_unhosted hhost]
      exact hmissing.course w
    | some host =>
      obtain ⟨p, c, config⟩ := host
      rw [hhost] at h
      rw [runUnknown_hosted hhost]
      refine Job.Minds.bind_course (executeProgram_acts h) fun found => ?_
      cases found with
      | none => exact hmissing
      | some code => exact Job.Minds.pure code

end

end ToyUnix
