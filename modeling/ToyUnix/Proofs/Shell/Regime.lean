import ToyUnix.Proofs.Shell.Aside
import ToyUnix.Proofs.Shell.Calls

/-!
Regimes. A regime says which trees may be run where and what running them keeps. If each single step
fits the regime, then so does every run, with all its calls and whatever its branches do between each
other's turns; and a watch that has no reason to object wherever the regime puts a command objects to
no run.
-/

set_option autoImplicit false

namespace ToyUnix

open World (Framed Agree Clean Issued grown Aside Still)

theorem Scope.setArguments_eq (scope : Scope) (script : String) (args : List String) :
    scope.setArguments script args =
      { scope with bindings := (scope.setArguments script args).bindings } := by
  have hfold {α : Type} (step : Scope → α → Scope)
      (hstep : ∀ scope a, step scope a = { scope with bindings := (step scope a).bindings })
      (items : List α) (start : Scope) :
      items.foldl step start = { start with bindings := (items.foldl step start).bindings } := by
    induction items generalizing start with
    | nil => rfl
    | cons first rest ih =>
      rw [List.foldl_cons, ih, hstep]
  unfold Scope.setArguments
  dsimp only
  rw [hfold _ fun _ _ => rfl]
  rfl

theorem World.scope_addScope (w : World) (s : Nat) : w.addScope.2.scope s = w.scope s := by
  unfold World.addScope scope
  simp only [List.getElem?_append]
  split
  · rfl
  · rename_i hs
    rw [List.getElem?_eq_none (Nat.not_lt.1 hs)]
    cases s - w.scopes.length with
    | zero => rfl
    | succ n => rfl

namespace World.Still

variable {v w : World}

theorem of_aside (h : v.Aside w) : v.Still w where
  scopes := Nat.le_of_eq (congrArg List.length h.scopes.symm)
  frames s := by rw [scope, scope, h.scopes]
  numbers s := by rw [scope, scope, h.scopes]

theorem updateScope (w : World) (i : Nat) {f : Scope → Scope}
    (hframes : ∀ scope, (f scope).frames = scope.frames)
    (hnumbers : ∀ scope, (f scope).nextFrame = scope.nextFrame) : w.Still (w.updateScope i f) where
  scopes := Nat.le_of_eq (length_updateScope ..).symm
  frames s := (scope_updateScope_or w i f s).elim (congrArg _) fun h => by rw [h.2, hframes]
  numbers s := (scope_updateScope_or w i f s).elim (congrArg _) fun h => by rw [h.2, hnumbers]

theorem addScope (w : World) : w.Still w.addScope.2 where
  scopes := by simp [World.addScope]
  frames s := by rw [scope_addScope]
  numbers s := by rw [scope_addScope]

theorem declare (w : World) (name : String) (body : Instruction) (ctx : Context) :
    w.Still (ctx.declare w name body) :=
  updateScope w _ (fun _ => rfl) fun _ => rfl

theorem set (w : World) (name value : String) (ctx : Context) :
    w.Still (ctx.set w name value) := by
  induction ctx with
  | standalone title directory scope => exact updateScope w _ (fun _ => rfl) fun _ => rfl
  | process p c config scope =>
    simp only [Context.set]
    split
    · exact ⟨Nat.le_refl _, fun _ => rfl, fun _ => rfl⟩
    · exact updateScope w _ (fun _ => rfl) fun _ => rfl
  | shell id scope settings host ih => exact ih
  | nested scope parent => exact updateScope w _ (fun _ => rfl) fun _ => rfl

theorem assign (ctx : Context) (assignments : List (String × Word)) (w : World) :
    w.Still (assign ctx assignments w) := by
  induction assignments generalizing w with
  | nil => exact .refl w
  | cons first rest ih => exact (set ..).trans (ih _)

theorem setArguments (w : World) (i : Nat) (script : String) (args : List String) :
    w.Still (w.updateScope i (·.setArguments script args)) :=
  updateScope w i (fun scope => by rw [scope.setArguments_eq])
    fun scope => by rw [scope.setArguments_eq]

end World.Still

/-- The context is `owner`, or one that commands in parentheses run in within it, in scopes from
number `n` on. -/
inductive Inside (owner : Context) (n : Nat) : Context → Prop
  | here : Inside owner n owner
  | nested {scope : Nat} {parent : Context} (h : n ≤ scope) (hparent : Inside owner n parent) :
      Inside owner n (.nested scope parent)

/-- The context is `owner`, or one within it. -/
inductive Encloses (owner : Context) : Context → Prop
  | here : Encloses owner owner
  | shell {id scope : Nat} {settings : ShellSettings} {host : Context}
      (h : Encloses owner host) : Encloses owner (.shell id scope settings host)
  | nested {scope : Nat} {parent : Context} (h : Encloses owner parent) :
      Encloses owner (.nested scope parent)

theorem Context.resolve?_function {w : World} {ctx owner : Context} {name : String}
    {body : Instruction} (h : ctx.resolve? w name = some (.function owner body)) :
    Encloses owner ctx ∧ (w.scope owner.ownScope).function? name = some body := by
  induction ctx with
  | standalone title directory scope =>
    obtain ⟨found, hfound, heq⟩ := Option.map_eq_some_iff.1 h
    cases heq
    exact ⟨.here, hfound⟩
  | process p c config scope =>
    obtain ⟨found, hfound, heq⟩ := Option.map_eq_some_iff.1 h
    cases heq
    exact ⟨.here, hfound⟩
  | shell id scope settings host ih =>
    simp only [Context.resolve?] at h
    split at h
    · rename_i found hfound
      cases h
      exact ⟨.here, hfound⟩
    · split at h
      · rename_i found hfound
        cases h
        exact (ih hfound).imp_left .shell
      · split at h <;> cases h
  | nested scope parent ih =>
    simp only [Context.resolve?] at h
    split at h
    · rename_i found hfound
      cases h
      exact ⟨.here, hfound⟩
    · exact (ih h).imp_left .nested

/-- The trees that are run in the same context as the whole. -/
def Instruction.parts : Instruction → List Instruction
  | .pipe left right | .sequential left right | .parallel left right | .conditional _ left right =>
    [left, right]
  | .redirect _ _ inner => [inner]
  | .empty | .command _ _ | .function _ _ | .scoped _ => []

theorem Instruction.subset_of_part {names : Instruction → List String} {tree part : Instruction}
    (h : tree.parts.flatMap names ⊆ names tree) (hpart : part ∈ tree.parts) :
    names part ⊆ names tree :=
  fun _ hname => h (List.mem_flatMap.2 ⟨part, hpart, hname⟩)

/-- What may be run where, and what that keeps. -/
structure Regime extends Upkeep where
  admits : World → Context → Instruction → Prop
  framing : toUpkeep.Framing
  aside : ∀ {v w : World}, v.Aside w → keeps v w
  grow : ∀ w : World, keeps w w.addScope.2
  arguments : ∀ (w : World) script args,
    keeps w (w.addScope.2.updateScope w.scopes.length (·.setArguments script args))
  later : ∀ {v w ctx tree}, keeps v w → admits v ctx tree → admits w ctx tree
  parts : ∀ {w ctx tree part}, admits w ctx tree → part ∈ tree.parts → admits w ctx part
  enclosed : ∀ {w ctx inner}, admits w ctx (.scoped inner) →
    admits w.addScope.2 (.nested w.scopes.length ctx) inner
  resolved : ∀ {w ctx tree name owner body}, admits w ctx tree →
    ctx.resolve? w name = some (.function owner body) → admits w owner body
  /-- A script file runs in a shell of its own, in a process of its own. -/
  script : ∀ {v w ctx tree} {options : ParseOptions} {text inner} {id scope settings p c config host},
    admits v ctx tree → keeps v w → v.scopes.length ≤ scope → v.scopes.length ≤ host →
    v.processes.all.length ≤ p → parseScript options text true = .ok inner →
    admits w (.shell id scope settings (.process p c config host)) inner
  assigned : ∀ {w ctx assignments words made}, admits w ctx (.command assignments words) →
    made <+: assignments → keeps w (assign ctx made w)
  status : ∀ {w ctx assignments words} code, admits w ctx (.command assignments words) →
    keeps w (setStatus ctx code w)
  declared : ∀ {w ctx name body}, admits w ctx (.function name body) →
    keeps w (ctx.declare w name body)

namespace Regime

variable (R : Regime)

theorem steady_aside {v w : World} (h : v.Aside w) : Steady R.toUpkeep v w :=
  ⟨.of_aside h, R.aside h⟩

theorem steady_apart {v w : World} (h : v.Apart w) : Steady R.toUpkeep v w :=
  R.steady_aside (.of_apart h)

variable {R} {level : Level} {S : Stage R.toUpkeep level} {w : World}

open Job

theorem leads_of_apart {α : Type} {x : Job α} (h : x.Apart) : Leads S w x x where
  course mine hready := by
    have hx := h.course w
    generalize x w = c at hx
    induction c generalizing w with
    | done s a =>
      have hs := R.steady_apart hx
      exact Course.Leads.steady hs (Course.Leads.done (hready.steady hs) a)
    | pause s resume ih =>
      have hs := R.steady_apart hx.1
      refine ⟨resume, rfl, hs.turn mine, fun t ht => ?_⟩
      rw [hs.grown_eq] at ht ⊢
      exact ih t ((hready.steady hs).rest ht) (hx.2 t)
    | exhausted => trivial

variable (R level) in
/-- How bodies are run: the first way keeps to its turns, and the second goes the same way. -/
def Runs (least : Marks) (call call' : Caller) : Prop :=
  ∀ (S : Stage R.toUpkeep level) owner console tree, S.Hosts least owner →
    R.admits S.start owner tree →
    Leads S S.start (call owner console tree) (call' owner console tree)

theorem lt_of_function? {i : Nat} {name : String} {body : Instruction}
    (h : (w.scope i).function? name = some body) : i < w.scopes.length := by
  by_contra hi
  rw [World.scope_of_le (Nat.not_lt.1 hi)] at h
  cases h

theorem le_of_fork {parent child : Nat} (h : (w.onProcesses (·.fork parent)).1 = .ok child) :
    w.processes.all.length ≤ child :=
  Nat.le_of_eq (Processes.all_fork (Prod.ext h rfl)).1.symm

section Commands

variable {least : Marks} {call call' : Caller} {ctx : Context} {tree : Instruction}
  {console : Console} {name : String} {args : List String}

theorem leads_tryCommand (hcall : R.Runs level least call call')
    (hleast : ∀ s id, least s id → S.base s id) (h : R.admits w ctx tree) :
    Leads S w (tryCommand call ctx console name args) (tryCommand call' ctx console name args) := by
  refine Leads.get_bind ?_
  split
  · exact Leads.pure none
  · rename_i owner body hfound
    have hi := lt_of_function? (Context.resolve?_function hfound).2
    refine (Leads.callFunction R.framing hi fun hw => hcall _ _ _ _ ?_ ?_).fmap some
    · refine ⟨fun s id hid => .inl (hleast s id hid), fun frame hframe => ?_⟩
      have hhead : some _ = some frame :=
        (congrArg List.head? (World.frames_pushed hi ..)).symm.trans hframe
      obtain rfl := Option.some.inj hhead
      exact .inr ⟨rfl, rfl⟩
    · exact R.later (R.framing.pushed w owner.ownScope name args hi) (R.resolved h hfound)
  · exact (Leads.step (R.steady_aside (runBuiltin_aside ..))).fmap some

theorem leads_reportFault (settings : ShellSettings) (fault : Fault) :
    Leads S w (reportFault settings fault) (reportFault settings fault) := by
  unfold reportFault
  split
  · exact Leads.modify (R.steady_apart (Console.writeLine_apart ..))
  · exact Leads.throw fault

theorem leads_runScript {shell : Context} {settings : ShellSettings} {text : String}
    (hcall : R.Runs level least call call') (hleast : ∀ s id, least s id → S.base s id)
    (hframes : (w.scope shell.ownScope).frames = [])
    (hadmits : ∀ inner, parseScript settings.options text true = .ok inner →
      R.admits w shell inner) :
    Leads S w (runScript call shell settings text) (runScript call' shell settings text) := by
  unfold runScript
  split
  · exact (leads_reportFault ..).bind fun _ s _ => Leads.pure 2
  · rename_i inner hparse
    have hmode := World.Aside.of_apart (setMode_apart shell .executing w)
    refine Leads.modify_bind (R.steady_aside hmode) ?_
    refine (Leads.of_restart fun hw =>
      hcall (S.restart _ hw) shell settings.console inner ?_ ?_).attempt.bind ?_
    · refine ⟨hleast, ?_⟩
      change ∀ frame ∈ ((setMode shell .executing w).scope shell.ownScope).frames.head?, _
      rw [(Still.of_aside hmode).frames, hframes]
      exact fun _ h => nomatch h
    · exact R.later (R.aside hmode) (hadmits inner hparse)
    · intro result s _
      refine Leads.modify_bind (R.steady_apart (setMode_apart ..)) ?_
      cases catchEnd result with
      | ok code => exact Leads.pure code
      | error fault => exact (leads_reportFault ..).bind fun _ t _ => Leads.pure 1

theorem leads_runScriptFile {config : ShellConfig} {p c : Nat} {path source : String} {v : World}
    (hcall : R.Runs level least call call') (hleast : ∀ s id, least s id → S.base s id)
    (h : R.admits v ctx tree) (hvw : R.keeps v w) (hscopes : v.scopes.length ≤ w.scopes.length)
    (hp : v.processes.all.length ≤ p) :
    Leads S w (runScriptFile call config p c console path source args)
      (runScriptFile call' config p c console path source args) := by
  have hhost : Steady R.toUpkeep w
      (w.addScope.2.updateScope w.scopes.length (·.setArguments path args)) :=
    ⟨(Still.addScope w).trans (.setArguments ..), R.arguments w path args⟩
  have hshell (w : World) (title : String) : Steady R.toUpkeep w (addShell w title).2 :=
    ⟨(Still.addScope w).trans (.of_aside (.of_apart ⟨rfl, rfl⟩)),
      R.trans (R.grow w) (R.aside (.of_apart ⟨rfl, rfl⟩))⟩
  refine Leads.update_bind hhost (Leads.update_bind (hshell _ config.defaultTitle) ?_)
  refine leads_runScript hcall hleast ?_ fun inner hparse => R.script h ?_ ?_ hscopes hp hparse
  · rw [(hshell _ _).frames]
    exact congrArg Scope.frames (World.scope_of_le (Nat.le_refl _))
  · exact R.trans hvw (R.trans hhost.keeps (hshell _ _).keeps)
  · exact Nat.le_trans hscopes hhost.scopes

theorem leads_runExecutable {limit p c : Nat} {scripts : Option ShellConfig} {computer : Computer}
    {path : String} {executable : Executable} {v : World}
    (hcall : R.Runs level least call call') (hleast : ∀ s id, least s id → S.base s id)
    (h : R.admits v ctx tree) (hvw : R.keeps v w) (hscopes : v.scopes.length ≤ w.scopes.length)
    (hp : v.processes.all.length ≤ p) :
    Leads S w (runExecutable call limit scripts p c computer console path args executable)
      (runExecutable call' limit scripts p c computer console path args executable) := by
  cases executable with
  | native program => exact leads_of_apart (program.run_apart ..)
  | script source =>
    cases scripts with
    | none => exact Leads.throw _
    | some config => exact leads_runScriptFile hcall hleast h hvw hscopes hp

theorem leads_executeProgram {limit parent c : Nat} {scripts : Option ShellConfig}
    (hcall : R.Runs level least call call') (hleast : ∀ s id, least s id → S.base s id)
    (h : R.admits w ctx tree) :
    Leads S w (executeProgram call limit scripts parent c console name args)
      (executeProgram call' limit scripts parent c console name args) := by
  refine Leads.get_bind ?_
  split
  · exact Leads.pure none
  split
  · exact Leads.pure none
  rename_i path executable _
  have hfork : w.Aside (w.onProcesses (·.fork parent)).2 := ⟨rfl, .fork _ _⟩
  refine Leads.step_bind (R.steady_aside hfork) fun child hchild => ?_
  have hname (w : World) (name : String) : w.Aside (w.updateProcesses (·.setName child name)) :=
    .updateProcesses (.update _ _ (fun _ => rfl) fun _ => rfl)
  have hkill (w : World) (code : Int) : w.Aside (w.updateProcesses (·.kill child code)) :=
    .updateProcesses (.run _ _)
  refine Leads.modify_bind (R.steady_aside (hname ..)) ?_
  have haside := hfork.trans (hname _ (PathText.fileName path))
  refine (leads_runExecutable hcall hleast h (R.aside haside) (Still.of_aside haside).scopes
    (le_of_fork hchild)).attempt.bind fun result s _ => ?_
  cases catchEnd result with
  | ok code => exact Leads.modify_bind (R.steady_aside (hkill ..)) (Leads.pure _)
  | error fault => exact Leads.modify_bind (R.steady_aside (hkill ..)) (Leads.throw fault)

theorem leads_runUnknown {limit : Nat} (hcall : R.Runs level least call call')
    (hleast : ∀ s id, least s id → S.base s id) (h : R.admits w ctx tree) (at_ : Context) :
    Leads S w (runUnknown call limit console name args at_)
      (runUnknown call' limit console name args at_) := by
  have hmissing {w : World} :
      Leads S w (reportNotFound console name) (reportNotFound console name) :=
    Leads.modify_bind (R.steady_apart (Console.writeLine_apart ..)) (Leads.pure 127)
  induction at_ with
  | standalone title directory scope => exact hmissing
  | process p c config scope =>
    refine (leads_executeProgram hcall hleast h).bind fun found s _ => ?_
    cases found with
    | none => exact hmissing
    | some code => exact Leads.pure code
  | shell id scope settings host ih => exact ih
  | nested scope parent ih => exact ih

theorem leads_runCommand {limit : Nat} (hcall : R.Runs level least call call')
    (hleast : ∀ s id, least s id → S.base s id) (h : R.admits w ctx tree) :
    Leads S w (runCommand call limit ctx console name args)
      (runCommand call' limit ctx console name args) := by
  refine (leads_tryCommand hcall hleast h).bind fun found s hs => ?_
  cases found with
  | none => exact leads_runUnknown hcall hleast (R.later hs.keeps h) ctx
  | some code => exact Leads.pure code

theorem leads_runSimple {limit : Nat} {assignments : List (String × Word)} {words : List Word}
    (hcall : R.Runs level least call call')
    (hleast : ∀ s id, least s id → S.base s id) (h : R.admits w ctx (.command assignments words)) :
    Leads S w (runSimple call limit ctx console assignments words)
      (runSimple call' limit ctx console assignments words) := by
  have hassign := R.assigned h (List.prefix_refl _)
  have hstatus {s : World} (hs : R.keeps w s) (code : Int) :
      Steady R.toUpkeep s (setStatus ctx code s) :=
    ⟨.set .., R.status code (R.later hs h)⟩
  refine Leads.update_bind ⟨.assign .., hassign⟩ ?_
  split
  · exact Leads.modify_bind (hstatus hassign 0) (Leads.pure 0)
  · refine (leads_runCommand hcall hleast (R.later hassign h)).bind fun code s hs => ?_
    exact Leads.modify_bind (hstatus (R.trans hassign hs.keeps) code) (Leads.pure code)

end Commands

variable (R level) in
/-- The watch has no reason to object to a command that is run where the regime admits it. -/
def Allows (least : Marks) (watch : Watch) : Prop :=
  ∀ (S : Stage R.toUpkeep level) owner ctx mine w tree, S.Hosts least owner →
    S.Ready mine w → Inside owner S.start.scopes.length ctx → R.admits w ctx tree →
    watch ⟨owner, (S.start.scope owner.ownScope).frames.head?⟩ ctx w = true

theorem leads_runWatched {least : Marks} {call call' : Caller} {watch : Watch} {owner : Context}
    (limit : Nat) (hcall : R.Runs level least call call') (hwatch : R.Allows level least watch)
    (hS : S.Hosts least owner) (tree : Instruction) {ctx : Context} (console : Console)
    (hw : Onward R.toUpkeep S.start w) (hctx : Inside owner S.start.scopes.length ctx)
    (h : R.admits w ctx tree) :
    Leads S w (tree.runWatched (fun _ _ => true) level call limit ctx console)
      (tree.runWatched (watch ⟨owner, (S.start.scope owner.ownScope).frames.head?⟩)
        .free call' limit ctx console) := by
  induction tree generalizing ctx console w with
  | empty => exact Leads.pure 0
  | command assignments words =>
    refine Leads.watch_bind (fun mine hready => ?_) (leads_runSimple hcall hS.least h)
    refine List.all_eq_true.2 fun made hmade => ?_
    have hmade := R.assigned h ((List.mem_inits ..).1 hmade)
    exact hwatch S owner ctx mine _ _ hS (hready.steady ⟨.assign .., hmade⟩) hctx (R.later hmade h)
  | pipe left right ihleft ihright =>
    have hpipe : Steady R.toUpkeep w (Console.addPipe w console).2 :=
      R.steady_apart ⟨rfl, rfl⟩
    have h := R.later hpipe.keeps h
    refine Leads.update_bind hpipe ((ihleft _ (hw.trans hpipe.onward) hctx
      (R.parts h (by simp [Instruction.parts]))).bind fun _ s hs => ?_)
    let pipe := (Console.addPipe w console).1
    have hinput : Steady R.toUpkeep s
        (Console.addInput (pipe.drain s).2 (pipe.drain s).1 console).2 :=
      R.steady_apart ((Console.drain_apart s pipe).trans ⟨rfl, rfl⟩)
    refine Leads.update_bind hinput (ihright _ ?_ hctx (R.parts (R.later ?_ h) ?_))
    · exact (hw.trans hpipe.onward).trans (hs.trans hinput.onward)
    · exact R.trans hs.keeps hinput.keeps
    · simp [Instruction.parts]
  | sequential first next ihfirst ihnext =>
    refine (ihfirst _ hw hctx (R.parts h (by simp [Instruction.parts]))).bind fun _ s hs => ?_
    exact ihnext _ (hw.trans hs) hctx (R.parts (R.later hs.keeps h) (by simp [Instruction.parts]))
  | parallel first next ihfirst ihnext =>
    refine Leads.bind (Leads.bothWhile (ihfirst _ hw hctx (R.parts h (by simp [Instruction.parts])))
      fun s hs => ?_) fun results s _ => Leads.ofExcept _
    exact ihnext _ (hw.trans hs) hctx (R.parts (R.later hs.keeps h) (by simp [Instruction.parts]))
  | conditional logic left right ihleft ihright =>
    refine (ihleft _ hw hctx (R.parts h (by simp [Instruction.parts]))).bind fun code s hs => ?_
    split
    · exact ihright _ (hw.trans hs) hctx
        (R.parts (R.later hs.keeps h) (by simp [Instruction.parts]))
    · exact Leads.pure code
  | redirect mode target inner ih =>
    refine Leads.watch_bind (fun mine hready => hwatch S owner ctx mine w _ hS hready hctx h) ?_
    have hopen := R.steady_apart
      (Context.openConsole_apart w ctx console (expandOne w ctx target) mode)
    refine Leads.step_bind hopen fun redirected _ => ?_
    refine ((ih _ (hw.trans hopen.onward) hctx (R.parts (R.later hopen.keeps h)
      (by simp [Instruction.parts]))).attempt).bind fun result s _ => ?_
    refine (Leads.step (R.steady_apart (Console.flush_apart ..))).attempt.bind fun flushed t _ => ?_
    exact Leads.modify_bind (R.steady_apart (closeConsole_apart ..)) (Leads.ofExcept _)
  | function name body _ =>
    exact Leads.modify_bind ⟨.declare .., R.declared h⟩ (Leads.pure 0)
  | «scoped» inner ih =>
    have hadd : Steady R.toUpkeep w w.addScope.2 := ⟨.addScope w, R.grow w⟩
    exact Leads.update_bind hadd
      (ih _ (hw.trans hadd.onward) (.nested hw.scopes hctx) (R.enclosed h))

theorem runs_executeWatched {least : Marks} {watch : Watch} (hwatch : R.Allows level least watch)
    (deepest : Option Fault) (depth : Nat) :
    R.Runs level least (executeWatched unwatched level deepest depth)
      (executeWatched watch .free deepest depth) := by
  induction depth with
  | zero =>
    intro S owner console tree _ _
    cases deepest with
    | none => exact Leads.exhausted _
    | some fault => exact Leads.throw fault
  | succ depth ih =>
    intro S owner console tree hS h
    constructor
    intro mine hready
    exact (leads_runWatched depth ih hwatch hS tree console (Onward.refl ..) .here h).course mine
      hready

/-- A run from an orderly world to its end. It leaves all frames as they were, and a watch that has
no reason to object does not change it. -/
theorem finish_executeWatched {least : Marks} {watch : Watch} (hwatch : R.Allows level least watch)
    (hleast : level.Strict ∨ Issued least w) (hw : w.Framed) {deepest : Option Fault}
    {depth : Nat} {ctx : Context} {console : Console} {tree : Instruction} (h : R.admits w ctx tree)
    {s : World} {result : Except Fault Int}
    (hrun : (executeWatched unwatched level deepest depth ctx console tree w).finish =
      some (s, result)) :
    (executeWatched watch .free deepest depth ctx console tree w).finish = some (s, result) ∧
      Onward R.toUpkeep w s ∧ ∀ i, (s.scope i).frames = (w.scope i).frames := by
  let S := Stage.alone R.toUpkeep level least hw
  have hhosts : S.Hosts least ctx := ⟨fun _ _ => .inr, fun frame hframe =>
    .inl (hw.fresh _ frame (List.mem_of_mem_head? hframe))⟩
  exact (runs_executeWatched hwatch deepest depth S ctx console tree hhosts h).finish hleast hw hrun

end Regime

end ToyUnix
