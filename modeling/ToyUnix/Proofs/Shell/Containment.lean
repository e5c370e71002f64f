import Mathlib
import ToyUnix.Proofs.Shell.Isolation
import ToyUnix.Proofs.Shell.Leftovers

/-!
Script files. The text of a script file runs in a shell and a process of its own, so nothing that it
does reaches the shell that has called it: there every variable, every function and every process is
as it was, and an early end of the script is an ordinary status. See `script_contained`.
-/

set_option autoImplicit false

namespace ToyUnix

open World (Framed Aside Still Issued)

namespace Context

/-- All scopes that a context changes are numbered from `n` on. -/
def Beyond (n : Nat) : Context → Prop
  | .standalone _ _ s | .process _ _ _ s => n ≤ s
  | .shell _ s _ host => n ≤ s ∧ host.Beyond n
  | .nested s parent => n ≤ s ∧ parent.Beyond n

variable {n : Nat} {ctx owner : Context}

theorem Beyond.ownScope (h : ctx.Beyond n) : n ≤ ctx.ownScope := by
  cases ctx with
  | standalone title directory s => exact h
  | process p c config s => exact h
  | shell id s settings host => exact h.1
  | nested s parent => exact h.1

theorem Beyond.around (h : ctx.Beyond n) (howner : Encloses owner ctx) : owner.Beyond n := by
  induction howner with
  | here => exact h
  | shell _ ih => exact ih h.2
  | nested _ ih => exact ih h.2

def host? : Context → Option (Nat × Nat × ShellConfig)
  | .standalone _ _ _ => none
  | .process p c config _ => some (p, c, config)
  | .shell _ _ _ host => host.host?
  | .nested _ parent => parent.host?

end Context

/-- The first `n` scopes have the same variables and functions. -/
structure World.Spared (n : Nat) (v w : World) : Prop where
  scopes : v.scopes.length ≤ w.scopes.length
  bindings : n ≤ v.scopes.length → ∀ s, s < n → (w.scope s).bindings = (v.scope s).bindings
  functions : n ≤ v.scopes.length → ∀ s, s < n → (w.scope s).functions = (v.scope s).functions

namespace World.Spared

variable {n : Nat} {u v w : World}

theorem refl (w : World) : Spared n w w :=
  ⟨Nat.le_refl _, fun _ _ _ => rfl, fun _ _ _ => rfl⟩

theorem trans (huv : Spared n u v) (hvw : Spared n v w) : Spared n u w where
  scopes := Nat.le_trans huv.scopes hvw.scopes
  bindings h s hs := by
    rw [hvw.bindings (Nat.le_trans h huv.scopes) s hs, huv.bindings h s hs]
  functions h s hs := by
    rw [hvw.functions (Nat.le_trans h huv.scopes) s hs, huv.functions h s hs]

theorem of_scopes (hlength : v.scopes.length ≤ w.scopes.length)
    (h : n ≤ v.scopes.length → ∀ s, s < n → w.scope s = v.scope s) : Spared n v w :=
  ⟨hlength, fun hn s hs => by rw [h hn s hs], fun hn s hs => by rw [h hn s hs]⟩

theorem of_aside (h : v.Aside w) : Spared n v w := by
  refine of_scopes (Nat.le_of_eq ?_) fun _ s _ => ?_
  · rw [h.scopes]
  · rw [World.scope, World.scope, h.scopes]

theorem updateScope (w : World) {i : Nat} (hi : n ≤ i) (f : Scope → Scope) :
    Spared n w (w.updateScope i f) := by
  refine of_scopes (by simp) fun _ s hs => ?_
  obtain hsame | ⟨heq, -⟩ := scope_updateScope_or w i f s
  · exact hsame
  · omega

theorem frames (w : World) (i : Nat) {f : Scope → Scope}
    (hbindings : ∀ scope, (f scope).bindings = scope.bindings)
    (hfunctions : ∀ scope, (f scope).functions = scope.functions) :
    Spared n w (w.updateScope i f) := by
  refine ⟨by simp, fun _ s _ => ?_, fun _ s _ => ?_⟩
  · obtain hsame | ⟨-, hnew⟩ := scope_updateScope_or w i f s
    · rw [hsame]
    · rw [hnew, hbindings]
  · obtain hsame | ⟨-, hnew⟩ := scope_updateScope_or w i f s
    · rw [hsame]
    · rw [hnew, hfunctions]

theorem addScope (w : World) : Spared n w w.addScope.2 :=
  of_scopes (Still.addScope w).scopes fun _ s _ => scope_addScope w s

theorem setArguments (w : World) (script : String) (args : List String) :
    Spared n w (w.addScope.2.updateScope w.scopes.length (·.setArguments script args)) := by
  refine of_scopes ((Still.addScope w).trans (.setArguments ..)).scopes fun hn s hs => ?_
  obtain hsame | ⟨heq, -⟩ := scope_updateScope_or w.addScope.2 w.scopes.length
    (·.setArguments script args) s
  · rw [hsame, scope_addScope]
  · omega

theorem set (w : World) (name value : String) {ctx : Context} (h : ctx.Beyond n) :
    Spared n w (ctx.set w name value) := by
  induction ctx with
  | standalone title directory s => exact updateScope w h _
  | process p c config s =>
    simp only [Context.set]
    split
    · exact of_scopes (Nat.le_refl _) fun _ _ _ => rfl
    · exact updateScope w h _
  | shell id s settings host ih => exact ih h.2
  | nested s parent => exact updateScope w h.1 _

theorem assign {ctx : Context} (h : ctx.Beyond n) (assignments : List (String × Word))
    (w : World) : Spared n w (assign ctx assignments w) := by
  induction assignments generalizing w with
  | nil => exact refl w
  | cons first rest ih => exact (set w _ _ h).trans (ih _)

end World.Spared

open World (Spared)

/-- Whatever is run in scopes from number `n` on, those before are spared. -/
def sparing (n : Nat) : Regime where
  keeps := Spared n
  refl := Spared.refl
  trans := Spared.trans
  admits w ctx _ := n ≤ w.scopes.length ∧ ctx.Beyond n
  framing :=
    { pushed := fun w i _ _ _ => .frames w i (fun _ => rfl) fun _ => rfl
      popped := fun w i _ _ => .frames w i (fun _ => rfl) fun _ => rfl }
  aside := Spared.of_aside
  grow := Spared.addScope
  arguments := Spared.setArguments
  later hkeeps h := ⟨Nat.le_trans h.1 hkeeps.scopes, h.2⟩
  parts h _ := h
  enclosed {w _ _} h := ⟨Nat.le_trans h.1 (Still.addScope w).scopes, h.1, h.2⟩
  resolved h hfound := ⟨h.1, h.2.around (Context.resolve?_function hfound).1⟩
  script h hkeeps hscope hhost _ _ :=
    ⟨Nat.le_trans h.1 hkeeps.scopes, Nat.le_trans h.1 hscope, Nat.le_trans h.1 hhost⟩
  assigned h _ := .assign h.2 _ _
  status _ h := .set _ _ _ h.2
  declared h := .updateScope _ h.2.ownScope _

/-- A context finds everything as it was, and every process that was there is entirely as it was,
its environment and its working directory too. -/
structure Context.Untouched (ctx : Context) (v w : World) : Prop where
  values : ∀ name, ctx.get? w name = ctx.get? v name
  commands : ∀ name, ctx.resolve? w name = ctx.resolve? v name
  processes : ∀ (q : Nat) process, v.processes.all[q]? = some process →
    w.processes.all[q]? = some process

section

variable {v w : World} {ctx : Context}

theorem World.Spared.untouched (hspared : Spared v.scopes.length v w)
    (hframes : ∀ i, (w.scope i).frames = (v.scope i).frames)
    (hprocesses : ∀ (q : Nat) process, v.processes.all[q]? = some process →
      w.processes.all[q]? = some process) (hctx : ctx.Within v) : ctx.Untouched v w := by
  have hget {s : Nat} (hs : s < v.scopes.length) (name : String) :
      (w.scope s).get? name = (v.scope s).get? name := by
    rw [Scope.get?, Scope.get?, hframes, hspared.bindings (Nat.le_refl _) s hs]
  have hfunction {s : Nat} (hs : s < v.scopes.length) (name : String) :
      (w.scope s).function? name = (v.scope s).function? name := by
    rw [Scope.function?, Scope.function?, hspared.functions (Nat.le_refl _) s hs]
  have hprocess {p : Nat} (hp : p < v.processes.all.length) :
      w.processes.all[p]? = v.processes.all[p]? := by
    rw [hprocesses p _ (List.getElem?_eq_getElem hp), List.getElem?_eq_getElem hp]
  refine ⟨fun name => ?_, fun name => ?_, hprocesses⟩
  · induction ctx with
    | standalone title directory s => exact hget hctx name
    | process p c config s =>
      rw [Context.get?, Context.get?, hget hctx.2, Processes.pidOf, Processes.pidOf,
        Processes.envValue?, Processes.envValue?, hprocess hctx.1]
    | shell id s settings host ih => rw [Context.get?, Context.get?, hget hctx.1, ih hctx.2]
    | nested s parent ih => rw [Context.get?, Context.get?, hget hctx.1, ih hctx.2]
  · induction ctx with
    | standalone title directory s => rw [Context.resolve?, Context.resolve?, hfunction hctx]
    | process p c config s => rw [Context.resolve?, Context.resolve?, hfunction hctx.2]
    | shell id s settings host ih =>
      rw [Context.resolve?, Context.resolve?, hfunction hctx.1, ih hctx.2]
    | nested s parent ih =>
      rw [Context.resolve?, Context.resolve?, hfunction hctx.1, ih hctx.2]

variable {depth limit p c : Nat} {scripts : Option ShellConfig} {console : Console} {name : String}
  {args : List String} {t : World} {outcome : Except Fault (Option Int)}

theorem executeProgram_spared (hw : w.Framed)
    (hrun : (executeProgram (execute depth) limit scripts p c console name args w).finish =
      some (t, outcome)) :
    Spared w.scopes.length w t ∧ t.Framed ∧
      ∀ i, (t.scope i).frames = (w.scope i).frames := by
  let R := sparing w.scopes.length
  have hallows : R.Allows .free (fun _ _ => False) unwatched := fun _ _ _ _ _ _ _ _ _ _ => rfl
  have hruns := Regime.runs_executeWatched hallows none depth
  rw [executeWatched_true] at hruns
  -- The program is run for nobody in particular: any context in new scopes will do.
  have hadmits : R.admits w (.standalone "" 0 w.scopes.length) .empty :=
    ⟨Nat.le_refl _, Nat.le_refl _⟩
  have hissued : Level.free.Strict ∨ Issued (fun _ _ => False) w := .inr fun _ _ h => h.elim
  obtain ⟨-, honward, hframes⟩ := Job.Leads.finish hissued hw
    (Regime.leads_executeProgram hruns (fun _ _ h => h.elim) hadmits) hrun
  exact ⟨honward.keeps, honward.framed hw, hframes⟩

theorem executeProgram_processes {most : Nat} (hw : w.processes.Sound most)
    (hrun : (executeProgram (execute depth) limit scripts p c console name args w).finish =
      some (t, outcome)) (q : Nat) (process : Process) (hq : w.processes.all[q]? = some process) :
    t.processes.all[q]? = some process := by
  let E := Outset.plain w (.standalone "" 0 0)
  have htidy : Job.Tidy E w
      (executeProgram (execute depth) limit scripts p c console name args) :=
    Outset.tidy_executeProgram (Outset.runs_execute depth) limit scripts p c
  obtain ⟨hsince, -, -⟩ := htidy.finish (Outset.since_plain hw _) hrun
  obtain ⟨later, hlater, -, hsame⟩ := hsince.processes.old q process hq
  rw [hlater, hsame nofun]

end

/-! How a script file is run. -/

namespace Processes

theorem fork_fault {s s' : Processes} {p : Nat} {fault : Fault}
    (h : s.fork p = (.error fault, s')) (code : Int) (extent : Extent) :
    fault ≠ .ended code extent := by
  rintro rfl
  unfold fork at h
  split at h
  · simp at h
  · unfold forkAs at h
    repeat' split at h
    all_goals simp at h

end Processes

theorem catchEnd_fault {result : Except Fault Int} {fault : Fault}
    (h : catchEnd result = .error fault) (code : Int) (extent : Extent) :
    fault ≠ .ended code extent := by
  rintro rfl
  unfold catchEnd at h
  split at h
  · cases h
  · rename_i hother
    exact hother code extent h

/-- The shell that the text of a script file is run in, and the world when it begins there. The
program's process is `child`. -/
def enterScript (config : ShellConfig) (child c : Nat) (console : Console) (path : String)
    (args : List String) (w : World) : Context × World :=
  let named := w.updateProcesses (·.setName child (PathText.fileName path))
  let (host, hosted) := named.addScope
  let hosted := hosted.updateScope host (·.setArguments path args)
  let added := addShell hosted config.defaultTitle
  let shell := Context.shell added.1.1 added.1.2 ⟨config, {}, false, console⟩
    (.process child c config host)
  (shell, setMode shell .executing added.2)

section

variable {call : Caller} {limit p c : Nat} {console : Console} {name path : String}
  {args : List String} {w : World} {computer : Computer}

theorem executeProgram_forked {scripts : Option ShellConfig} {executable : Executable}
    (hcomputer : w.computers[c]? = some computer)
    (hfound : w.resolveProgram computer p name = some (path, executable)) :
    executeProgram call limit scripts p c console name args w =
      match w.processes.fork p with
      | (.error fault, forked) => .done { w with processes := forked } (.error fault)
      | (.ok child, forked) =>
        let s : World := { w with processes := forked }
        (runExecutable call limit scripts child c computer console path args executable
          (s.updateProcesses (·.setName child (PathText.fileName path)))).bind
          fun s result =>
            .done (s.updateProcesses (·.kill child (exitCode result)))
              ((catchEnd result).map some) := by
  rw [executeProgram, Job.get_bind, hcomputer]
  simp only [hfound]
  cases hfork : w.processes.fork p with
  | mk outcome forked =>
    have hstep : w.onProcesses (·.fork p) = (outcome, { w with processes := forked }) := by
      rw [World.onProcesses, hfork]
    have hrun (f : Nat → Job (Option Int)) :
        (Job.step (World.onProcesses · (·.fork p)) >>= f) w =
          Job.bind (fun _ => .done { w with processes := forked } outcome) f w := by
      change Job.bind (fun _ => .done (w.onProcesses (·.fork p)).2 (w.onProcesses (·.fork p)).1)
        f w = _
      rw [hstep]
    rw [hrun]
    cases outcome with
    | error fault => rfl
    | ok child => exact child_eq _ child (PathText.fileName path) { w with processes := forked }

theorem runScript_passed (call : Caller) (shell : Context) (settings : ShellSettings) (w : World)
    {text : String} {tree : Instruction} (hpass : settings.graceful = false)
    (hparse : parseScript settings.options text true = .ok tree) :
    runScript call shell settings text w =
      (call shell settings.console tree (setMode shell .executing w)).bind fun s result =>
        .done (setMode shell .idle s) (catchEnd result) := by
  rw [runScript_parsed call shell settings w hparse]
  refine congrArg (fun f => Course.bind f _) (funext fun s => funext fun result => ?_)
  cases catchEnd result with
  | ok code => rfl
  | error fault =>
    simp only [reportFault, hpass]
    rfl

theorem runScriptFile_entered (call : Caller) (c : Nat) (console : Console) (path : String)
    (args : List String) (w : World) (config : ShellConfig) (child : Nat) {source : String}
    {tree : Instruction} (hparse : parseScript {} source true = .ok tree) :
    let entered := enterScript config child c console path args w
    runScriptFile call config child c console path source args
        (w.updateProcesses (·.setName child (PathText.fileName path))) =
      (call entered.1 console tree entered.2).bind fun s result =>
        .done (setMode entered.1 .idle s) (catchEnd result) := by
  have hpassed (shell : Context) (v : World) :=
    runScript_passed call shell ⟨config, {}, false, console⟩ v rfl hparse
  rw [runScriptFile, Job.update_bind, Job.update_bind]
  refine (hpassed _ _).trans ?_
  unfold enterScript
  rfl

theorem executeProgram_ended {config : ShellConfig} {source : String} {child : Nat}
    {forked : Processes} {tree : Instruction} {s : World} {code : Int} {extent : Extent}
    (hcomputer : w.computers[c]? = some computer)
    (hfound : w.resolveProgram computer p name = some (path, .script source))
    (hfork : w.processes.fork p = (.ok child, forked))
    (hparse : parseScript {} source true = .ok tree)
    {shell : Context} {start : World}
    (henter : enterScript config child c console path args { w with processes := forked } =
      (shell, start))
    (hrun : (call shell console tree start).finish = some (s, .error (.ended code extent))) :
    ∃ t, (executeProgram call limit (some config) p c console name args w).finish =
      some (t, .ok (some code)) := by
  have hscript := runScriptFile_entered call c console path args { w with processes := forked }
    config child hparse
  rw [executeProgram_forked hcomputer hfound, hfork]
  simp only [runExecutable, hscript, henter, Course.finish_bind, hrun]
  exact ⟨_, rfl⟩

theorem executeProgram_outcome {scripts : Option ShellConfig} {executable : Executable} {t : World}
    {outcome : Except Fault (Option Int)} (hcomputer : w.computers[c]? = some computer)
    (hfound : w.resolveProgram computer p name = some (path, executable))
    (hrun : (executeProgram call limit scripts p c console name args w).finish =
      some (t, outcome)) :
    (∃ code, outcome = .ok (some code)) ∨
      ∃ fault, outcome = .error fault ∧ ∀ code extent, fault ≠ .ended code extent := by
  rw [executeProgram_forked hcomputer hfound] at hrun
  split at hrun
  · rename_i fault forked hfork
    cases hrun
    exact .inr ⟨fault, rfl, Processes.fork_fault hfork⟩
  · rename_i child forked hfork
    rw [Course.finish_bind] at hrun
    obtain ⟨⟨s, result⟩, -, hdone⟩ := Option.bind_eq_some_iff.1 hrun
    cases hdone
    cases hresult : catchEnd result with
    | ok code => exact .inl ⟨code, rfl⟩
    | error fault => exact .inr ⟨fault, rfl, catchEnd_fault hresult⟩

/-! What a command comes to, by what its name stands for. -/

theorem runCommand_known {ctx : Context} {x : Job Int}
    (h : tryCommand call ctx console name args w = (some <$> x) w) :
    runCommand call limit ctx console name args w = x w := by
  change (tryCommand call ctx console name args w).bind _ = _
  rw [h, Job.fmap_apply, Course.bind_map]
  refine Eq.trans (congrArg (fun f => (x w).bind f) ?_) (x w).bind_done
  funext s result
  cases result <;> rfl

theorem runCommand_function {ctx owner : Context} {body : Instruction}
    (h : ctx.resolve? w name = some (.function owner body)) :
    runCommand call limit ctx console name args w =
      callFunction call owner body console name args w := by
  refine runCommand_known ?_
  rw [tryCommand, Job.get_bind, h]

theorem runCommand_builtin {ctx host : Context} {id scope : Nat} {settings : ShellSettings}
    (h : ctx.resolve? w name = some (.builtin id scope settings host)) :
    runCommand call limit ctx console name args w =
      Job.step (runBuiltin id scope settings host console name args) w := by
  refine runCommand_known ?_
  rw [tryCommand, Job.get_bind, h]

theorem runCommand_unknown {ctx : Context} (h : ctx.resolve? w name = none) :
    runCommand call limit ctx console name args w =
      runUnknown call limit console name args ctx w := by
  have htry : tryCommand call ctx console name args w = .done w (.ok none) := by
    rw [tryCommand, Job.get_bind, h]
    rfl
  change (tryCommand call ctx console name args w).bind _ = _
  rw [htry]
  rfl

theorem runUnknown_hosted {ctx : Context} {config : ShellConfig}
    (hhost : ctx.host? = some (p, c, config)) :
    runUnknown call limit console name args ctx = (do
      match ← executeProgram call limit (some config) p c console name args with
      | some code => return code
      | none => reportNotFound console name) := by
  induction ctx with
  | standalone title directory s => cases hhost
  | process p' c' config' s =>
    cases hhost
    rfl
  | shell id s settings host ih => exact ih hhost
  | nested s parent ih => exact ih hhost

theorem runSimple_unknown {ctx : Context} {config : ShellConfig}
    {assignments : List (String × Word)} {words : List Word}
    (hwords : expandAll w ctx words = name :: args)
    (hunknown : ctx.resolve? (assign ctx assignments w) name = none)
    (hhost : ctx.host? = some (p, c, config)) :
    runSimple call limit ctx console assignments words w =
      (executeProgram call limit (some config) p c console name args
        (assign ctx assignments w)).bind fun t outcome =>
          match outcome with
          | .ok (some code) => .done (setStatus ctx code t) (.ok code)
          | .ok none => .done (setStatus ctx 127 (console.writeLine t (notFoundMessage name)))
              (.ok 127)
          | .error fault => .done t (.error fault) := by
  rw [runSimple, Job.update_bind, hwords]
  change (runCommand call limit ctx console name args (assign ctx assignments w)).bind _ = _
  rw [runCommand_unknown hunknown, runUnknown_hosted hhost]
  refine (Course.bind_assoc (executeProgram call limit (some config) p c console name args _) _
    _).trans ?_
  refine congrArg (fun f => Course.bind f _) (funext fun t => funext fun outcome => ?_)
  obtain fault | _ | code := outcome <;> rfl

end

theorem Context.Within.later {v w : World} {ctx : Context} (h : ctx.Within v)
    (hscopes : v.scopes.length ≤ w.scopes.length)
    (hprocesses : v.processes.all.length ≤ w.processes.all.length) : ctx.Within w := by
  induction ctx with
  | standalone title directory s => exact Nat.lt_of_lt_of_le h hscopes
  | process p c config s =>
    exact ⟨Nat.lt_of_lt_of_le h.1 hprocesses, Nat.lt_of_lt_of_le h.2 hscopes⟩
  | shell id s settings host ih => exact ⟨Nat.lt_of_lt_of_le h.1 hscopes, ih h.2⟩
  | nested s parent ih => exact ⟨Nat.lt_of_lt_of_le h.1 hscopes, ih h.2⟩

/-- A command that runs a script file, beginning at `v` when its own assignments have been made. The
script comes to an outcome in a state `t` where its caller finds everything as it was at `v`; then the
command stores the status, or passes on a fault that is not an early end. If the text of the script
ends early, then that is the status, and what follows the command is run. -/
theorem script_contained {w : World} (hw : w.Framed) {most : Nat} (hsound : w.processes.Sound most)
    {ctx : Context} (hctx : ctx.Within w) {depth : Nat} {console : Console}
    {assignments : List (String × Word)} {words : List Word} {name : String} {args : List String}
    (hwords : expandAll w ctx words = name :: args) {v : World} (hv : v = assign ctx assignments w)
    (hunknown : ctx.resolve? v name = none) {p c : Nat} {config : ShellConfig}
    (hhost : ctx.host? = some (p, c, config)) {computer : Computer}
    (hcomputer : v.computers[c]? = some computer) {path source : String}
    (hfound : v.resolveProgram computer p name = some (path, .script source)) {s : World}
    {result : Except Fault Int}
    (hrun : (execute (depth + 1) ctx console (.command assignments words) w).finish =
      some (s, result)) :
    ∃ t outcome,
      (executeProgram (execute depth) depth (some config) p c console name args v).finish =
        some (t, outcome) ∧
      ctx.Untouched v t ∧
      ((∃ code, outcome = .ok (some code) ∧ s = setStatus ctx code t ∧ result = .ok code) ∨
        ∃ fault, outcome = .error fault ∧ s = t ∧ result = .error fault ∧
          ∀ code extent, fault ≠ .ended code extent) ∧
      ∀ (child : Nat) forked tree shell start ended code extent,
        v.processes.fork p = (.ok child, forked) → parseScript {} source true = .ok tree →
        enterScript config child c console path args { v with processes := forked } =
          (shell, start) →
        (execute depth shell console tree start).finish =
          some (ended, .error (.ended code extent)) →
        result = .ok code ∧ ∀ next,
          (execute (depth + 1) ctx console (.sequential (.command assignments words) next) w).finish =
            (execute (depth + 1) ctx console next s).finish := by
  have hassign := (Outset.since_plain hsound ctx).assign (Outset.admits_plain w ctx) assignments
  have hstill := World.Still.assign ctx assignments w
  rw [← hv] at hassign hstill
  obtain ⟨most', hsound'⟩ := hassign.since.processes.sound
  have hwithin := hctx.later hstill.scopes (Nat.le_of_eq hassign.length_eq.symm)
  have hsimple := hrun
  change (runSimple (execute depth) depth ctx console assignments words w).finish = _ at hsimple
  subst hv
  rw [runSimple_unknown hwords hunknown hhost, Course.finish_bind] at hsimple
  obtain ⟨⟨t, outcome⟩, hprogram, hdone⟩ := Option.bind_eq_some_iff.1 hsimple
  obtain ⟨hspared, -, hframes⟩ := executeProgram_spared (hstill.framed hw) hprogram
  have huntouched := hspared.untouched hframes (executeProgram_processes hsound' hprogram) hwithin
  have hends : (∃ code, outcome = .ok (some code) ∧ s = setStatus ctx code t ∧ result = .ok code) ∨
      ∃ fault, outcome = .error fault ∧ s = t ∧ result = .error fault ∧
        ∀ code extent, fault ≠ .ended code extent := by
    obtain ⟨code, rfl⟩ | ⟨fault, rfl, hfault⟩ := executeProgram_outcome hcomputer hfound hprogram
    · cases hdone
      exact .inl ⟨code, rfl, rfl, rfl⟩
    · cases hdone
      exact .inr ⟨fault, rfl, rfl, rfl, hfault⟩
  refine ⟨t, outcome, hprogram, huntouched, hends, ?_⟩
  intro child forked tree shell start ended code extent hfork hparse henter hended
  obtain ⟨t', hstatus⟩ := executeProgram_ended hcomputer hfound hfork hparse henter hended
  obtain ⟨-, rfl⟩ := Prod.mk.inj (Option.some.inj (hprogram.symm.trans hstatus))
  have hresult : result = .ok code := by
    obtain ⟨code', hcode, -, rfl⟩ | ⟨fault, hfault, -⟩ := hends
    · cases hcode
      rfl
    · cases hfault
  refine ⟨hresult, fun next => ?_⟩
  rw [hresult] at hrun
  refine (Course.finish_bind ..).trans ?_
  change (execute (depth + 1) ctx console (.command assignments words) w).finish.bind _ = _
  rw [hrun]
  rfl

namespace Sample

def filed (source : String) : World :=
  { box with
    files :=
      { trees := [[([], .directory), (Path.ofText "/d", .directory),
          (Path.ofText "/s", .file (Utf8.encode source) true)]] } }

theorem filed_framed (source : String) : (filed source).Framed :=
  ⟨lone_framed.sorted, lone_framed.fresh⟩

def meddling : String := "x=2; cd d; f() \x7b \x7d; exit 3"

/-- `x=1 /s` -/
theorem meddling_contained :
    let w := filed meddling
    let v := boxShell.set w "x" "1"
    w.Framed ∧ w.processes.Sound 1 ∧ boxShell.Within w ∧
    expandAll w boxShell [.ofText "/s"] = ["/s"] ∧ boxShell.resolve? v "/s" = none ∧
    boxShell.host? = some (0, 0, {}) ∧
    (∃ computer, v.computers[0]? = some computer ∧
      v.resolveProgram computer 0 "/s" = some ("/s", .script meddling)) ∧
    ∃ t, (execute 9 boxShell (.buffer 0) (.command [("x", .ofText "1")] [.ofText "/s"]) w).finish =
        some (setStatus boxShell 3 t, .ok 3) ∧
      boxShell.get? t "x" = some "1" ∧ boxShell.resolve? t "f" = none ∧
      t.processes.all[0]? = w.processes.all[0]? := by
  intro w v
  have hrun : (execute 9 boxShell (.buffer 0) (.command [("x", .ofText "1")] [.ofText "/s"])
      w).finish.map (·.2) = some (.ok 3) := by
    cbv
  obtain ⟨⟨s, result⟩, hfinish, rfl⟩ := Option.map_eq_some_iff.1 hrun
  have hsound : w.processes.Sound 1 := box_sound
  have hwithin : boxShell.Within w := ⟨by decide, by decide, by decide⟩
  have hwords : expandAll w boxShell [.ofText "/s"] = ["/s"] := by decide +kernel
  have hunknown : boxShell.resolve? v "/s" = none := by decide +kernel
  have hv : v = assign boxShell [("x", .ofText "1")] w := by
    have hone : expandOne w boxShell (.ofText "1") = "1" := by decide +kernel
    rw [assign, hone]
    rfl
  obtain ⟨computer, hcomputer⟩ : ∃ computer, v.computers[0]? = some computer := ⟨_, rfl⟩
  have hfound : v.resolveProgram computer 0 "/s" = some ("/s", .script meddling) := by
    cases hcomputer
    cbv
  obtain ⟨t, outcome, -, huntouched, hends, -⟩ := script_contained (filed_framed _) hsound hwithin
    hwords hv hunknown rfl hcomputer hfound hfinish
  obtain ⟨code, -, rfl, hcode⟩ | ⟨fault, -, -, hfault, -⟩ := hends
  · cases hcode
    refine ⟨filed_framed _, hsound, hwithin, hwords, hunknown, rfl, ⟨computer, hcomputer, hfound⟩, t,
      hfinish, ?_, ?_, huntouched.processes 0 _ rfl⟩
    · rw [huntouched.values]
      decide +kernel
    · rw [huntouched.commands]
      decide +kernel
  · cases hfault

end Sample

end ToyUnix
