import ToyUnix.Proofs.Shell.Regime
import ToyUnix.Proofs.Shell.Tending

/-!
Quiet changes. Between one start of a process and the next a script assigns, declares, calls and
writes. In a context that keeps its assignments out of the scopes of shells and moves no process but
the one it belongs to, none of this touches what was there at the outset. And a status that such a
context stores it finds again.
-/

set_option autoImplicit false

namespace ToyUnix

namespace Context

def process? : Context → Option Nat
  | .standalone _ _ _ => none
  | .process p _ _ _ => some p
  | .shell _ _ _ host => host.process?
  | .nested _ parent => parent.process?

def holders : Context → List Nat
  | .standalone _ _ s | .process _ _ _ s => [s]
  | .shell _ _ _ host => host.holders
  | .nested s parent => s :: parent.holders

theorem get?_apart {v w : World} (h : w.Apart v) {ctx : Context} {name : String} :
    ctx.get? v name = ctx.get? w name := by
  have hscope (s : Nat) : v.scope s = w.scope s := by rw [World.scope, World.scope, h.scopes]
  induction ctx with
  | standalone title directory s => rw [get?, get?, hscope]
  | process p c config s => rw [get?, get?, hscope, h.processes]
  | shell id s settings host ih => rw [get?, get?, hscope, ih]
  | nested s parent ih => rw [get?, get?, hscope, ih]

theorem resolve?_builtin {w : World} {ctx host : Context} {name : String} {id scope : Nat}
    {settings : ShellSettings}
    (h : ctx.resolve? w name = some (.builtin id scope settings host)) :
    Encloses (.shell id scope settings host) ctx := by
  induction ctx with
  | standalone title directory s =>
    obtain ⟨found, -, heq⟩ := Option.map_eq_some_iff.1 h
    cases heq
  | process p c config s =>
    obtain ⟨found, -, heq⟩ := Option.map_eq_some_iff.1 h
    cases heq
  | shell i s own around ih =>
    simp only [resolve?] at h
    split at h
    · cases h
    · split at h
      · rename_i found hfound
        cases h
        exact (ih hfound).shell
      · split at h <;> cases h
        exact .here
  | nested s parent ih =>
    simp only [resolve?] at h
    split at h
    · cases h
    · exact (ih h).nested

end Context

namespace Outset

variable (E : Outset)

/-- A context that scripts may be run in. -/
structure Admits (ctx : Context) : Prop where
  process : ∀ p, ctx.process? = some p → E.host = some p ∨ E.processes.all.length ≤ p
  holders : ∀ s ∈ ctx.holders, s ∉ E.shells

/-- A context that looks up a status where it has stored it. -/
def Answers : Context → Prop
  | .standalone _ _ s => s < E.scopes
  | .process p _ _ s =>
    s < E.scopes ∧ p < E.processes.all.length ∧ E.processes.envValue? p "?" = none
  | .shell _ s _ host => s ∈ E.shells ∧ Answers host
  | .nested s _ => s < E.scopes

variable {E} {v w : World} {ctx owner : Context}

theorem Admits.around (h : E.Admits ctx) (howner : Encloses owner ctx) : E.Admits owner := by
  induction howner with
  | here => exact h
  | shell _ ih => exact ih ⟨h.process, h.holders⟩
  | nested _ ih => exact ih ⟨h.process, fun s hs => h.holders s (List.mem_cons_of_mem _ hs)⟩

theorem not_mem_shells {s : Nat} (hs : E.scopes ≤ s) : s ∉ E.shells :=
  fun hmem => Nat.not_lt.2 hs (E.shells_lt s hmem)

theorem Admits.nested (h : E.Admits ctx) {s : Nat} (hs : E.scopes ≤ s) :
    E.Admits (.nested s ctx) :=
  ⟨h.process, List.forall_mem_cons.2 ⟨not_mem_shells hs, h.holders⟩⟩

theorem admits_script {id scope p c s : Nat} {settings : ShellSettings} {config : ShellConfig}
    (hp : E.processes.all.length ≤ p) (hs : E.scopes ≤ s) :
    E.Admits (.shell id scope settings (.process p c config s)) := by
  constructor
  · intro q hq
    exact .inr (Option.some.inj hq ▸ hp)
  · intro r hr
    rw [List.mem_singleton.1 hr]
    exact not_mem_shells hs

/-! What starts no process. -/

theorem Since.quiet (h : E.Since w) (hprocesses : v.processes = w.processes)
    (hscopes : E.scopes ≤ v.scopes.length)
    (hshells : ∀ s ∈ E.shells, (v.scope s).bindings.get? "?" = none) : E.Quiet w v where
  since := ⟨hprocesses ▸ h.processes, hscopes, hshells⟩
  length_eq := by rw [hprocesses]
  gone q hq := hprocesses ▸ hq

theorem Since.apart (h : E.Since w) (hv : w.Apart v) : E.Quiet w v := by
  refine h.quiet hv.processes (hv.scopes ▸ h.scopes) fun s hs => ?_
  rw [World.scope, hv.scopes]
  exact h.shells s hs

theorem Since.updateScope (h : E.Since w) (i : Nat) {f : Scope → Scope}
    (hf : i ∈ E.shells → ∀ scope, (f scope).bindings = scope.bindings) :
    E.Quiet w (w.updateScope i f) := by
  refine h.quiet rfl (World.length_updateScope w i f ▸ h.scopes) fun s hs => ?_
  obtain hsame | ⟨rfl, hnew⟩ := World.scope_updateScope_or w i f s
  · rw [hsame]
    exact h.shells s hs
  · rw [hnew, hf hs]
    exact h.shells s hs

theorem Since.addScope (h : E.Since w) : E.Quiet w w.addScope.2 :=
  h.quiet rfl (Nat.le_trans h.scopes (World.Still.addScope w).scopes) fun s hs => by
    rw [World.scope_addScope]
    exact h.shells s hs

theorem Since.update (h : E.Since w) {p : Nat} {f : Process → Process}
    (hf : ∀ process, (f process).identity = process.identity)
    (hoffspring : E.processes.Offspring E.host (w.processes.update p f)) :
    E.Quiet w (w.updateProcesses (·.update p f)) where
  since := ⟨hoffspring, h.scopes, h.shells⟩
  length_eq := Processes.length_update ..
  gone _ hq := hq.update p hf

theorem Since.set (h : E.Since w) (hctx : E.Admits ctx) (name value : String) :
    E.Quiet w (ctx.set w name value) := by
  have hset {s : Nat} (hs : s ∉ E.shells) : E.Quiet w (w.updateScope s (·.set name value)) :=
    h.updateScope s fun hmem => absurd hmem hs
  induction ctx with
  | standalone title directory s => exact hset (hctx.holders s List.mem_cons_self)
  | process p c config s =>
    simp only [Context.set]
    split
    · rename_i hname
      exact h.update (fun _ => rfl) (h.processes.setEnv (hctx.process p rfl) hname value)
    · exact hset (hctx.holders s List.mem_cons_self)
  | shell id s settings host ih => exact ih (hctx.around (.shell .here))
  | nested s parent => exact hset (hctx.holders s List.mem_cons_self)

theorem Since.assign (h : E.Since w) (hctx : E.Admits ctx) (assignments : List (String × Word)) :
    E.Quiet w (assign ctx assignments w) := by
  induction assignments generalizing w with
  | nil => exact h.apart (.refl w)
  | cons first rest ih =>
    have hfirst := h.set hctx first.1 (expandOne w ctx first.2)
    exact hfirst.trans (ih hfirst.since)

theorem Since.setCwd (h : E.Since w) (hctx : E.Admits ctx) (path : String) :
    E.Quiet w (ctx.setCwd w path) := by
  induction ctx with
  | standalone title directory s => exact h.apart ⟨rfl, rfl⟩
  | process p c config s =>
    exact h.update (fun _ => rfl)
      (h.processes.update (hctx.process p rfl) (fun _ => rfl) (fun _ _ _ _ => rfl) fun _ => rfl)
  | shell id s settings host ih => exact ih (hctx.around (.shell .here))
  | nested s parent ih => exact ih (hctx.around (.nested .here))

theorem Since.runBuiltin (h : E.Since w) {id scope : Nat} {settings : ShellSettings}
    {host : Context} (hhost : E.Admits host) (console : Console) (name : String)
    (args : List String) :
    E.Quiet w (runBuiltin id scope settings host console name args w).2 := by
  rcases runBuiltin_apart_or id scope settings host console name args w with hw | ⟨path, hw⟩
  · exact h.apart hw
  · exact hw ▸ h.setCwd hhost path

theorem Since.kill (h : E.Since w) {child : Nat} (hchild : E.processes.all.length ≤ child)
    (code : Int) : E.Quiet w (w.updateProcesses (·.kill child code)) where
  since := ⟨(h.processes.kill hchild code).1, h.scopes, h.shells⟩
  length_eq := (h.processes.kill hchild code).2
  gone _ hq := hq.run _

/-! A status that has been stored is there to be read. -/

theorem get?_status (scope : Scope) : scope.get? "?" = scope.bindings.get? "?" := by
  have hframe : ∀ frame : Frame, frame.binding? "?" = none := fun _ => rfl
  rw [Scope.get?]
  cases scope.frames.head? with
  | none => rfl
  | some frame => rw [Option.bind_some, hframe, Option.none_or]

theorem get?_setStatus {code : Int} (hw : E.Since w) (hset : E.Since (setStatus ctx code w))
    (h : E.Answers ctx) : ctx.get? (setStatus ctx code w) "?" = some (toString code) := by
  have hscope {s : Nat} (hs : s < E.scopes) :
      ((w.updateScope s (·.set "?" (toString code))).scope s).get? "?" = some (toString code) := by
    rw [get?_status, World.scope_updateScope (Nat.lt_of_lt_of_le hs hw.scopes), if_pos rfl]
    exact (Assoc.get?_set ..).trans (if_pos rfl)
  induction ctx with
  | standalone title directory s => exact hscope h
  | process p c config s =>
    have hnone : ¬ (w.processes.envValue? p "?").isSome := by
      rw [hw.processes.envValue?_isSome h.2.1, h.2.2]
      exact Bool.false_ne_true
    rw [setStatus, Context.set, if_neg hnone, Context.get?, if_neg (by decide), hscope h.1]
    rfl
  | shell id s settings host ih =>
    rw [Context.get?, get?_status, hset.shells s h.1, Option.none_or]
    exact ih hset h.2
  | nested s parent =>
    rw [setStatus, Context.set, Context.get?, hscope h]
    rfl

end Outset

end ToyUnix
