import ToyUnix.Proofs.Shell.Parameters
import ToyUnix.Proofs.Shell.Tended

/-!
The last status. A command stores its status where the context that it runs in looks it up again, so
after a run `$?` is what the last command has stored: see `status_stored`. That is the status which
the run returns unless commands in parentheses come last, whose own scope takes it, or the branches
of a parallel command, of which the one that ends last may be the left one.
-/

set_option autoImplicit false

namespace ToyUnix

namespace Context

def shells : Context → List Nat
  | .standalone _ _ _ | .process _ _ _ _ | .nested _ _ => []
  | .shell _ s _ host => s :: host.shells

/-- A context whose scopes and process are there. A status is never an environment variable, nor a
variable of a shell, which has a scope of its own. -/
def Orderly (w : World) : Context → Prop
  | .standalone _ _ s | .nested s _ => s < w.scopes.length
  | .process p _ _ s => s < w.scopes.length ∧ p < w.processes.all.length ∧
    w.processes.envValue? p "?" = none
  | .shell _ s _ host => s < w.scopes.length ∧ (w.scope s).bindings.get? "?" = none ∧
    s ∉ host.holders ∧ host.Orderly w

variable {w : World} {ctx : Context}

theorem Orderly.shells (h : ctx.Orderly w) : ∀ s ∈ ctx.shells, s < w.scopes.length ∧
    (w.scope s).bindings.get? "?" = none ∧ s ∉ ctx.holders := by
  induction ctx with
  | shell id s settings host ih => exact List.forall_mem_cons.2 ⟨⟨h.1, h.2.1, h.2.2.1⟩, ih h.2.2.2⟩
  | _ => exact nofun

theorem Orderly.answers (h : ctx.Orderly w) {E : Outset} (hprocesses : E.processes = w.processes)
    (hscopes : E.scopes = w.scopes.length) (hshells : ctx.shells ⊆ E.shells) : E.Answers ctx := by
  induction ctx with
  | standalone title directory s => exact Nat.lt_of_lt_of_eq h hscopes.symm
  | process p c config s => exact ⟨Nat.lt_of_lt_of_eq h.1 hscopes.symm, hprocesses ▸ h.2⟩
  | shell id s settings host ih =>
    obtain ⟨hown, hrest⟩ := List.cons_subset.1 hshells
    exact ⟨hown, ih h.2.2.2 hrest⟩
  | nested s parent => exact Nat.lt_of_lt_of_eq h hscopes.symm

end Context

/-- After a run without a fault, `$?` is the status that the last command has stored. Where commands
of the context itself come last, whatever the branches taken, it is the status that the run
returns. -/
theorem status_stored {w : World} {limit : Nat} (hw : w.processes.Sound limit) {ctx : Context}
    (hctx : ctx.Orderly w) {depth : Nat} {console : Console} {tree : Instruction} {s : World}
    {code : Int} (hrun : (execute depth ctx console tree w).finish = some (s, .ok code)) :
    ∃ ending, (executeEnding depth ctx console tree w).finish = some (s, .ok ending) ∧
      ending.code = code ∧
      (∀ stored, ending.stored = some stored → ctx.get? s "?" = some (toString stored)) ∧
      (tree.reports = true → ctx.get? s "?" = some (toString code)) := by
  let E : Outset := ⟨w.processes, ctx.process?, w.scopes.length, ctx.shells,
    fun s hs => (hctx.shells s hs).1⟩
  have hsince : E.Since w := ⟨.refl hw _, Nat.le_refl _, fun s hs => (hctx.shells s hs).2.1⟩
  have hadmits : E.Admits ctx :=
    ⟨fun _ => .inl, fun s hs hmem => (hctx.shells s hmem).2.2 hs⟩
  have hanswers : E.Answers ctx := hctx.answers rfl rfl fun _ hs => hs
  rw [execute_eq_executeEnding, Job.fmap_apply, Course.finish_map] at hrun
  obtain ⟨⟨t, result⟩, hending, heq⟩ := Option.map_eq_some_iff.1 hrun
  obtain ⟨rfl, hresult⟩ := Prod.mk.inj heq
  cases result with
  | error fault => cases hresult
  | ok ending =>
    cases hresult
    obtain ⟨-, -, htold, hreported⟩ :=
      (Outset.tends_executeEnding depth tree hadmits console).finish hsince hending
    exact ⟨ending, hending, rfl, fun stored hstored => htold stored hstored hanswers,
      fun hreports => htold _ (hreported hreports) hanswers⟩

namespace Sample

def nope : Instruction := .command [] [.ofText "nope"]

/-- `( nope ); nope || echo` in a shell without a computer. -/
def recovering : Instruction :=
  .sequential (.scoped nope) (.conditional .or nope (.command [] [.ofText "echo"]))

theorem recovering_stored :
    lone.processes.Sound 0 ∧ loneShell.Orderly lone ∧ recovering.reports = true ∧
    ∃ s, (execute 9 loneShell (.buffer 0) recovering lone).finish = some (s, .ok 0) ∧
      loneShell.get? s "?" = some "0" := by
  have hrun : (execute 9 loneShell (.buffer 0) recovering lone).finish.map (·.2) =
      some (.ok 0) := by
    decide +kernel
  obtain ⟨⟨s, result⟩, hfinish, rfl⟩ := Option.map_eq_some_iff.1 hrun
  have hsound : lone.processes.Sound 0 :=
    (Processes.Moment.start : Processes.Moment (fun _ => True) 0 {} []).sound
  have horderly : loneShell.Orderly lone := by
    refine ⟨by decide, rfl, by decide, ?_⟩
    exact (by decide : 0 < 2)
  obtain ⟨ending, -, -, -, hreported⟩ := status_stored hsound horderly hfinish
  exact ⟨hsound, horderly, rfl, s, hfinish, hreported rfl⟩

/-- `( nope )` returns 127 and leaves no status, and `ping h & test` returns 1, but it is `ping`
that ends last. -/
theorem status_differs :
    ((execute 9 loneShell (.buffer 0) (.scoped nope) lone).finish.map fun r =>
      (r.2, loneShell.get? r.1 "?")) = some (.ok 127, none) ∧
    ((execute 9 boxShell (.buffer 0) (.parallel (.command [] [.ofText "ping", .ofText "h"])
        (.command [] [.ofText "test"])) box).finish.map fun r =>
      (r.2, boxShell.get? r.1 "?")) = some (.ok 1, some "0") :=
  ⟨by decide +kernel, by cbv⟩

end Sample

end ToyUnix
