import ToyUnix.Proofs.Shell.Parameters
import ToyUnix.Proofs.Shell.Tended

/-!
Nothing is left over. When a script has ended, in whatever way, the processes that were started for
it are dead, and of those that were there before only the one that it ran in may have changed: see
`processes_restored`.
-/

set_option autoImplicit false

namespace ToyUnix

def Outset.plain (w : World) (ctx : Context) : Outset :=
  ⟨w.processes, ctx.process?, w.scopes.length, [], nofun⟩

theorem Outset.since_plain {w : World} {limit : Nat} (hw : w.processes.Sound limit)
    (ctx : Context) : (Outset.plain w ctx).Since w :=
  ⟨.refl hw _, Nat.le_refl _, nofun⟩

theorem Outset.admits_plain (w : World) (ctx : Context) : (Outset.plain w ctx).Admits ctx :=
  ⟨fun _ => .inl, fun _ _ => nofun⟩

/-- A run leaves the tables with the same live processes. Everybody who was there is still who it
was, as alive as it was, and entirely as it was save for the process that the context belongs to.
Processes are sound at every moment (`Processes.Moment.sound`). -/
theorem processes_restored {w : World} {limit : Nat} (hw : w.processes.Sound limit)
    {depth : Nat} {ctx : Context} {console : Console} {tree : Instruction} {s : World}
    {result : Except Fault Int}
    (hrun : (execute depth ctx console tree w).finish = some (s, result)) :
    (∀ t, s.processes.live t = w.processes.live t) ∧
    (∀ q, s.processes.isAlive q = w.processes.isAlive q) ∧
    ∀ (q : Nat) process, w.processes.all[q]? = some process →
      ∃ later, s.processes.all[q]? = some later ∧ later.identity = process.identity ∧
        (ctx.process? ≠ some q → later = process) := by
  have hsince := Outset.since_plain hw ctx
  obtain ⟨hs, hgone, -⟩ := (Outset.runs_execute depth ctx console tree w
    (Outset.admits_plain w ctx)).finish hsince hrun
  refine ⟨hs.processes.live_eq hw hgone, fun q => ?_, fun q process hq => ?_⟩
  · by_cases hlt : q < w.processes.all.length
    · exact hs.processes.isAlive_eq hlt
    · rw [hgone q (Nat.not_lt.1 hlt)]
      by_contra halive
      exact hlt (Processes.isAlive_lt (by simpa using Ne.symm halive))
  · obtain ⟨later, hlater, hsame, hother⟩ := hs.processes.old q process hq
    exact ⟨later, hlater, hsame.identity, hother⟩

namespace Sample

theorem box_sound : box.processes.Sound 1 := by
  have h : Processes.Moment (fun _ => True) 1 {} [] := .start
  have h := h.call (.boot 0 [root]) (by simp [Processes.Call.Fair, root]) trivial (by decide)
  exact h.sound

/-- `ping h & cat` -/
def pinging : Instruction :=
  .parallel (.command [] [.ofText "ping", .ofText "h"]) (.command [] [.ofText "cat"])

theorem pinging_restored :
    box.processes.Sound 1 ∧ ∃ s, s.processes.all.length = 3 ∧
      (execute 9 boxShell (.buffer 0) pinging box).finish = some (s, .ok 0) ∧
      s.processes.live 0 = [0] := by
  have hrun : ((execute 9 boxShell (.buffer 0) pinging box).finish.map fun r =>
      (r.1.processes.all.length, r.2)) = some (3, .ok 0) := by
    cbv
  obtain ⟨⟨s, result⟩, hfinish, heq⟩ := Option.map_eq_some_iff.1 hrun
  obtain ⟨hlength, rfl⟩ := Prod.mk.inj heq
  exact ⟨box_sound, s, hlength, hfinish, (processes_restored box_sound hfinish).1 0⟩

end Sample

end ToyUnix
