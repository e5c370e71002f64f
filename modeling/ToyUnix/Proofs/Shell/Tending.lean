import ToyUnix.Proofs.Process.Offspring
import ToyUnix.Proofs.Shell.Apart
import ToyUnix.Proofs.Shell.Ending

/-!
Tending to one's own. Courses that take turns each start processes, and each answers for those that
it has started itself: when it ends they are dead. All of them rely on each other to leave the
processes that were there at the outset as they are, to revive nobody, and to keep the status out of
the scopes that belong to shells. `Tends` says that a course keeps to this, and what holds when it
ends.
-/

set_option autoImplicit false

namespace ToyUnix

open Processes (Gone Offspring)

/-- What there is when a run begins. -/
structure Outset where
  processes : Processes
  /-- The process that the run goes on in, if any. -/
  host : Option Nat
  scopes : Nat
  /-- Scopes of shells. A shell hands assignments to its host. -/
  shells : List Nat
  shells_lt : ∀ s ∈ shells, s < scopes

/-- The processes in `mine`, and those that have been started between two states. -/
def World.started (mine : Nat → Prop) (v w : World) : Nat → Prop := fun q =>
  mine q ∨ v.processes.all.length ≤ q ∧ q < w.processes.all.length

namespace Outset

/-- A state that the run may come to. -/
structure Since (E : Outset) (w : World) : Prop where
  processes : E.processes.Offspring E.host w.processes
  scopes : E.scopes ≤ w.scopes.length
  shells : ∀ s ∈ E.shells, (w.scope s).bindings.get? "?" = none

/-- What may happen in a turn. -/
structure Follows (E : Outset) (v w : World) : Prop where
  since : E.Since w
  length_le : v.processes.all.length ≤ w.processes.all.length
  gone : ∀ q, v.processes.Gone q → w.processes.Gone q

/-- What may happen in a turn that starts no process. -/
structure Quiet (E : Outset) (v w : World) : Prop where
  since : E.Since w
  length_eq : w.processes.all.length = v.processes.all.length
  gone : ∀ q, v.processes.Gone q → w.processes.Gone q

variable {E : Outset} {u v w : World} {mine more : Nat → Prop}

theorem Follows.refl (h : E.Since w) : E.Follows w w := ⟨h, Nat.le_refl _, fun _ => id⟩

theorem Follows.trans (huv : E.Follows u v) (hvw : E.Follows v w) : E.Follows u w :=
  ⟨hvw.since, Nat.le_trans huv.length_le hvw.length_le, fun q hq => hvw.gone q (huv.gone q hq)⟩

theorem Quiet.follows (h : E.Quiet v w) : E.Follows v w :=
  ⟨h.since, Nat.le_of_eq h.length_eq.symm, h.gone⟩

theorem Quiet.trans (huv : E.Quiet u v) (hvw : E.Quiet v w) : E.Quiet u w :=
  ⟨hvw.since, hvw.length_eq.trans huv.length_eq, fun q hq => hvw.gone q (huv.gone q hq)⟩

theorem Quiet.started_eq (h : E.Quiet v w) (mine : Nat → Prop) : World.started mine v w = mine := by
  funext q
  have := h.length_eq
  simp only [World.started, eq_iff_iff, or_iff_left_iff_imp]
  omega

theorem started_started (huv : E.Follows u v) (hvw : E.Follows v w) (mine : Nat → Prop) :
    World.started (World.started mine u v) v w = World.started mine u w := by
  funext q
  have := huv.length_le
  have := hvw.length_le
  simp only [World.started, eq_iff_iff]
  by_cases hmine : mine q
  · simp [hmine]
  · simp only [hmine, false_or]
    omega

theorem started_or (mine more : Nat → Prop) (v w : World) :
    World.started (fun q => mine q ∨ more q) v w = fun q => World.started mine v w q ∨ more q := by
  funext q
  simp only [World.started, or_right_comm]

theorem started_both (mine theirs : Nat → Prop) (huv : E.Follows u v) (hvw : E.Follows v w) :
    World.started (fun q => mine q ∨ theirs q) u w =
      fun q => World.started mine u v q ∨ World.started theirs v w q := by
  funext q
  have := huv.length_le
  have := hvw.length_le
  simp only [World.started, eq_iff_iff]
  by_cases hmine : mine q
  · simp [hmine]
  by_cases htheirs : theirs q
  · simp [htheirs]
  simp only [hmine, htheirs, false_or]
  omega

end Outset

open World (started)
open Outset (Since Follows Quiet)

namespace Course

variable {α β : Type} {E : Outset}

def Lastly (Q : World → α → Prop) (R : World → β → Prop) : World → (α × β) × Side → Prop
  | s, ((a, _), .left) => Q s a
  | s, ((_, b), .right) => R s b

/-- From state `w` on, the processes in `mine` being its own, the course does in its turns what may
be done, and in the end its processes are dead and `Q` holds. -/
def Tends (E : Outset) (Q : World → α → Prop) (mine : Nat → Prop) (w : World) :
    Course World α → Prop
  | .exhausted => True
  | .done s a => E.Follows w s ∧ (∀ q, started mine w s q → s.processes.Gone q) ∧ Q s a
  | .pause s resume => E.Follows w s ∧
    ∀ t, E.Follows s t → Tends E Q (started mine w s) t (resume t)

namespace Tends

variable {Q : World → α → Prop} {R : World → β → Prop} {mine : Nat → Prop} {v w : World}

theorem done (hw : E.Since w) (hmine : ∀ q, mine q → w.processes.Gone q) {a : α} (h : Q w a) :
    Tends E Q mine w (.done w a) := by
  refine ⟨.refl hw, fun q hq => hmine q ?_, h⟩
  exact hq.resolve_right fun hnew => absurd hnew.2 (Nat.not_lt.2 hnew.1)

theorem after {c : Course World α} (hvw : E.Follows v w) (h : Tends E Q (started mine v w) w c) :
    Tends E Q mine v c := by
  cases c with
  | exhausted => trivial
  | done s a =>
    obtain ⟨hlast, hgone, hQ⟩ := h
    rw [Outset.started_started hvw hlast] at hgone
    exact ⟨hvw.trans hlast, hgone, hQ⟩
  | pause s resume =>
    obtain ⟨hlast, hrest⟩ := h
    rw [Outset.started_started hvw hlast] at hrest
    exact ⟨hvw.trans hlast, hrest⟩

theorem quiet {c : Course World α} (hvw : E.Quiet v w) (h : Tends E Q mine w c) :
    Tends E Q mine v c :=
  after hvw.follows (by rwa [hvw.started_eq])

theorem bind {c : Course World α} {f : World → α → Course World β} (h : Tends E Q mine w c)
    (hnext : ∀ mine s a, E.Since s → (∀ q, mine q → s.processes.Gone q) → Q s a →
      Tends E R mine s (f s a)) : Tends E R mine w (c.bind f) := by
  induction c generalizing mine w with
  | exhausted => trivial
  | done s a => exact after h.1 (hnext _ s a h.1.since h.2.1 h.2.2)
  | pause s resume ih => exact ⟨h.1, fun t ht => ih t (h.2 t ht)⟩

theorem map {c : Course World α} (f : α → β) (h : Tends E Q mine w c)
    (hQ : ∀ s a, Q s a → R s (f a)) : Tends E R mine w (c.map f) := by
  induction c generalizing mine w with
  | exhausted => trivial
  | done s a => exact ⟨h.1, h.2.1, hQ s a h.2.2⟩
  | pause s resume ih => exact ⟨h.1, fun t ht => ih t (h.2 t ht)⟩

theorem finish {c : Course World α} {s : World} {a : α} (h : Tends E Q mine w c)
    (hc : c.finish = some (s, a)) :
    E.Follows w s ∧ (∀ q, started mine w s q → s.processes.Gone q) ∧ Q s a := by
  induction c generalizing mine w with
  | exhausted => cases hc
  | done t b =>
    cases hc
    exact h
  | pause t resume ih =>
    obtain ⟨hturn, hrest⟩ := h
    obtain ⟨hlast, hgone, hQ⟩ := ih t (hrest t (.refl hturn.since)) hc
    rw [Outset.started_started hturn hlast] at hgone
    exact ⟨hturn.trans hlast, hgone, hQ⟩

theorem widen {c : Course World α} {more : Nat → Prop} (h : Tends E Q mine w c)
    (hmore : ∀ q, more q → w.processes.Gone q) : Tends E Q (fun q => mine q ∨ more q) w c := by
  induction c generalizing mine w with
  | exhausted => trivial
  | done s a =>
    obtain ⟨hturn, hgone, hQ⟩ := h
    refine ⟨hturn, ?_, hQ⟩
    rw [Outset.started_or]
    exact fun q hq => hq.elim (hgone q) fun hold => hturn.gone q (hmore q hold)
  | pause s resume ih =>
    obtain ⟨hturn, hrest⟩ := h
    refine ⟨hturn, fun t ht => ?_⟩
    rw [Outset.started_or]
    exact ih t (hrest t ht) fun q hq => ht.gone q (hturn.gone q (hmore q hq))

/-- Two courses in turns. What the one that ends last makes sure of holds in the end. -/
theorem bothLast {c : Course World α} {right : World → Course World β} {theirs : Nat → Prop}
    (hleft : Tends E Q mine w c) (hright : ∀ s, E.Follows w s → Tends E R theirs s (right s)) :
    Tends E (Lastly Q R) (fun q => mine q ∨ theirs q) w (c.bothLast right) := by
  induction c generalizing mine theirs w right with
  | exhausted => trivial
  | done s a =>
    obtain ⟨hturn, hgone, -⟩ := hleft
    have hwide := (hright s hturn).widen hgone
    refine after hturn ?_
    rw [Outset.started_or]
    simp only [or_comm] at hwide ⊢
    exact hwide.map _ fun _ _ => id
  | pause s resume ih =>
    obtain ⟨hturn, hrest⟩ := hleft
    have hR := hright s hturn
    simp only [Course.bothLast]
    cases hr : right s with
    | exhausted => trivial
    | done u b =>
      rw [hr] at hR
      obtain ⟨hother, hgone, -⟩ := hR
      refine ⟨hturn.trans hother, fun t ht => ?_⟩
      rw [Outset.started_both mine theirs hturn hother]
      exact ((hrest t (hother.trans ht)).widen fun q hq => ht.gone q (hgone q hq)).map _
        fun _ _ => id
    | pause u resumeRight =>
      rw [hr] at hR
      obtain ⟨hother, hrestRight⟩ := hR
      refine ⟨hturn.trans hother, fun t ht => ?_⟩
      rw [Outset.started_both mine theirs hturn hother]
      exact ih t (hrest t (hother.trans ht)) fun s' hs' => hrestRight s' (ht.trans hs')

end Tends

end Course

namespace Job

variable {α β : Type} {E : Outset}

def Valued (Q : World → α → Prop) : World → Except Fault α → Prop
  | s, .ok a => Q s a
  | _, .error _ => True

/-- The job, beginning at `w`, tends to the processes that it starts, and `Q` holds when it ends
without a fault. -/
structure Tends (E : Outset) (Q : World → α → Prop) (w : World) (x : Job α) : Prop where
  course : E.Since w → ∀ mine, (∀ q, mine q → w.processes.Gone q) →
    Course.Tends E (Valued Q) mine w (x w)

abbrev Tidy (E : Outset) (w : World) (x : Job α) : Prop := Tends E (fun _ _ => True) w x

namespace Tends

variable {Q : World → α → Prop} {R : World → β → Prop} {w : World} {x : Job α} {f : α → Job β}

theorem mono {Q' : World → α → Prop} (h : Tends E Q w x) (hle : ∀ s a, Q s a → Q' s a) :
    Tends E Q' w x where
  course hw mine hmine := by
    rw [← (x w).bind_done]
    refine (h.course hw mine hmine).bind fun mine s result hs hmine hQ => ?_
    refine Course.Tends.done hs hmine ?_
    cases result with
    | ok a => exact hle s a hQ
    | error fault => trivial

theorem ofExcept {result : Except Fault α} (h : Valued Q w result) :
    Tends E Q w (Job.ofExcept result) where
  course hw mine hmine := by
    cases result with
    | ok a => exact Course.Tends.done hw hmine h
    | error fault => exact Course.Tends.done hw hmine h

theorem pure {a : α} (h : Q w a) : Tends E Q w (Pure.pure a) :=
  ofExcept (show Valued Q w (.ok a) from h)

theorem throw (fault : Fault) : Tends E Q w (Job.throw fault) :=
  ofExcept (show Valued Q w (.error fault) from trivial)

theorem exhausted : Tends E Q w Job.exhausted := ⟨fun _ _ _ => trivial⟩

theorem bind (h : Tends E Q w x) (hnext : ∀ a s, E.Since s → Q s a → Tends E R s (f a)) :
    Tends E R w (x >>= f) where
  course hw mine hmine := by
    refine (h.course hw mine hmine).bind fun mine s result hs hmine hQ => ?_
    cases result with
    | ok a => exact (hnext a s hs hQ).course hs mine hmine
    | error fault => exact Course.Tends.done hs hmine trivial

theorem fmap (g : α → β) (h : Tends E (fun s a => R s (g a)) w x) : Tends E R w (g <$> x) :=
  h.bind fun _ _ _ => pure

theorem attempt (h : Tends E Q w x) : Tends E (Valued Q) w (Job.attempt x) where
  course hw mine hmine := (h.course hw mine hmine).map _ fun _ _ => id

theorem step {u : World → Except Fault α × World} (h : E.Since w → E.Quiet w (u w).2)
    (hQ : E.Since w → Valued Q (u w).2 (u w).1) : Tends E Q w (Job.step u) where
  course hw _ hmine := Course.Tends.quiet (h hw)
    (Course.Tends.done (h hw).since (fun q hq => (h hw).gone q (hmine q hq)) (hQ hw))

theorem update {u : World → α × World} (h : E.Since w → E.Quiet w (u w).2)
    (hQ : E.Since w → Q (u w).2 (u w).1) : Tends E Q w (Job.update u) :=
  step (u := fun w => (.ok (u w).1, (u w).2)) h hQ

theorem modify {u : World → World} {Q : World → Unit → Prop} (h : E.Since w → E.Quiet w (u w))
    (hQ : E.Since w → Q (u w) ()) : Tends E Q w (Job.modify u) :=
  step (u := fun w => (.ok (), u w)) h hQ

theorem get_bind {f : World → Job β} (h : Tends E R w (f w)) : Tends E R w (Job.get >>= f) :=
  ⟨h.course⟩

theorem bothLast {y : Job β} (hx : Tends E Q w x) (hy : ∀ s, E.Since s → Tends E R s y) :
    Tends E (Course.Lastly (Valued Q) (Valued R)) w (Job.bothLast x y) where
  course hw mine hmine := by
    have hright : ∀ s, E.Follows w s → Course.Tends E (Valued R) (fun _ => False) s (y s) :=
      fun s hs => (hy s hs.since).course hs.since _ fun _ h => h.elim
    have hboth := (hx.course hw mine hmine).bothLast hright
    simp only [or_false] at hboth
    exact hboth.map _ fun _ _ => id

theorem finish (h : Tends E Q w x) (hw : E.Since w) {s : World} {result : Except Fault α}
    (hrun : (x w).finish = some (s, result)) :
    E.Since s ∧ (∀ q, w.processes.all.length ≤ q → s.processes.isAlive q = false) ∧
      Valued Q s result := by
  obtain ⟨hturn, hgone, hQ⟩ := (h.course hw (fun _ => False) fun _ h => h.elim).finish hrun
  refine ⟨hturn.since, fun q hle => ?_, hQ⟩
  by_cases hlt : q < s.processes.all.length
  · exact (hgone q (.inr ⟨hle, hlt⟩)).2
  · by_contra halive
    exact hlt (Processes.isAlive_lt (by simpa using halive))

end Tends

end Job

end ToyUnix
