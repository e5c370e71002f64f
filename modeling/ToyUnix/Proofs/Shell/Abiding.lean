import ToyUnix.Proofs.Shell.Calls

/-!
Abiding courses. A course abides by an upkeep if each of its turns keeps it, as long as those do that
others have in between. Unlike a course that minds its manners it is told where it begins, so that
later steps may rely on what earlier ones have found there.
-/

set_option autoImplicit false

namespace ToyUnix

namespace Course

variable {α β : Type} {U : Upkeep} {v w : World}

def Abides (U : Upkeep) (w : World) : Course World α → Prop
  | .done s _ => U.keeps w s
  | .pause s resume => U.keeps w s ∧ ∀ t, U.keeps s t → Abides U t (resume t)
  | .exhausted => True

namespace Abides

theorem after {c : Course World α} (hvw : U.keeps v w) (h : c.Abides U w) : c.Abides U v := by
  cases c with
  | done s a => exact U.trans hvw h
  | pause s resume => exact ⟨U.trans hvw h.1, h.2⟩
  | exhausted => trivial

theorem bind {c : Course World α} {f : World → α → Course World β} (h : c.Abides U w)
    (hnext : ∀ s a, U.keeps w s → (f s a).Abides U s) : (c.bind f).Abides U w := by
  induction c generalizing w with
  | done s a => exact after h (hnext s a h)
  | pause s resume ih =>
    refine ⟨h.1, fun t ht => ih t (h.2 t ht) fun u a hu => ?_⟩
    exact hnext u a (U.trans (U.trans h.1 ht) hu)
  | exhausted => trivial

theorem map {c : Course World α} (h : c.Abides U w) (f : α → β) : (c.map f).Abides U w := by
  induction c generalizing w with
  | done s a => exact h
  | pause s resume ih => exact ⟨h.1, fun t ht => ih t (h.2 t ht)⟩
  | exhausted => trivial

/-- By induction on the left course; each side may rely on the turns of the other one. -/
theorem both {c : Course World α} {right : World → Course World β} (h : c.Abides U w)
    (hright : ∀ s, U.keeps w s → (right s).Abides U s) : (c.both right).Abides U w := by
  induction c generalizing w right with
  | done s a => exact after h ((hright s h).map _)
  | pause s resume ih =>
    have hfirst := hright s h.1
    simp only [Course.both]
    cases hr : right s with
    | done u b =>
      rw [hr] at hfirst
      exact ⟨U.trans h.1 hfirst, fun t ht => (h.2 t (U.trans hfirst ht)).map _⟩
    | pause u resumeRight =>
      rw [hr] at hfirst
      refine ⟨U.trans h.1 hfirst.1, fun t ht => ih t (h.2 t (U.trans hfirst.1 ht)) fun s hs => ?_⟩
      exact hfirst.2 s (U.trans ht hs)
    | exhausted => trivial
  | exhausted => trivial

theorem finish {c : Course World α} (h : c.Abides U w) {s : World} {a : α}
    (hc : c.finish = some (s, a)) : U.keeps w s := by
  induction c generalizing w with
  | done t b =>
    cases hc
    exact h
  | pause t resume ih => exact U.trans h.1 (ih t (h.2 t (U.refl t)) hc)
  | exhausted => cases hc

end Abides

end Course

namespace Job

variable {α β : Type}

/-- In state `w` the job keeps what it should in every turn. -/
structure Abides (U : Upkeep) (w : World) (x : Job α) : Prop where
  course : (x w).Abides U w

namespace Abides

variable {U : Upkeep} {w : World} {x : Job α} {f : α → Job β}

theorem ofExcept (result : Except Fault α) : Abides U w (Job.ofExcept result) := by
  cases result <;> exact ⟨U.refl w⟩

theorem pure (a : α) : Abides U w (Pure.pure a : Job α) := ofExcept (.ok a)

theorem throw (fault : Fault) : Abides U w (Job.throw fault : Job α) := ofExcept (.error fault)

theorem exhausted : Abides U w (Job.exhausted : Job α) := ⟨trivial⟩

theorem pause : Abides U w Job.pause := ⟨U.refl w, fun t _ => U.refl t⟩

theorem bind (h : Abides U w x) (hnext : ∀ a s, U.keeps w s → Abides U s (f a)) :
    Abides U w (x >>= f) := by
  refine ⟨h.course.bind fun s result hs => ?_⟩
  cases result with
  | ok a => exact (hnext a s hs).course
  | error fault => exact U.refl s

theorem fmap (h : Abides U w x) (g : α → β) : Abides U w (g <$> x) :=
  h.bind fun a _ _ => pure (g a)

theorem attempt (h : Abides U w x) : Abides U w (Job.attempt x) := ⟨h.course.map _⟩

theorem step {u : World → Except Fault α × World} (h : U.keeps w (u w).2) :
    Abides U w (Job.step u) := ⟨h⟩

theorem update {u : World → α × World} (h : U.keeps w (u w).2) : Abides U w (Job.update u) := ⟨h⟩

theorem modify {u : World → World} (h : U.keeps w (u w)) : Abides U w (Job.modify u) := ⟨h⟩

theorem get_bind {f : World → Job β} (h : Abides U w (f w)) : Abides U w (Job.get >>= f) :=
  ⟨h.course⟩

theorem step_bind {u : World → Except Fault α × World} (h : U.keeps w (u w).2)
    (hnext : ∀ a, (u w).1 = .ok a → Abides U (u w).2 (f a)) : Abides U w (Job.step u >>= f) := by
  obtain ⟨result, s, hrun⟩ : ∃ result s, u w = (result, s) := ⟨_, _, rfl⟩
  rw [hrun] at h hnext
  have hcourse : (Job.step u >>= f) w = Job.bind (fun _ => .done s result) f w := by
    change Job.bind (fun _ => .done (u w).2 (u w).1) f w = _
    rw [hrun]
  constructor
  rw [hcourse]
  cases result with
  | error fault => exact h
  | ok a => exact .after h (hnext a rfl).course

theorem update_bind {u : World → α × World} (h : U.keeps w (u w).2)
    (hnext : Abides U (u w).2 (f (u w).1)) : Abides U w (Job.update u >>= f) :=
  ⟨.after h hnext.course⟩

theorem modify_bind {u : World → World} {f : Unit → Job β} (h : U.keeps w (u w))
    (hnext : Abides U (u w) (f ())) : Abides U w (Job.modify u >>= f) :=
  ⟨.after h hnext.course⟩

theorem both {y : Job β} (hx : Abides U w x) (hy : ∀ s, U.keeps w s → Abides U s y) :
    Abides U w (Job.both x y) :=
  ⟨(hx.course.both fun s hs => (hy s hs).course).map _⟩

theorem finish (h : Abides U w x) {s : World} {result : Except Fault α}
    (hrun : (x w).finish = some (s, result)) : U.keeps w s :=
  h.course.finish hrun

end Abides

end Job

end ToyUnix
