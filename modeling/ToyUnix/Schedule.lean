/-!
Taking turns. A course of action on a state runs to its end or to its next pause, where whoever
watches may change the state before it goes on. Two courses side by side run in turns, the left one
first, until both have ended. A course that was given too few steps is `exhausted`.
-/

set_option autoImplicit false

namespace ToyUnix

inductive Course (σ α : Type) where
  | done (state : σ) (result : α)
  | pause (state : σ) (resume : σ → Course σ α)
  | exhausted

namespace Course

variable {σ α β : Type}

def bind (f : σ → α → Course σ β) : Course σ α → Course σ β
  | .done s a => f s a
  | .pause s resume => .pause s fun t => bind f (resume t)
  | .exhausted => .exhausted

def map (f : α → β) : Course σ α → Course σ β
  | .done s a => .done s (f a)
  | .pause s resume => .pause s fun t => map f (resume t)
  | .exhausted => .exhausted

/-- Runs `left` up to its first pause, then `right`, and so on in turns; one that has ended is left
out of the later rounds. -/
def both (left : Course σ α) (right : σ → Course σ β) : Course σ (α × β) :=
  match left with
  | .done s a => (right s).map (a, ·)
  | .exhausted => .exhausted
  | .pause s resumeLeft =>
    match right s with
    | .done s b => .pause s fun t => (resumeLeft t).map (·, b)
    | .exhausted => .exhausted
    | .pause s resumeRight => .pause s fun t => both (resumeLeft t) resumeRight

/-- Goes on after every pause at once. -/
def finish : Course σ α → Option (σ × α)
  | .done s a => some (s, a)
  | .pause s resume => finish (resume s)
  | .exhausted => none

theorem finish_bind (c : Course σ α) (f : σ → α → Course σ β) :
    (c.bind f).finish = c.finish.bind fun r => (f r.1 r.2).finish := by
  induction c with
  | done s a => rfl
  | pause s resume ih => exact ih s
  | exhausted => rfl

theorem finish_map (c : Course σ α) (f : α → β) :
    (c.map f).finish = c.finish.map fun r => (r.1, f r.2) := by
  induction c with
  | done s a => rfl
  | pause s resume ih => exact ih s
  | exhausted => rfl

end Course

end ToyUnix
