import ToyUnix.Shell.Run

/-!
How runs end. A run returns a status, and commands store theirs as `$?` in the context that they are
run in. What a tree returns and what its last command has stored need not be the same: `runEnding`
runs a tree like `run` and tells both.
-/

set_option autoImplicit false

namespace ToyUnix

inductive Side
  | left
  | right
  deriving DecidableEq, Repr

namespace Course

variable {σ α β γ δ : Type}

theorem bind_done (c : Course σ α) : (c.bind fun s a => .done s a) = c := by
  induction c with
  | done s a => rfl
  | pause s resume ih => exact congrArg _ (funext ih)
  | exhausted => rfl

theorem bind_assoc (c : Course σ α) (f : σ → α → Course σ β) (g : σ → β → Course σ γ) :
    (c.bind f).bind g = c.bind fun s a => (f s a).bind g := by
  induction c with
  | done s a => rfl
  | pause s resume ih => exact congrArg _ (funext ih)
  | exhausted => rfl

theorem map_eq_bind (c : Course σ α) (f : α → β) :
    c.map f = c.bind fun s a => .done s (f a) := by
  induction c with
  | done s a => rfl
  | pause s resume ih => exact congrArg _ (funext ih)
  | exhausted => rfl

theorem map_map (c : Course σ α) (f : α → β) (g : β → γ) : (c.map f).map g = c.map (g ∘ f) := by
  induction c with
  | done s a => rfl
  | pause s resume ih => exact congrArg _ (funext ih)
  | exhausted => rfl

/-- `both`, and which of the two has ended last. -/
def bothLast (left : Course σ α) (right : σ → Course σ β) : Course σ ((α × β) × Side) :=
  match left with
  | .done s a => (right s).map fun b => ((a, b), .right)
  | .exhausted => .exhausted
  | .pause s resumeLeft =>
    match right s with
    | .done s b => .pause s fun t => (resumeLeft t).map fun a => ((a, b), .left)
    | .exhausted => .exhausted
    | .pause s resumeRight => .pause s fun t => bothLast (resumeLeft t) resumeRight

theorem both_map (f : α → γ) (g : β → δ) (left : Course σ α) (right : σ → Course σ β) :
    (left.map f).both (fun s => (right s).map g) =
      (left.bothLast right).map fun ended => (f ended.1.1, g ended.1.2) := by
  induction left generalizing right with
  | done s a => simp only [map, both, bothLast, map_map, Function.comp_def]
  | exhausted => rfl
  | pause s resume ih =>
    simp only [map, both, bothLast]
    cases right s with
    | done s b => simp only [map, map_map, Function.comp_def]
    | exhausted => rfl
    | pause s resumeRight => exact congrArg _ (funext fun t => ih t resumeRight)

end Course

namespace Job

variable {α β γ δ : Type}

theorem id_fmap (x : Job α) : id <$> x = x := by
  funext w
  refine Eq.trans (congrArg (fun f => (x w).bind f) ?_) (x w).bind_done
  funext s result
  cases result <;> rfl

theorem bind_assoc (x : Job α) (f : α → Job β) (g : β → Job γ) :
    x >>= f >>= g = x >>= fun a => f a >>= g := by
  funext w
  refine ((x w).bind_assoc ..).trans (congrArg (fun f => (x w).bind f) ?_)
  funext s result
  cases result <;> rfl

instance : LawfulMonad Job := LawfulMonad.mk' Job id_fmap (fun _ _ => rfl) bind_assoc

theorem fmap_apply (f : α → β) (x : Job α) (w : World) :
    (f <$> x) w = (x w).map (Except.map f) := by
  refine Eq.trans (congrArg (fun f => (x w).bind f) ?_) ((x w).map_eq_bind _).symm
  funext s result
  cases result <;> rfl

theorem attempt_fmap (f : α → β) (x : Job α) :
    Job.attempt (f <$> x) = Except.map f <$> Job.attempt x := by
  funext w
  rw [fmap_apply]
  change Course.map Except.ok ((f <$> x) w) = ((x w).map Except.ok).map _
  rw [fmap_apply, Course.map_map, Course.map_map]
  rfl

theorem fmap_ofExcept (f : α → β) (result : Except Fault α) :
    f <$> Job.ofExcept result = Job.ofExcept (result.map f) := by
  cases result <;> rfl

def bothLast (x : Job α) (y : Job β) : Job ((Except Fault α × Except Fault β) × Side) := fun w =>
  ((x w).bothLast y).map .ok

theorem both_fmap (f : α → γ) (g : β → δ) (x : Job α) (y : Job β) :
    Job.both (f <$> x) (g <$> y) =
      (fun ended => (ended.1.1.map f, ended.1.2.map g)) <$> Job.bothLast x y := by
  funext w
  rw [fmap_apply]
  have hright : (g <$> y : Job δ) = fun s => (y s).map (Except.map g) := funext (fmap_apply g y)
  change Course.map Except.ok (((f <$> x) w).both (g <$> y)) =
    (((x w).bothLast y).map Except.ok).map _
  rw [fmap_apply, hright, Course.map_map]
  refine (congrArg (Course.map Except.ok) (Course.both_map _ _ (x w) y)).trans ?_
  exact Course.map_map ..

end Job

/-- The status that a run returns, and the one that its last command has stored. There is none if
commands in parentheses come last, which store it where nobody looks any more, or no command. -/
structure Ending where
  code : Int
  stored : Option Int
  deriving DecidableEq, Repr

/-- The status is that of the right branch; the status that is stored is that of the one that has
ended last. -/
def joinEndings : (Except Fault Ending × Except Fault Ending) × Side → Except Fault Ending
  | ((.error fault, _), _) => .error fault
  | ((.ok _, .error fault), _) => .error fault
  | ((.ok left, .ok right), .left) => .ok ⟨right.code, left.stored⟩
  | ((.ok _, .ok right), .right) => .ok right

theorem joinEndings_code (ended : (Except Fault Ending × Except Fault Ending) × Side) :
    (joinEndings ended).map Ending.code =
      joinResults (ended.1.1.map Ending.code, ended.1.2.map Ending.code) := by
  obtain ⟨⟨left, right⟩, side⟩ := ended
  cases left <;> cases right <;> cases side <;> rfl

/-- A fault of the last flush takes the place of the ending. -/
def Ending.flushed (result : Except Fault Ending) (flush : Except Fault Unit) :
    Except Fault Ending := do
  let ending ← result
  flush
  return ending

theorem Ending.flushed_code (result : Except Fault Ending) (flush : Except Fault Unit) :
    (Ending.flushed result flush).map Ending.code = joinFlush (result.map Ending.code) flush := by
  cases result <;> cases flush <;> rfl

namespace Instruction

def runEnding (call : Caller) (limit : Nat) : Instruction → Context → Console → Job Ending
  | .empty, _, _ => return ⟨0, none⟩
  | .command assignments words, ctx, console => do
    let code ← runSimple call limit ctx console assignments words
    return ⟨code, some code⟩
  | .pipe left right, ctx, console => do
    let pipe ← Job.update (Console.addPipe · console)
    let _ ← left.runEnding call limit ctx pipe
    let input ← Job.update fun w =>
      let (text, w) := pipe.drain w
      Console.addInput w text console
    right.runEnding call limit ctx input
  | .sequential first next, ctx, console => do
    let _ ← first.runEnding call limit ctx console
    next.runEnding call limit ctx console
  | .parallel first next, ctx, console => do
    let ended ← Job.bothLast (first.runEnding call limit ctx console)
      (next.runEnding call limit ctx console)
    Job.ofExcept (joinEndings ended)
  | .conditional logic left right, ctx, console => do
    let ending ← left.runEnding call limit ctx console
    if logic.goesOn ending.code then right.runEnding call limit ctx console else return ending
  | .redirect mode target inner, ctx, console => do
    let redirected ← Job.step fun w =>
      ctx.openConsole w console (expandOne w ctx target) mode
    let result ← Job.attempt (inner.runEnding call limit ctx redirected)
    let flush ← Job.attempt (Job.step fun w => redirected.flush w)
    Job.modify (closeConsole · redirected)
    Job.ofExcept (Ending.flushed result flush)
  | .function name body, ctx, _ => do
    Job.modify (ctx.declare · name body)
    return ⟨0, none⟩
  | .scoped inner, ctx, console => do
    let scope ← Job.update World.addScope
    let ending ← inner.runEnding call limit (.nested scope ctx) console
    return ⟨ending.code, none⟩

theorem run_eq_runEnding (call : Caller) (limit : Nat) (tree : Instruction) (ctx : Context)
    (console : Console) :
    tree.run call limit ctx console = Ending.code <$> tree.runEnding call limit ctx console := by
  induction tree generalizing ctx console with
  | empty => rfl
  | command assignments words => simp [run, runEnding]
  | pipe left right ihleft ihright => simp [run, runEnding, ihleft, ihright]
  | sequential first next ihfirst ihnext => simp [run, runEnding, ihfirst, ihnext]
  | parallel first next ihfirst ihnext =>
    simp [run, runEnding, ihfirst, ihnext, Job.both_fmap, Job.fmap_ofExcept, joinEndings_code]
  | conditional logic left right ihleft ihright =>
    simp only [run, runEnding, ihleft, ihright, map_bind, bind_map_left]
    congr 1
    funext ending
    split <;> simp
  | redirect mode target inner ih =>
    simp [run, runEnding, ih, Job.attempt_fmap, Job.fmap_ofExcept, Ending.flushed_code]
  | function name body _ => simp [run, runEnding]
  | «scoped» inner ih => simp [run, runEnding, ih]

end Instruction

def executeEnding : Nat → Context → Console → Instruction → Job Ending
  | 0 => fun _ _ _ => Job.exhausted
  | depth + 1 => fun ctx console tree => tree.runEnding (execute depth) depth ctx console

theorem execute_eq_executeEnding (depth : Nat) (ctx : Context) (console : Console)
    (tree : Instruction) :
    execute depth ctx console tree = Ending.code <$> executeEnding depth ctx console tree := by
  cases depth with
  | zero => rfl
  | succ depth => exact tree.run_eq_runEnding (execute depth) depth ctx console

end ToyUnix
