import Mathlib.Data.List.Infix
import ToyUnix.Shell.Run

/-!
Watched runs. A watch looks at the world before each command, knowing which call the command is part
of; where it objects the run ends without a result. A parallel command may be watched too: its
branches take turns only in states that a second watch lets pass. A run that nobody objects to is an
ordinary one.
-/

set_option autoImplicit false

namespace ToyUnix

/-- A body that is being run: the context that it runs in, and the frame that was the newest one
there when it began. For the body of a function this is the frame of its call. -/
structure Call where
  owner : Context
  frame : Option Frame
  deriving DecidableEq, Repr

abbrev Watch := Call → Context → World → Bool

/-- Whether the branches of a parallel command may take turns in the second state, given the state
that they began in. -/
abbrev Level := World → World → Bool

abbrev unwatched : Watch := fun _ _ _ => true

abbrev Level.free : Level := fun _ _ => true

def Level.calm : Level := fun v w =>
  (List.range (max v.scopes.length w.scopes.length)).all fun i =>
    (w.scope i).frames = (v.scope i).frames

namespace Course

variable {σ α β : Type}

def bothWhile (level : σ → Bool) (left : Course σ α) (right : σ → Course σ β) : Course σ (α × β) :=
  match left with
  | .done s a => (right s).map (a, ·)
  | .exhausted => .exhausted
  | .pause s resumeLeft =>
    if level s then
      match right s with
      | .done s b => .pause s fun t => (resumeLeft t).map (·, b)
      | .exhausted => .exhausted
      | .pause s resumeRight =>
        if level s then .pause s fun t => bothWhile level (resumeLeft t) resumeRight
        else .exhausted
    else .exhausted

theorem bothWhile_true (left : Course σ α) (right : σ → Course σ β) :
    left.bothWhile (fun _ => true) right = left.both right := by
  induction left generalizing right with
  | done s a => rfl
  | exhausted => rfl
  | pause s resume ih =>
    simp only [bothWhile, both, if_true]
    cases right s with
    | done s b => rfl
    | exhausted => rfl
    | pause s resumeRight => exact congrArg _ (funext fun t => ih t resumeRight)

end Course

namespace Job

variable {α β : Type}

def watch (passes : World → Bool) : Job Unit := fun w =>
  if passes w then .done w (.ok ()) else .exhausted

def bothWhile (level : Level) (x : Job α) (y : Job β) : Job (Except Fault α × Except Fault β) :=
  fun w => ((x w).bothWhile (level w) y).map .ok

theorem watch_bind {passes : World → Bool} {w : World} (h : passes w = true) (x : Unit → Job α) :
    (watch passes >>= x) w = x () w := by
  change Course.bind _ (watch passes w) = _
  rw [watch, if_pos h]
  rfl

end Job

/-- `run`, with a watch before each command and each redirection. Assignments happen one after
another, so the watch looks at each state that one of their words is expanded in. -/
def Instruction.runWatched (watch : Context → World → Bool) (level : Level) (call : Caller)
    (limit : Nat) : Instruction → Context → Console → Job Int
  | .empty, _, _ => return 0
  | .command assignments words, ctx, console => do
    Job.watch fun w => assignments.inits.all fun made => watch ctx (assign ctx made w)
    runSimple call limit ctx console assignments words
  | .pipe left right, ctx, console => do
    let pipe ← Job.update (Console.addPipe · console)
    let _ ← left.runWatched watch level call limit ctx pipe
    let input ← Job.update fun w =>
      let (text, w) := pipe.drain w
      Console.addInput w text console
    right.runWatched watch level call limit ctx input
  | .sequential first next, ctx, console => do
    let _ ← first.runWatched watch level call limit ctx console
    next.runWatched watch level call limit ctx console
  | .parallel first next, ctx, console => do
    let results ← Job.bothWhile level (first.runWatched watch level call limit ctx console)
      (next.runWatched watch level call limit ctx console)
    Job.ofExcept (joinResults results)
  | .conditional logic left right, ctx, console => do
    let code ← left.runWatched watch level call limit ctx console
    if logic.goesOn code then right.runWatched watch level call limit ctx console else return code
  | .redirect mode target inner, ctx, console => do
    Job.watch (watch ctx)
    let redirected ← Job.step fun w =>
      ctx.openConsole w console (expandOne w ctx target) mode
    let result ← Job.attempt (inner.runWatched watch level call limit ctx redirected)
    let flushed ← Job.attempt (Job.step fun w => redirected.flush w)
    Job.modify (closeConsole · redirected)
    Job.ofExcept (joinFlush result flushed)
  | .function name body, ctx, _ => do
    Job.modify (ctx.declare · name body)
    return 0
  | .scoped inner, ctx, console => do
    let scope ← Job.update World.addScope
    inner.runWatched watch level call limit (.nested scope ctx) console

/-- What comes of a call that is nested too deep: nothing, or a fault. -/
def tooDeep : Option Fault → Job Int
  | none => Job.exhausted
  | some fault => Job.throw fault

/-- `execute` with both watches. Where calls nest without end, a fault for those that are too deep
lets one see what is done before. -/
def executeWatched (watch : Watch) (level : Level) (deepest : Option Fault) : Nat → Caller
  | 0 => fun _ _ _ => tooDeep deepest
  | depth + 1 => fun ctx console tree w =>
    tree.runWatched (watch ⟨ctx, (w.scope ctx.ownScope).frames.head?⟩) level
      (executeWatched watch level deepest depth) depth ctx console w

theorem Instruction.runWatched_true (call : Caller) (limit : Nat) (tree : Instruction)
    (ctx : Context) (console : Console) :
    tree.runWatched (fun _ _ => true) (fun _ _ => true) call limit ctx console =
      tree.run call limit ctx console := by
  have hwatch {α : Type} (passes : World → Bool) (h : ∀ w, passes w = true) (x : Job α) :
      (do Job.watch passes; x) = x := funext fun w => Job.watch_bind (h w) fun _ => x
  have hboth {α β : Type} (x : Job α) (y : Job β) :
      Job.bothWhile (fun _ _ => true) x y = Job.both x y :=
    funext fun w => congrArg _ (Course.bothWhile_true (x w) y)
  induction tree generalizing ctx console with
  | empty => rfl
  | command assignments words =>
    rw [runWatched, run, hwatch _ fun w => by simp]
  | pipe left right ihleft ihright => simp only [runWatched, run, ihleft, ihright]
  | sequential first next ihfirst ihnext => simp only [runWatched, run, ihfirst, ihnext]
  | parallel first next ihfirst ihnext => simp only [runWatched, run, hboth, ihfirst, ihnext]
  | conditional logic left right ihleft ihright => simp only [runWatched, run, ihleft, ihright]
  | redirect mode target inner ih =>
    rw [runWatched, run, hwatch _ fun _ => rfl]
    simp only [ih]
  | function name body _ => rfl
  | «scoped» inner ih => simp only [runWatched, run, ih]

theorem executeWatched_true (depth : Nat) :
    executeWatched unwatched .free none depth = execute depth := by
  induction depth with
  | zero => rfl
  | succ depth ih =>
    funext ctx console tree w
    change tree.runWatched _ _ (executeWatched _ _ _ depth) depth ctx console w = _
    rw [ih]
    exact congrFun (tree.runWatched_true (execute depth) depth ctx console) w

end ToyUnix
