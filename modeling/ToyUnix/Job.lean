import ToyUnix.Schedule
import ToyUnix.World

/-!
Jobs: courses of action on a world that end with a value or a fault. What a job did before a fault
stays done.
-/

set_option autoImplicit false

namespace ToyUnix

def Job (α : Type) : Type := World → Course World (Except Fault α)

namespace Job

variable {α β : Type}

def pure (a : α) : Job α := fun w => .done w (.ok a)

def throw (fault : Fault) : Job α := fun w => .done w (.error fault)

def bind (x : Job α) (f : α → Job β) : Job β := fun w =>
  (x w).bind fun w result =>
    match result with
    | .ok a => f a w
    | .error fault => .done w (.error fault)

instance : Monad Job where
  pure := Job.pure
  bind := Job.bind

/-- A fault becomes a value. -/
def attempt (x : Job α) : Job (Except Fault α) := fun w => (x w).map .ok

def ofExcept : Except Fault α → Job α
  | .ok a => Job.pure a
  | .error fault => Job.throw fault

def get : Job World := fun w => .done w (.ok w)

def modify (f : World → World) : Job Unit := fun w => .done (f w) (.ok ())

def step (f : World → Except Fault α × World) : Job α := fun w =>
  let (result, w) := f w
  .done w result

def update (f : World → α × World) : Job α := fun w =>
  let (a, w) := f w
  .done w (.ok a)

/-- Lets others take their turn. -/
def pause : Job Unit := fun w => .pause w fun w => .done w (.ok ())

def exhausted : Job α := fun _ => .exhausted

/-- Both in turns, the first one first. -/
def both (x : Job α) (y : Job β) : Job (Except Fault α × Except Fault β) := fun w =>
  ((x w).both y).map .ok

end Job

end ToyUnix
