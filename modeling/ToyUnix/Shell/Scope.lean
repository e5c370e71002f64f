import ToyUnix.Assoc
import ToyUnix.Shell.Instruction
import ToyUnix.Text.Number

/-!
Scopes: the variables and functions of one context, and the frames of the function calls that are
going on in it. A call binds `$0`, the numbered parameters, `$#` and `$@`.
-/

set_option autoImplicit false

namespace ToyUnix

structure Frame where
  id : Nat
  name : String
  args : List String
  deriving DecidableEq, Repr

structure Scope where
  bindings : Assoc String String := []
  functions : Assoc String Instruction := []
  /-- The frame of the innermost call comes first. -/
  frames : List Frame := []
  nextFrame : Nat := 0
  deriving Repr

/-- Positional names are numbers that fit in 64 bits. -/
def positionalIndex? (name : String) : Option Nat := readUnsigned? UInt64.size name

namespace Frame

/-- Every number from 1 on is bound; past the last argument to nothing. -/
def binding? (frame : Frame) (name : String) : Option String :=
  if name = "0" then some frame.name
  else if name = "#" then some (toString frame.args.length)
  else if name = "@" then some (" ".intercalate frame.args)
  else
    match positionalIndex? name with
    | some (i + 1) => some (frame.args[i]?.getD "")
    | _ => none

end Frame

namespace Scope

/-- The innermost call binds names before the variables do. -/
def get? (scope : Scope) (name : String) : Option String :=
  (scope.frames.head?.bind (·.binding? name)).or (scope.bindings.get? name)

def set (scope : Scope) (name value : String) : Scope :=
  { scope with bindings := scope.bindings.set name value }

def declare (scope : Scope) (name : String) (body : Instruction) : Scope :=
  { scope with functions := scope.functions.set name body }

def function? (scope : Scope) (name : String) : Option Instruction := scope.functions.get? name

def functionNames (scope : Scope) : List String := sortTexts scope.functions.keys

def inFunction (scope : Scope) : Bool := !scope.frames.isEmpty

/-- The number of the new frame takes it off again. -/
def push (scope : Scope) (name : String) (args : List String) : Nat × Scope :=
  (scope.nextFrame,
    { scope with
      frames := ⟨scope.nextFrame, name, args⟩ :: scope.frames
      nextFrame := scope.nextFrame + 1 })

def pop (scope : Scope) (id : Nat) : Scope :=
  { scope with frames := scope.frames.eraseP fun frame => frame.id = id }

/-- Binds the arguments of a script as variables. -/
def setArguments (scope : Scope) (script : String) (args : List String) : Scope :=
  let numbered := (args.zipIdx 1).foldl (fun (scope : Scope) (arg, i) => scope.set (toString i) arg)
    (scope.set "0" script)
  (numbered.set "#" (toString args.length)).set "@" (" ".intercalate args)

end Scope

end ToyUnix
