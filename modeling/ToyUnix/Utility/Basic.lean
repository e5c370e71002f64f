import ToyUnix.Computer
import ToyUnix.Console

/-!
What a running utility gets: its process, the computer, a console and its arguments.
-/

set_option autoImplicit false

namespace ToyUnix

structure Invocation where
  process : Nat
  computer : Computer
  console : Console
  /-- Without the name of the program. -/
  args : List String
  deriving Repr

namespace Invocation

def fs (run : Invocation) (w : World) : FileSystem := w.viewOf run.computer run.process

/-- The home directory in the environment counts, else that of the user. -/
def home (run : Invocation) (w : World) : String :=
  (w.processes.envValue? run.process "HOME").getD
    (((w.process? run.process).map (·.user.home)).getD "/")

def cwd (run : Invocation) (w : World) : String :=
  ((w.process? run.process).map (·.cwd)).getD "/"

def target (run : Invocation) (w : World) (operand : String) : String :=
  PathText.makeAbsolute (run.cwd w) operand (run.home w)

def write (run : Invocation) (w : World) (text : String) : World := run.console.write w text

def writeLine (run : Invocation) (w : World) (text : String) : World := run.console.writeLine w text

end Invocation

/-- The letters of the arguments that begin with a dash and stand before all others, and those
others. A dash alone is no flag. -/
def splitFlags : List String → List Char × List String
  | [] => ([], [])
  | arg :: args =>
    match arg.toList with
    | '-' :: c :: cs =>
      let (flags, operands) := splitFlags args
      ((c :: cs) ++ flags, operands)
    | _ => ([], arg :: args)

end ToyUnix
