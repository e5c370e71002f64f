/-!
Lines of a text: each newline ends one, a carriage return right before that newline belongs to the
ending, and what stands after the last newline is a line of its own unless it is empty.
-/

set_option autoImplicit false

namespace ToyUnix

def dropReturn (line : List Char) : List Char :=
  if line.getLast? = some '\r' then line.dropLast else line

/-- The line begun so far is `current`. -/
def linesFrom (current : List Char) : List Char → List (List Char)
  | [] => if current = [] then [] else [current]
  | '\n' :: cs => dropReturn current :: linesFrom [] cs
  | c :: cs => linesFrom (current ++ [c]) cs

def textLines (text : String) : List String := (linesFrom [] text.toList).map String.ofList

end ToyUnix
