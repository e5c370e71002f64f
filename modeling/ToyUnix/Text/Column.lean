/-!
Columns of a table: a text is filled with spaces up to a width, counted in characters.
-/

set_option autoImplicit false

namespace ToyUnix

def spaces (n : Nat) : String := String.ofList (List.replicate n ' ')

def alignLeft (width : Nat) (text : String) : String := text ++ spaces (width - text.length)

def alignRight (width : Nat) (text : String) : String := spaces (width - text.length) ++ text

end ToyUnix
