/-!
White space: the characters with the Unicode property of that name.
-/

set_option autoImplicit false

namespace ToyUnix

def blankSpans : List (Nat × Nat) :=
  [(0x09, 0x0D), (0x20, 0x20), (0x85, 0x85), (0xA0, 0xA0), (0x1680, 0x1680), (0x2000, 0x200A),
   (0x2028, 0x2029), (0x202F, 0x202F), (0x205F, 0x205F), (0x3000, 0x3000)]

def isBlank (c : Char) : Bool := blankSpans.any fun span => span.1 ≤ c.toNat && c.toNat ≤ span.2

def isBlankText (text : String) : Bool := text.toList.all isBlank

def trimBlanks (text : String) : String :=
  String.ofList ((text.toList.dropWhile isBlank).reverse.dropWhile isBlank).reverse

end ToyUnix
