/-!
Whole numbers as users write them: an optional sign and decimal digits, within the range of the kind
of number that is asked for.
-/

set_option autoImplicit false

namespace ToyUnix

def digitValue? (c : Char) : Option Nat :=
  if '0' ≤ c ∧ c ≤ '9' then some (c.toNat - '0'.toNat) else none

def readDigits (value : Nat) : List Char → Option Nat
  | [] => some value
  | c :: cs => (digitValue? c).bind fun d => readDigits (10 * value + d) cs

def readNat? : List Char → Option Nat
  | [] => none
  | cs => readDigits 0 cs

/-- A plus sign is always allowed. -/
def readUnsigned? (limit : Nat) (text : String) : Option Nat :=
  let value := match text.toList with
    | '+' :: cs => readNat? cs
    | cs => readNat? cs
  value.filter (· < limit)

/-- A number from `least` to `most`, with a sign or without. -/
def readSigned? (least most : Int) (text : String) : Option Int :=
  let value : Option Int := match text.toList with
    | '+' :: cs => (readNat? cs).map Int.ofNat
    | '-' :: cs => (readNat? cs).map fun n => -(Int.ofNat n)
    | cs => (readNat? cs).map Int.ofNat
  value.filter fun n => least ≤ n && n ≤ most

/-- Exit codes have 32 bits. -/
def readExitCode? (text : String) : Option Int :=
  readSigned? Int32.minValue.toInt Int32.maxValue.toInt text

end ToyUnix
