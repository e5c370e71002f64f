import ToyUnix.Toml.Basic

/-!
Reading TOML. A document is read line by line into statements, which build up its table. A reader
gives what it found and the characters behind that. Values may nest; their readers count their calls
down from the length of the document.
-/

set_option autoImplicit false

namespace ToyUnix

namespace Toml

def isSpace (c : Char) : Bool := c = ' ' || c = '\t'

def skipSpaces (cs : List Char) : List Char := cs.dropWhile isSpace

/-- Tabs are the only control characters that may stand in strings and comments. -/
def isPrintable (c : Char) : Bool := c = '\t' || (' ' ≤ c && c ≠ '\x7f')

def newline? : List Char → Option (List Char)
  | '\n' :: cs => some cs
  | '\r' :: '\n' :: cs => some cs
  | _ => none

/-- The rest behind a comment, if there is one here and it holds nothing forbidden. -/
def skipComment (cs : List Char) : List Char :=
  match cs with
  | '#' :: rest => rest.dropWhile isPrintable
  | _ => cs

/-- The rest of a document behind the current line, which must have nothing left but a comment. -/
def endLine? (cs : List Char) : Option (List Char) :=
  match skipComment (skipSpaces cs) with
  | [] => some []
  | rest => newline? rest

/-! Strings. -/

def hexValue? (c : Char) : Option Nat :=
  if '0' ≤ c ∧ c ≤ '9' then some (c.toNat - '0'.toNat)
  else if 'a' ≤ c ∧ c ≤ 'f' then some (c.toNat - 'a'.toNat + 10)
  else if 'A' ≤ c ∧ c ≤ 'F' then some (c.toNat - 'A'.toNat + 10)
  else none

def hexNumber (value : Nat) : Nat → List Char → Option (Nat × List Char)
  | 0, cs => some (value, cs)
  | n + 1, c :: cs => (hexValue? c).bind fun d => hexNumber (16 * value + d) n cs
  | _ + 1, [] => none

/-- A character given by its number. -/
def unicode? (digits : Nat) (cs : List Char) : Option (Char × List Char) :=
  (hexNumber 0 digits cs).bind fun (n, rest) =>
    if h : n.isValidChar then some (Char.ofNatAux n h, rest) else none

def escape? : List Char → Option (Char × List Char)
  | 'b' :: cs => some ('\x08', cs)
  | 't' :: cs => some ('\t', cs)
  | 'n' :: cs => some ('\n', cs)
  | 'f' :: cs => some ('\x0c', cs)
  | 'r' :: cs => some ('\r', cs)
  | '"' :: cs => some ('"', cs)
  | '\\' :: cs => some ('\\', cs)
  | 'u' :: cs => unicode? 4 cs
  | 'U' :: cs => unicode? 8 cs
  | _ => none

def basicString : Nat → List Char → List Char → Option (String × List Char)
  | 0, _, _ => none
  | _ + 1, _, [] => none
  | n + 1, text, c :: cs =>
    if c = '"' then some (String.ofList text, cs)
    else if c = '\\' then
      (escape? cs).bind fun (e, rest) => basicString n (text ++ [e]) rest
    else if isPrintable c then basicString n (text ++ [c]) cs
    else none

def literalString (cs : List Char) : Option (String × List Char) :=
  match cs.dropWhile fun c => c ≠ '\'' && isPrintable c with
  | '\'' :: rest =>
    some (String.ofList (cs.takeWhile fun c => c ≠ '\'' && isPrintable c), rest)
  | _ => none

def skipBlankLines : List Char → List Char
  | [] => []
  | '\r' :: '\n' :: cs => skipBlankLines cs
  | c :: cs => if isSpace c || c = '\n' then skipBlankLines cs else c :: cs

/-- The end of a string in triple quotes, which may have up to two more quotes right before it. -/
def tripleEnd? (quote : Char) (cs : List Char) : Option (List Char × List Char) :=
  let quotes := (cs.takeWhile (· = quote)).length
  if quotes < 3 then none
  else
    let extra := min (quotes - 3) 2
    some (List.replicate extra quote, cs.drop (extra + 3))

/-- The rest of a string in triple quotes. In the escaping kind a backslash at the end of a line
removes the blanks and line endings that follow. -/
def tripleString (quote : Char) : Nat → List Char → List Char → Option (String × List Char)
  | 0, _, _ => none
  | _ + 1, _, [] => none
  | n + 1, text, c :: cs =>
    match tripleEnd? quote (c :: cs) with
    | some (extra, rest) => some (String.ofList (text ++ extra), rest)
    | none =>
      match newline? (c :: cs) with
      | some rest => tripleString quote n (text ++ ['\n']) rest
      | none =>
        if c = '\\' ∧ quote = '"' then
          match newline? (skipSpaces cs) with
          | some rest => tripleString quote n text (skipBlankLines rest)
          | none => (escape? cs).bind fun (e, rest) => tripleString quote n (text ++ [e]) rest
        else if isPrintable c then tripleString quote n (text ++ [c]) cs
        else none

/-- A line ending right behind the opening quotes does not count. -/
def openTriple (cs : List Char) : List Char := (newline? cs).getD cs

def string? (n : Nat) : List Char → Option (String × List Char)
  | '"' :: '"' :: '"' :: cs => tripleString '"' n [] (openTriple cs)
  | '\'' :: '\'' :: '\'' :: cs => tripleString '\'' n [] (openTriple cs)
  | '"' :: cs => basicString n [] cs
  | '\'' :: cs => literalString cs
  | _ => none

/-- Neither values nor keys may have more levels than this. -/
def depthLimit : Nat := 79

/-! Keys. -/

def isBareKey (c : Char) : Bool := c.isAlphanum || c = '_' || c = '-'

def simpleKey? (n : Nat) (cs : List Char) : Option (String × List Char) :=
  match cs with
  | '"' :: rest => basicString n [] rest
  | '\'' :: rest => literalString rest
  | _ =>
    match cs.takeWhile isBareKey with
    | [] => none
    | key => some (String.ofList key, cs.dropWhile isBareKey)

def dottedKeys? : Nat → List Char → Option (List String × List Char)
  | 0, _ => none
  | n + 1, cs => do
    let (first, rest) ← simpleKey? (n + 1) (skipSpaces cs)
    match skipSpaces rest with
    | '.' :: rest => do
      let (keys, rest) ← dottedKeys? n rest
      return (first :: keys, rest)
    | rest => return ([first], rest)

def key? (n : Nat) (cs : List Char) : Option (List String × List Char) :=
  (dottedKeys? n cs).filter fun found => found.1.length ≤ depthLimit

/-! Numbers and dates. -/

def addDigit? (base value : Nat) (c : Char) : Option Nat :=
  (hexValue? c).bind fun d => if d < base then some (base * value + d) else none

def digits? (base : Nat) (value : Nat) : List Char → Option Nat
  | [] => none
  | [c] => addDigit? base value c
  | c :: '_' :: cs => (addDigit? base value c).bind fun value => digits? base value cs
  | c :: cs => (addDigit? base value c).bind fun value => digits? base value cs

def decimal? (cs : List Char) : Option Nat :=
  match cs with
  | '0' :: _ :: _ => none
  | _ => digits? 10 0 cs

/-- Integers have 64 bits. -/
def inRange (n : Int) : Option Int :=
  if Int64.minValue.toInt ≤ n ∧ n ≤ Int64.maxValue.toInt then some n else none

def integer? : List Char → Option Int
  | '0' :: 'x' :: cs => (digits? 16 0 cs).bind fun n => inRange n
  | '0' :: 'o' :: cs => (digits? 8 0 cs).bind fun n => inRange n
  | '0' :: 'b' :: cs => (digits? 2 0 cs).bind fun n => inRange n
  | '+' :: cs => (decimal? cs).bind fun n => inRange n
  | '-' :: cs => (decimal? cs).bind fun n => inRange (-n)
  | cs => (decimal? cs).bind fun n => inRange n

def dropSign : List Char → List Char
  | '+' :: cs | '-' :: cs => cs
  | cs => cs

/-- The number `digits * 10 ^ exponent`. -/
structure Decimal where
  digits : Nat
  exponent : Int
  deriving DecidableEq, Repr

/-- The least number that is rounded up past every float of 64 bits. -/
def floatLimit : Nat := Nat.pow 2 1024 - Nat.pow 2 970

/-- Whether a number reaches `floatLimit`. Exponents far from zero are decided without the power. -/
def Decimal.overflows (number : Decimal) : Bool :=
  match number.exponent with
  | .ofNat e =>
    number.digits ≠ 0 && (400 < e || floatLimit ≤ number.digits * Nat.pow 10 e)
  | .negSucc e =>
    e < number.digits.log2 && floatLimit * Nat.pow 10 (e + 1) ≤ number.digits

def isDigitPart (c : Char) : Bool := c.isDigit || c = '_'

def exponent? : List Char → Option Int
  | [] => some 0
  | e :: cs =>
    if e ≠ 'e' ∧ e ≠ 'E' then none
    else
      let size := (digits? 10 0 (dropSign cs)).map Int.ofNat
      if cs.head? = some '-' then size.map (- ·) else size

def decimalTail? (whole : Nat) : List Char → Option Decimal
  | [] => none
  | '.' :: cs => do
    let fraction := cs.takeWhile isDigitPart
    let digits ← digits? 10 whole fraction
    let exponent ← exponent? (cs.dropWhile isDigitPart)
    return ⟨digits, exponent - (fraction.filter Char.isDigit).length⟩
  | cs => (exponent? cs).map (⟨whole, ·⟩)

/-- A number may be too small for 64 bits, but not too large. -/
def isFraction (cs : List Char) : Bool :=
  let unsigned := dropSign cs
  let number := do
    let whole ← decimal? (unsigned.takeWhile isDigitPart)
    decimalTail? whole (unsigned.dropWhile isDigitPart)
  unsigned = "inf".toList || unsigned = "nan".toList ||
    number.any fun number => cs.head? = some '-' || !number.overflows

def fixedDigits (n : Nat) (cs : List Char) : Option (Nat × List Char) :=
  if (cs.take n).length = n ∧ (cs.take n).all Char.isDigit then
    (digits? 10 0 (cs.take n)).map (·, cs.drop n)
  else none

def daysIn (year month : Nat) : Nat :=
  if month = 2 then
    if year % 4 = 0 ∧ (year % 100 ≠ 0 ∨ year % 400 = 0) then 29 else 28
  else if month = 4 ∨ month = 6 ∨ month = 9 ∨ month = 11 then 30 else 31

def date? (cs : List Char) : Option (List Char) := do
  let (year, cs) ← fixedDigits 4 cs
  match cs with
  | '-' :: cs => do
    let (month, cs) ← fixedDigits 2 cs
    match cs with
    | '-' :: cs => do
      let (day, cs) ← fixedDigits 2 cs
      if 1 ≤ month ∧ month ≤ 12 ∧ 1 ≤ day ∧ day ≤ daysIn year month then some cs else none
    | _ => none
  | _ => none

def time? (cs : List Char) : Option (List Char) := do
  let (hour, cs) ← fixedDigits 2 cs
  match cs with
  | ':' :: cs => do
    let (minute, cs) ← fixedDigits 2 cs
    match cs with
    | ':' :: cs => do
      let (second, cs) ← fixedDigits 2 cs
      if 23 < hour ∨ 59 < minute ∨ 60 < second then none
      else
        match cs with
        | '.' :: rest =>
          if (rest.takeWhile Char.isDigit) = [] then none else some (rest.dropWhile Char.isDigit)
        | _ => some cs
    | _ => none
  | _ => none

def isOffset : List Char → Bool
  | [] | ['Z'] | ['z'] => true
  | sign :: cs =>
    (sign = '+' || sign = '-') &&
      match fixedDigits 2 cs with
      | some (hour, ':' :: cs) =>
        match fixedDigits 2 cs with
        | some (minute, []) => hour ≤ 23 && minute ≤ 59
        | _ => false
      | _ => false

def isDateTime (cs : List Char) : Bool :=
  match date? cs with
  | none => time? cs = some []
  | some [] => true
  | some (t :: cs) =>
    (t = 'T' || t = 't' || t = ' ') &&
      match time? cs with
      | some rest => isOffset rest
      | none => false

def isScalarChar (c : Char) : Bool :=
  c.isAlphanum || c = '+' || c = '-' || c = '.' || c = '_' || c = ':'

/-- A scalar without quotes ends where no such character follows; one blank may part a date from its
time. -/
def scalarText (cs : List Char) : List Char × List Char :=
  let text := cs.takeWhile isScalarChar
  let rest := cs.dropWhile isScalarChar
  match rest with
  | ' ' :: next =>
    if date? text = some [] ∧ (next.take 1).all Char.isDigit ∧ next ≠ [] then
      (text ++ ' ' :: next.takeWhile isScalarChar, next.dropWhile isScalarChar)
    else (text, rest)
  | _ => (text, rest)

def scalar? (cs : List Char) : Option (Toml × List Char) :=
  let (text, rest) := scalarText cs
  if text = "true".toList then some (.boolean true, rest)
  else if text = "false".toList then some (.boolean false, rest)
  else
    match integer? text with
    | some n => some (.integer n, rest)
    | none =>
      if isFraction text then some (.fraction, rest)
      else if isDateTime text then some (.moment, rest)
      else none

/-! Values. -/

def skipFiller : Nat → List Char → List Char
  | 0, cs => cs
  | n + 1, cs =>
    match skipComment (skipSpaces cs) with
    | [] => []
    | rest =>
      match newline? rest with
      | some rest => skipFiller n rest
      | none => rest

mutual

/-- A value; `depth` is how many more levels of arrays and inline tables it may have. -/
def value? : Nat → Nat → List Char → Option (Toml × List Char)
  | 0, _, _ => none
  | n + 1, depth, cs =>
    match cs, depth with
    | '"' :: _, _ | '\'' :: _, _ =>
      (string? (n + 1) cs).map fun (text, rest) => (.string text, rest)
    | '[' :: _, 0 | '\x7b' :: _, 0 => none
    | '[' :: rest, depth + 1 =>
      (items? n depth (skipFiller n rest)).map fun (items, rest) => (.array items, rest)
    | '\x7b' :: rest, depth + 1 =>
      match skipSpaces rest with
      | '\x7d' :: rest => some (.table .inline [], rest)
      | rest => (pairs? n depth [] rest).map fun (entries, rest) => (.table .inline entries, rest)
    | _, _ => scalar? cs

def items? : Nat → Nat → List Char → Option (List Toml × List Char)
  | 0, _, _ => none
  | n + 1, depth, cs =>
    match cs with
    | ']' :: rest => some ([], rest)
    | _ => do
      let (first, rest) ← value? n depth cs
      match skipFiller n rest with
      | ',' :: rest => do
        let (items, rest) ← items? n depth (skipFiller n rest)
        return (first :: items, rest)
      | ']' :: rest => return ([first], rest)
      | _ => none

def pairs? : Nat → Nat → Entries → List Char → Option (Entries × List Char)
  | 0, _, _, _ => none
  | n + 1, depth, entries, cs => do
    let (keys, rest) ← key? (n + 1) cs
    match skipSpaces rest with
    | '=' :: rest => do
      let (value, rest) ← value? n depth (skipSpaces rest)
      let key ← keys.getLast?
      let entries ← assign keys.dropLast key value .header entries
      match skipSpaces rest with
      | ',' :: rest => pairs? n depth entries rest
      | '\x7d' :: rest => return (entries, rest)
      | _ => none
    | _ => none

end

/-! Documents. -/

/-- The table being filled, and the whole document so far. -/
structure Document where
  current : List String := []
  entries : Entries := []

def header? (n : Nat) (doc : Document) (cs : List Char) : Option (Document × List Char) :=
  match cs with
  | '[' :: cs => do
    let (keys, rest) ← key? n cs
    let key ← keys.getLast?
    match rest with
    | ']' :: ']' :: rest => do
      let entries ← openItem keys.dropLast key doc.entries
      return (⟨keys, entries⟩, rest)
    | _ => none
  | _ => do
    let (keys, rest) ← key? n cs
    let key ← keys.getLast?
    match rest with
    | ']' :: rest => do
      let entries ← openTable keys.dropLast key doc.entries
      return (⟨keys, entries⟩, rest)
    | _ => none

def assignment? (n : Nat) (doc : Document) (cs : List Char) : Option (Document × List Char) := do
  let (keys, rest) ← key? n cs
  match rest with
  | '=' :: rest => do
    let (value, rest) ← value? n depthLimit (skipSpaces rest)
    let key ← keys.getLast?
    let entries ← descend false (assign keys.dropLast key value) doc.current .header doc.entries
    return ({ doc with entries }, rest)
  | _ => none

/-- Statement after statement, each on a line of its own. -/
def document? : Nat → Document → List Char → Option Entries
  | 0, _, _ => none
  | n + 1, doc, cs =>
    match skipSpaces cs with
    | [] => some doc.entries
    | '[' :: rest => do
      let (doc, rest) ← header? (n + 1) doc rest
      let rest ← endLine? rest
      document? n doc rest
    | c :: rest =>
      if c = '#' ∨ c = '\n' ∨ c = '\r' then do
        let rest ← endLine? (c :: rest)
        document? n doc rest
      else do
        let (doc, rest) ← assignment? (n + 1) doc (c :: rest)
        let rest ← endLine? rest
        document? n doc rest

def ofText? (text : String) : Option Entries :=
  let cs := match text.toList with
    | c :: cs => if c = Char.ofNat 0xFEFF then cs else c :: cs
    | [] => []
  document? (cs.length + 2) {} cs

end Toml

end ToyUnix
