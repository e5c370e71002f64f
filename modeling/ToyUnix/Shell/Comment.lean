import ToyUnix.Text.Blank
import ToyUnix.Text.Lines

/-!
Comments. A `#` that begins a word outside quotes hides the rest of its line. Lines that end up
blank are dropped, except within an open quote, where a line is kept as it is.
-/

set_option autoImplicit false

namespace ToyUnix

namespace Comment

/-- What stands before the first letter of a word. -/
def startsWord : Option Char → Bool
  | none => true
  | some c => isBlank c || c = ';' || c = '&' || c = '|' || c = '(' || c = ')'

/-- The state within a line: the open quote, the character before, and whether a backslash makes the
next character ordinary. -/
structure Scan where
  quote : Option Char
  before : Option Char := none
  escaped : Bool := false
  deriving DecidableEq, Repr

inductive Effect
  | goOn (quote : Option Char) (escaped : Bool)
  | comment
  deriving DecidableEq, Repr

def Scan.effect (scan : Scan) (c : Char) : Effect :=
  if scan.escaped then .goOn scan.quote false
  else
    match scan.quote with
    | some q =>
      if c = q then .goOn none false
      else .goOn scan.quote (q = '"' && c = '\\')
    | none =>
      if c = '\'' ∨ c = '"' then .goOn (some c) false
      else if c = '\\' then .goOn none true
      else if c = '#' ∧ startsWord scan.before then .comment
      else .goOn none false

/-- What is kept of a line, and the quote that is open at its end. -/
def keepLine (scan : Scan) : List Char → List Char × Option Char
  | [] => ([], scan.quote)
  | c :: cs =>
    match scan.effect c with
    | .comment => ([], scan.quote)
    | .goOn quote escaped =>
      let (kept, open_) := keepLine ⟨quote, some c, escaped⟩ cs
      (c :: kept, open_)

def trimEnd (cs : List Char) : List Char := (cs.reverse.dropWhile isBlank).reverse

def keepLines (quote : Option Char) : List (List Char) → List (List Char)
  | [] => []
  | line :: lines =>
    let (kept, quoteAfter) := keepLine ⟨quote, none, false⟩ line
    let rest := keepLines quoteAfter lines
    if quote.isSome || quoteAfter.isSome then kept :: rest
    else if kept.all isBlank then rest
    else trimEnd kept :: rest

end Comment

def joinLines : List (List Char) → List Char
  | [] => []
  | [line] => line
  | line :: lines => line ++ '\n' :: joinLines lines

def stripComments (text : String) : String :=
  String.ofList (joinLines (Comment.keepLines none (linesFrom [] text.toList)))

end ToyUnix
