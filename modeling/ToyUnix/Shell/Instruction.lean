import ToyUnix.Path

/-!
Scripts as trees, and how the words of a command turn into text.
-/

set_option autoImplicit false

namespace ToyUnix

inductive WordPart
  | literal (text : String)
  | variable (name : String)
  deriving DecidableEq, Repr

/-- A word of a command; one with a quoted part stays even if it expands to nothing. -/
structure Word where
  parts : List WordPart := []
  quoted : Bool := false
  deriving DecidableEq, Repr

inductive RedirectMode
  | input
  | overwrite
  | append
  deriving DecidableEq, Repr

inductive Logic
  | and
  | or
  deriving DecidableEq, Repr

inductive Instruction
  | empty
  | command (assignments : List (String × Word)) (words : List Word)
  | pipe (left right : Instruction)
  | sequential (first next : Instruction)
  | parallel (first next : Instruction)
  | conditional (logic : Logic) (left right : Instruction)
  | redirect (mode : RedirectMode) (target : Word) (inner : Instruction)
  | function (name : String) (body : Instruction)
  /-- Runs in a scope of its own, which takes what it declares. -/
  | scoped (inner : Instruction)
  deriving DecidableEq, Repr

/-- A variable without a value has none of the text of one. -/
abbrev Lookup := String → Option String

/-- The home directory for `~`, and what is below it for `~/`. -/
def expandTilde (home text : String) : String :=
  match text.toList with
  | ['~'] => home
  | '~' :: '/' :: rest => PathText.combine home (String.ofList rest)
  | _ => text

namespace WordPart

def expand (lookup : Lookup) : WordPart → String
  | .literal text => text
  | .variable name => (lookup name).getD ""

end WordPart

def expandParts (lookup : Lookup) : List WordPart → String
  | [] => ""
  | part :: parts => part.expand lookup ++ expandParts lookup parts

namespace Word

def ofText (text : String) : Word := ⟨[.literal text], false⟩

def literalText? : List WordPart → Option String
  | [] => some ""
  | .literal text :: parts => (literalText? parts).map (text ++ ·)
  | .variable _ :: _ => none

def asLiteral? (word : Word) : Option String := literalText? word.parts

/-- Only a literal at the very start of an unquoted word has a tilde to expand. -/
def expand (home : String) (lookup : Lookup) (word : Word) : String :=
  match word.parts with
  | .literal text :: parts =>
    (if word.quoted then text else expandTilde home text) ++ expandParts lookup parts
  | parts => expandParts lookup parts

end Word

/-- Unquoted words that expand to nothing are dropped. -/
def expandWords (home : String) (lookup : Lookup) (words : List Word) : List String :=
  words.filterMap fun word =>
    let text := word.expand home lookup
    if word.quoted || text ≠ "" then some text else none

end ToyUnix
