/-!
Tokens of the shell language: a kind, the text that matters, and the place in the input.
-/

set_option autoImplicit false

namespace ToyUnix

inductive TokenKind
  | text
  | whitespace
  | newline
  | pipe
  | overwrite
  | append
  | fileInput
  | parallel
  | sequential
  | logicalAnd
  | logicalOr
  /-- `$name` and its like; the text is the name. -/
  | variableAccess
  | assignment
  | openParen
  | closeParen
  | openBrace
  | closeBrace
  | openBracket
  | closeBracket
  /-- The inside of double quotes, its escapes and variables not resolved yet. -/
  | expansionString
  deriving DecidableEq, Repr

structure Token where
  kind : TokenKind
  text : String
  position : Nat
  deriving DecidableEq, Repr

/-- Tokens of these kinds make up words when they stand side by side. -/
def TokenKind.isWordPart : TokenKind → Bool
  | .text | .variableAccess | .expansionString | .assignment => true
  | .openBracket | .closeBracket | .openBrace | .closeBrace => true
  | _ => false

def Token.isWordPart (token : Token) : Bool := token.kind.isWordPart

/-- Which punctuation is recognized beyond the basic one. -/
structure ParseOptions where
  /-- Variables are expanded inside double quotes. -/
  expansionStrings : Bool := true
  /-- `>`, `>>` and `<` are operators. -/
  redirection : Bool := true
  /-- `|` is an operator. -/
  pipes : Bool := true
  deriving DecidableEq, Repr

end ToyUnix
