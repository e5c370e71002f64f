import ToyUnix.Shell.Quoting
import ToyUnix.Shell.Token

/-!
From segments to tokens. Only text outside quotes holds operators, variables and blanks; a quoted
segment is one token.
-/

set_option autoImplicit false

namespace ToyUnix

/-- ASCII letters and the underscore begin a name, digits may follow. -/
def isNameStart (c : Char) : Bool := c.isAlpha || c = '_'

theorem le_of_isNameStart {c : Char} (h : isNameStart c = true) : 65 ≤ c.val.toNat := by
  obtain h | h := Bool.or_eq_true_iff.1 h
  · obtain h | h := Bool.or_eq_true_iff.1 (show (c.isUpper || c.isLower) = true from h)
    · exact UInt32.le_iff_toNat_le.1 (of_decide_eq_true h).1
    · have hlower : 97 ≤ c.val.toNat :=
        UInt32.le_iff_toNat_le.1 (of_decide_eq_true (Bool.and_eq_true_iff.1 h).1)
      omega
  · have hunderscore : c = '_' := of_decide_eq_true h
    rw [hunderscore]
    decide

def isNameChar (c : Char) : Bool := c.isAlphanum || c = '_'

def isIdentifier (text : String) : Bool :=
  match text.toList with
  | [] => false
  | c :: cs => isNameStart c && cs.all isNameChar

/-- The names that are a single character. -/
def isSpecialName (c : Char) : Bool :=
  c.isDigit || c = '?' || c = '#' || c = '@' || c = '$' || c = '!'

/-- The variable that the characters after a `$` name, and how many of them do. -/
def variableAfter : List Char → Option (Nat × String)
  | '{' :: cs =>
    let name := cs.takeWhile (· ≠ '}')
    if name = [] ∨ name.length = cs.length then none
    else some (name.length + 2, String.ofList name)
  | c :: cs =>
    if isNameStart c then
      let name := c :: cs.takeWhile isNameChar
      some (name.length, String.ofList name)
    else if isSpecialName c then some (1, String.ofList [c])
    else none
  | [] => none

namespace Token

def isSpace (c : Char) : Bool := c = ' ' || c = '\t' || c = '\r'

/-- The token of an operator that the text begins with, and the number of its characters. -/
def operator? (options : ParseOptions) : List Char → Option (TokenKind × Nat × String)
  | [] => none
  | c :: cs =>
    let single (kind : TokenKind) : Option (TokenKind × Nat × String) :=
      some (kind, 1, String.ofList [c])
    let twice (kind : TokenKind) : Option (TokenKind × Nat × String) :=
      some (kind, 2, String.ofList [c, c])
    match c with
    | '\n' => single .newline
    | '|' =>
      if cs.head? = some '|' then twice .logicalOr
      else if options.pipes then single .pipe else none
    | '&' => if cs.head? = some '&' then twice .logicalAnd else single .parallel
    | ';' => single .sequential
    | '>' =>
      if !options.redirection then none
      else if cs.head? = some '>' then twice .append else single .overwrite
    | '<' => if options.redirection then single .fileInput else none
    | '(' => single .openParen
    | ')' => single .closeParen
    | '{' => single .openBrace
    | '}' => single .closeBrace
    | '[' => single .openBracket
    | ']' => single .closeBracket
    | '=' => single .assignment
    | '$' => (variableAfter cs).map fun (length, name) => (.variableAccess, length + 1, name)
    | _ =>
      if isSpace c then
        let blanks := (c :: cs).takeWhile isSpace
        some (.whitespace, blanks.length, String.ofList blanks)
      else none

def ofWord (word : List Char) (position : Nat) : List Token :=
  if word = [] then [] else [⟨.text, String.ofList word, position - word.length⟩]

/-- Tokens of an unquoted text. The word before `position` is `word`, and the first `skip`
characters belong to a token that is out already. -/
def classify (options : ParseOptions) (word : List Char) (position skip : Nat) :
    List Char → List Token
  | [] => ofWord word position
  | c :: cs =>
    match skip with
    | n + 1 => classify options word (position + 1) n cs
    | 0 =>
      match operator? options (c :: cs) with
      | none => classify options (word ++ [c]) (position + 1) 0 cs
      | some (kind, length, text) =>
        ofWord word position ++
          ⟨kind, text, position⟩ :: classify options [] (position + 1) (length - 1) cs

def ofSegment (options : ParseOptions) (segment : Segment) : List Token :=
  match segment.quoting with
  | .none => classify options [] segment.position 0 segment.text.toList
  | .double =>
    let kind := if options.expansionStrings then .expansionString else .text
    [⟨kind, segment.text, segment.position⟩]
  | .escaped | .single => [⟨.text, segment.text, segment.position⟩]

def ofSegments (options : ParseOptions) (segments : List Segment) : List Token :=
  segments.flatMap (ofSegment options)

end Token

/-- The tokens of a text without comments, or nothing when it is not complete. -/
def tokenize (options : ParseOptions) (text : String) : Option (List Token) :=
  (resolveQuoting text).map (Token.ofSegments options)

end ToyUnix
