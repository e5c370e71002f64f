import ToyUnix.Fault
import ToyUnix.Shell.Comment
import ToyUnix.Shell.Instruction
import ToyUnix.Shell.Lexer

/-!
The grammar of scripts, loosest binding first:

    list      := and_or ((';' | '&' | newline) and_or)*
    and_or    := pipeline (('&&' | '||') pipeline)*
    pipeline  := command ('|' command)*
    command   := '{' list '}' redirect*
               | '(' list ')' redirect*
               | NAME '(' ')' command
               | (NAME '=' word)* (word | redirect)*
    redirect  := ('>' | '>>' | '<') word

Every reader takes the tokens that are left and gives back those that it leaves. The mutually
recursive readers count their calls down; `Parser.budget` is more than the tokens can use up,
because a token is consumed at least every fourth call.
-/

set_option autoImplicit false

namespace ToyUnix

namespace Parser

def unexpected : List Token → Fault
  | [] => .badSyntax "unexpected end of file"
  | token :: _ =>
    let shown := if token.kind = .newline then "newline" else token.text
    .badSyntax ("near unexpected token \x60" ++ shown ++ "'")

def skipSpaces (tokens : List Token) : List Token :=
  tokens.dropWhile fun token => token.kind = .whitespace

def skipBlanks (tokens : List Token) : List Token :=
  tokens.dropWhile fun token => token.kind = .whitespace || token.kind = .newline

/-- Inside a group either closing token ends a list; the group then insists on its own. -/
def atListEnd (nested : Bool) : List Token → Bool
  | [] => true
  | token :: _ => nested && (token.kind = .closeBrace || token.kind = .closeParen)

/-- A literal joins the literal before it. -/
def pushLiteral (parts : List WordPart) (text : String) : List WordPart :=
  match parts.getLast? with
  | some (.literal before) => parts.dropLast ++ [.literal (before ++ text)]
  | _ => parts ++ [.literal text]

def pushPart (parts : List WordPart) : WordPart → List WordPart
  | .literal text => pushLiteral parts text
  | .variable name => parts ++ [.variable name]

/-- The characters that lose their backslash inside double quotes. -/
def isEscapable (c : Char) : Bool := c = '$' || c = '"' || c = '\\' || c = '\x60'

/-- The parts of a double-quoted body. The first `skip` characters belong to a variable that is out
already. -/
def expansionFrom (parts : List WordPart) (skip : Nat) : List Char → List WordPart
  | [] => parts
  | c :: cs =>
    match skip with
    | n + 1 => expansionFrom parts n cs
    | 0 =>
      if c = '\\' then
        match cs with
        | [] => pushLiteral parts "\\"
        | e :: rest =>
          if isEscapable e then expansionFrom (pushLiteral parts (String.ofList [e])) 0 rest
          else if e = '\n' then expansionFrom parts 0 rest
          else expansionFrom (pushLiteral parts (String.ofList ['\\', e])) 0 rest
      else if c = '$' then
        match variableAfter cs with
        | some (length, name) => expansionFrom (parts ++ [.variable name]) length cs
        | none => expansionFrom (pushLiteral parts "$") 0 cs
      else expansionFrom (pushLiteral parts (String.ofList [c])) 0 cs

def expansionParts (text : String) : List WordPart := expansionFrom [] 0 text.toList

/-- Adds one token to a word. Only a quoted segment has a text token without text. -/
def addToWord (word : Word) (token : Token) : Word :=
  match token.kind with
  | .variableAccess => { word with parts := word.parts ++ [.variable token.text] }
  | .expansionString => ⟨(expansionParts token.text).foldl pushPart word.parts, true⟩
  | .text =>
    if token.text = "" then { word with quoted := true }
    else { word with parts := pushLiteral word.parts token.text }
  | _ => { word with parts := pushLiteral word.parts token.text }

def wordOf (tokens : List Token) : Word := tokens.foldl addToWord {}

/-- The longest word that the tokens begin with. -/
def word? (tokens : List Token) : Option (Word × List Token) :=
  match tokens.takeWhile Token.isWordPart with
  | [] => none
  | parts => some (wordOf parts, tokens.dropWhile Token.isWordPart)

def assignmentName? : List Token → Option (String × List Token)
  | name :: sign :: rest =>
    if name.kind = .text ∧ isIdentifier name.text ∧ sign.kind = .assignment then
      some (name.text, rest)
    else none
  | _ => none

def redirectMode? : TokenKind → Option RedirectMode
  | .fileInput => some .input
  | .overwrite => some .overwrite
  | .append => some .append
  | _ => none

def redirectTarget (tokens : List Token) : Except Fault (Word × List Token) :=
  let tokens := skipSpaces tokens
  match word? tokens with
  | some found => .ok found
  | none => .error (unexpected tokens)

abbrev Redirect := RedirectMode × Word

/-- The first redirection ends up outermost, so the last one gets the output; all are opened. -/
def wrapRedirects (inner : Instruction) (redirects : List Redirect) : Instruction :=
  redirects.foldr (fun redirect inner => .redirect redirect.1 redirect.2 inner) inner

def redirects : Nat → List Token → Except Fault (List Redirect × List Token)
  | 0, tokens => .error (unexpected tokens)
  | n + 1, tokens =>
    match skipSpaces tokens with
    | [] => .ok ([], [])
    | token :: rest =>
      match redirectMode? token.kind with
      | none => .ok ([], token :: rest)
      | some mode => do
        let (target, rest) ← redirectTarget rest
        let (others, rest) ← redirects n rest
        return ((mode, target) :: others, rest)

/-- What a simple command consists of. -/
structure Simple where
  assignments : List (String × Word) := []
  words : List Word := []
  redirects : List Redirect := []
  deriving DecidableEq, Repr

def Simple.isEmpty (simple : Simple) : Bool :=
  simple.assignments.isEmpty && simple.words.isEmpty && simple.redirects.isEmpty

def Simple.toInstruction (simple : Simple) : Instruction :=
  wrapRedirects (.command simple.assignments simple.words) simple.redirects

/-- Assignments count as such only before the first word. Inside a group a closing brace where a
word could begin ends the command. -/
def simpleItems (nested : Bool) : Nat → Simple → List Token → Except Fault (Simple × List Token)
  | 0, _, tokens => .error (unexpected tokens)
  | n + 1, simple, tokens =>
    match skipSpaces tokens with
    | [] => .ok (simple, [])
    | token :: rest =>
      if nested && token.kind = .closeBrace then .ok (simple, token :: rest)
      else
        match redirectMode? token.kind with
        | some mode => do
          let (target, rest) ← redirectTarget rest
          simpleItems nested n
            { simple with redirects := simple.redirects ++ [(mode, target)] } rest
        | none =>
          if simple.words.isEmpty then
            match assignmentName? (token :: rest) with
            | some (name, rest) =>
              let (value, rest) := (word? rest).getD ({}, rest)
              simpleItems nested n
                { simple with assignments := simple.assignments ++ [(name, value)] } rest
            | none =>
              match word? (token :: rest) with
              | none => .ok (simple, token :: rest)
              | some (word, rest) =>
                simpleItems nested n { simple with words := simple.words ++ [word] } rest
          else
            match word? (token :: rest) with
            | none => .ok (simple, token :: rest)
            | some (word, rest) =>
              simpleItems nested n { simple with words := simple.words ++ [word] } rest

def simpleCommand (nested : Bool) (tokens : List Token) :
    Except Fault (Instruction × List Token) := do
  let (simple, rest) ← simpleItems nested (tokens.length + 1) {} tokens
  if simple.isEmpty then .error (unexpected rest) else .ok (simple.toInstruction, rest)

/-- `NAME ( )`, the name and parentheses apart by spaces at most. -/
def functionHeader? : List Token → Option (String × List Token)
  | [] => none
  | name :: rest =>
    if !(name.kind = .text && isIdentifier name.text) then none
    else
      match skipSpaces rest with
      | openParen :: rest =>
        if openParen.kind ≠ .openParen then none
        else
          match skipSpaces rest with
          | closeParen :: rest =>
            if closeParen.kind = .closeParen then some (name.text, rest) else none
          | [] => none
      | [] => none

def expect (kind : TokenKind) (tokens : List Token) : Except Fault (List Token) :=
  match skipBlanks tokens with
  | [] => .error (unexpected [])
  | token :: rest => if token.kind = kind then .ok rest else .error (unexpected (token :: rest))

/-- How a list goes on after a command; every other token ends it. -/
def separator? : TokenKind → Option (Instruction → Instruction → Instruction)
  | .sequential | .newline => some .sequential
  | .parallel => some .parallel
  | _ => none

def logic? : TokenKind → Option Logic
  | .logicalAnd => some .and
  | .logicalOr => some .or
  | _ => none

mutual

def list : Nat → Bool → List Token → Except Fault (Instruction × List Token)
  | 0, _, tokens => .error (unexpected tokens)
  | n + 1, nested, tokens =>
    let tokens := skipBlanks tokens
    if atListEnd nested tokens then .ok (.empty, tokens)
    else do
      let (first, rest) ← andOr n nested tokens
      match skipSpaces rest with
      | [] => .ok (first, [])
      | token :: rest =>
        match separator? token.kind with
        | none => .ok (first, token :: rest)
        | some join =>
          let rest := skipBlanks rest
          if atListEnd nested rest then .ok (first, rest)
          else do
            let (next, rest) ← list n nested rest
            return (join first next, rest)

def andOr : Nat → Bool → List Token → Except Fault (Instruction × List Token)
  | 0, _, tokens => .error (unexpected tokens)
  | n + 1, nested, tokens => do
    let (left, rest) ← pipeline n nested tokens
    andOrRest n nested left rest

def andOrRest : Nat → Bool → Instruction → List Token → Except Fault (Instruction × List Token)
  | 0, _, _, tokens => .error (unexpected tokens)
  | n + 1, nested, left, tokens =>
    match skipSpaces tokens with
    | [] => .ok (left, [])
    | token :: rest =>
      match logic? token.kind with
      | none => .ok (left, token :: rest)
      | some logic => do
        let (right, rest) ← pipeline n nested (skipBlanks rest)
        andOrRest n nested (.conditional logic left right) rest

def pipeline : Nat → Bool → List Token → Except Fault (Instruction × List Token)
  | 0, _, tokens => .error (unexpected tokens)
  | n + 1, nested, tokens => do
    let (left, rest) ← command n nested tokens
    pipelineRest n nested left rest

def pipelineRest : Nat → Bool → Instruction → List Token → Except Fault (Instruction × List Token)
  | 0, _, _, tokens => .error (unexpected tokens)
  | n + 1, nested, left, tokens =>
    match skipSpaces tokens with
    | [] => .ok (left, [])
    | token :: rest =>
      if token.kind = .pipe then do
        let (right, rest) ← command n nested (skipBlanks rest)
        pipelineRest n nested (.pipe left right) rest
      else .ok (left, token :: rest)

def command : Nat → Bool → List Token → Except Fault (Instruction × List Token)
  | 0, _, tokens => .error (unexpected tokens)
  | n + 1, nested, tokens =>
    match skipSpaces tokens with
    | [] => simpleCommand nested []
    | token :: rest =>
      match token.kind with
      | .openBrace => do
        let (body, rest) ← list n true rest
        let rest ← expect .closeBrace rest
        let (found, rest) ← redirects (rest.length + 1) rest
        return (wrapRedirects body found, rest)
      | .openParen => do
        let (body, rest) ← list n true rest
        let rest ← expect .closeParen rest
        let (found, rest) ← redirects (rest.length + 1) rest
        return (wrapRedirects (.scoped body) found, rest)
      | _ =>
        match functionHeader? (token :: rest) with
        | some (name, rest) => do
          let (body, rest) ← command n nested (skipBlanks rest)
          return (.function name body, rest)
        | none => simpleCommand nested (token :: rest)

end

def budget (tokens : List Token) : Nat := 8 * (tokens.length + 1)

end Parser

/-- The tree of a token list; with `localScope` the whole runs in a scope of its own. -/
def parse (tokens : List Token) (localScope : Bool) : Except Fault Instruction := do
  let (tree, rest) ← Parser.list (Parser.budget tokens) false tokens
  match Parser.skipBlanks rest with
  | [] => return if localScope then .scoped tree else tree
  | rest => .error (Parser.unexpected rest)

def parseScript (options : ParseOptions) (text : String) (localScope : Bool) :
    Except Fault Instruction :=
  match tokenize options (stripComments text) with
  | some tokens => parse tokens localScope
  | none => .error (Parser.unexpected [])

end ToyUnix
