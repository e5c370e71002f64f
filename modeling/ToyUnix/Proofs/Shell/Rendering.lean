import ToyUnix.Proofs.Shell.Literal
import ToyUnix.Proofs.Shell.Spelling

/-!
Trees written down. Whatever is not a simple command stands in braces or parentheses, letters of a
word stand behind a backslash, and no two tokens touch that could be taken for one. So the lexer finds
in the text the tokens that it was written with: see `tokenize_glyphs`.
-/

set_option autoImplicit false

namespace ToyUnix

/-! What can be written. -/

/-- An identifier, the number of an argument, or a name of one character. -/
def isVariableName (name : String) : Bool :=
  isIdentifier name || (name ≠ "" && name.toList.all Char.isDigit) ||
    ["?", "#", "@", "$", "!"].contains name

def WordPart.isExpressible : WordPart → Bool
  | .literal text => text ≠ ""
  | .variable name => isVariableName name

/-- No literal stands right behind another one. -/
def WordPart.apart : List WordPart → Bool
  | .literal _ :: .literal _ :: _ => false
  | _ :: parts => apart parts
  | [] => true

namespace Word

def isExpressible (word : Word) : Bool :=
  word.parts.all WordPart.isExpressible && WordPart.apart word.parts

def isPresent (word : Word) : Bool := word.quoted || word.parts ≠ []

end Word

/-- Commands have an assignment or a word at least, names are names, and words are there, other than
as the value of an assignment. -/
def Instruction.isExpressible : Instruction → Bool
  | .empty => true
  | .command assignments words =>
    (assignments ≠ [] || words ≠ []) &&
      assignments.all (fun a => isIdentifier a.1 && a.2.isExpressible) &&
      words.all fun word => word.isExpressible && word.isPresent
  | .pipe left right => left.isExpressible && right.isExpressible
  | .sequential first next => first.isExpressible && next.isExpressible
  | .parallel first next => first.isExpressible && next.isExpressible
  | .conditional _ left right => left.isExpressible && right.isExpressible
  | .redirect _ target inner => target.isExpressible && target.isPresent && inner.isExpressible
  | .function name body => isIdentifier name && body.isExpressible
  | .scoped inner => inner.isExpressible

/-! Glyphs. -/

/-- What a script is written with. -/
inductive Glyph
  | space
  | symbol (sign : TokenKind × List Char)
  | assign (name : String)
  | header (name : String)
  | letter (c : Char)
  | access (name : String)
  /-- Quotes with nothing inside. -/
  | quotes
  deriving DecidableEq, Repr

namespace Glyph

/-- The space behind a symbol keeps it apart from the next one. -/
def chars : Glyph → List Char
  | .space => [' ']
  | .symbol sign => sign.2 ++ [' ']
  | .assign name => name.toList ++ ['=']
  | .header name => name.toList ++ ['(', ')', ' ']
  | .letter c => if c = '\n' then ['\'', '\n', '\''] else ['\\', c]
  | .access name => '$' :: '{' :: (name.toList ++ ['}'])
  | .quotes => ['"', '"']

def marks : Glyph → List Mark
  | .space => [(.whitespace, "")]
  | .symbol sign => [(sign.1, String.ofList sign.2), (.whitespace, "")]
  | .assign name => [(.text, name), (.assignment, "=")]
  | .header name => [(.text, name), (.openParen, "("), (.closeParen, ")"), (.whitespace, "")]
  | .letter c => [(.text, String.ofList [c])]
  | .access name => [(.variableAccess, name)]
  | .quotes => [(.expansionString, "")]

def Fits : Glyph → Prop
  | .symbol sign => sign ∈ Token.symbols {}
  | .assign name | .header name => isIdentifier name = true
  | .access name => isVariableName name = true
  | .space | .letter _ | .quotes => True

end Glyph

def WordPart.glyphs : WordPart → List Glyph
  | .literal text => text.toList.map .letter
  | .variable name => [.access name]

def Word.glyphs (word : Word) : List Glyph :=
  (if word.quoted then [.quotes] else []) ++ word.parts.flatMap WordPart.glyphs

def RedirectMode.sign : RedirectMode → TokenKind × List Char
  | .input => (.fileInput, ['<'])
  | .overwrite => (.overwrite, ['>'])
  | .append => (.append, ['>', '>'])

def Logic.sign : Logic → TokenKind × List Char
  | .and => (.logicalAnd, ['&', '&'])
  | .or => (.logicalOr, ['|', '|'])

namespace Glyph

def enclosed (opening closing : TokenKind × List Char) (inside : List Glyph) : List Glyph :=
  .symbol opening :: (inside ++ [.symbol closing])

def braces : List Glyph → List Glyph := enclosed (.openBrace, ['{']) (.closeBrace, ['}'])

def parentheses : List Glyph → List Glyph := enclosed (.openParen, ['(']) (.closeParen, [')'])

/-- Two commands with a symbol between them. -/
def infixed (sign : TokenKind × List Char) (left right : List Glyph) : List Glyph :=
  braces (left ++ .symbol sign :: right)

end Glyph

namespace Instruction

open Glyph (braces parentheses infixed)

def glyphs : Instruction → List Glyph
  | .empty => braces []
  | .command assignments words =>
    assignments.flatMap (fun a => .assign a.1 :: (a.2.glyphs ++ [.space])) ++
      words.flatMap fun word => word.glyphs ++ [.space]
  | .pipe left right => infixed (.pipe, ['|']) left.glyphs right.glyphs
  | .sequential first next => infixed (.sequential, [';']) first.glyphs next.glyphs
  | .parallel first next => infixed (.parallel, ['&']) first.glyphs next.glyphs
  | .conditional logic left right => infixed logic.sign left.glyphs right.glyphs
  | .redirect mode target inner =>
    braces inner.glyphs ++ .symbol mode.sign :: (target.glyphs ++ [.space])
  | .function name body => .header name :: body.glyphs
  | .scoped inner => parentheses inner.glyphs

def render (tree : Instruction) : String := String.ofList (tree.glyphs.flatMap Glyph.chars)

end Instruction

/-! What the lexer finds. -/

open Mark (put putWord)
open ToyUnix.Parser (tokensOf)

namespace Token

theorem isBare_of_isNameChar {c : Char} (h : isNameChar c = true) : isBare c = true := by
  have hgap := (Thinned.not_gap_of_name h).2
  simp only [isGapChar, Bool.or_eq_false_iff] at hgap
  have hother : "\n|&;><()\x7b\x7d[]=$".toList.contains c = false := by
    cases hmem : "\n|&;><()\x7b\x7d[]=$".toList.contains c with
    | false => rfl
    | true =>
      have hall : "\n|&;><()\x7b\x7d[]=$".toList.all (fun d => !isNameChar d) = true := by decide
      have hc := List.all_eq_true.1 hall c (by simpa using hmem)
      simp [h] at hc
  rw [isBare, (Thinned.not_gap_of_name h).1, hgap.1, hother]
  rfl

theorem ne_empty_of_isIdentifier {name : String} (h : isIdentifier name = true) : name ≠ "" := by
  rintro rfl
  cases h

theorem isPlain_of_isVariableName {name : String} (h : isVariableName name = true) :
    name.toList ≠ [] ∧ ∀ c ∈ name.toList, isPlain c = true ∧ c ≠ '}' := by
  simp only [isVariableName, Bool.or_eq_true, Bool.and_eq_true, List.all_eq_true,
    decide_eq_true_eq] at h
  have hletter : ∀ {c : Char}, isNameChar c = true → isPlain c = true ∧ c ≠ '}' := by
    intro c hc
    refine ⟨(Thinned.not_gap_of_name hc).1, ?_⟩
    rintro rfl
    cases hc
  rcases h with (h | h) | h
  · exact ⟨by simpa using ne_empty_of_isIdentifier h,
      fun c hc => hletter (isNameChar_of_isIdentifier h hc)⟩
  · refine ⟨by simpa using h.1, fun c hc => hletter ?_⟩
    simp [isNameChar, Char.isAlphanum, h.2 c hc]
  · have hall : ["?", "#", "@", "$", "!"].all (fun name =>
        name.toList ≠ [] && name.toList.all fun c => isPlain c && c ≠ '}') = true := by decide
    simpa using List.all_eq_true.1 hall name (by simpa using h)

end Token

namespace Glyph

open Token (outlineFrom onto isPlain)

variable {cs : List Char}

theorem putWord_name {name : String} (h : isIdentifier name = true) (rest : List Mark) :
    putWord name.toList rest = put (.text, name) rest := by
  have hgap : TokenKind.isGap .text = false := rfl
  have hsome : name.toList ≠ [] := by simpa using Token.ne_empty_of_isIdentifier h
  rw [putWord, if_neg hsome, String.ofList_toList, Mark.put_of_not_gap hgap]

theorem outlineFrom_name {name : String} (h : isIdentifier name = true) {c : Char}
    (hc : isPlain c = true) {kind : TokenKind} {text : String}
    (hoperator : ∀ rest, Token.operator? {} (c :: rest) = some (kind, 1, text)) :
    outlineFrom {} (.plain [] 0) (name.toList ++ c :: cs) =
      (outlineFrom {} (.plain [] 0) cs).map fun rest =>
        put (.text, name) (put (kind, text) rest) := by
  have hbare : ∀ c ∈ name.toList, isBare c = true := fun c hc =>
    Token.isBare_of_isNameChar (Token.isNameChar_of_isIdentifier h hc)
  rw [Token.outlineFrom_bare hbare, List.nil_append, Token.outlineFrom_operator hc (hoperator _)]
  simp only [putWord_name h]
  rfl

theorem outlineFrom_sign {c : Char} (hc : isPlain c = true) {kind : TokenKind} {text : String}
    (hoperator : ∀ rest, Token.operator? {} (c :: rest) = some (kind, 1, text)) :
    outlineFrom {} (.plain [] 0) (c :: cs) =
      (outlineFrom {} (.plain [] 0) cs).map (put (kind, text)) :=
  Token.outlineFrom_operator hc (hoperator _)

theorem outlineFrom_space :
    outlineFrom {} (.plain [] 0) (' ' :: cs) =
      (outlineFrom {} (.plain [] 0) cs).map (put (.whitespace, "")) :=
  Token.outlineFrom_space rfl [] cs

theorem outlineFrom_symbol {sign : TokenKind × List Char} (h : (symbol sign).Fits) :
    outlineFrom {} (.plain [] 0) ((symbol sign).chars ++ cs) =
      (outlineFrom {} (.plain [] 0) cs).map (onto (tokensOf (symbol sign).marks)) := by
  obtain ⟨-, hsome, hplain⟩ := Token.isPlain_of_mem_symbols h
  obtain ⟨kind, text⟩ := sign
  obtain ⟨c, text, rfl⟩ := List.exists_cons_of_ne_nil hsome
  obtain ⟨hc, htext⟩ := List.forall_mem_cons.1 hplain
  have hoperator := Token.operator?_symbol h (cs.takeWhile isPlain)
  have hstretch : (text ++ ' ' :: cs).takeWhile isPlain = text ++ ' ' :: cs.takeWhile isPlain := by
    rw [List.takeWhile_append_of_pos htext, List.takeWhile_cons_of_pos rfl]
  simp only [chars, List.append_assoc, List.cons_append, List.nil_append]
  rw [Token.outlineFrom_operator hc (by rw [hstretch]; exact hoperator), List.length_cons,
    Nat.add_sub_cancel, List.drop_left, outlineFrom_space, Option.map_map]
  rfl

theorem outlineFrom_letter (c : Char) :
    outlineFrom {} (.plain [] 0) ((letter c).chars ++ cs) =
      (outlineFrom {} (.plain [] 0) cs).map (onto (tokensOf (letter c).marks)) := by
  have hid : putWord [] = id := rfl
  simp only [chars]
  split
  · rename_i hnewline
    subst hnewline
    simp only [List.cons_append, List.nil_append, Token.outlineFrom, hid, Option.map_id]
    rfl
  · rename_i hother
    simp only [List.cons_append, List.nil_append, Token.outlineFrom, hid, hother, if_false,
      if_true, Option.map_id]
    rfl

theorem outlineFrom_access {name : String} (h : isVariableName name = true) :
    outlineFrom {} (.plain [] 0) ((access name).chars ++ cs) =
      (outlineFrom {} (.plain [] 0) cs).map (onto (tokensOf (access name).marks)) := by
  obtain ⟨hsome, hall⟩ := Token.isPlain_of_isVariableName h
  have hclose : '}' ∉ name.toList := fun hmem => (hall '}' hmem).2 rfl
  have hstretch : ('{' :: (name.toList ++ '}' :: cs)).takeWhile isPlain =
      '{' :: (name.toList ++ '}' :: cs.takeWhile isPlain) := by
    rw [List.takeWhile_cons_of_pos rfl, List.takeWhile_append_of_pos fun c hc => (hall c hc).1,
      List.takeWhile_cons_of_pos rfl]
  have hoperator : Token.operator? {} ('$' :: ('{' :: (name.toList ++ '}' :: cs)).takeWhile isPlain) =
      some (.variableAccess, name.toList.length + 3, name) := by
    rw [hstretch, Token.operator?, variableAfter_braced hclose, if_neg hsome]
    simp
  have hdrop : ('{' :: (name.toList ++ '}' :: cs)).drop (name.toList.length + 3 - 1) = cs := by
    simp [List.drop_append]
  simp only [chars, List.append_assoc, List.cons_append, List.nil_append]
  rw [Token.outlineFrom_operator rfl hoperator, hdrop]
  rfl

theorem outlineFrom_chars {glyph : Glyph} (h : glyph.Fits) (cs : List Char) :
    outlineFrom {} (.plain [] 0) (glyph.chars ++ cs) =
      (outlineFrom {} (.plain [] 0) cs).map (onto (tokensOf glyph.marks)) := by
  cases glyph with
  | space => exact outlineFrom_space
  | symbol sign => exact outlineFrom_symbol h
  | assign name =>
    simp only [chars, List.append_assoc, List.singleton_append]
    exact outlineFrom_name h rfl fun _ => rfl
  | header name =>
    simp only [chars, List.append_assoc, List.cons_append, List.nil_append]
    rw [outlineFrom_name h rfl fun _ => rfl, outlineFrom_sign rfl fun _ => rfl, outlineFrom_space,
      Option.map_map, Option.map_map]
    rfl
  | letter c => exact outlineFrom_letter c
  | access name => exact outlineFrom_access h
  | quotes =>
    have hid : putWord [] = id := rfl
    simp only [chars, List.cons_append, List.nil_append, Token.outlineFrom, hid, Option.map_id]
    rfl

theorem outlineFrom_flatMap {glyphs : List Glyph} (h : ∀ glyph ∈ glyphs, glyph.Fits) :
    outlineFrom {} (.plain [] 0) (glyphs.flatMap chars) =
      some (Token.outline (tokensOf (glyphs.flatMap marks))) := by
  induction glyphs with
  | nil => rfl
  | cons glyph glyphs ih =>
    obtain ⟨hglyph, hrest⟩ := List.forall_mem_cons.1 h
    rw [List.flatMap_cons, List.flatMap_cons, outlineFrom_chars hglyph, ih hrest, Option.map_some,
      Token.onto_outline]
    simp [tokensOf]

end Glyph

/-- The tokens of a text are those that it was written with. -/
theorem tokenize_glyphs {glyphs : List Glyph} (h : ∀ glyph ∈ glyphs, glyph.Fits) :
    ∃ tokens, tokenize {} (String.ofList (glyphs.flatMap Glyph.chars)) = some tokens ∧
      Token.outline tokens = Token.outline (tokensOf (glyphs.flatMap Glyph.marks)) := by
  have hread := Token.outline_tokenize {} (String.ofList (glyphs.flatMap Glyph.chars))
  rwa [String.toList_ofList, Glyph.outlineFrom_flatMap h, Option.map_eq_some_iff] at hread

/-! A tree that can be written is. -/

open Glyph (Fits)

theorem WordPart.fits_glyphs {part : WordPart} (h : part.isExpressible = true) :
    ∀ glyph ∈ part.glyphs, glyph.Fits := by
  cases part with
  | literal text => simp [glyphs, Fits]
  | «variable» name =>
    have hname : isVariableName name = true := h
    simpa [glyphs, Fits] using hname

theorem Word.fits_glyphs {word : Word} (h : word.isExpressible = true) :
    ∀ glyph ∈ word.glyphs, glyph.Fits := by
  simp only [isExpressible, Bool.and_eq_true, List.all_eq_true] at h
  refine List.forall_mem_append.2 ⟨?_, fun glyph hglyph => ?_⟩
  · split <;> simp [Fits]
  · obtain ⟨part, hpart, hmem⟩ := List.mem_flatMap.1 hglyph
    exact WordPart.fits_glyphs (h.1 part hpart) glyph hmem

namespace Glyph

variable {inside left right : List Glyph}

theorem fits_enclosed {opening closing : TokenKind × List Char}
    (hopen : opening ∈ Token.symbols {}) (hclose : closing ∈ Token.symbols {})
    (h : ∀ glyph ∈ inside, glyph.Fits) :
    ∀ glyph ∈ enclosed opening closing inside, glyph.Fits := by
  refine List.forall_mem_cons.2 ⟨hopen, List.forall_mem_append.2 ⟨h, ?_⟩⟩
  simpa [Fits] using hclose

theorem fits_braces (h : ∀ glyph ∈ inside, glyph.Fits) : ∀ glyph ∈ braces inside, glyph.Fits :=
  fits_enclosed (by decide) (by decide) h

theorem fits_infixed {sign : TokenKind × List Char} (hsign : sign ∈ Token.symbols {})
    (hleft : ∀ glyph ∈ left, glyph.Fits) (hright : ∀ glyph ∈ right, glyph.Fits) :
    ∀ glyph ∈ infixed sign left right, glyph.Fits :=
  fits_braces (List.forall_mem_append.2 ⟨hleft, List.forall_mem_cons.2 ⟨hsign, hright⟩⟩)

theorem fits_item (h : ∀ glyph ∈ inside, glyph.Fits) :
    ∀ glyph ∈ inside ++ [.space], glyph.Fits :=
  List.forall_mem_append.2 ⟨h, by simp [Fits]⟩

end Glyph

theorem Instruction.fits_glyphs {tree : Instruction} (h : tree.isExpressible = true) :
    ∀ glyph ∈ tree.glyphs, glyph.Fits := by
  induction tree with
  | empty => exact Glyph.fits_braces (by simp)
  | command assignments words =>
    simp only [isExpressible, Bool.and_eq_true, List.all_eq_true] at h
    obtain ⟨⟨-, hassignments⟩, hwords⟩ := h
    refine List.forall_mem_append.2 ⟨fun glyph hglyph => ?_, fun glyph hglyph => ?_⟩
    · obtain ⟨a, ha, hmem⟩ := List.mem_flatMap.1 hglyph
      obtain ⟨hname, hvalue⟩ := hassignments a ha
      have hassign : Fits (.assign a.1) := hname
      exact List.forall_mem_cons.2 ⟨hassign, Glyph.fits_item (Word.fits_glyphs hvalue)⟩ glyph hmem
    · obtain ⟨word, hword, hmem⟩ := List.mem_flatMap.1 hglyph
      exact Glyph.fits_item (Word.fits_glyphs (hwords word hword).1) glyph hmem
  | conditional logic left right hleft hright =>
    rw [isExpressible, Bool.and_eq_true] at h
    exact Glyph.fits_infixed (by cases logic <;> decide) (hleft h.1) (hright h.2)
  | redirect mode target inner hinner =>
    simp only [isExpressible, Bool.and_eq_true] at h
    refine List.forall_mem_append.2 ⟨Glyph.fits_braces (hinner h.2), List.forall_mem_cons.2 ⟨?_, ?_⟩⟩
    · show mode.sign ∈ Token.symbols {}
      cases mode <;> decide
    · exact Glyph.fits_item (Word.fits_glyphs h.1.1)
  | function name body hbody =>
    rw [isExpressible, Bool.and_eq_true] at h
    exact List.forall_mem_cons.2 ⟨h.1, hbody h.2⟩
  | pipe left right hleft hright
  | sequential left right hleft hright
  | parallel left right hleft hright =>
    rw [isExpressible, Bool.and_eq_true] at h
    exact Glyph.fits_infixed (by decide) (hleft h.1) (hright h.2)
  | «scoped» inner hinner => exact Glyph.fits_enclosed (by decide) (by decide) (hinner h)

end ToyUnix
