import ToyUnix.Proofs.Path
import ToyUnix.Proofs.Shell.Layout
import ToyUnix.Proofs.Shell.Scanning
import ToyUnix.Shell.Run

/-!
Literal arguments. A text in single quotes, or with a backslash before each of its characters, is one
word of a command, and nothing in it is a variable, an operator or white space. Only a tilde in front
still counts: `expandAll_eq_iff` says when the arguments are the texts.
-/

set_option autoImplicit false

namespace ToyUnix

inductive Spelling
  | quoted
  | escaped
  deriving DecidableEq, Repr

/-- A text and how it is to be written in a command line. -/
structure Argument where
  spelling : Spelling
  text : String
  deriving DecidableEq, Repr

namespace Argument

def chars (argument : Argument) : List Char :=
  match argument.spelling with
  | .quoted => '\'' :: (argument.text.toList ++ ['\''])
  | .escaped => argument.text.toList.flatMap fun c => ['\\', c]

/-- Single quotes hold everything but themselves. A backslash cannot stand before a newline, and
before nothing it makes no word. -/
def Fits (argument : Argument) : Prop :=
  match argument.spelling with
  | .quoted => '\'' ∉ argument.text.toList
  | .escaped => '\n' ∉ argument.text.toList ∧ argument.text ≠ ""

instance (argument : Argument) : Decidable argument.Fits := by
  unfold Fits
  exact match argument.spelling with
    | .quoted => inferInstance
    | .escaped => inferInstance

def word (argument : Argument) : Word :=
  if argument.text = "" then ⟨[], true⟩ else .ofText argument.text

def marks (argument : Argument) : List Mark :=
  match argument.spelling with
  | .quoted => [(.text, argument.text)]
  | .escaped => argument.text.toList.map fun c => (.text, String.ofList [c])

theorem marks_cons {argument : Argument} (h : argument.Fits) :
    ∃ text more, argument.marks = (.text, text) :: more := by
  obtain ⟨spelling, text⟩ := argument
  cases spelling with
  | quoted => exact ⟨text, [], rfl⟩
  | escaped =>
    obtain ⟨c, cs, hcs⟩ := List.exists_cons_of_ne_nil (l := text.toList) (by simpa using h.2)
    exact ⟨String.ofList [c], cs.map fun c => (.text, String.ofList [c]), by
      simp only [marks, hcs, List.map_cons]⟩

theorem kind_of_mem_marks {argument : Argument} {mark : Mark} (h : mark ∈ argument.marks) :
    mark.1 = .text := by
  obtain ⟨spelling, text⟩ := argument
  cases spelling with
  | quoted =>
    rw [List.mem_singleton.1 h]
  | escaped =>
    obtain ⟨c, -, rfl⟩ := List.mem_map.1 h
    rfl

end Argument

/-- A character of a command name that is no operator anywhere. -/
def isBare (c : Char) : Bool :=
  Token.isPlain c && !Token.isSpace c && !"\n|&;><()\x7b\x7d[]=$".toList.contains c

def commandChars (name : String) (arguments : List Argument) : List Char :=
  name.toList ++ arguments.flatMap fun argument => ' ' :: argument.chars

def argumentMarks (arguments : List Argument) : List Mark :=
  arguments.flatMap fun argument => (.whitespace, "") :: argument.marks

namespace Token

variable {options : ParseOptions}

theorem operator?_bare {c : Char} (h : isBare c = true) (cs : List Char) :
    operator? options (c :: cs) = none := by
  simp only [isBare, Bool.and_eq_true, Bool.not_eq_true'] at h
  obtain ⟨⟨-, hspace⟩, hother⟩ := h
  simp only [operator?]
  split <;> first
    | exact absurd hother (by decide)
    | rw [hspace]; rfl

theorem outlineFrom_bare {name : List Char} (h : ∀ c ∈ name, isBare c = true) (word cs : List Char) :
    outlineFrom options (.plain word 0) (name ++ cs) =
      outlineFrom options (.plain (word ++ name) 0) cs := by
  induction name generalizing word with
  | nil => simp
  | cons c name ih =>
    obtain ⟨hc, hrest⟩ := List.forall_mem_cons.1 h
    have hplain : isPlain c = true := by
      simp only [isBare, Bool.and_eq_true] at hc
      exact hc.1.1
    rw [List.cons_append, outlineFrom_letter hplain (operator?_bare hc _), ih hrest,
      List.append_assoc, List.singleton_append]

theorem outlineFrom_single {text : List Char} (h : '\'' ∉ text) (before cs : List Char) :
    outlineFrom options (.single before) (text ++ '\'' :: cs) =
      (outlineFrom options (.plain [] 0) cs).map ((.text, String.ofList (before ++ text)) :: ·) := by
  induction text generalizing before with
  | nil =>
    have hput : Mark.put (.text, String.ofList before) = ((.text, String.ofList before) :: ·) := rfl
    simp [outlineFrom, hput]
  | cons c text ih =>
    rw [List.mem_cons, not_or] at h
    rw [List.cons_append, outlineFrom, if_neg (Ne.symm h.1), ih h.2]
    simp

theorem outlineFrom_argument {argument : Argument} (h : argument.Fits) (cs : List Char) :
    outlineFrom options (.plain [] 0) (argument.chars ++ cs) =
      (outlineFrom options (.plain [] 0) cs).map (argument.marks ++ ·) := by
  obtain ⟨spelling, text⟩ := argument
  have hid : Mark.putWord [] = id := rfl
  cases spelling with
  | quoted =>
    have hsingle : outlineFrom options (.single []) (text.toList ++ '\'' :: cs) = _ :=
      outlineFrom_single h [] cs
    simpa [Argument.chars, Argument.marks, outlineFrom, hid] using hsingle
  | escaped =>
    obtain ⟨hnewline, -⟩ := h
    simp only [Argument.chars, Argument.marks]
    generalize text.toList = inside at hnewline ⊢
    induction inside with
    | nil => simp
    | cons c inside ih =>
      rw [List.mem_cons, not_or] at hnewline
      have hput : Mark.put (.text, String.ofList [c]) = ((.text, String.ofList [c]) :: ·) := rfl
      rw [List.flatMap_cons, List.append_assoc, List.cons_append, List.cons_append, outlineFrom,
        if_pos rfl, outlineFrom, if_neg (Ne.symm hnewline.1), List.nil_append, ih hnewline.2, hid,
        Option.map_id, id, hput, Option.map_map]
      rfl

theorem outlineFrom_arguments {arguments : List Argument} (h : ∀ a ∈ arguments, a.Fits) :
    outlineFrom options (.plain [] 0) (arguments.flatMap fun a => ' ' :: a.chars) =
      some (argumentMarks arguments) := by
  have hid : Mark.putWord [] = id := rfl
  have hspace : isSpace ' ' = true := rfl
  induction arguments with
  | nil => rfl
  | cons a arguments ih =>
    obtain ⟨ha, hrest⟩ := List.forall_mem_cons.1 h
    rw [argumentMarks, List.flatMap_cons, List.flatMap_cons, List.cons_append,
      outlineFrom_space hspace,
      outlineFrom_argument ha, ih hrest, hid]
    obtain ⟨text, more, hmarks⟩ := a.marks_cons ha
    simp [hmarks, argumentMarks, Mark.put, TokenKind.isGap]

theorem outlineFrom_command {name : String} (hname : ∀ c ∈ name.toList, isBare c = true)
    (hne : name ≠ "") {arguments : List Argument} (h : ∀ a ∈ arguments, a.Fits) :
    outlineFrom options (.plain [] 0) (commandChars name arguments) =
      some ((.text, name) :: argumentMarks arguments) := by
  have hword : Mark.putWord name.toList = ((.text, name) :: ·) := by
    funext rest
    simp [Mark.putWord, hne]
  rw [commandChars, outlineFrom_bare hname, List.nil_append]
  have hclosed : ∀ cs : List Char, (cs = [] ∨ ∃ rest, cs = ' ' :: rest) →
      outlineFrom options (.plain name.toList 0) cs =
        (outlineFrom options (.plain [] 0) cs).map ((.text, name) :: ·) := by
    rintro cs (rfl | ⟨rest, rfl⟩)
    · simp [outlineFrom, Mark.putWord, hne]
    · have hid : Mark.putWord [] = id := rfl
      rw [outlineFrom_space (c := ' ') rfl, outlineFrom_space (c := ' ') rfl, hword, hid,
        Option.map_map]
      rfl
  rw [hclosed, outlineFrom_arguments h]
  · rfl
  · cases arguments with
    | nil => exact Or.inl rfl
    | cons a arguments => exact Or.inr ⟨_, rfl⟩

end Token

namespace Parser

open Token (outline)

def tokensOf (marks : List Mark) : List Token := marks.map fun mark => ⟨mark.1, mark.2, 0⟩

theorem foldl_addToWord (parts : List WordPart) (quoted : Bool) (before : String)
    (cs : List Char) :
    (tokensOf (cs.map fun c => (.text, String.ofList [c]))).foldl addToWord
        ⟨parts ++ [.literal before], quoted⟩ =
      ⟨parts ++ [.literal (before ++ String.ofList cs)], quoted⟩ := by
  induction cs generalizing before with
  | nil => simp [tokensOf]
  | cons c cs ih =>
    have hstep : addToWord ⟨parts ++ [.literal before], quoted⟩ ⟨.text, String.ofList [c], 0⟩ =
        ⟨parts ++ [.literal (before ++ String.ofList [c])], quoted⟩ := by
      simp [addToWord, pushLiteral]
    rw [tokensOf, List.map_cons, List.map_cons, List.foldl_cons, hstep]
    rw [tokensOf] at ih
    rw [ih, String.append_assoc, ← String.ofList_append, List.singleton_append]

theorem wordOf_marks {argument : Argument} (h : argument.Fits) :
    wordOf (tokensOf argument.marks) = argument.word := by
  obtain ⟨spelling, text⟩ := argument
  cases spelling with
  | quoted =>
    by_cases htext : text = ""
    · simp [Argument.marks, Argument.word, tokensOf, wordOf, addToWord, htext]
    · simp [Argument.marks, Argument.word, tokensOf, wordOf, addToWord, htext, pushLiteral,
        Word.ofText]
  | escaped =>
    have htext : text ≠ "" := h.2
    obtain ⟨c, cs, hcs⟩ := List.exists_cons_of_ne_nil (l := text.toList) (by simpa using htext)
    have hstep : addToWord {} ⟨.text, String.ofList [c], 0⟩ =
        ⟨[.literal (String.ofList [c])], false⟩ := by
      simp [addToWord, pushLiteral]
    have hfold := foldl_addToWord [] false (String.ofList [c]) cs
    rw [List.nil_append, List.nil_append, ← String.ofList_append, List.singleton_append, ← hcs,
      String.ofList_toList] at hfold
    rw [Argument.word, if_neg htext, Word.ofText, ← hfold]
    simp only [wordOf, Argument.marks, hcs, tokensOf, List.map_cons, List.foldl_cons, hstep]

theorem word?_append (parts rest : List Token) (hne : parts ≠ [])
    (hparts : ∀ t ∈ parts, t.isWordPart = true)
    (hrest : ∀ t, rest.head? = some t → t.isWordPart = false) :
    word? (parts ++ rest) = some (wordOf parts, rest) := by
  have hstop : rest.takeWhile Token.isWordPart = [] ∧ rest.dropWhile Token.isWordPart = rest := by
    cases rest with
    | nil => exact ⟨rfl, rfl⟩
    | cons t rest => simp [hrest t rfl]
  obtain ⟨t, others, rfl⟩ := List.exists_cons_of_ne_nil hne
  unfold word?
  rw [List.takeWhile_append_of_pos hparts, List.dropWhile_append_of_pos hparts, hstop.1, hstop.2,
    List.append_nil]

theorem word?_marks {argument : Argument} (h : argument.Fits) (rest : List Token)
    (hrest : ∀ t, rest.head? = some t → t.isWordPart = false) :
    word? (tokensOf argument.marks ++ rest) = some (argument.word, rest) := by
  obtain ⟨text, more, hmarks⟩ := argument.marks_cons h
  rw [← wordOf_marks h]
  refine word?_append _ rest (by simp [hmarks, tokensOf]) (fun t ht => ?_) hrest
  obtain ⟨mark, hmark, rfl⟩ := List.mem_map.1 ht
  simp [Token.isWordPart, Argument.kind_of_mem_marks hmark, TokenKind.isWordPart]

theorem tokensOf_cons (argument : Argument) (arguments : List Argument) :
    tokensOf (argumentMarks (argument :: arguments)) =
      ⟨.whitespace, "", 0⟩ :: (tokensOf argument.marks ++ tokensOf (argumentMarks arguments)) := by
  simp [tokensOf, argumentMarks]

theorem outline_marks (argument : Argument) (rest : List Token) :
    outline (tokensOf argument.marks ++ rest) = argument.marks ++ outline rest := by
  have hkind : ∀ mark ∈ argument.marks, mark.1 = .text := fun mark => Argument.kind_of_mem_marks
  generalize argument.marks = marks at hkind ⊢
  induction marks with
  | nil => rfl
  | cons mark marks ih =>
    obtain ⟨hmark, hrest⟩ := List.forall_mem_cons.1 hkind
    have hgap : mark.1.isGap = false := by
      rw [hmark]
      rfl
    rw [tokensOf, List.map_cons, List.cons_append, Token.outline_of_not_gap hgap, List.cons_append,
      ← ih hrest]
    rfl

theorem outline_tokensOf {arguments : List Argument} (h : ∀ a ∈ arguments, a.Fits) :
    outline (tokensOf (argumentMarks arguments)) = argumentMarks arguments := by
  induction arguments with
  | nil => rfl
  | cons a arguments ih =>
    obtain ⟨ha, hrest⟩ := List.forall_mem_cons.1 h
    obtain ⟨text, more, hmarks⟩ := a.marks_cons ha
    rw [tokensOf_cons, Token.outline_cons, outline_marks, ih hrest]
    simp [hmarks, argumentMarks, Token.mark, Mark.put, TokenKind.isGap]

theorem space_before_arguments (arguments : List Argument) (t : Token)
    (h : (tokensOf (argumentMarks arguments)).head? = some t) : t = ⟨.whitespace, "", 0⟩ := by
  cases arguments with
  | nil => cases h
  | cons a arguments =>
    cases h
    rfl

theorem skipSpaces_arguments {arguments : List Argument} (h : ∀ a ∈ arguments, a.Fits) :
    skipSpaces (tokensOf (argumentMarks arguments)) = [] ∨
    ∃ text rest, skipSpaces (tokensOf (argumentMarks arguments)) = ⟨.text, text, 0⟩ :: rest := by
  cases arguments with
  | nil => exact Or.inl rfl
  | cons a arguments =>
    obtain ⟨text, more, hmarks⟩ := a.marks_cons (h a List.mem_cons_self)
    rw [tokensOf_cons, hmarks]
    exact Or.inr ⟨text, _, rfl⟩

theorem length_le_tokensOf (arguments : List Argument) :
    arguments.length ≤ (tokensOf (argumentMarks arguments)).length := by
  induction arguments with
  | nil => exact Nat.zero_le _
  | cons a arguments ih =>
    rw [tokensOf_cons, List.length_cons, List.length_cons, List.length_append]
    omega

theorem simpleItems_arguments (nested : Bool) {n : Nat} (simple : Simple)
    (hwords : simple.words ≠ []) {arguments : List Argument} (h : ∀ a ∈ arguments, a.Fits)
    (hn : arguments.length < n) :
    simpleItems nested n simple (tokensOf (argumentMarks arguments)) =
      .ok ({ simple with words := simple.words ++ arguments.map Argument.word }, []) := by
  induction arguments generalizing n simple with
  | nil =>
    cases n with
    | zero => exact absurd hn (Nat.not_lt_zero _)
    | succ n => simp [simpleItems, argumentMarks, tokensOf, skipSpaces]
  | cons a arguments ih =>
    obtain ⟨ha, hrest⟩ := List.forall_mem_cons.1 h
    cases n with
    | zero => exact absurd hn (Nat.not_lt_zero _)
    | succ n =>
      obtain ⟨text, more, hmarks⟩ := a.marks_cons ha
      have hword := word?_marks ha (tokensOf (argumentMarks arguments)) fun t ht => by
        rw [space_before_arguments arguments t ht]
        rfl
      have hnext := ih (n := n) { simple with words := simple.words ++ [a.word] } (by simp) hrest
        (by simpa using hn)
      rw [tokensOf_cons]
      generalize tokensOf (argumentMarks arguments) = tail at *
      have hfirst : tokensOf a.marks ++ tail = ⟨.text, text, 0⟩ :: (tokensOf more ++ tail) := by
        simp [hmarks, tokensOf]
      have hskip : skipSpaces (⟨.whitespace, "", 0⟩ :: (tokensOf a.marks ++ tail)) =
          ⟨.text, text, 0⟩ :: (tokensOf more ++ tail) := by
        rw [hfirst]
        rfl
      rw [hfirst] at hword
      rw [simpleItems, hskip]
      simp [redirectMode?, hwords, hword, hnext]

def commandOf (name : String) (arguments : List Argument) : Instruction :=
  .command [] (.ofText name :: arguments.map Argument.word)

theorem simpleCommand_line {name : String} (hne : name ≠ "") {arguments : List Argument}
    (h : ∀ a ∈ arguments, a.Fits) :
    simpleCommand false (⟨.text, name, 0⟩ :: tokensOf (argumentMarks arguments)) =
      .ok (commandOf name arguments, []) := by
  have hitems := simpleItems_arguments false { words := [.ofText name] } (by simp) h
    (Nat.lt_succ_of_le (length_le_tokensOf arguments))
  have hspace := space_before_arguments arguments
  generalize tokensOf (argumentMarks arguments) = tail at *
  have hassignment : assignmentName? (⟨.text, name, 0⟩ :: tail) = none := by
    cases tail with
    | nil => rfl
    | cons t tail =>
      obtain rfl := hspace t rfl
      simp [assignmentName?]
  have hword : word? (⟨.text, name, 0⟩ :: tail) = some (.ofText name, tail) := by
    have hname : wordOf [⟨.text, name, 0⟩] = .ofText name := by
      simp [wordOf, addToWord, hne, pushLiteral, Word.ofText]
    have happend := word?_append [⟨.text, name, 0⟩] tail (by simp)
      (by simp [Token.isWordPart, TokenKind.isWordPart]) fun t ht => by
        rw [hspace t ht]
        rfl
    rw [← hname]
    exact happend
  have hskip : skipSpaces (⟨.text, name, 0⟩ :: tail) = ⟨.text, name, 0⟩ :: tail := rfl
  have hall : simpleItems false ((⟨.text, name, 0⟩ :: tail).length + 1) {}
        (⟨.text, name, 0⟩ :: tail) =
      .ok ({ words := .ofText name :: arguments.map Argument.word }, []) := by
    rw [simpleItems, hskip]
    simpa [redirectMode?, hassignment, hword] using hitems
  rw [simpleCommand, hall]
  rfl

theorem parse_tokensOf {name : String} (hne : name ≠ "") {arguments : List Argument}
    (h : ∀ a ∈ arguments, a.Fits) (localScope : Bool) :
    parse (⟨.text, name, 0⟩ :: tokensOf (argumentMarks arguments)) localScope =
      .ok (if localScope then .scoped (commandOf name arguments) else commandOf name arguments) := by
  have hsimple := simpleCommand_line hne h
  have hfirst := skipSpaces_arguments h
  generalize tokensOf (argumentMarks arguments) = tail at *
  have hheader : functionHeader? (⟨.text, name, 0⟩ :: tail) = none := by
    obtain hnil | ⟨text, rest, hcons⟩ := hfirst
    · simp [functionHeader?, hnil]
    · simp [functionHeader?, hcons]
  have hskip : skipSpaces (⟨.text, name, 0⟩ :: tail) = ⟨.text, name, 0⟩ :: tail := rfl
  have hcommand : ∀ n, command (n + 1) false (⟨.text, name, 0⟩ :: tail) =
      .ok (commandOf name arguments, []) := by
    intro n
    rw [command, hskip]
    simp [hheader, hsimple]
  have hpipeline : ∀ n, pipeline (n + 2) false (⟨.text, name, 0⟩ :: tail) =
      .ok (commandOf name arguments, []) := by
    intro n
    rw [pipeline, hcommand]
    rfl
  have handOr : ∀ n, andOr (n + 3) false (⟨.text, name, 0⟩ :: tail) =
      .ok (commandOf name arguments, []) := by
    intro n
    rw [andOr, hpipeline]
    rfl
  have hlist : ∀ n, list (n + 4) false (⟨.text, name, 0⟩ :: tail) =
      .ok (commandOf name arguments, []) := by
    intro n
    have hblanks : skipBlanks (⟨.text, name, 0⟩ :: tail) = ⟨.text, name, 0⟩ :: tail := rfl
    have hend : atListEnd false (⟨.text, name, 0⟩ :: tail) = false := rfl
    rw [list, hblanks]
    simp only [hend]
    rw [handOr]
    rfl
  have hbudget : ∃ n, budget (⟨.text, name, 0⟩ :: tail) = n + 4 := by
    refine ⟨budget (⟨.text, name, 0⟩ :: tail) - 4, ?_⟩
    unfold budget
    omega
  obtain ⟨n, hn⟩ := hbudget
  rw [parse, hn, hlist]
  rfl

end Parser

/-! What the words expand to. -/

theorem toList_normalize (text : String) :
    ∃ rest, (PathText.normalize text).toList = '/' :: rest := by
  unfold PathText.normalize
  split
  · rename_i hcanonical
    unfold PathText.isCanonical at hcanonical
    split at hcanonical
    · rename_i hroot
      exact ⟨[], hroot⟩
    · rename_i rest _ hslash
      exact ⟨rest, hslash⟩
    · cases hcanonical
  · unfold PathText.rebuild
    cases Path.ofText text with
    | nil => exact ⟨[], rfl⟩
    | cons segment path => exact ⟨_, String.toList_ofList⟩

theorem toList_combine (base rel : String) :
    ∃ rest, (PathText.combine base rel).toList = '/' :: rest := by
  unfold PathText.combine
  split <;> exact toList_normalize _

/-- A text that the tilde in front does not change. -/
def Settled (home text : String) : Prop :=
  (text = "~" → home = "~") ∧ ∀ rest, text.toList ≠ '~' :: '/' :: rest

theorem expandTilde_eq_iff (home text : String) :
    expandTilde home text = text ↔ Settled home text := by
  unfold expandTilde Settled
  split
  · rename_i hcs
    obtain rfl : text = "~" := String.toList_inj.1 hcs
    simp
  · rename_i rest hcs
    obtain ⟨others, hothers⟩ := toList_combine home (String.ofList rest)
    refine iff_of_false (fun heq => ?_) fun hsettled => hsettled.2 rest hcs
    rw [heq, hcs] at hothers
    cases hothers
  · rename_i htilde hslash
    refine iff_of_true rfl ⟨?_, fun rest hrest => hslash rest hrest⟩
    rintro rfl
    exact absurd rfl htilde

theorem expandOne_word (w : World) (ctx : Context) (argument : Argument) :
    expandOne w ctx argument.word = expandTilde (ctx.home w) argument.text := by
  unfold Argument.word
  split
  · rename_i hempty
    rw [hempty]
    rfl
  · simp [expandOne, Word.expand, Word.ofText, expandParts]

theorem expandAll_cons (w : World) (ctx : Context) (argument : Argument) (words : List Word) :
    expandAll w ctx (argument.word :: words) =
      if argument.text = "" ∨ expandTilde (ctx.home w) argument.text ≠ "" then
        expandTilde (ctx.home w) argument.text :: expandAll w ctx words
      else expandAll w ctx words := by
  have hquoted : argument.word.quoted = decide (argument.text = "") := by
    unfold Argument.word
    split <;> simp_all [Word.ofText]
  have hword := expandOne_word w ctx argument
  unfold expandOne at hword
  unfold expandAll expandWords
  rw [List.filterMap_cons, hword, hquoted]
  by_cases htext : argument.text = "" <;>
    by_cases hexpanded : expandTilde (ctx.home w) argument.text = "" <;> simp [htext, hexpanded]

/-- The arguments are the texts exactly when the home directory is in none of them. -/
theorem expandAll_eq_iff (w : World) (ctx : Context) (arguments : List Argument) :
    expandAll w ctx (arguments.map Argument.word) = arguments.map Argument.text ↔
      ∀ a ∈ arguments, Settled (ctx.home w) a.text := by
  have hlength : ∀ arguments : List Argument,
      (expandAll w ctx (arguments.map Argument.word)).length ≤ arguments.length := by
    intro arguments
    have hle := List.length_filterMap_le (fun word : Word =>
      let text := word.expand (ctx.home w) fun name => ctx.get? w name
      if word.quoted || text ≠ "" then some text else none) (arguments.map Argument.word)
    simpa [expandAll, expandWords] using hle
  induction arguments with
  | nil => simp [expandAll, expandWords]
  | cons a arguments ih =>
    rw [List.map_cons, List.map_cons, expandAll_cons, List.forall_mem_cons, ← expandTilde_eq_iff]
    refine Iff.trans ?_ (and_congr_right' ih)
    split
    · rw [List.cons.injEq]
    · rename_i hdropped
      rw [not_or, not_not] at hdropped
      -- One argument less would be there.
      have hshort := hlength arguments
      refine iff_of_false (fun heq => ?_) fun hboth => ?_
      · rw [heq, List.length_cons, List.length_map] at hshort
        omega
      · exact hdropped.1 (hboth.1.symm.trans hdropped.2)

/-- In a command line each quoted or escaped text is one word, whatever is in it, and it expands to
itself unless it begins with a tilde that stands for a home directory. The arguments are the texts
exactly when none does. -/
theorem literal_arguments (options : ParseOptions) {name : String} (hne : name ≠ "")
    (hname : ∀ c ∈ name.toList, isBare c = true) {arguments : List Argument}
    (h : ∀ a ∈ arguments, a.Fits) :
    ∃ tokens, tokenize options (String.ofList (commandChars name arguments)) = some tokens ∧
      (∀ localScope, parse tokens localScope = .ok
        (if localScope then .scoped (Parser.commandOf name arguments)
          else Parser.commandOf name arguments)) ∧
      ∀ w ctx,
        (∀ a ∈ arguments, expandOne w ctx a.word = a.text ↔ Settled (ctx.home w) a.text) ∧
        (expandAll w ctx (arguments.map Argument.word) = arguments.map Argument.text ↔
          ∀ a ∈ arguments, Settled (ctx.home w) a.text) := by
  have hread := Token.outline_tokenize options (String.ofList (commandChars name arguments))
  rw [String.toList_ofList, Token.outlineFrom_command hname hne h, Option.map_eq_some_iff] at hread
  obtain ⟨tokens, htokens, houtline⟩ := hread
  refine ⟨tokens, htokens, fun localScope => ?_, fun w ctx => ⟨fun a _ => ?_, ?_⟩⟩
  · have hsame : Token.outline tokens =
        Token.outline (⟨.text, name, 0⟩ :: Parser.tokensOf (argumentMarks arguments)) := by
      rw [houtline, Token.outline_of_not_gap (by rfl), Parser.outline_tokensOf h]
      rfl
    exact (parse_congr (congrArg Mark.dropGap hsame) localScope _).2
      (Parser.parse_tokensOf hne h localScope)
  · rw [expandOne_word, expandTilde_eq_iff]
  · exact expandAll_eq_iff w ctx arguments

/-- A variable and an operator in quotes, an empty text, and an escaped quote. -/
theorem echo_arguments :
    ("echo" ≠ "" ∧ (∀ c ∈ "echo".toList, isBare c = true) ∧
      ∀ a ∈ [Argument.mk .quoted "$x; ~", ⟨.quoted, ""⟩, ⟨.escaped, "a' "⟩], a.Fits) ∧
    ∃ tokens, tokenize {} "echo '$x; ~' '' \\a\\'\\ " = some tokens ∧
      parse tokens false =
        .ok (.command [] [.ofText "echo", .ofText "$x; ~", ⟨[], true⟩, .ofText "a' "]) ∧
      ∀ w ctx, expandAll w ctx [.ofText "$x; ~", ⟨[], true⟩, .ofText "a' "] =
        ["$x; ~", "", "a' "] := by
  have hname : ∀ c ∈ "echo".toList, isBare c = true := List.all_eq_true.1 (by decide)
  have hfits : ∀ a ∈ [Argument.mk .quoted "$x; ~", ⟨.quoted, ""⟩, ⟨.escaped, "a' "⟩], a.Fits := by
    decide
  obtain ⟨tokens, htokens, hparse, hexpand⟩ := literal_arguments {} (by decide) hname hfits
  have hline : String.ofList (commandChars "echo"
      [⟨.quoted, "$x; ~"⟩, ⟨.quoted, ""⟩, ⟨.escaped, "a' "⟩]) = "echo '$x; ~' '' \\a\\'\\ " := by
    decide
  rw [hline] at htokens
  refine ⟨⟨by decide, hname, hfits⟩, tokens, htokens, hparse false, fun w ctx => ?_⟩
  exact (hexpand w ctx).2.2 (by simp [Settled])

/-- A tilde is the home directory even in quotes and behind a backslash. -/
theorem tilde_not_literal :
    tokenize {} "echo '~' \\~\\/\\x" =
        some [⟨.text, "echo", 0⟩, ⟨.whitespace, " ", 4⟩, ⟨.text, "~", 5⟩, ⟨.whitespace, " ", 8⟩,
          ⟨.text, "~", 9⟩, ⟨.text, "/", 11⟩, ⟨.text, "x", 13⟩] ∧
      parse [⟨.text, "echo", 0⟩, ⟨.whitespace, " ", 4⟩, ⟨.text, "~", 5⟩, ⟨.whitespace, " ", 8⟩,
          ⟨.text, "~", 9⟩, ⟨.text, "/", 11⟩, ⟨.text, "x", 13⟩] false =
        .ok (.command [] [.ofText "echo", .ofText "~", .ofText "~/x"]) ∧
      ∃ w ctx, expandOne w ctx (.ofText "~") = "/home/u" ∧
        expandAll w ctx [.ofText "~", .ofText "~/x"] = ["/home/u", "/home/u/x"] := by
  refine ⟨by decide +kernel, by decide +kernel,
    { scopes := [({} : Scope).set "HOME" "/home/u"], directories := ["/"] }, .standalone "sh" 0 0, ?_⟩
  decide +kernel

end ToyUnix
