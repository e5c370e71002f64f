import Mathlib.Data.List.TakeWhile
import ToyUnix.Proofs.Shell.Outline

/-!
Scanning in one pass. The lexer first cuts a text where quotes begin and end and then reads operators
in each piece. `outlineFrom` goes over the characters once and has the outline of the same tokens:
see `outline_tokenize`. What can be said of a text character by character is said of it.
-/

set_option autoImplicit false

namespace ToyUnix

theorem variableAfter_of_ne {c : Char} (hc : c ≠ '{') (cs : List Char) :
    variableAfter (c :: cs) =
      if isNameStart c then
        some ((c :: cs.takeWhile isNameChar).length, String.ofList (c :: cs.takeWhile isNameChar))
      else if isSpecialName c then some (1, String.ofList [c]) else none := by
  rw [variableAfter]
  exact hc

theorem variableAfter_braced {name : List Char} (h : '}' ∉ name) (rest : List Char) :
    variableAfter ('{' :: (name ++ '}' :: rest)) =
      if name = [] then none else some (name.length + 2, String.ofList name) := by
  have htake : (name ++ '}' :: rest).takeWhile (· ≠ '}') = name := by
    rw [List.takeWhile_append_of_pos fun c hc => by simpa using fun heq : c = '}' => h (heq ▸ hc)]
    simp
  simp only [variableAfter, htake]
  simp

theorem variableAfter_open {cs : List Char} (h : '}' ∉ cs) : variableAfter ('{' :: cs) = none := by
  have htake : cs.takeWhile (· ≠ '}') = cs :=
    List.takeWhile_eq_self_iff.2 fun c hc => by simpa using fun heq : c = '}' => h (heq ▸ hc)
  simp only [variableAfter, htake]
  simp

/-- How a variable is written behind its `$`; a plain name ends where no character of a name is. -/
inductive Names : List Char → String → List Char → Prop
  | plain {span rest : List Char} (h : isIdentifier (String.ofList span) = true)
      (hend : ∀ c ∈ rest.head?, isNameChar c = false) : Names span (String.ofList span) rest
  | special {c : Char} {rest : List Char} (h : isSpecialName c = true) :
      Names [c] (String.ofList [c]) rest
  | braced {name rest : List Char} (hsome : name ≠ []) (hclose : '}' ∉ name) :
      Names ('{' :: (name ++ ['}'])) (String.ofList name) rest

theorem isNameStart_of_isSpecialName {c : Char} (h : isSpecialName c = true) :
    isNameStart c = false := by
  have hlow : c.val.toNat < 65 := by
    simp only [isSpecialName, Bool.or_eq_true, decide_eq_true_eq] at h
    obtain ((((hdigit | rfl) | rfl) | rfl) | rfl) | rfl := h
    · have hnine : c.val.toNat ≤ 57 :=
        UInt32.le_iff_toNat_le.1 (of_decide_eq_true (Bool.and_eq_true_iff.1 hdigit).2)
      omega
    all_goals decide
  by_contra hstart
  exact Nat.not_le.2 hlow (le_of_isNameStart (by simpa using hstart))

theorem Names.variableAfter_eq {span rest : List Char} {name : String} (h : Names span name rest) :
    variableAfter (span ++ rest) = some (span.length, name) := by
  cases h with
  | plain h hend =>
    cases span with
    | nil => cases h
    | cons c cs =>
      simp only [isIdentifier, String.toList_ofList, Bool.and_eq_true, List.all_eq_true] at h
      have hbrace : c ≠ '{' := by
        rintro rfl
        cases h.1
      have hstop : rest.takeWhile isNameChar = [] := by
        cases rest with
        | nil => rfl
        | cons d rest => exact List.takeWhile_cons_of_neg (by simp [hend d rfl])
      have hname : (cs ++ rest).takeWhile isNameChar = cs := by
        rw [List.takeWhile_append_of_pos h.2, hstop, List.append_nil]
      rw [List.cons_append, variableAfter_of_ne hbrace, if_pos h.1, hname]
  | special h =>
    rename_i c
    have hbrace : c ≠ '{' := by
      rintro rfl
      cases h
    rw [List.singleton_append, variableAfter_of_ne hbrace,
      if_neg (by simp [isNameStart_of_isSpecialName h]), if_pos h]
    rfl
  | braced hsome hclose =>
    rename_i name
    have hbehind : '{' :: (name ++ ['}']) ++ rest = '{' :: (name ++ '}' :: rest) := by simp
    rw [hbehind, variableAfter_braced hclose, if_neg hsome]
    simp

theorem variableAfter_iff {cs : List Char} {length : Nat} {name : String} :
    variableAfter cs = some (length, name) ↔
      ∃ span rest, cs = span ++ rest ∧ length = span.length ∧ Names span name rest := by
  constructor
  · intro h
    cases cs with
    | nil => cases h
    | cons c cs =>
      by_cases hbrace : c = '{'
      · subst hbrace
        by_cases hclose : '}' ∈ cs
        · obtain ⟨inside, rest, rfl, hinside⟩ := List.eq_append_cons_of_mem hclose
          rw [variableAfter_braced hinside] at h
          split at h
          · cases h
          · rename_i hsome
            cases h
            exact ⟨'{' :: (inside ++ ['}']), rest, by simp, by simp, .braced hsome hinside⟩
        · rw [variableAfter_open hclose] at h
          cases h
      · rw [variableAfter_of_ne hbrace] at h
        split at h
        · rename_i hstart
          cases h
          refine ⟨c :: cs.takeWhile isNameChar, cs.dropWhile isNameChar, ?_, rfl, .plain ?_ ?_⟩
          · rw [List.cons_append, List.takeWhile_append_dropWhile]
          · simp [isIdentifier, hstart]
          · intro d hd
            have hnot := List.head?_dropWhile_not isNameChar cs
            rw [Option.mem_def.1 hd] at hnot
            simpa using hnot
        · split at h
          · rename_i hspecial
            cases h
            exact ⟨[c], cs, rfl, rfl, .special hspecial⟩
          · cases h
  · rintro ⟨span, rest, rfl, rfl, h⟩
    exact h.variableAfter_eq

theorem variableAfter_eq_none {cs : List Char} :
    variableAfter cs = none ↔ ∀ span name rest, cs = span ++ rest → ¬ Names span name rest := by
  rw [Option.eq_none_iff_forall_ne_some]
  constructor
  · rintro h span name rest rfl hnames
    exact h _ hnames.variableAfter_eq
  · rintro h ⟨length, name⟩ hsome
    obtain ⟨span, rest, heq, -, hnames⟩ := variableAfter_iff.1 hsome
    exact h span name rest heq hnames

theorem variableAfter_length {cs : List Char} {length : Nat} {name : String}
    (h : variableAfter cs = some (length, name)) : length ≤ cs.length := by
  obtain ⟨span, rest, rfl, rfl, -⟩ := variableAfter_iff.1 h
  simp

/-- Where a reading stands: in a word, with some characters of an operator still to be passed over,
behind a backslash, or in quotes. -/
inductive Reading
  | plain (word : List Char) (skip : Nat)
  | escape
  | single (text : List Char)
  | double (text : List Char)
  | doubleEscape (text : List Char)
  deriving DecidableEq, Repr

namespace Mark

def putWord (word : List Char) (rest : List Mark) : List Mark :=
  if word = [] then rest else (.text, String.ofList word) :: rest

end Mark

namespace Token

open Mark (put putWord)

/-- Neither a quote nor a backslash. -/
def isPlain (c : Char) : Bool := c ≠ '\\' && c ≠ '\'' && c ≠ '"'

def stringKind (options : ParseOptions) : TokenKind :=
  if options.expansionStrings then .expansionString else .text

def outlineFrom (options : ParseOptions) : Reading → List Char → Option (List Mark)
  | .plain word _, [] => some (putWord word [])
  | _, [] => none
  | .plain word (n + 1), _ :: cs => outlineFrom options (.plain word n) cs
  | .plain word 0, c :: cs =>
    if c = '\\' then (outlineFrom options .escape cs).map (putWord word)
    else if c = '\'' then (outlineFrom options (.single []) cs).map (putWord word)
    else if c = '"' then (outlineFrom options (.double []) cs).map (putWord word)
    else
      match operator? options (c :: cs.takeWhile isPlain) with
      | none => outlineFrom options (.plain (word ++ [c]) 0) cs
      | some (kind, length, text) =>
        (outlineFrom options (.plain [] (length - 1)) cs).map fun rest =>
          putWord word (put (kind, text) rest)
  | .escape, c :: cs =>
    if c = '\n' then outlineFrom options (.plain [] 0) cs
    else (outlineFrom options (.plain [] 0) cs).map (put (.text, String.ofList [c]))
  | .single text, c :: cs =>
    if c = '\'' then (outlineFrom options (.plain [] 0) cs).map (put (.text, String.ofList text))
    else outlineFrom options (.single (text ++ [c])) cs
  | .double text, c :: cs =>
    if c = '"' then
      (outlineFrom options (.plain [] 0) cs).map (put (stringKind options, String.ofList text))
    else if c = '\\' then outlineFrom options (.doubleEscape text) cs
    else outlineFrom options (.double (text ++ [c])) cs
  | .doubleEscape text, c :: cs => outlineFrom options (.double (text ++ ['\\', c])) cs

def onto (tokens : List Token) (rest : List Mark) : List Mark :=
  tokens.foldr (fun token => put token.mark) rest

theorem onto_append (ts us : List Token) (rest : List Mark) :
    onto (ts ++ us) rest = onto ts (onto us rest) := by
  simp [onto, List.foldr_append]

theorem onto_ofWord (word : List Char) (position : Nat) (rest : List Mark) :
    onto (ofWord word position) rest = putWord word rest := by
  unfold ofWord putWord
  split
  · rfl
  · have htext : TokenKind.isGap (TokenKind.text, String.ofList word).1 = false := rfl
    exact Mark.put_of_not_gap htext rest

theorem onto_outline (ts us : List Token) : onto ts (outline us) = outline (ts ++ us) := by
  simp [onto, outline, List.foldr_append]

variable {options : ParseOptions}

theorem outlineFrom_skip (word : List Char) (n : Nat) (cs : List Char) :
    outlineFrom options (.plain word n) cs = outlineFrom options (.plain word 0) (cs.drop n) := by
  induction n generalizing cs with
  | zero => rfl
  | succ n ih =>
    cases cs with
    | nil => rfl
    | cons c cs => rw [outlineFrom, ih, List.drop_succ_cons]

theorem ne_of_isPlain {c : Char} (h : isPlain c = true) : c ≠ '\\' ∧ c ≠ '\'' ∧ c ≠ '"' := by
  simpa [isPlain, and_assoc] using h

theorem outlineFrom_letter {c : Char} (hplain : isPlain c = true) {cs : List Char}
    (h : operator? options (c :: cs.takeWhile isPlain) = none) {word : List Char} :
    outlineFrom options (.plain word 0) (c :: cs) =
      outlineFrom options (.plain (word ++ [c]) 0) cs := by
  have hc := ne_of_isPlain hplain
  rw [outlineFrom, if_neg hc.1, if_neg hc.2.1, if_neg hc.2.2, h]

theorem outlineFrom_operator {c : Char} (hplain : isPlain c = true) {cs : List Char}
    {kind : TokenKind} {length : Nat} {text : String}
    (h : operator? options (c :: cs.takeWhile isPlain) = some (kind, length, text))
    {word : List Char} :
    outlineFrom options (.plain word 0) (c :: cs) =
      (outlineFrom options (.plain [] 0) (cs.drop (length - 1))).map fun rest =>
        putWord word (put (kind, text) rest) := by
  have hc := ne_of_isPlain hplain
  rw [outlineFrom, if_neg hc.1, if_neg hc.2.1, if_neg hc.2.2, h, ← outlineFrom_skip]

theorem outlineFrom_word {cs : List Char} (h : cs.takeWhile isPlain = []) (word : List Char) :
    outlineFrom options (.plain word 0) cs =
      (outlineFrom options (.plain [] 0) cs).map (putWord word) := by
  cases cs with
  | nil => rfl
  | cons c cs =>
    have hplain : isPlain c = false := by
      cases hc : isPlain c with
      | false => rfl
      | true =>
        rw [List.takeWhile_cons_of_pos hc] at h
        cases h
    have hid : putWord [] = id := rfl
    unfold isPlain at hplain
    by_cases hslash : c = '\\'
    · simp [outlineFrom, hslash, hid]
    · by_cases hsingle : c = '\''
      · simp [outlineFrom, hsingle, hid]
      · have hdouble : c = '"' := by simpa [hslash, hsingle] using hplain
        simp [outlineFrom, hdouble, hid]

theorem operator?_cases {c : Char} {cs : List Char} {kind : TokenKind} {length : Nat} {text : String}
    (h : operator? options (c :: cs) = some (kind, length, text)) :
    length = 1 ∨ (length = 2 ∧ cs.head? = some c) ∨
    (c = '$' ∧ kind = .variableAccess ∧ ∃ n, length = n + 1 ∧ variableAfter cs = some (n, text)) ∨
    (isSpace c = true ∧ kind = .whitespace ∧ length = ((c :: cs).takeWhile isSpace).length) := by
  simp only [operator?] at h
  split at h <;> (try split at h) <;> (try split at h) <;>
    simp only [Option.some.injEq, Prod.mk.injEq, Option.map_eq_some_iff, reduceCtorEq] at h
  all_goals first
    | exact Or.inl h.2.1.symm
    | exact Or.inr (Or.inl ⟨h.2.1.symm, ‹_›⟩)
    | exact Or.inr (Or.inr (Or.inr ⟨‹_›, h.1.symm, h.2.1.symm⟩))
    | skip
  obtain ⟨⟨n, name⟩, hvariable, hkind, hlength, rfl⟩ := h
  exact Or.inr (Or.inr (Or.inl ⟨rfl, hkind.symm, n, hlength.symm, hvariable⟩))

theorem operator?_length {cs : List Char} {kind : TokenKind} {length : Nat} {text : String}
    (h : operator? options cs = some (kind, length, text)) : length ≤ cs.length := by
  cases cs with
  | nil => cases h
  | cons c cs =>
    rw [List.length_cons]
    obtain rfl | ⟨rfl, hhead⟩ | ⟨-, -, n, rfl, hvariable⟩ | ⟨-, -, rfl⟩ := operator?_cases h
    · omega
    · cases cs with
      | nil => cases hhead
      | cons d cs => simp
    · have hle := variableAfter_length hvariable
      omega
    · simpa using (List.takeWhile_prefix (l := c :: cs) isSpace).length_le

theorem outlineFrom_stretch {plain : List Char} (hplain : ∀ c ∈ plain, isPlain c = true)
    {cs : List Char} (hcs : cs.takeWhile isPlain = []) (word : List Char) (position : Nat)
    {skip : Nat} (hskip : skip ≤ plain.length) :
    outlineFrom options (.plain word skip) (plain ++ cs) =
      (outlineFrom options (.plain [] 0) cs).map
        (onto (classify options word position skip plain)) := by
  induction plain generalizing word position skip with
  | nil =>
    obtain rfl : skip = 0 := Nat.le_zero.1 hskip
    rw [List.nil_append, outlineFrom_word hcs, classify]
    congr 1
    funext rest
    exact (onto_ofWord word position rest).symm
  | cons c plain ih =>
    obtain ⟨hc, hrest⟩ := List.forall_mem_cons.1 hplain
    have hstretch : (plain ++ cs).takeWhile isPlain = plain := by
      rw [List.takeWhile_append_of_pos hrest, hcs, List.append_nil]
    cases skip with
    | succ n =>
      rw [List.cons_append, outlineFrom, classify]
      exact ih hrest word (position + 1) (Nat.le_of_succ_le_succ hskip)
    | zero =>
      rw [List.cons_append, classify]
      cases hoperator : operator? options (c :: plain) with
      | none =>
        rw [outlineFrom_letter hc (by rwa [hstretch])]
        exact ih hrest (word ++ [c]) (position + 1) (Nat.zero_le _)
      | some found =>
        obtain ⟨kind, length, text⟩ := found
        have hlength := operator?_length hoperator
        rw [List.length_cons] at hlength
        rw [outlineFrom_operator hc (by rwa [hstretch]), ← outlineFrom_skip,
          ih hrest [] (position + 1) (by omega), Option.map_map]
        congr 1
        funext rest
        rw [onto_append, onto_ofWord]
        rfl

/-- What is still to be read at a place of the scan, with what has been collected there. -/
def outlineAt (options : ParseOptions) : Segment.Scan → List Char → Option (List Mark)
  | .plain text _, cs => outlineFrom options (.plain [] 0) (text ++ cs)
  | .escape _, cs => outlineFrom options .escape cs
  | .single text _, cs => outlineFrom options (.single text) cs
  | .double text _, cs => outlineFrom options (.double text) cs
  | .doubleEscape text _, cs => outlineFrom options (.doubleEscape text) cs

def Collected : Segment.Scan → Prop
  | .plain text _ => ∀ c ∈ text, isPlain c = true
  | _ => True

theorem outlineAt_plain {text : List Char} (htext : ∀ c ∈ text, isPlain c = true) (start : Nat)
    {cs : List Char} (hcs : cs.takeWhile isPlain = []) :
    outlineFrom options (.plain [] 0) (text ++ cs) =
      (outlineFrom options (.plain [] 0) cs).map
        (onto (ofSegments options (Segment.plain text start))) := by
  rw [outlineFrom_stretch htext hcs [] start (Nat.zero_le _)]
  congr 2
  unfold Segment.plain
  split
  · rename_i hnil
    rw [hnil]
    rfl
  · simp [ofSegments, ofSegment]

/-- One character completes the segments that the reading has passed. -/
theorem outlineAt_step (options : ParseOptions) {scan : Segment.Scan} (h : Collected scan)
    (position : Nat) (c : Char) (cs : List Char) :
    outlineAt options scan (c :: cs) =
        (outlineAt options (Segment.step scan position c).2 cs).map
          (onto (ofSegments options (Segment.step scan position c).1)) ∧
      Collected (Segment.step scan position c).2 := by
  have hid : onto (ofSegments options []) = id := rfl
  have hnone : ∀ next : Segment.Scan, Collected next →
      outlineAt options next cs =
        (outlineAt options next cs).map (onto (ofSegments options [])) ∧ Collected next := by
    intro next hnext
    rw [hid, Option.map_id]
    exact ⟨rfl, hnext⟩
  have hclosed : ∀ d, isPlain d = false → (d :: cs).takeWhile isPlain = [] := by
    intro d hd
    rw [List.takeWhile_cons_of_neg (by simp [hd])]
  have hput : Mark.putWord [] = id := rfl
  cases scan with
  | plain text start =>
    have htext : ∀ c ∈ text, isPlain c = true := h
    simp only [outlineAt, Segment.step]
    split
    · rename_i hslash
      subst hslash
      rw [outlineAt_plain htext start (hclosed _ rfl)]
      exact ⟨by simp [outlineFrom, hput], trivial⟩
    · split
      · rename_i hsingle
        subst hsingle
        rw [outlineAt_plain htext start (hclosed _ rfl)]
        exact ⟨by simp [outlineFrom, hput], trivial⟩
      · split
        · rename_i hdouble
          subst hdouble
          rw [outlineAt_plain htext start (hclosed _ rfl)]
          exact ⟨by simp [outlineFrom, hput], trivial⟩
        · rename_i hslash hsingle hdouble
          have hc : isPlain c = true := by simp [isPlain, hslash, hsingle, hdouble]
          refine ⟨by simp [hid], fun d hd => ?_⟩
          rcases List.mem_append.1 hd with hd | hd
          · exact htext d hd
          · rwa [List.mem_singleton.1 hd]
  | escape start =>
    simp only [outlineAt, Segment.step, outlineFrom]
    split
    · exact hnone (.plain [] 0) (by simp [Collected])
    · exact ⟨rfl, by simp [Collected]⟩
  | single text start =>
    simp only [outlineAt, Segment.step, outlineFrom]
    split
    · exact ⟨rfl, by simp [Collected]⟩
    · exact hnone (.single (text ++ [c]) start) trivial
  | double text start =>
    simp only [outlineAt, Segment.step, outlineFrom]
    split
    · exact ⟨rfl, by simp [Collected]⟩
    · split
      · exact hnone (.doubleEscape text start) trivial
      · exact hnone (.double (text ++ [c]) start) trivial
  | doubleEscape text start =>
    exact hnone (.double (text ++ ['\\', c]) start) trivial

theorem outline_scanFrom {scan : Segment.Scan} (h : Collected scan) (position : Nat)
    (cs : List Char) :
    (Segment.scanFrom scan position cs).map (fun segments => outline (ofSegments options segments)) =
      outlineAt options scan cs := by
  induction cs generalizing scan position with
  | nil =>
    cases scan with
    | plain text start =>
      rw [outlineAt, outlineAt_plain h start rfl]
      rfl
    | _ => rfl
  | cons c cs ih =>
    obtain ⟨hstep, hnext⟩ := outlineAt_step options h position c cs
    rw [hstep, ← ih hnext (position + 1), Segment.scanFrom, Option.map_map, Option.map_map]
    congr 1
    funext segments
    rw [Function.comp_apply, Function.comp_apply, onto_outline]
    simp [ofSegments]

/-- The outline of the tokens of a text is what one pass over the text reads. -/
theorem outline_tokenize (options : ParseOptions) (text : String) :
    (tokenize options text).map outline = outlineFrom options (.plain [] 0) text.toList := by
  rw [tokenize, resolveQuoting, Option.map_map]
  exact outline_scanFrom (by simp [Collected]) 0 text.toList

/-! Gaps. -/

theorem isPlain_of_isSpace {c : Char} (h : isSpace c = true) : isPlain c = true := by
  simp only [isSpace, Bool.or_eq_true, decide_eq_true_eq] at h
  obtain (rfl | rfl) | rfl := h <;> rfl

theorem operator?_space {c : Char} (h : isSpace c = true) (cs : List Char) :
    operator? options (c :: cs) =
      some (.whitespace, ((c :: cs).takeWhile isSpace).length,
        String.ofList ((c :: cs).takeWhile isSpace)) := by
  have hc := h
  simp only [isSpace, Bool.or_eq_true, decide_eq_true_eq] at hc
  obtain (rfl | rfl) | rfl := hc <;> rfl

theorem put_gap_text {kind : TokenKind} (h : kind.isGap = true) (text : String)
    (rest : List Mark) : put (kind, text) rest = put (kind, "") rest := by
  simp [put, h]

theorem put_space_idem (rest : List Mark) :
    put (.whitespace, "") (put (.whitespace, "") rest) = put (.whitespace, "") rest := by
  have hgap : TokenKind.whitespace.isGap = true := rfl
  have hspace : TokenKind.whitespace ≠ .newline := by decide
  cases rest with
  | nil => rfl
  | cons next more =>
    cases hnext : next.1.isGap with
    | true => simp only [put, hgap, hspace, hnext, if_true, if_false]
    | false => simp [put, hgap, hspace, hnext]

theorem outlineFrom_newline (word cs : List Char) :
    outlineFrom options (.plain word 0) ('\n' :: cs) =
      (outlineFrom options (.plain [] 0) cs).map fun rest =>
        putWord word (put (.newline, "") rest) := by
  have hoperator : operator? options ('\n' :: cs.takeWhile isPlain) =
      some (.newline, 1, String.ofList ['\n']) := rfl
  have hgap : TokenKind.newline.isGap = true := rfl
  rw [outlineFrom_operator rfl hoperator]
  simp only [put_gap_text hgap (String.ofList ['\n'])]
  rfl

theorem outlineFrom_spaces {c : Char} (h : isSpace c = true) (word cs : List Char) :
    outlineFrom options (.plain word 0) (c :: cs) =
      (outlineFrom options (.plain [] 0) (cs.dropWhile isSpace)).map fun rest =>
        putWord word (put (.whitespace, "") rest) := by
  have hspaces : (cs.takeWhile isPlain).takeWhile isSpace = cs.takeWhile isSpace := by
    rw [List.takeWhile_takeWhile]
    congr 1
    funext d
    cases hd : isSpace d with
    | false => simp
    | true => simp [isPlain_of_isSpace hd]
  have hdrop : cs.drop (cs.takeWhile isSpace).length = cs.dropWhile isSpace := by
    have hcs : (cs.takeWhile isSpace ++ cs.dropWhile isSpace).drop (cs.takeWhile isSpace).length =
        cs.dropWhile isSpace := List.drop_left
    rwa [List.takeWhile_append_dropWhile] at hcs
  have hgap : TokenKind.whitespace.isGap = true := rfl
  rw [outlineFrom_operator (isPlain_of_isSpace h) (operator?_space h _)]
  simp only [List.takeWhile_cons_of_pos h, hspaces, List.length_cons, Nat.add_sub_cancel,
    put_gap_text hgap (String.ofList _)]
  rw [hdrop]

theorem outlineFrom_space {c : Char} (h : isSpace c = true) (word cs : List Char) :
    outlineFrom options (.plain word 0) (c :: cs) =
      (outlineFrom options (.plain [] 0) cs).map fun rest =>
        putWord word (put (.whitespace, "") rest) := by
  rw [outlineFrom_spaces h]
  cases cs with
  | nil => rfl
  | cons d cs =>
    cases hd : isSpace d with
    | false => rw [List.dropWhile_cons_of_neg (by simp [hd])]
    | true =>
      have hid : putWord [] = id := rfl
      rw [List.dropWhile_cons_of_pos hd, outlineFrom_spaces hd [], Option.map_map]
      congr 1
      funext rest
      rw [Function.comp_apply, hid, id, put_space_idem]

end Token

end ToyUnix
