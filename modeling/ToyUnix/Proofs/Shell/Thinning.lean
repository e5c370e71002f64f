import ToyUnix.Proofs.Shell.Completeness
import ToyUnix.Proofs.Shell.Scanning

/-!
Thinning. White space outside quotes after which a line has nothing but spaces can be left out of a
text: what is read has the same outline, unless a newline in the name of a variable goes with it.
-/

set_option autoImplicit false

namespace ToyUnix

/-- White space of which the lexer makes a gap. -/
def isGapChar (c : Char) : Bool := Token.isSpace c || c = '\n'

def endsLine : List Char → Bool
  | [] => true
  | c :: cs => c = '\n' || Token.isSpace c && endsLine cs

/-- A newline behind other white space, as no name has it that is written in one line. -/
def ragged : List Char → Bool
  | c :: d :: cs => isGapChar c && d = '\n' || ragged (d :: cs)
  | _ => false

open Segment (advance)
open Token (isPlain isSpace operator?)

/-- The second text is the first one without some of the white space at the ends of its lines, where
that is outside quotes and behind no backslash. -/
inductive Thinned : Option Char × Bool → List Char → List Char → Prop
  | nil {state : Option Char × Bool} : Thinned state [] []
  | keep {state : Option Char × Bool} {c : Char} {cs ds : List Char} :
    Thinned (advance state c) cs ds → Thinned state (c :: cs) (c :: ds)
  | drop {c : Char} {cs ds : List Char} :
    isGapChar c = true → endsLine cs = true → Thinned (none, false) cs ds →
    Thinned (none, false) (c :: cs) ds

theorem isPlain_of_isGapChar {c : Char} (h : isGapChar c = true) : isPlain c = true := by
  simp only [isGapChar, Bool.or_eq_true, decide_eq_true_eq] at h
  rcases h with h | rfl
  · exact Token.isPlain_of_isSpace h
  · rfl

theorem advance_plain {c : Char} (h : isPlain c = true) :
    advance (none, false) c = (none, false) := by
  have hc := Token.ne_of_isPlain h
  simp [advance, hc.1, hc.2.1, hc.2.2]

theorem isGapChar_head {cs : List Char} (h : endsLine cs = true) {c : Char}
    (hc : cs.head? = some c) : isGapChar c = true := by
  cases cs with
  | nil => cases hc
  | cons d cs =>
    cases hc
    simp only [endsLine, Bool.or_eq_true, decide_eq_true_eq, Bool.and_eq_true] at h
    simp only [isGapChar, Bool.or_eq_true, decide_eq_true_eq]
    exact h.symm.imp_left And.left

namespace Thinned

variable {cs ds : List Char}

theorem keep_plain {c : Char} (hc : isPlain c = true) (h : Thinned (none, false) cs ds) :
    Thinned (none, false) (c :: cs) (c :: ds) := by
  rw [← advance_plain hc] at h
  exact keep h

theorem isGapChar_head (h : Thinned (none, false) cs ds) (hends : endsLine cs = true) {c : Char}
    (hc : ds.head? = some c) : isGapChar c = true := by
  generalize hstate : ((none, false) : Option Char × Bool) = state at h
  induction h with
  | nil => cases hc
  | keep _ _ => exact ToyUnix.isGapChar_head hends hc
  | drop _ hrest _ ih => exact ih hrest hc rfl

theorem cons {c : Char} (hc : isGapChar c = false) (h : Thinned (none, false) (c :: cs) ds) :
    ∃ rest, ds = c :: rest ∧ Thinned (advance (none, false) c) cs rest := by
  cases h with
  | keep hrest => exact ⟨_, rfl, hrest⟩
  | drop hgap _ _ =>
    rw [hc] at hgap
    cases hgap

theorem head?_iff {c : Char} (hc : isGapChar c = false) (h : Thinned (none, false) cs ds) :
    cs.head? = some c ↔ ds.head? = some c := by
  cases h with
  | nil => exact Iff.rfl
  | keep _ => exact Iff.rfl
  | @drop d cs ds hgap hends hrest =>
    have hds : ds.head? ≠ some c := by
      intro hhead
      rw [hrest.isGapChar_head hends hhead] at hc
      cases hc
    have hcs : (d :: cs).head? ≠ some c := by
      rintro ⟨⟩
      rw [hc] at hgap
      cases hgap
    exact iff_of_false hcs hds

theorem stretch (h : Thinned (none, false) cs ds) :
    Thinned (none, false) (cs.takeWhile isPlain) (ds.takeWhile isPlain) := by
  have hends : ∀ {cs}, endsLine cs = true → endsLine (cs.takeWhile isPlain) = true := by
    intro cs hcs
    induction cs with
    | nil => rfl
    | cons c cs ih =>
      have hplain := isPlain_of_isGapChar (ToyUnix.isGapChar_head hcs rfl)
      rw [List.takeWhile_cons_of_pos hplain]
      simp only [endsLine, Bool.or_eq_true, decide_eq_true_eq, Bool.and_eq_true] at hcs ⊢
      exact hcs.imp_right fun hspace => ⟨hspace.1, ih hspace.2⟩
  generalize hstate : ((none, false) : Option Char × Bool) = state at h
  induction h with
  | nil => exact nil
  | @keep _ c cs ds hrest ih =>
    subst hstate
    cases hc : isPlain c with
    | false => simpa [hc] using nil
    | true =>
      rw [List.takeWhile_cons_of_pos hc, List.takeWhile_cons_of_pos hc]
      have hthin := ih (advance_plain hc).symm
      rw [advance_plain hc] at hthin
      exact keep_plain hc hthin
  | drop hgap hline hrest ih =>
    rw [List.takeWhile_cons_of_pos (isPlain_of_isGapChar hgap)]
    exact drop hgap (hends hline) (ih rfl)

/-- In a firm block no white space ends a line, whatever comes behind the block. -/
def Firm (block : List Char) : Prop :=
  ∀ before c after rest, block = before ++ c :: after → isGapChar c = true →
    endsLine (after ++ rest) = false

theorem firm_of_no_gap {block : List Char} (h : ∀ c ∈ block, isGapChar c = false) : Firm block := by
  intro before c after rest heq hc
  rw [h c (by simp [heq])] at hc
  cases hc

theorem block {block : List Char} (hfirm : Firm block) (hplain : ∀ c ∈ block, isPlain c = true)
    (h : Thinned (none, false) (block ++ cs) ds) :
    ∃ rest, ds = block ++ rest ∧ Thinned (none, false) cs rest := by
  induction block generalizing ds with
  | nil => exact ⟨ds, rfl, h⟩
  | cons c block ih =>
    obtain ⟨hc, hrest⟩ := List.forall_mem_cons.1 hplain
    have htail : Firm block := by
      intro before d after rest heq
      exact hfirm (c :: before) d after rest (by rw [heq, List.cons_append])
    cases h with
    | keep hthin =>
      rw [advance_plain hc] at hthin
      obtain ⟨rest, rfl, hrest⟩ := ih htail hrest hthin
      exact ⟨rest, rfl, hrest⟩
    | drop hgap hends _ =>
      have hline : endsLine (block ++ cs) = true := hends
      rw [hfirm [] c block cs rfl hgap] at hline
      cases hline

theorem sublist {state : Option Char × Bool} (h : Thinned state cs ds) : ds.Sublist cs := by
  induction h with
  | nil => exact List.Sublist.slnil
  | keep _ ih => exact ih.cons_cons _
  | drop _ _ _ ih => exact ih.cons _

theorem takeWhile_eq {p : Char → Bool} (hp : ∀ c, p c = true → isPlain c = true ∧ isGapChar c = false)
    (h : Thinned (none, false) cs ds) : ds.takeWhile p = cs.takeWhile p := by
  have hall : ∀ c ∈ cs.takeWhile p, p c = true := fun c hc => List.mem_takeWhile_imp hc
  have hsplit := h
  rw [← List.takeWhile_append_dropWhile (p := p) (l := cs)] at hsplit
  obtain ⟨rest, rfl, hrest⟩ := hsplit.block (firm_of_no_gap fun c hc => (hp c (hall c hc)).2)
    (fun c hc => (hp c (hall c hc)).1)
  have hstop : rest.takeWhile p = [] := by
    cases rest with
    | nil => rfl
    | cons d rest =>
      cases hd : p d with
      | false => rw [List.takeWhile_cons_of_neg (by simp [hd])]
      | true =>
        have hhead := (hrest.head?_iff (hp d hd).2).2 rfl
        have hnot := List.head?_dropWhile_not p cs
        rw [hhead] at hnot
        simp [hd] at hnot
  rw [List.takeWhile_append_of_pos hall, hstop, List.append_nil]

/-! Names. -/

theorem ragged_of_endsLine {c : Char} (hc : isGapChar c = true) {after rest : List Char}
    (h : endsLine (after ++ '}' :: rest) = true) : ragged (c :: after) = true := by
  induction after generalizing c with
  | nil =>
    have hends : endsLine ('}' :: rest) = false := rfl
    rw [List.nil_append, hends] at h
    cases h
  | cons d after ih =>
    simp only [List.cons_append, endsLine, Bool.or_eq_true, decide_eq_true_eq, Bool.and_eq_true] at h
    simp only [ragged, Bool.or_eq_true, Bool.and_eq_true, decide_eq_true_eq]
    rcases h with rfl | ⟨hspace, hrest⟩
    · exact Or.inl ⟨hc, rfl⟩
    · exact Or.inr (ih (by simp [isGapChar, hspace]) hrest)

theorem ragged_append_left {before : List Char} {cs : List Char} (h : ragged cs = true) :
    ragged (before ++ cs) = true := by
  induction before with
  | nil => exact h
  | cons c before ih =>
    cases hrest : before ++ cs with
    | nil =>
      rw [hrest] at ih
      cases ih
    | cons d rest =>
      rw [hrest] at ih
      simp [hrest, ragged, ih]

theorem firm_braced {name : List Char} (h : ragged name = false) :
    Firm ('{' :: (name ++ ['}'])) := by
  intro before c after rest heq hc
  cases hends : endsLine (after ++ rest) with
  | false => rfl
  | true =>
    exfalso
    have hclose : isGapChar '}' = false := rfl
    have hopen : isGapChar '{' = false := rfl
    rcases List.eq_nil_or_concat after with rfl | ⟨inside, d, rfl⟩
    · have hlast := congrArg List.getLast? heq
      simp only [← List.cons_append, List.getLast?_concat, Option.some.injEq] at hlast
      rw [← hlast, hclose] at hc
      cases hc
    · have hsplit : '{' :: name = before ++ c :: inside ∧ ['}'] = [d] := by
        refine List.append_inj' ?_ rfl
        simpa using heq
      obtain rfl : '}' = d := by simpa using hsplit.2
      have hname : ragged (c :: inside) = true := ragged_of_endsLine hc (by simpa using hends)
      cases before with
      | nil =>
        rw [← (List.cons.inj hsplit.1).1, hopen] at hc
        cases hc
      | cons d before =>
        have hinside : name = before ++ c :: inside := (List.cons.inj hsplit.1).2
        rw [hinside, ragged_append_left hname] at h
        cases h

theorem variableAfter_gap {cs : List Char} (h : ∀ c, cs.head? = some c → isGapChar c = true) :
    variableAfter cs = none := by
  cases cs with
  | nil => rfl
  | cons c cs =>
    have hc := h c rfl
    simp only [isGapChar, isSpace, Bool.or_eq_true, decide_eq_true_eq] at hc
    obtain ((rfl | rfl) | rfl) | rfl := hc <;> rfl

theorem not_gap_of_name {c : Char} (h : isNameChar c = true) :
    isPlain c = true ∧ isGapChar c = false := by
  have hne : ∀ d, isNameChar d = false → c ≠ d := by
    rintro d hd rfl
    rw [h] at hd
    cases hd
  have hslash := hne '\\' rfl
  have hsingle := hne '\'' rfl
  have hdouble := hne '"' rfl
  have hspace := hne ' ' rfl
  have htab := hne '\t' rfl
  have hreturn := hne '\r' rfl
  have hnewline := hne '\n' rfl
  simp [isPlain, isGapChar, isSpace, hslash, hsingle, hdouble, hspace, htab, hreturn, hnewline]

theorem isNameChar_of_isNameStart {c : Char} (h : isNameStart c = true) : isNameChar c = true := by
  simp only [isNameStart, isNameChar, Char.isAlphanum, Bool.or_eq_true] at h ⊢
  exact h.imp_left Or.inl

theorem not_gap_of_special {c : Char} (h : isSpecialName c = true) : isGapChar c = false := by
  cases hgap : isGapChar c with
  | false => rfl
  | true =>
    simp only [isGapChar, isSpace, Bool.or_eq_true, decide_eq_true_eq] at hgap
    obtain ((rfl | rfl) | rfl) | rfl := hgap <;> cases h

theorem variableAfter_eq (h : Thinned (none, false) cs ds) (hplain : ∀ c ∈ cs, isPlain c = true)
    (hragged : ∀ length name, variableAfter cs = some (length, name) →
      ragged name.toList = false) :
    variableAfter ds = variableAfter cs := by
  cases cs with
  | nil =>
    cases h
    rfl
  | cons c cs =>
    obtain ⟨hc, hcs⟩ := List.forall_mem_cons.1 hplain
    cases hgap : isGapChar c with
    | true =>
      have hhead : ∀ rest d, (c :: rest).head? = some d → isGapChar d = true := by
        rintro rest d ⟨⟩
        exact hgap
      rw [variableAfter_gap (hhead cs)]
      cases h with
      | keep _ => exact variableAfter_gap (hhead _)
      | drop _ hends hrest => exact variableAfter_gap fun d hd => hrest.isGapChar_head hends hd
    | false =>
      obtain ⟨rest, rfl, hrest⟩ := h.cons hgap
      rw [advance_plain hc] at hrest
      by_cases hbrace : c = '{'
      · subst hbrace
        by_cases hmem : '}' ∈ cs
        · obtain ⟨name, behind, rfl, hname⟩ := List.eq_append_cons_of_mem hmem
          by_cases hnil : name = []
          · subst hnil
            obtain ⟨others, rfl, -⟩ := hrest.cons (by rfl)
            rw [← List.nil_append ('}' :: others), variableAfter_braced hname,
              variableAfter_braced hname]
          · rw [variableAfter_braced hname, if_neg hnil] at hragged ⊢
            have hfirm := firm_braced (by simpa using hragged _ _ rfl)
            have hsame : '{' :: (name ++ '}' :: behind) = '{' :: (name ++ ['}']) ++ behind := by simp
            rw [hsame] at h
            obtain ⟨others, hothers, -⟩ := h.block hfirm fun d hd => hplain d (by
              rw [hsame]
              exact List.mem_append_left _ hd)
            rw [hothers]
            simpa [hnil] using variableAfter_braced hname others
        · rw [variableAfter_open hmem,
            variableAfter_open fun hother => hmem (hrest.sublist.subset hother)]
      · rw [variableAfter_of_ne hbrace, variableAfter_of_ne hbrace,
          hrest.takeWhile_eq fun d => not_gap_of_name]

theorem exists_firm_variable {length : Nat} {name : String}
    (h : variableAfter cs = some (length, name)) (hragged : ragged name.toList = false) :
    ∃ block rest, cs = block ++ rest ∧ block.length = length ∧ Firm block := by
  obtain ⟨span, rest, rfl, rfl, hnames⟩ := variableAfter_iff.1 h
  refine ⟨span, rest, rfl, rfl, ?_⟩
  cases hnames with
  | plain hname _ =>
    refine firm_of_no_gap fun d hd => (not_gap_of_name ?_).2
    cases span with
    | nil => cases hname
    | cons c cs =>
      simp only [isIdentifier, String.toList_ofList, Bool.and_eq_true, List.all_eq_true] at hname
      rcases List.mem_cons.1 hd with rfl | hd
      · exact isNameChar_of_isNameStart hname.1
      · exact hname.2 d hd
  | special hspecial =>
    refine firm_of_no_gap fun d hd => ?_
    rw [List.mem_singleton.1 hd]
    exact not_gap_of_special hspecial
  | braced hsome hclose =>
    rw [String.toList_ofList] at hragged
    exact firm_braced hragged

/-! Operators. -/

variable {options : ParseOptions}

theorem operator?_eq {c : Char} (hc : isGapChar c = false) (h : Thinned (none, false) cs ds)
    (hplain : ∀ d ∈ cs, isPlain d = true)
    (hragged : ∀ length name, operator? options (c :: cs) = some (.variableAccess, length, name) →
      ragged name.toList = false) :
    operator? options (c :: ds) = operator? options (c :: cs) := by
  have hpipe := h.head?_iff (c := '|') rfl
  have hand := h.head?_iff (c := '&') rfl
  have hout := h.head?_iff (c := '>') rfl
  have hspace : isSpace c = false := (Bool.or_eq_false_iff.1 hc).1
  by_cases hdollar : c = '$'
  · subst hdollar
    have hvariable := h.variableAfter_eq hplain fun length name hfound =>
      hragged (length + 1) name (by simp [operator?, hfound])
    simp only [operator?, hvariable]
  · simp only [operator?]
    split <;> simp_all

theorem exists_firm_operator {c : Char} (hc : isGapChar c = false) {kind : TokenKind} {length : Nat}
    {text : String} (h : operator? options (c :: cs) = some (kind, length, text))
    (hragged : kind = .variableAccess → ragged text.toList = false) :
    ∃ block rest, cs = block ++ rest ∧ block.length = length - 1 ∧ Firm block := by
  have hspace : isSpace c = false := (Bool.or_eq_false_iff.1 hc).1
  obtain rfl | ⟨rfl, hhead⟩ | ⟨-, hkind, n, rfl, hvariable⟩ | ⟨hblank, -, -⟩ :=
    Token.operator?_cases h
  · exact ⟨[], cs, rfl, rfl, firm_of_no_gap (by simp)⟩
  · cases cs with
    | nil => cases hhead
    | cons d cs =>
      cases hhead
      exact ⟨[c], cs, rfl, rfl, firm_of_no_gap (by simpa using hc)⟩
  · exact exists_firm_variable hvariable (hragged hkind)
  · rw [hspace] at hblank
    cases hblank

end Thinned

/-! Outlines. -/

namespace Mark

theorem mem_put {mark other : Mark} {rest : List Mark} (h : mark.1.isGap = false) :
    mark ∈ put other rest ↔ mark = other ∨ mark ∈ rest := by
  have hne : ∀ next : Mark, next.1.isGap = true → mark ≠ next := by
    rintro next hnext rfl
    rw [h] at hnext
    cases hnext
  cases hother : other.1.isGap with
  | false => simp [put_of_not_gap hother]
  | true =>
    have hempty : ∀ kind : TokenKind, kind.isGap = true → mark ≠ (kind, "") :=
      fun kind hkind => hne _ hkind
    cases rest with
    | nil => simp [put_nil hother, hne other hother]
    | cons next more =>
      cases hnext : next.1.isGap with
      | false => simp [put, hother, hnext, hne other hother, hempty _ hother]
      | true =>
        have hjoined : (if other.1 = .newline then .newline else next.1).isGap = true := by
          split
          · rfl
          · exact hnext
        simp [put, hother, hnext, hne other hother, hne next hnext, hempty _ hjoined]

theorem mem_putWord {mark : Mark} {word : List Char} {rest : List Mark} (hmem : mark ∈ rest) :
    mark ∈ putWord word rest := by
  unfold putWord
  split
  · exact hmem
  · exact List.mem_cons_of_mem _ hmem

/-- No variable of an outline has a ragged name. -/
def Named (marks : List Mark) : Prop :=
  ∀ name, (.variableAccess, name) ∈ marks → ragged name.toList = false

theorem Named.of_put {mark : Mark} {rest : List Mark} (h : Named (put mark rest)) : Named rest :=
  fun name hmem => h name ((mem_put rfl).2 (Or.inr hmem))

theorem Named.of_putWord {word : List Char} {rest : List Mark} (h : Named (putWord word rest)) :
    Named rest :=
  fun name hmem => h name (mem_putWord hmem)

theorem Named.head {kind : TokenKind} {text : String} {rest : List Mark}
    (h : Named (put (kind, text) rest)) (hkind : kind = .variableAccess) :
    ragged text.toList = false := by
  subst hkind
  exact h text (by simp [put, TokenKind.isGap])

end Mark

/-- Where a reading is between two characters, as far as quotes and backslashes go. -/
inductive Reading.At : Reading → Option Char × Bool → Prop
  | plain (word : List Char) : At (.plain word 0) (none, false)
  | escape : At .escape (none, true)
  | single (text : List Char) : At (.single text) (some '\'', false)
  | double (text : List Char) : At (.double text) (some '"', false)
  | doubleEscape (text : List Char) : At (.doubleEscape text) (some '"', true)

namespace Token

open Mark (put putWord Named)

variable {options : ParseOptions}

theorem outlineFrom_gapChar (options : ParseOptions) {c : Char} (h : isGapChar c = true) :
    ∃ kind : TokenKind, kind.isGap = true ∧ ∀ word cs,
      outlineFrom options (.plain word 0) (c :: cs) =
        (outlineFrom options (.plain [] 0) cs).map fun rest =>
          putWord word (put (kind, "") rest) := by
  simp only [isGapChar, Bool.or_eq_true, decide_eq_true_eq] at h
  rcases h with h | rfl
  · exact ⟨.whitespace, rfl, outlineFrom_space h⟩
  · exact ⟨.newline, rfl, outlineFrom_newline⟩

theorem outline_of_endsLine {cs : List Char} (h : endsLine cs = true) {marks : List Mark}
    (hread : outlineFrom options (.plain [] 0) cs = some marks) :
    marks = [] ∨ ∃ more, marks = (.newline, "") :: more := by
  have hid : putWord [] = id := rfl
  induction cs generalizing marks with
  | nil =>
    cases hread
    exact Or.inl rfl
  | cons c cs ih =>
    simp only [endsLine, Bool.or_eq_true, decide_eq_true_eq, Bool.and_eq_true] at h
    have hgap : TokenKind.newline.isGap = true := rfl
    rcases h with rfl | ⟨hspace, hends⟩
    · rw [outlineFrom_newline, hid, Option.map_eq_some_iff] at hread
      obtain ⟨rest, -, rfl⟩ := hread
      obtain hnil | ⟨kind, more, hput, -, hnewline⟩ :=
        Mark.put_gap (.newline, "") hgap rest
      · exact Or.inl hnil
      · rw [id, hput, hnewline rfl]
        exact Or.inr ⟨more, rfl⟩
    · rw [outlineFrom_space hspace, hid, Option.map_eq_some_iff] at hread
      obtain ⟨rest, hrest, rfl⟩ := hread
      obtain rfl | ⟨more, rfl⟩ := ih hends hrest
      · exact Or.inl rfl
      · exact Or.inr ⟨more, by simp [put, TokenKind.isGap]⟩

theorem put_endsLine {cs : List Char} (h : endsLine cs = true) {marks : List Mark}
    (hread : outlineFrom options (.plain [] 0) cs = some marks) {kind : TokenKind}
    (hkind : kind.isGap = true) : put (kind, "") marks = marks := by
  have hgap : TokenKind.newline.isGap = true := rfl
  obtain rfl | ⟨more, rfl⟩ := outline_of_endsLine h hread
  · exact Mark.put_nil hkind
  · simp [put, hkind, hgap]

theorem outlineFrom_closed {cs : List Char} (h : ∀ c, cs.head? = some c → isGapChar c = true)
    (word : List Char) :
    outlineFrom options (.plain word 0) cs =
      (outlineFrom options (.plain [] 0) cs).map (putWord word) := by
  cases cs with
  | nil => rfl
  | cons c cs =>
    obtain ⟨kind, -, hgap⟩ := outlineFrom_gapChar options (h c rfl)
    rw [hgap, hgap, Option.map_map]
    rfl

theorem outlineFrom_quote (options : ParseOptions) {c : Char} (h : isPlain c = false) :
    ∃ next : Reading, next.At (Segment.advance (none, false) c) ∧ ∀ word cs,
      outlineFrom options (.plain word 0) (c :: cs) =
        (outlineFrom options next cs).map (putWord word) := by
  have hc : c = '\\' ∨ c = '\'' ∨ c = '"' := by
    by_contra hno
    simp_all [isPlain]
  obtain rfl | rfl | rfl := hc
  · exact ⟨.escape, .escape, fun _ _ => rfl⟩
  · exact ⟨.single [], .single [], fun _ _ => rfl⟩
  · exact ⟨.double [], .double [], fun _ _ => rfl⟩

end Token

namespace Thinned

open Token (outlineFrom put_endsLine)

variable {options : ParseOptions}

/-- The operator that begins a text begins what is left of it too, and what is behind it is left
of what was behind it. -/
theorem behind_operator {c : Char} (hc : isGapChar c = false) {cs ds : List Char}
    (h : Thinned (none, false) cs ds) {kind : TokenKind} {length : Nat} {text : String}
    (hoperator : operator? options (c :: cs.takeWhile isPlain) = some (kind, length, text))
    (hragged : kind = .variableAccess → ragged text.toList = false) :
    Thinned (none, false) (cs.drop (length - 1)) (ds.drop (length - 1)) := by
  obtain ⟨block, rest, hstretch, hlength, hfirm⟩ := exists_firm_operator hc hoperator hragged
  have hplain : ∀ d ∈ block, isPlain d = true := by
    intro d hd
    have hmem : d ∈ cs.takeWhile isPlain := by simp [hstretch, hd]
    exact List.mem_takeWhile_imp hmem
  have hcs : cs = block ++ (rest ++ cs.dropWhile isPlain) := by
    rw [← List.append_assoc, ← hstretch, List.takeWhile_append_dropWhile]
  rw [hcs] at h ⊢
  obtain ⟨others, rfl, hothers⟩ := h.block hfirm hplain
  rwa [← hlength, List.drop_left, List.drop_left]

/-- What is read of texts of at most that length is read of what is left of them. -/
def Reads (options : ParseOptions) (n : Nat) : Prop :=
  ∀ ⦃reading state⦄, reading.At state → ∀ ⦃cs ds⦄, cs.length ≤ n → Thinned state cs ds →
    ∀ ⦃marks⦄, outlineFrom options reading cs = some marks → Mark.Named marks →
      outlineFrom options reading ds = some marks

namespace Reads

variable {n : Nat} (ih : Reads options n) {cs ds : List Char} (hle : cs.length ≤ n) {c : Char}
variable {marks : List Mark} (hnames : Mark.Named marks)
include ih hle hnames

theorem map {reading : Reading} {state : Option Char × Bool} (hat : reading.At state)
    (h : Thinned state cs ds) {f : List Mark → List Mark}
    (hf : ∀ {more}, Mark.Named (f more) → Mark.Named more)
    (hread : (outlineFrom options reading cs).map f = some marks) :
    (outlineFrom options reading ds).map f = some marks := by
  obtain ⟨more, hmore, rfl⟩ := Option.map_eq_some_iff.1 hread
  rw [ih hat hle h hmore (hf hnames), Option.map_some]

theorem gap {word : List Char} (hgap : isGapChar c = true) (h : Thinned (none, false) (c :: cs) ds)
    (hread : outlineFrom options (.plain word 0) (c :: cs) = some marks) :
    outlineFrom options (.plain word 0) ds = some marks := by
  obtain ⟨kind, hkind, hgaps⟩ := Token.outlineFrom_gapChar options hgap
  rw [hgaps] at hread
  cases h with
  | keep hrest =>
    rw [advance_plain (isPlain_of_isGapChar hgap)] at hrest
    rw [hgaps]
    exact ih.map hle hnames (.plain []) hrest (fun hmore => hmore.of_putWord.of_put) hread
  | drop _ hends hrest =>
    rw [Token.outlineFrom_closed fun d hd => hrest.isGapChar_head hends hd]
    obtain ⟨more, hmore, rfl⟩ := Option.map_eq_some_iff.1 hread
    rw [put_endsLine hends hmore hkind] at hnames ⊢
    rw [ih (.plain []) hle hrest hmore hnames.of_putWord, Option.map_some]

theorem plain {word : List Char} (hgap : isGapChar c = false) (hplain : isPlain c = true)
    (h : Thinned (none, false) cs ds)
    (hread : outlineFrom options (.plain word 0) (c :: cs) = some marks) :
    outlineFrom options (.plain word 0) (c :: ds) = some marks := by
  have hstretch : ∀ d ∈ cs.takeWhile isPlain, isPlain d = true :=
    fun d hd => List.mem_takeWhile_imp hd
  cases hoperator : operator? options (c :: cs.takeWhile isPlain) with
  | none =>
    have hsame : _ = operator? options _ :=
      h.stretch.operator?_eq hgap hstretch (by simp [hoperator])
    rw [Token.outlineFrom_letter hplain hoperator] at hread
    rw [Token.outlineFrom_letter hplain (hsame.trans hoperator)]
    exact ih (.plain (word ++ [c])) hle h hread hnames
  | some found =>
    obtain ⟨kind, length, text⟩ := found
    rw [Token.outlineFrom_operator hplain hoperator] at hread
    obtain ⟨more, hmore, rfl⟩ := Option.map_eq_some_iff.1 hread
    have hname : kind = .variableAccess → ragged text.toList = false := hnames.of_putWord.head
    have hsame := h.stretch.operator?_eq hgap hstretch fun _ name hfound => by
      rw [hoperator] at hfound
      cases hfound
      exact hname rfl
    have hshort : (cs.drop (length - 1)).length ≤ n := by
      rw [List.length_drop]
      omega
    rw [Token.outlineFrom_operator hplain (hsame.trans hoperator),
      ih (.plain []) hshort (behind_operator hgap h hoperator hname) hmore
        hnames.of_putWord.of_put, Option.map_some]

theorem escape (h : Thinned (none, false) cs ds)
    (hread : outlineFrom options .escape (c :: cs) = some marks) :
    outlineFrom options .escape (c :: ds) = some marks := by
  rw [outlineFrom] at hread ⊢
  split_ifs at hread ⊢
  · exact ih (.plain []) hle h hread hnames
  · exact ih.map hle hnames (.plain []) h Mark.Named.of_put hread

theorem single {text : List Char} (h : Thinned (advance (some '\'', false) c) cs ds)
    (hread : outlineFrom options (.single text) (c :: cs) = some marks) :
    outlineFrom options (.single text) (c :: ds) = some marks := by
  rw [outlineFrom] at hread ⊢
  split_ifs at hread ⊢ with hquote
  · subst hquote
    exact ih.map hle hnames (.plain []) h Mark.Named.of_put hread
  · rw [show advance (some '\'', false) c = (some '\'', false) by simp [advance, hquote]] at h
    exact ih (.single (text ++ [c])) hle h hread hnames

theorem double {text : List Char} (h : Thinned (advance (some '"', false) c) cs ds)
    (hread : outlineFrom options (.double text) (c :: cs) = some marks) :
    outlineFrom options (.double text) (c :: ds) = some marks := by
  rw [outlineFrom] at hread ⊢
  split_ifs at hread ⊢ with hquote hslash
  · subst hquote
    exact ih.map hle hnames (.plain []) h Mark.Named.of_put hread
  · subst hslash
    exact ih (.doubleEscape text) hle h hread hnames
  · rw [show advance (some '"', false) c = (some '"', false) by
      simp [advance, hquote, hslash]] at h
    exact ih (.double (text ++ [c])) hle h hread hnames

end Reads

/-- On the length of the text, because an operator takes several characters at once. -/
theorem reads (options : ParseOptions) (n : Nat) : Reads options n := by
  induction n with
  | zero =>
    intro reading state _ cs ds hn h marks hread _
    obtain rfl : cs = [] := List.length_eq_zero_iff.1 (Nat.le_zero.1 hn)
    cases h
    exact hread
  | succ n ih =>
    intro reading state hat cs ds hn h marks hread hnames
    cases cs with
    | nil =>
      cases h
      exact hread
    | cons c cs =>
      have hle : cs.length ≤ n := Nat.le_of_succ_le_succ hn
      cases hat with
      | plain word =>
        cases hgap : isGapChar c with
        | true => exact ih.gap hle hnames hgap h hread
        | false =>
          obtain ⟨rest, rfl, hrest⟩ := h.cons hgap
          cases hplain : isPlain c with
          | true =>
            rw [advance_plain hplain] at hrest
            exact ih.plain hle hnames hgap hplain hrest hread
          | false =>
            obtain ⟨next, hnext, hquote⟩ := Token.outlineFrom_quote options hplain
            rw [hquote] at hread ⊢
            exact ih.map hle hnames hnext hrest Mark.Named.of_putWord hread
      | escape =>
        cases h with
        | keep hrest => exact ih.escape hle hnames hrest hread
      | single text =>
        cases h with
        | keep hrest => exact ih.single hle hnames hrest hread
      | double text =>
        cases h with
        | keep hrest => exact ih.double hle hnames hrest hread
      | doubleEscape text =>
        cases h with
        | keep hrest => exact ih (.double (text ++ ['\\', c])) hle hrest hread hnames

/-- What is read of a text is read of what is left of it. -/
theorem outlineFrom_eq {cs ds : List Char} (h : Thinned (none, false) cs ds) {marks : List Mark}
    (hread : outlineFrom options (.plain [] 0) cs = some marks) (hnames : Mark.Named marks) :
    outlineFrom options (.plain [] 0) ds = some marks :=
  reads options cs.length (.plain []) (Nat.le_refl _) h hread hnames

end Thinned

end ToyUnix
