import Mathlib.Data.List.TakeWhile
import ToyUnix.Shell.Comment
import ToyUnix.Shell.Lexer

/-!
Completeness. Whether a text is complete only depends on the quote that is open at its end and on
whether a backslash still waits there. For a text without its comments that can be told line by line
from the text itself, since a line is closed by its newline: see `resolveQuoting_stripComments`. The
main statement, `complete_agree_iff`, says when a text is complete with its comments exactly if it is
without them.
-/

set_option autoImplicit false

namespace ToyUnix

namespace Segment

def Scan.state : Scan → Option Char × Bool
  | .plain _ _ => (none, false)
  | .escape _ => (none, true)
  | .single _ _ => (some '\'', false)
  | .double _ _ => (some '"', false)
  | .doubleEscape _ _ => (some '"', true)

def advance (state : Option Char × Bool) (c : Char) : Option Char × Bool :=
  if state.2 then (state.1, false)
  else
    match state.1 with
    | some q => if c = q then (none, false) else (some q, q = '"' && c = '\\')
    | none => if c = '\'' ∨ c = '"' then (some c, false) else (none, c = '\\')

theorem step_state (scan : Scan) (position : Nat) (c : Char) :
    (step scan position c).2.state = advance scan.state c := by
  cases scan with
  | plain text start =>
    by_cases hslash : c = '\\'
    · subst hslash
      rfl
    · by_cases hsingle : c = '\''
      · subst hsingle
        rfl
      · by_cases hdouble : c = '"'
        · subst hdouble
          rfl
        · simp [step, advance, Scan.state, hslash, hsingle, hdouble]
  | escape start =>
    simp only [step]
    split <;> rfl
  | single text start =>
    by_cases hsingle : c = '\''
    · subst hsingle
      rfl
    · simp [step, advance, Scan.state, hsingle]
  | double text start =>
    by_cases hdouble : c = '"'
    · subst hdouble
      rfl
    · by_cases hslash : c = '\\'
      · subst hslash
        rfl
      · simp [step, advance, Scan.state, hslash, hdouble]
  | doubleEscape text start => rfl

theorem scanFrom_isSome {scan : Scan} {position : Nat} {cs : List Char} :
    (scanFrom scan position cs).isSome = true ↔ cs.foldl advance scan.state = (none, false) := by
  induction cs generalizing scan position with
  | nil => cases scan <;> simp [scanFrom, finish, Scan.state]
  | cons c cs ih => rw [scanFrom, Option.isSome_map, ih, step_state, List.foldl_cons]

/-! Quotes are single or double. -/

def Proper (state : Option Char × Bool) : Prop :=
  ∀ q, state.1 = some q → q = '\'' ∨ q = '"'

theorem proper_none {escaped : Bool} : Proper (none, escaped) := by simp [Proper]

theorem Proper.advance {state : Option Char × Bool} (h : Proper state) (c : Char) :
    Proper (advance state c) := by
  obtain ⟨quote, escaped⟩ := state
  cases escaped with
  | true => exact h
  | false =>
    cases quote with
    | none =>
      simp only [Segment.advance, Bool.false_eq_true, if_false]
      split
      · rename_i hquote
        rintro q ⟨⟩
        exact hquote
      · exact proper_none
    | some q =>
      simp only [Segment.advance, Bool.false_eq_true, if_false]
      split
      · exact proper_none
      · exact h

theorem Proper.foldl {state : Option Char × Bool} (h : Proper state) (cs : List Char) :
    Proper (cs.foldl Segment.advance state) := by
  induction cs generalizing state with
  | nil => exact h
  | cons c cs ih => exact ih (h.advance c)

theorem Proper.advance_blank {state : Option Char × Bool} (h : Proper state) {c : Char}
    (hc : isBlank c = true) : Segment.advance state c = (state.1, false) := by
  have hne : ∀ d, isBlank d = false → c ≠ d := by
    rintro d hd rfl
    rw [hc] at hd
    cases hd
  have hsingle : c ≠ '\'' := hne _ (by decide)
  have hdouble : c ≠ '"' := hne _ (by decide)
  have hslash : c ≠ '\\' := hne _ (by decide)
  obtain ⟨quote, escaped⟩ := state
  cases escaped with
  | true => rfl
  | false =>
    cases quote with
    | none => simp [Segment.advance, hsingle, hdouble, hslash]
    | some q =>
      have hq : c ≠ q := by
        rcases h q rfl with rfl | rfl
        · exact hsingle
        · exact hdouble
      simp [Segment.advance, hq, hslash]

theorem Proper.foldl_blank {state : Option Char × Bool} (h : Proper state) {cs : List Char}
    (hcs : ∀ c ∈ cs, isBlank c = true) : (cs.foldl Segment.advance state).1 = state.1 := by
  induction cs generalizing state with
  | nil => rfl
  | cons c cs ih =>
    rw [List.foldl_cons, ih (h.advance c) fun d hd => hcs d (List.mem_cons_of_mem _ hd),
      h.advance_blank (hcs c List.mem_cons_self)]

theorem eq_backslash_of_advance {state : Option Char × Bool} {c : Char}
    (h : (advance state c).2 = true) : c = '\\' := by
  obtain ⟨quote, escaped⟩ := state
  unfold advance at h
  cases escaped with
  | true => cases h
  | false =>
    cases quote with
    | none =>
      simp only [Bool.false_eq_true, if_false] at h
      split at h
      · cases h
      · simpa using h
    | some q =>
      simp only [Bool.false_eq_true, if_false] at h
      split at h
      · cases h
      · simp only [Bool.and_eq_true, decide_eq_true_eq] at h
        exact h.2

theorem exists_backslash {state : Option Char × Bool} {cs : List Char}
    (hstate : state.2 = false) (h : (cs.foldl advance state).2 = true) :
    ∃ init, cs = init ++ ['\\'] := by
  rcases List.eq_nil_or_concat cs with rfl | ⟨init, c, rfl⟩
  · rw [List.foldl_nil, hstate] at h
    cases h
  · rw [List.concat_eq_append, List.foldl_append] at h
    exact ⟨init, by rw [List.concat_eq_append, eq_backslash_of_advance h]⟩

end Segment

namespace Comment

open Segment (advance Proper)

/-- The scan after one more line of a text without its comments. A line that is dropped changes
nothing; the newline before a line that is kept ends a waiting backslash. -/
def scanLine (state : Option Char × Bool) (line : List Char) : Option Char × Bool :=
  let (kept, quote) := keepLine ⟨state.1, none, false⟩ line
  if state.1.isSome || quote.isSome then kept.foldl advance (state.1, false)
  else if kept.all isBlank then state
  else (trimEnd kept).foldl advance (none, false)

theorem advance_of_effect {scan : Scan} {c : Char} {quote : Option Char} {escaped : Bool}
    (h : scan.effect c = .goOn quote escaped) :
    advance (scan.quote, scan.escaped) c = (quote, escaped) := by
  unfold Scan.effect at h
  unfold Segment.advance
  cases hescaped : scan.escaped with
  | true =>
    simp only [hescaped, if_true, Effect.goOn.injEq] at h
    simp [h.1, h.2]
  | false =>
    simp only [hescaped, Bool.false_eq_true, if_false] at h ⊢
    cases hquote : scan.quote with
    | some q =>
      simp only [hquote] at h ⊢
      split at h <;> simp_all
    | none =>
      simp only [hquote] at h ⊢
      split at h
      · simp_all
      · split at h
        · simp_all
        · split at h <;> simp_all

theorem keepLine_quote (scan : Scan) (line : List Char) :
    ((keepLine scan line).1.foldl advance (scan.quote, scan.escaped)).1 = (keepLine scan line).2 := by
  induction line generalizing scan with
  | nil => rfl
  | cons c cs ih =>
    simp only [keepLine]
    split
    · rfl
    · rename_i quote escaped heffect
      rw [List.foldl_cons, advance_of_effect heffect]
      exact ih ⟨quote, some c, escaped⟩

theorem exists_trimEnd (cs : List Char) :
    ∃ tail, cs = trimEnd cs ++ tail ∧ ∀ c ∈ tail, isBlank c = true := by
  refine ⟨(cs.reverse.takeWhile isBlank).reverse, ?_, fun c hc => ?_⟩
  · rw [trimEnd, ← List.reverse_append, List.takeWhile_append_dropWhile, List.reverse_reverse]
  · exact List.mem_takeWhile_imp (List.mem_reverse.1 hc)

theorem trimEnd_quote (cs : List Char) :
    ((trimEnd cs).foldl advance (none, false)).1 = (cs.foldl advance (none, false)).1 := by
  obtain ⟨tail, hcs, htail⟩ := exists_trimEnd cs
  have hall : cs.foldl advance (none, false) =
      tail.foldl advance ((trimEnd cs).foldl advance (none, false)) := by
    rw [← List.foldl_append, ← hcs]
  rw [hall]
  exact ((Segment.proper_none.foldl _).foldl_blank htail).symm

theorem scanLine_quote (state : Option Char × Bool) (line : List Char) :
    (scanLine state line).1 = (keepLine ⟨state.1, none, false⟩ line).2 := by
  obtain ⟨quote, waiting⟩ := state
  have hkept := keepLine_quote ⟨quote, none, false⟩ line
  simp only [scanLine]
  split
  · exact hkept
  · rename_i hclosed
    simp only [Bool.or_eq_true, not_or, Bool.not_eq_true, Option.isSome_eq_false_iff,
      Option.isNone_iff_eq_none] at hclosed
    obtain ⟨rfl, hquote⟩ := hclosed
    split
    · exact hquote.symm
    · rw [trimEnd_quote]
      exact hkept

theorem Proper_scanLine {state : Option Char × Bool} (h : Proper state) (line : List Char) :
    Proper (scanLine state line) := by
  have hstart : Proper (state.1, false) := h
  simp only [scanLine]
  split
  · exact hstart.foldl _
  · split
    · exact h
    · exact Segment.proper_none.foldl _

theorem foldl_keepLines {state : Option Char × Bool} (h : Proper state)
    (lines : List (List Char)) :
    ((keepLines state.1 lines).flatMap ('\n' :: ·)).foldl advance state =
      lines.foldl scanLine state := by
  induction lines generalizing state with
  | nil => rfl
  | cons line lines ih =>
    have hnewline : advance state '\n' = (state.1, false) := h.advance_blank (by decide)
    have hrest := ih (Proper_scanLine h line)
    rw [scanLine_quote] at hrest
    rw [List.foldl_cons, ← hrest]
    simp only [keepLines, scanLine]
    split
    · rw [List.flatMap_cons, List.foldl_append, List.foldl_cons, hnewline]
    · rename_i hclosed
      simp only [Bool.or_eq_true, not_or, Bool.not_eq_true, Option.isSome_eq_false_iff,
        Option.isNone_iff_eq_none] at hclosed
      -- A blank line is dropped, newline and all: what waits before it goes on waiting.
      split
      · rfl
      · rw [List.flatMap_cons, List.foldl_append, List.foldl_cons, hnewline, hclosed.1]

theorem foldl_joinLines (lines : List (List Char)) :
    (joinLines lines).foldl advance (none, false) =
      (lines.flatMap ('\n' :: ·)).foldl advance (none, false) := by
  have htail : ∀ line rest, joinLines (line :: rest) = line ++ rest.flatMap ('\n' :: ·) := by
    intro line rest
    induction rest generalizing line with
    | nil => simp [joinLines]
    | cons next rest ih => rw [joinLines, ih, List.flatMap_cons, List.cons_append]; simp
  cases lines with
  | nil => rfl
  | cons line rest =>
    rw [htail, List.flatMap_cons, List.cons_append, List.foldl_cons]
    rfl

/-! Comments without quotes and backslashes. -/

/-- What is hidden of the lines could not open or close a quote. -/
def Harmless (quote : Option Char) : List (List Char) → Prop
  | [] => True
  | line :: lines =>
    let (kept, quoteAfter) := keepLine ⟨quote, none, false⟩ line
    (∀ c ∈ line.drop kept.length, c ≠ '\'' ∧ c ≠ '"' ∧ c ≠ '\\') ∧ Harmless quoteAfter lines

/-- A backslash with white space right after it. -/
def Dangles (cs : List Char) : Prop :=
  ∃ before c after, cs = before ++ '\\' :: c :: after ∧ isBlank c = true

theorem Dangles.append_left {cs : List Char} (h : Dangles cs) (front : List Char) :
    Dangles (front ++ cs) := by
  obtain ⟨before, c, after, rfl, hc⟩ := h
  exact ⟨front ++ before, c, after, by simp, hc⟩

theorem Dangles.append_right {cs : List Char} (h : Dangles cs) (back : List Char) :
    Dangles (cs ++ back) := by
  obtain ⟨before, c, after, rfl, hc⟩ := h
  exact ⟨before, c, after ++ back, by simp, hc⟩

theorem dangles_of_foldl {state : Option Char × Bool} {cs tail : List Char}
    (hstate : state.2 = false) (hwaits : (cs.foldl advance state).2 = true) (htail : tail ≠ [])
    (hblank : ∀ c ∈ tail, isBlank c = true) : Dangles (cs ++ tail) := by
  obtain ⟨init, rfl⟩ := Segment.exists_backslash hstate hwaits
  obtain ⟨c, rest, rfl⟩ := List.exists_cons_of_ne_nil htail
  exact ⟨init, c, rest, by simp, hblank c List.mem_cons_self⟩

theorem exists_hidden (scan : Scan) (line : List Char) :
    ∃ hidden, line = (keepLine scan line).1 ++ hidden ∧ (hidden = [] ∨
      (keepLine scan line).1.foldl advance (scan.quote, scan.escaped) = (none, false)) := by
  induction line generalizing scan with
  | nil => exact ⟨[], rfl, Or.inl rfl⟩
  | cons c cs ih =>
    simp only [keepLine]
    split
    · rename_i heffect
      refine ⟨c :: cs, rfl, Or.inr ?_⟩
      unfold Scan.effect at heffect
      split at heffect
      · cases heffect
      · rename_i hescaped
        split at heffect
        · split at heffect <;> cases heffect
        · rename_i hquote
          simp [hquote, hescaped]
    · rename_i quote escaped heffect
      obtain ⟨hidden, hcs, hstart⟩ := ih ⟨quote, some c, escaped⟩
      refine ⟨hidden, by rw [List.cons_append, ← hcs], hstart.imp_right fun hclosed => ?_⟩
      rwa [List.foldl_cons, advance_of_effect heffect]

theorem foldl_harmless {cs : List Char} (h : ∀ c ∈ cs, c ≠ '\'' ∧ c ≠ '"' ∧ c ≠ '\\') :
    cs.foldl advance (none, false) = (none, false) := by
  induction cs with
  | nil => rfl
  | cons c cs ih =>
    obtain ⟨hsingle, hdouble, hslash⟩ := h c List.mem_cons_self
    have hstep : advance (none, false) c = (none, false) := by
      simp [Segment.advance, hsingle, hdouble, hslash]
    rw [List.foldl_cons, hstep, ih fun d hd => h d (List.mem_cons_of_mem _ hd)]

theorem foldl_kept {quote : Option Char} {line : List Char}
    (h : ∀ c ∈ line.drop (keepLine ⟨quote, none, false⟩ line).1.length,
      c ≠ '\'' ∧ c ≠ '"' ∧ c ≠ '\\') :
    (keepLine ⟨quote, none, false⟩ line).1.foldl advance (quote, false) =
      line.foldl advance (quote, false) := by
  obtain ⟨hidden, hline, hstart⟩ := exists_hidden ⟨quote, none, false⟩ line
  generalize (keepLine ⟨quote, none, false⟩ line).1 = kept at *
  subst hline
  rw [List.drop_left] at h
  rw [List.foldl_append]
  rcases hstart with rfl | hclosed
  · rfl
  · rw [hclosed, foldl_harmless h]

/-- One line, from the quote that is open before it. The quote at its end is what the scan of the
whole line says. A backslash that waits at its end is noticed, and no other one is unless the line
has white space after a backslash. -/
theorem scanLine_harmless (state : Option Char × Bool) {line : List Char}
    (h : ∀ c ∈ line.drop (keepLine ⟨state.1, none, false⟩ line).1.length,
      c ≠ '\'' ∧ c ≠ '"' ∧ c ≠ '\\') :
    (scanLine state line).1 = (line.foldl advance (state.1, false)).1 ∧
    ((line.foldl advance (state.1, false)).2 = true → (scanLine state line).2 = true) ∧
    (¬ Dangles line → state.2 = false → (scanLine state line).2 = true →
      (line.foldl advance (state.1, false)).2 = true) := by
  obtain ⟨quote, waiting⟩ := state
  have hquote := keepLine_quote ⟨quote, none, false⟩ line
  have hscan := scanLine_quote (quote, waiting) line
  have hpart : ∀ cs, Dangles cs → (∃ rest, cs ++ rest = (keepLine ⟨quote, none, false⟩ line).1) →
      Dangles line := by
    rintro cs hcs ⟨rest, hrest⟩
    obtain ⟨hidden, hline, -⟩ := exists_hidden ⟨quote, none, false⟩ line
    rw [hline, ← hrest]
    exact (hcs.append_right rest).append_right hidden
  rw [← foldl_kept h]
  refine ⟨hscan.trans hquote.symm, ?_⟩
  simp only [scanLine]
  generalize (keepLine ⟨quote, none, false⟩ line).1 = kept at *
  split
  · exact ⟨id, fun _ _ => id⟩
  · rename_i hclosed
    simp only [Bool.or_eq_true, not_or, Bool.not_eq_true, Option.isSome_eq_false_iff,
      Option.isNone_iff_eq_none] at hclosed
    obtain ⟨rfl, -⟩ := hclosed
    obtain ⟨tail, hkept, htail⟩ := exists_trimEnd kept
    have hslash : isBlank '\\' = false := by decide
    split
    · rename_i hblank
      refine ⟨fun hwaits => ?_, fun _ hwaiting hwaits => absurd hwaits (by simp [hwaiting])⟩
      obtain ⟨init, rfl⟩ := Segment.exists_backslash rfl hwaits
      simp [hslash] at hblank
    · constructor
      · intro hwaits
        obtain ⟨init, rfl⟩ := Segment.exists_backslash rfl hwaits
        have hkeep : trimEnd (init ++ ['\\']) = init ++ ['\\'] := by
          simp [trimEnd, hslash]
        rwa [hkeep]
      · intro hdangles _ hwaits
        have hnil : tail = [] := by
          by_contra hne
          have htrimmed := dangles_of_foldl rfl hwaits hne htail
          exact hdangles (hpart _ htrimmed ⟨[], by rw [List.append_nil, ← hkept]⟩)
        rwa [hkept, hnil, List.append_nil]

theorem exists_dropReturn (line : List Char) :
    ∃ tail, line = dropReturn line ++ tail ∧ ∀ c ∈ tail, isBlank c = true := by
  unfold dropReturn
  split
  · rename_i hlast
    obtain ⟨init, rfl⟩ := List.getLast?_eq_some_iff.1 hlast
    have hreturn : isBlank '\r' = true := by decide
    exact ⟨['\r'], by simp, by simp [hreturn]⟩
  · exact ⟨[], by simp, by simp⟩

/-- The same for the lines of a text of which `current` has been read since the last newline. -/
theorem scanLines_harmless {state : Option Char × Bool} (h : Proper state) (current cs : List Char)
    (hharmless : Harmless state.1 (linesFrom current cs)) :
    ((linesFrom current cs).foldl scanLine state).1 =
        ((current ++ cs).foldl advance (state.1, false)).1 ∧
    (((current ++ cs).foldl advance (state.1, false)).2 = true →
        ((linesFrom current cs).foldl scanLine state).2 = true) ∧
    (¬ Dangles (current ++ cs) → state.2 = false →
      ((linesFrom current cs).foldl scanLine state).2 = true →
        ((current ++ cs).foldl advance (state.1, false)).2 = true) := by
  induction cs generalizing state current with
  | nil =>
    simp only [List.append_nil]
    unfold linesFrom at hharmless ⊢
    split
    · rename_i hempty
      subst hempty
      exact ⟨rfl, fun hwaits => absurd hwaits (by simp), fun _ hwaiting hwaits =>
        absurd hwaits (by simp [hwaiting])⟩
    · rename_i hne
      rw [if_neg hne] at hharmless
      exact scanLine_harmless state hharmless.1
  | cons c cs ih =>
    by_cases hc : c = '\n'
    · subst hc
      rw [linesFrom] at hharmless ⊢
      obtain ⟨hhidden, hrest⟩ := hharmless
      obtain ⟨tail, hline, htail⟩ := exists_dropReturn current
      generalize dropReturn current = line at *
      subst hline
      obtain ⟨hquote, -, hnotice⟩ := scanLine_harmless state hhidden
      rw [← scanLine_quote] at hrest
      obtain ⟨hquotes, hwaits, hnotices⟩ := ih (Proper_scanLine h line) [] hrest
      have hstart : Proper (state.1, false) := h
      -- After the newline the scan of the text is where the next line starts from.
      have hnewline : (tail ++ ['\n']).foldl advance (line.foldl advance (state.1, false)) =
          ((scanLine state line).1, false) := by
        rw [List.foldl_append, List.foldl_cons, List.foldl_nil,
          ((hstart.foldl line).foldl tail).advance_blank (by decide),
          (hstart.foldl line).foldl_blank htail, hquote]
      have hall : ((line ++ tail) ++ '\n' :: cs).foldl advance (state.1, false) =
          cs.foldl advance ((scanLine state line).1, false) := by
        rw [← hnewline, ← List.foldl_append, ← List.foldl_append]
        simp
      rw [List.foldl_cons, hall]
      refine ⟨hquotes, hwaits, fun hdangles hwaiting => hnotices ?_ ?_⟩
      · intro hlater
        have hfront := hlater.append_left ((line ++ tail) ++ ['\n'])
        exact hdangles (by simpa using hfront)
      -- A backslash that waits at the end of the line has the newline, or a return, after it.
      · by_contra hwait
        have hlate := hnotice (fun hearly => hdangles (by
          simpa using hearly.append_right (tail ++ '\n' :: cs))) hwaiting (by simpa using hwait)
        have hne : tail ++ ['\n'] ≠ [] := by simp
        have hblank : ∀ d ∈ tail ++ ['\n'], isBlank d = true := by
          intro d hd
          rcases List.mem_append.1 hd with hd | hd
          · exact htail d hd
          · rw [List.mem_singleton.1 hd]
            decide
        have hbefore := dangles_of_foldl rfl hlate hne hblank
        exact hdangles (by simpa using hbefore.append_right cs)
    · have hlines : linesFrom current (c :: cs) = linesFrom (current ++ [c]) cs := by
        rw [linesFrom]
        exact hc
      have hsame : current ++ c :: cs = (current ++ [c]) ++ cs := by simp
      rw [hsame]
      rw [hlines] at hharmless ⊢
      exact ih h _ hharmless

end Comment

/-! The texts as the shell reads them. -/

theorem resolveQuoting_isSome (text : String) :
    (resolveQuoting text).isSome = true ↔
      text.toList.foldl Segment.advance (none, false) = (none, false) :=
  Segment.scanFrom_isSome

theorem resolveQuoting_stripComments (text : String) :
    (resolveQuoting (stripComments text)).isSome = true ↔
      (linesFrom [] text.toList).foldl Comment.scanLine (none, false) = (none, false) := by
  rw [resolveQuoting_isSome, stripComments, String.toList_ofList, Comment.foldl_joinLines,
    Comment.foldl_keepLines Segment.proper_none]

/-- For the parser a text is complete when the scan of its lines without comments ends outside
quotes and with no backslash waiting, and for the prompt when the scan of the whole text does, so the
two agree exactly when both scans do or neither does. If no comment has a quote or a backslash in it,
they only fall out over a text that is complete itself but whose last kept line, without the white
space at its end, has a backslash waiting, and that takes white space after a backslash. -/
theorem complete_agree_iff (options : ParseOptions) (text : String) :
    ((tokenize options (stripComments text)).isSome = true ↔
      (linesFrom [] text.toList).foldl Comment.scanLine (none, false) = (none, false)) ∧
    (((resolveQuoting text).isSome = true ↔
        (tokenize options (stripComments text)).isSome = true) ↔
      (text.toList.foldl Segment.advance (none, false) = (none, false) ↔
        (linesFrom [] text.toList).foldl Comment.scanLine (none, false) = (none, false))) ∧
    (Comment.Harmless none (linesFrom [] text.toList) →
      (((resolveQuoting text).isSome = true ↔
          (tokenize options (stripComments text)).isSome = true) ↔
        ¬ ((resolveQuoting text).isSome = true ∧
          ((linesFrom [] text.toList).foldl Comment.scanLine (none, false)).2 = true)) ∧
      (¬ Comment.Dangles text.toList → ((resolveQuoting text).isSome = true ↔
        (tokenize options (stripComments text)).isSome = true))) := by
  rw [tokenize, Option.isSome_map, resolveQuoting_stripComments, resolveQuoting_isSome]
  refine ⟨Iff.rfl, Iff.rfl, fun hharmless => ?_⟩
  have hstart : Segment.Proper (none, false) := Segment.proper_none
  obtain ⟨hquote, hwaits, hnotice⟩ := Comment.scanLines_harmless hstart [] text.toList hharmless
  rw [List.nil_append] at hquote hwaits hnotice
  generalize text.toList.foldl Segment.advance (none, false) = raw at *
  generalize (linesFrom [] text.toList).foldl Comment.scanLine (none, false) = kept at *
  obtain ⟨quote, waits⟩ := raw
  obtain ⟨keptQuote, keptWaits⟩ := kept
  obtain rfl : keptQuote = quote := hquote
  constructor
  · cases waits <;> cases keptWaits <;> simp_all
  · intro hdangles
    have hsame := hnotice hdangles rfl
    cases waits <;> cases keptWaits <;> simp_all

/-- White space cut off after a backslash, and a quote in a comment. -/
theorem complete_disagree :
    ((resolveQuoting "echo a\\ ").isSome = true ∧
      (tokenize {} (stripComments "echo a\\ ")).isSome = false) ∧
    ((resolveQuoting "echo hi # it's").isSome = false ∧
      (tokenize {} (stripComments "echo hi # it's")).isSome = true) := by
  decide

end ToyUnix
