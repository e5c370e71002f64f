import ToyUnix.Proofs.Shell.Spelling

/-!
Tokens tile their text. Each token stands for a span of the characters that begins at its position,
one span comes after the other, and what is left between them is a backslash before a newline, outside
quotes. How a span is written decides what its token is: see `tokenize_tiles`.
-/

set_option autoImplicit false

namespace ToyUnix

namespace Token

open Segment (advance)

/-- From a position on, the characters are the spans of the tokens, and backslashes before newlines. -/
inductive Tiling (options : ParseOptions) : Nat → List Char → List Token → Prop
  | done {position : Nat} : Tiling options position [] []
  | join {position : Nat} {cs : List Char} {tokens : List Token}
      (h : Tiling options (position + 2) cs tokens) :
      Tiling options position ('\\' :: '\n' :: cs) tokens
  | token {position : Nat} {kind : TokenKind} {text : String} {span cs : List Char}
      {tokens : List Token} (hspan : Spells options kind text span)
      (h : Tiling options (position + span.length) cs tokens) :
      Tiling options position (span ++ cs) (⟨kind, text, position⟩ :: tokens)

variable {options : ParseOptions}

theorem Tiling.append {position : Nat} {cs ds : List Char} {ts us : List Token}
    (h : Tiling options position cs ts) (hmore : Tiling options (position + cs.length) ds us) :
    Tiling options position (cs ++ ds) (ts ++ us) := by
  induction h with
  | done => exact hmore
  | join h ih =>
    refine .join (ih ?_)
    simpa [Nat.add_assoc, Nat.add_comm 2] using hmore
  | token hspan h ih =>
    rw [List.append_assoc, List.cons_append]
    refine .token hspan (ih ?_)
    simpa [Nat.add_assoc] using hmore

theorem Tiling.one {kind : TokenKind} {text : String} {span : List Char}
    (h : Spells options kind text span) (position : Nat) :
    Tiling options position span [⟨kind, text, position⟩] := by
  simpa using Tiling.token h .done

/-! Plain stretches. -/

theorem classify_skip (options : ParseOptions) (word : List Char) {n position : Nat} {cs : List Char}
    (h : n ≤ cs.length) :
    classify options word position n cs = classify options word (position + n) 0 (cs.drop n) := by
  induction n generalizing position cs with
  | zero => rfl
  | succ n ih =>
    cases cs with
    | nil => simp at h
    | cons c cs =>
      rw [classify, ih (by simpa using h), List.drop_succ_cons, Nat.add_assoc, Nat.add_comm 1]

theorem ofWord_tiling {word : List Char} (h : ∀ c ∈ word, isWordChar options c = true)
    (position : Nat) :
    Tiling options (position - word.length) word (ofWord word position) := by
  unfold ofWord
  split
  · rename_i hnil
    subst hnil
    exact .done
  · rename_i hsome
    exact .one (.word hsome h) _

theorem classify_tiling {word cs : List Char} (hword : ∀ c ∈ word, isWordChar options c = true)
    (hcs : ∀ c ∈ cs, isPlain c = true) {position : Nat} (hposition : word.length ≤ position) :
    Tiling options (position - word.length) (word ++ cs) (classify options word position 0 cs) := by
  -- On what is left of the text, since an operator takes several characters of it at once.
  induction hn : cs.length using Nat.strong_induction_on generalizing word cs position with
  | h n ih =>
  cases cs with
  | nil =>
    rw [List.append_nil]
    exact ofWord_tiling hword position
  | cons c cs =>
    obtain ⟨hc, hrest⟩ := List.forall_mem_cons.1 hcs
    rw [List.length_cons] at hn
    rw [classify]
    cases hoperator : operator? options (c :: cs) with
    | none =>
      have hletter : ∀ d ∈ word ++ [c], isWordChar options d = true :=
        List.forall_mem_append.2 ⟨hword, by simpa using isWordChar_of_no_operator hc hoperator⟩
      have hplace : (word ++ [c]).length ≤ position + 1 := by simpa using hposition
      simpa using ih cs.length (by omega) hletter hrest hplace rfl
    | some found =>
      obtain ⟨kind, length, text⟩ := found
      obtain ⟨hpos, hspells⟩ := operator?_spells hcs hoperator
      have hlength := operator?_length hoperator
      have hdrop : (c :: cs).drop length = cs.drop (length - 1) := by
        rw [← Nat.succ_pred_eq_of_pos hpos]
        rfl
      have hnil : ∀ d ∈ ([] : List Char), isWordChar options d = true := by simp
      have hbehind := ih (cs.drop (length - 1)).length (by simp; omega) hnil
        (fun d hd => hrest d (List.mem_of_mem_drop hd)) (Nat.zero_le (position + length)) rfl
      have htoken : Tiling options position (c :: cs)
          (⟨kind, text, position⟩ :: classify options [] (position + 1) (length - 1) cs) := by
        rw [← List.take_append_drop length (c :: cs), hdrop,
          classify_skip options [] (by simp at hlength; omega)]
        refine .token hspells ?_
        have hlengths : position + 1 + (length - 1) = position + length := by omega
        rw [List.length_take_of_le hlength, hlengths]
        simpa using hbehind
      refine (ofWord_tiling hword position).append ?_
      rwa [Nat.sub_add_cancel hposition]

/-! Along the text. -/

/-- What a scan has passed that is in none of its segments yet. -/
def held : Segment.Scan → List Char
  | .plain text _ => text
  | .escape _ => ['\\']
  | .single text _ => '\'' :: text
  | .double text _ => '"' :: text
  | .doubleEscape text _ => '"' :: (text ++ ['\\'])

/-- The scan knows where that began, and has it in order. -/
def Holds (position : Nat) : Segment.Scan → Prop
  | .plain text start =>
    (∀ c ∈ text, isPlain c = true) ∧ text.length ≤ position ∧
      (text ≠ [] → start = position - text.length)
  | .escape start => position = start + 1
  | .single text start => '\'' ∉ text ∧ position = start + text.length + 1
  | .double text start => isQuotable text = true ∧ position = start + text.length + 1
  | .doubleEscape text start => isQuotable text = true ∧ position = start + text.length + 2

theorem held_length {scan : Segment.Scan} {position : Nat} (h : Holds position scan) :
    (held scan).length ≤ position := by
  cases scan with
  | plain text start => exact h.2.1
  | escape start =>
    obtain rfl : position = start + 1 := h
    exact Nat.le_add_left 1 start
  | _ => simp [held, h.2, Nat.add_assoc]

theorem plain_tiling {position start : Nat} {text : List Char}
    (h : Holds position (.plain text start)) :
    Tiling options (position - text.length) text
      (ofSegments options (Segment.plain text start)) := by
  obtain ⟨hplain, hlength, hstart⟩ := h
  unfold Segment.plain
  split
  · rename_i hnil
    subst hnil
    exact .done
  · rename_i hsome
    have hnil : ∀ c ∈ ([] : List Char), isWordChar options c = true := by simp
    rw [← hstart hsome]
    simpa [ofSegments, ofSegment] using classify_tiling hnil hplain (Nat.zero_le start)

/-- What a character has completed of a scan is tiled, and the scan holds the rest. -/
structure Completes (options : ParseOptions) (scan : Segment.Scan) (position : Nat) (c : Char)
    (segments : List Segment) (next : Segment.Scan) : Prop where
  holds : Holds (position + 1) next
  tiling : ∃ passed, held scan ++ [c] = passed ++ held next ∧
    Tiling options (position - (held scan).length) passed (ofSegments options segments)

namespace Completes

variable {position start : Nat} {c : Char} {text : List Char}

theorem nothing {scan next : Segment.Scan} (hnext : Holds (position + 1) next)
    (hheld : held scan ++ [c] = held next) : Completes options scan position c [] next :=
  ⟨hnext, [], hheld, .done⟩

theorem all {scan : Segment.Scan} {segments : List Segment} {span : List Char}
    (hspan : held scan ++ [c] = span)
    (h : Tiling options (position - (held scan).length) span (ofSegments options segments)) :
    Completes options scan position c segments (.plain [] 0) :=
  ⟨by simp [Holds], span, by rw [hspan, held, List.append_nil], h⟩

theorem plain {next : Segment.Scan} (h : Holds position (.plain text start))
    (hnext : Holds (position + 1) next) (hheld : held next = [c]) :
    Completes options (.plain text start) position c (Segment.plain text start) next :=
  ⟨hnext, text, by rw [hheld, held], plain_tiling h⟩

theorem step_plain (h : Holds position (.plain text start)) :
    Completes options (.plain text start) position c
      (Segment.step (.plain text start) position c).1
      (Segment.step (.plain text start) position c).2 := by
  simp only [Segment.step]
  split
  · rename_i hslash
    subst hslash
    exact plain h rfl rfl
  · split
    · rename_i hsingle
      subst hsingle
      exact plain h (by simp [Holds]) rfl
    · split
      · rename_i hdouble
        subst hdouble
        exact plain h (by simp [Holds, isQuotable]) rfl
      · rename_i hslash hsingle hdouble
        obtain ⟨hplain, hlength, hstart⟩ := h
        refine nothing ⟨?_, by simpa using hlength, fun _ => ?_⟩ rfl
        · exact List.forall_mem_append.2 ⟨hplain, by simp [isPlain, hslash, hsingle, hdouble]⟩
        · split
          · rename_i hnil
            simp [hnil]
          · rename_i hsome
            simp [hstart hsome]

theorem step_escape (h : Holds position (.escape start)) :
    Completes options (.escape start) position c (Segment.step (.escape start) position c).1
      (Segment.step (.escape start) position c).2 := by
  obtain rfl : position = start + 1 := h
  simp only [Segment.step]
  split
  · rename_i hnewline
    subst hnewline
    exact all rfl (.join .done)
  · rename_i hother
    exact all rfl (.one (.escaped hother) _)

theorem step_single (h : Holds position (.single text start)) :
    Completes options (.single text start) position c
      (Segment.step (.single text start) position c).1
      (Segment.step (.single text start) position c).2 := by
  obtain ⟨hbody, rfl⟩ := h
  have hbegin : start + text.length + 1 - (held (.single text start)).length = start := by
    simp [held, Nat.add_assoc]
  simp only [Segment.step]
  split
  · rename_i hsingle
    subst hsingle
    refine all rfl ?_
    rw [hbegin]
    exact .one (.single hbody) _
  · rename_i hother
    refine nothing ⟨?_, by simp [Nat.add_assoc]⟩ rfl
    simpa [hbody] using Ne.symm hother

theorem step_double (h : Holds position (.double text start)) :
    Completes options (.double text start) position c
      (Segment.step (.double text start) position c).1
      (Segment.step (.double text start) position c).2 := by
  obtain ⟨hbody, rfl⟩ := h
  have hbegin : start + text.length + 1 - (held (.double text start)).length = start := by
    simp [held, Nat.add_assoc]
  simp only [Segment.step]
  split
  · rename_i hdouble
    subst hdouble
    refine all rfl ?_
    rw [hbegin]
    exact .one (.double hbody) _
  · split
    · rename_i hslash
      subst hslash
      exact nothing ⟨hbody, by simp [Nat.add_assoc]⟩ rfl
    · rename_i hdouble hslash
      refine nothing ⟨?_, by simp [Nat.add_assoc]⟩ rfl
      rw [isQuotable_append hbody]
      simp [isQuotable, hdouble, hslash]

theorem step_doubleEscape (h : Holds position (.doubleEscape text start)) :
    Completes options (.doubleEscape text start) position c
      (Segment.step (.doubleEscape text start) position c).1
      (Segment.step (.doubleEscape text start) position c).2 := by
  obtain ⟨hbody, rfl⟩ := h
  refine nothing ⟨?_, by simp [Nat.add_assoc]⟩ (by simp [held, Segment.step])
  rw [isQuotable_append hbody]
  simp [isQuotable]

end Completes

theorem completes_step (options : ParseOptions) {scan : Segment.Scan} {position : Nat}
    (h : Holds position scan) (c : Char) :
    Completes options scan position c (Segment.step scan position c).1
      (Segment.step scan position c).2 := by
  cases scan with
  | plain text start => exact .step_plain h
  | escape start => exact .step_escape h
  | single text start => exact .step_single h
  | double text start => exact .step_double h
  | doubleEscape text start => exact .step_doubleEscape h

theorem scanFrom_tiling (options : ParseOptions) {scan : Segment.Scan} {position : Nat}
    (h : Holds position scan) {cs : List Char} {segments : List Segment}
    (hscan : Segment.scanFrom scan position cs = some segments) :
    Tiling options (position - (held scan).length) (held scan ++ cs)
      (ofSegments options segments) := by
  induction cs generalizing scan position segments with
  | nil =>
    cases scan with
    | plain text start =>
      cases hscan
      rw [List.append_nil]
      exact plain_tiling h
    | _ => cases hscan
  | cons c cs ih =>
    obtain ⟨hnext, passed, hpassed, htiling⟩ := completes_step options h c
    rw [Segment.scanFrom, Option.map_eq_some_iff] at hscan
    obtain ⟨behind, hbehind, rfl⟩ := hscan
    have hlengths := congrArg List.length hpassed
    simp only [List.length_append, List.length_singleton] at hlengths
    have hle := held_length h
    have hplace : position - (held scan).length + passed.length =
        position + 1 - (held (Segment.step scan position c).2).length := by omega
    have hcs : held scan ++ c :: cs =
        passed ++ (held (Segment.step scan position c).2 ++ cs) := by
      rw [← List.append_assoc, ← hpassed, List.append_assoc, List.singleton_append]
    have happend : ofSegments options ((Segment.step scan position c).1 ++ behind) =
        ofSegments options (Segment.step scan position c).1 ++ ofSegments options behind := by
      simp [ofSegments]
    rw [hcs, happend]
    refine htiling.append ?_
    rw [hplace]
    exact ih hnext hbehind

/-! Places. -/

/-- Where the quoting of a text stands in front of its `i`-th character: the quote that is open, and
whether a backslash waits. -/
def quoteAt (chars : List Char) (i : Nat) : Option Char × Bool :=
  (chars.take i).foldl advance (none, false)

/-- The character is of a backslash before a newline, outside quotes. -/
def Joins (chars : List Char) (i : Nat) : Prop :=
  ∃ k, (i = k ∨ i = k + 1) ∧ quoteAt chars k = (none, false) ∧
    chars[k]? = some '\\' ∧ chars[k + 1]? = some '\n'

/-- A token with the characters it stands for. -/
structure Piece where
  token : Token
  span : List Char

def Piece.Covers (piece : Piece) (i : Nat) : Prop :=
  piece.token.position ≤ i ∧ i < piece.token.position + piece.span.length

/-- The pieces are a tiling of the characters from a place on. -/
structure Tiles (options : ParseOptions) (chars : List Char) (place : Nat) (pieces : List Piece) :
    Prop where
  spells : ∀ piece ∈ pieces, Spells options piece.token.kind piece.token.text piece.span
  reads : ∀ piece ∈ pieces,
    piece.token.text = String.ofList (content piece.token.kind piece.span)
  placed : ∀ piece ∈ pieces,
    place ≤ piece.token.position ∧ piece.span <+: chars.drop piece.token.position
  increasing : pieces.Pairwise fun one next => one.token.position < next.token.position
  apart : pieces.Pairwise fun one next =>
    one.token.position + one.span.length ≤ next.token.position
  /-- What is in no span, and nothing else, joins two lines. -/
  between : ∀ i, place ≤ i → i < chars.length →
    ((∀ piece ∈ pieces, ¬ piece.Covers i) ↔ Joins chars i)
  /-- Operators, white space, newlines and variables are not quoted anywhere. -/
  unquoted : ∀ piece ∈ pieces, piece.token.kind ≠ .text → piece.token.kind ≠ .expansionString →
    ∀ i, piece.Covers i → quoteAt chars i = (none, false)

theorem quoteAt_append {before : List Char} (h : before.foldl advance (none, false) = (none, false))
    (cs : List Char) (j : Nat) :
    quoteAt (before ++ cs) (before.length + j) = (cs.take j).foldl advance (none, false) := by
  rw [quoteAt, List.take_length_add_append, List.foldl_append, h]

theorem quoteAt_succ {chars : List Char} {k : Nat} {c : Char} (h : chars[k]? = some c) :
    quoteAt chars (k + 1) = advance (quoteAt chars k) c := by
  rw [quoteAt, quoteAt, List.take_add_one, h, List.foldl_append]
  rfl

theorem Spells.not_joins {before span : List Char} {kind : TokenKind} {text : String}
    (h : Spells options kind text span) (hbefore : before.foldl advance (none, false) = (none, false))
    (cs : List Char) {i : Nat} (hfrom : before.length ≤ i) (hto : i < before.length + span.length) :
    ¬ Joins (before ++ (span ++ cs)) i := by
  rintro ⟨k, hk, hquote, hslash, hnewline⟩
  rcases Nat.lt_or_ge k before.length with hlt | hge
  · -- Then the backslash would still wait where the token begins.
    have hwaits := quoteAt_succ hslash
    have hplace : k + 1 = before.length + 0 := by omega
    rw [hquote, hplace, quoteAt_append hbefore] at hwaits
    cases hwaits
  · obtain ⟨j, rfl⟩ := Nat.exists_eq_add_of_le hge
    have hj : j < span.length := by omega
    rw [quoteAt_append hbefore, List.take_append_of_le_length hj.le] at hquote
    rw [List.getElem?_append_right hge, Nat.add_sub_cancel_left,
      List.getElem?_append_left hj] at hslash
    obtain ⟨c, hc, hnext⟩ := h.unjoined hj hquote hslash
    have hnextLt : j + 1 < span.length := (List.getElem?_eq_some_iff.1 hnext).1
    rw [Nat.add_assoc, List.getElem?_append_right (Nat.le_add_right _ _), Nat.add_sub_cancel_left,
      List.getElem?_append_left hnextLt, hnext] at hnewline
    exact hc (Option.some.inj hnewline)

theorem Spells.unquoted {before span : List Char} {kind : TokenKind} {text : String}
    (h : Spells options kind text span) (hbefore : before.foldl advance (none, false) = (none, false))
    (htext : kind ≠ .text) (hstring : kind ≠ .expansionString) (cs : List Char) {i : Nat}
    (hfrom : before.length ≤ i) (hto : i < before.length + span.length) :
    quoteAt (before ++ (span ++ cs)) i = (none, false) := by
  obtain ⟨j, rfl⟩ := Nat.exists_eq_add_of_le hfrom
  have hj : j < span.length := by omega
  rw [quoteAt_append hbefore, List.take_append_of_le_length hj.le]
  obtain ⟨-, hplain⟩ | ⟨hkind, -⟩ | ⟨hkind, -⟩ := h.shape
  · exact foldl_plain fun c hc => hplain c (List.mem_of_mem_take hc)
  · exact absurd hkind htext
  · exact absurd hkind (by simp [htext, hstring])

namespace Tiles

variable {before cs : List Char} {pieces : List Piece}

theorem join (hbefore : before.foldl advance (none, false) = (none, false))
    (h : Tiles options (before ++ '\\' :: '\n' :: cs) (before.length + 2) pieces) :
    Tiles options (before ++ '\\' :: '\n' :: cs) before.length pieces where
  spells := h.spells
  reads := h.reads
  placed piece hpiece :=
    ⟨Nat.le_of_add_right_le (h.placed piece hpiece).1, (h.placed piece hpiece).2⟩
  increasing := h.increasing
  apart := h.apart
  between i hfrom hto := by
    rcases Nat.lt_or_ge i (before.length + 2) with hlt | hge
    · refine iff_of_true (fun piece hpiece hcovers => ?_) ⟨before.length, by omega, ?_, ?_, ?_⟩
      · have hle := (h.placed piece hpiece).1
        have hposition := hcovers.1
        omega
      · simpa using quoteAt_append hbefore ('\\' :: '\n' :: cs) 0
      · simp
      · simp
    · exact h.between i hge hto
  unquoted := h.unquoted

theorem cons {kind : TokenKind} {text : String} {span : List Char}
    (hspan : Spells options kind text span)
    (hbefore : before.foldl advance (none, false) = (none, false))
    (h : Tiles options (before ++ (span ++ cs)) (before.length + span.length) pieces) :
    Tiles options (before ++ (span ++ cs)) before.length
      (⟨⟨kind, text, before.length⟩, span⟩ :: pieces) where
  spells := List.forall_mem_cons.2 ⟨hspan, h.spells⟩
  reads := List.forall_mem_cons.2 ⟨hspan.text_eq, h.reads⟩
  placed := by
    refine List.forall_mem_cons.2 ⟨⟨Nat.le_refl _, by simp⟩, fun piece hpiece => ⟨?_, ?_⟩⟩
    · exact Nat.le_of_add_right_le (h.placed piece hpiece).1
    · exact (h.placed piece hpiece).2
  increasing := by
    refine List.pairwise_cons.2 ⟨fun piece hpiece => ?_, h.increasing⟩
    have hpos := List.length_pos_iff.2 hspan.closes.1
    exact Nat.lt_of_lt_of_le (Nat.lt_add_of_pos_right hpos) (h.placed piece hpiece).1
  apart := List.pairwise_cons.2 ⟨fun piece hpiece => (h.placed piece hpiece).1, h.apart⟩
  between i hfrom hto := by
    rw [List.forall_mem_cons]
    rcases Nat.lt_or_ge i (before.length + span.length) with hlt | hge
    · exact iff_of_false (fun h => h.1 ⟨hfrom, hlt⟩) (hspan.not_joins hbefore cs hfrom hlt)
    · rw [← h.between i hge hto]
      exact and_iff_right fun hcovers => Nat.not_lt.2 hge hcovers.2
  unquoted := by
    refine List.forall_mem_cons.2 ⟨fun htext hstring i hcovers => ?_, h.unquoted⟩
    exact hspan.unquoted hbefore htext hstring cs hcovers.1 hcovers.2

end Tiles

theorem Tiling.tiles {place : Nat} {cs : List Char} {tokens : List Token}
    (h : Tiling options place cs tokens) {before : List Char} (hplace : before.length = place)
    (hbefore : before.foldl advance (none, false) = (none, false)) :
    ∃ pieces, Tiles options (before ++ cs) place pieces ∧ pieces.map Piece.token = tokens := by
  induction h generalizing before with
  | done =>
    refine ⟨[], ⟨by simp, by simp, by simp, by simp, by simp, fun i hfrom hto => ?_, by simp⟩, rfl⟩
    rw [List.append_nil] at hto
    omega
  | @join place cs tokens h ih =>
    subst hplace
    have hbehind : (before ++ ['\\', '\n']).foldl advance (none, false) = (none, false) := by
      rw [List.foldl_append, hbefore]
      rfl
    obtain ⟨pieces, htiles, hmap⟩ := ih (by simp) hbehind
    rw [List.append_assoc] at htiles
    exact ⟨pieces, htiles.join hbefore, hmap⟩
  | @token place kind text span cs tokens hspan h ih =>
    subst hplace
    have hbehind : (before ++ span).foldl advance (none, false) = (none, false) := by
      rw [List.foldl_append, hbefore, hspan.closes.2]
    obtain ⟨pieces, htiles, hmap⟩ := ih (by simp) hbehind
    rw [List.append_assoc] at htiles
    exact ⟨_ :: pieces, htiles.cons hspan hbefore, by simp [hmap]⟩

end Token

/-- The text ends inside a quote, or right behind a backslash that escapes. -/
def EndsOpen (text : String) : Prop :=
  let state := Token.quoteAt text.toList text.toList.length
  state.1.isSome = true ∨ state.2 = true

theorem resolveQuoting_eq_none_iff (text : String) :
    resolveQuoting text = none ↔ EndsOpen text := by
  have hstate : Token.quoteAt text.toList text.toList.length =
      text.toList.foldl Segment.advance (none, false) := by
    rw [Token.quoteAt, List.take_length]
  rw [← Option.not_isSome_iff_eq_none, resolveQuoting_isSome, EndsOpen, hstate]
  obtain ⟨quote, waits⟩ := text.toList.foldl Segment.advance (none, false)
  cases quote <;> cases waits <;> simp

/-- Either the text is open at its end, and then it has no tokens, or its tokens tile it. -/
theorem tokenize_tiles (options : ParseOptions) (text : String) :
    (resolveQuoting text = none ↔ EndsOpen text) ∧
    (EndsOpen text ∧ tokenize options text = none ∨
      ¬ EndsOpen text ∧ ∃ pieces, tokenize options text = some (pieces.map Token.Piece.token) ∧
        Token.Tiles options text.toList 0 pieces) := by
  have hopen := resolveQuoting_eq_none_iff text
  refine ⟨hopen, ?_⟩
  cases hsegments : resolveQuoting text with
  | none => exact .inl ⟨hopen.1 hsegments, by rw [tokenize, hsegments, Option.map_none]⟩
  | some segments =>
    have hclosed : ¬ EndsOpen text := by
      rw [← hopen, hsegments]
      exact Option.some_ne_none segments
    have htiling := Token.scanFrom_tiling options (by simp [Token.Holds]) hsegments
    obtain ⟨pieces, htiles, hmap⟩ := htiling.tiles List.length_nil List.foldl_nil
    refine .inr ⟨hclosed, pieces, ?_, htiles⟩
    rw [tokenize, hsegments, Option.map_some, hmap]

/-- The newline behind the backslash is in no token, and the one in quotes is in the text of one. -/
example : tokenize {} "a\\\n'\n'${b}" =
    some [⟨.text, "a", 0⟩, ⟨.text, "\n", 3⟩, ⟨.variableAccess, "b", 6⟩] := by decide

end ToyUnix
