import ToyUnix.Shell.Parser

/-!
Outlines. Where a token stands, how wide a gap is and what white space comes last are not in the
outline of a token list; every other token is. Lists of one outline are alike: a reader that skips
spaces, skips gaps or takes a word finds the same in both.
-/

set_option autoImplicit false

namespace ToyUnix

def TokenKind.isGap (kind : TokenKind) : Bool := kind = .whitespace || kind = .newline

/-- What the grammar sees of a token. -/
abbrev Mark := TokenKind × String

namespace Mark

/-- Gaps that come together are one, which is a newline if one of them is; a gap at the end is
none. -/
def put (mark : Mark) (rest : List Mark) : List Mark :=
  if mark.1.isGap then
    match rest with
    | [] => []
    | next :: more =>
      if next.1.isGap then (if mark.1 = .newline then .newline else next.1, "") :: more
      else (mark.1, "") :: next :: more
  else mark :: rest

def dropSpace : List Mark → List Mark
  | [] => []
  | mark :: rest => if mark.1 = .whitespace then rest else mark :: rest

def dropGap : List Mark → List Mark
  | [] => []
  | mark :: rest => if mark.1.isGap then rest else mark :: rest

end Mark

namespace Token

def mark (token : Token) : Mark := (token.kind, token.text)

def outline (tokens : List Token) : List Mark := tokens.foldr (fun token => Mark.put token.mark) []

theorem outline_cons (token : Token) (rest : List Token) :
    outline (token :: rest) = Mark.put token.mark (outline rest) := rfl

end Token

namespace Mark

theorem put_of_not_gap {mark : Mark} (h : mark.1.isGap = false) (rest : List Mark) :
    put mark rest = mark :: rest := by
  simp [put, h]

theorem put_nil {mark : Mark} (h : mark.1.isGap = true) : put mark [] = [] := by
  simp [put, h]

theorem put_gap (mark : Mark) (h : mark.1.isGap = true) (rest : List Mark) :
    put mark rest = [] ∨ ∃ kind more, put mark rest = (kind, "") :: more ∧ kind.isGap = true ∧
      (mark.1 = .newline → kind = .newline) := by
  unfold put
  rw [if_pos h]
  cases rest with
  | nil => exact Or.inl rfl
  | cons next more =>
    right
    cases hnext : next.1.isGap with
    | false => exact ⟨mark.1, next :: more, by simp [hnext], h, id⟩
    | true =>
      refine ⟨if mark.1 = .newline then .newline else next.1, more, by simp [hnext], ?_, ?_⟩
      · split
        · rfl
        · exact hnext
      · intro hnewline
        rw [if_pos hnewline]

/-- In what `put` makes, gaps have no text and never stand side by side. -/
def Tidy : List Mark → Prop
  | [] => True
  | mark :: rest =>
    (mark.1.isGap = true → mark.2 = "" ∧ ∃ next more, rest = next :: more ∧ next.1.isGap = false) ∧
      Tidy rest

theorem Tidy.put {rest : List Mark} (h : Tidy rest) (mark : Mark) : Tidy (put mark rest) := by
  unfold Mark.put
  cases hgap : mark.1.isGap with
  | false => simpa [Tidy, hgap] using h
  | true =>
    cases rest with
    | nil => trivial
    | cons next more =>
      cases hnext : next.1.isGap with
      | false =>
        simp only [hnext, Bool.false_eq_true, if_false, if_true]
        exact ⟨fun _ => ⟨rfl, next, more, rfl, hnext⟩, h⟩
      | true =>
        simp only [hnext, if_true]
        exact ⟨fun _ => ⟨rfl, (h.1 hnext).2⟩, h.2⟩

theorem tidy_outline (tokens : List Token) : Tidy (Token.outline tokens) := by
  induction tokens with
  | nil => trivial
  | cons token rest ih => exact ih.put _

theorem dropSpace_put {mark : Mark} (h : mark.1 = .whitespace) {rest : List Mark}
    (hrest : Tidy rest) : dropSpace (put mark rest) = dropSpace rest := by
  have hgap : mark.1.isGap = true := by simp [h, TokenKind.isGap]
  have hne : mark.1 ≠ .newline := by simp [h]
  unfold put
  rw [if_pos hgap]
  cases rest with
  | nil => rfl
  | cons next more =>
    cases hnext : next.1.isGap with
    | false =>
      have hspace : next.1 ≠ .whitespace := by
        intro hspace
        simp [hspace, TokenKind.isGap] at hnext
      simp [dropSpace, h, hspace, hnext]
    | true =>
      have htext := (hrest.1 hnext).1
      obtain ⟨kind, text⟩ := next
      obtain rfl : text = "" := htext
      simp [dropSpace, hnext, hne]

theorem dropGap_put (mark : Mark) (h : mark.1.isGap = true) (rest : List Mark) :
    dropGap (put mark rest) = dropGap rest := by
  unfold put
  rw [if_pos h]
  cases rest with
  | nil => rfl
  | cons next more =>
    cases hnext : next.1.isGap with
    | false => simp [dropGap, h, hnext]
    | true =>
      have hnewline : TokenKind.isGap .newline = true := rfl
      simp only [dropGap, hnext, if_true]
      split <;> simp_all

end Mark

namespace Token

open Mark (put Tidy dropSpace dropGap)

theorem outline_of_not_gap {token : Token} (h : token.kind.isGap = false) (rest : List Token) :
    outline (token :: rest) = token.mark :: outline rest :=
  Mark.put_of_not_gap h _

theorem outline_skipSpaces (tokens : List Token) :
    outline (Parser.skipSpaces tokens) = dropSpace (outline tokens) := by
  induction tokens with
  | nil => rfl
  | cons token rest ih =>
    unfold Parser.skipSpaces at ih ⊢
    by_cases hspace : token.kind = .whitespace
    · rw [List.dropWhile_cons_of_pos (by simpa using hspace), ih, outline_cons,
        Mark.dropSpace_put hspace (Mark.tidy_outline rest)]
    · rw [List.dropWhile_cons_of_neg (by simpa using hspace)]
      cases houtline : outline (token :: rest) with
      | nil => rfl
      | cons first more =>
        have hfirst : first.1 ≠ .whitespace := by
          rw [outline_cons] at houtline
          cases hgap : token.kind.isGap with
          | false =>
            rw [Mark.put_of_not_gap hgap] at houtline
            cases houtline
            exact hspace
          | true =>
            have hnewline : token.kind = .newline := by
              simpa [TokenKind.isGap, hspace] using hgap
            obtain hnil | ⟨kind, others, hput, -, hkind⟩ :=
              Mark.put_gap token.mark hgap (outline rest)
            · rw [hnil] at houtline
              cases houtline
            · rw [hput] at houtline
              cases houtline
              rw [hkind hnewline]
              decide
        simp [dropSpace, hfirst]

theorem outline_skipBlanks (tokens : List Token) :
    outline (Parser.skipBlanks tokens) = dropGap (outline tokens) := by
  induction tokens with
  | nil => rfl
  | cons token rest ih =>
    unfold Parser.skipBlanks at ih ⊢
    cases hgap : token.kind.isGap with
    | true =>
      rw [List.dropWhile_cons_of_pos (by simpa [TokenKind.isGap] using hgap), ih, outline_cons,
        Mark.dropGap_put token.mark hgap]
    | false =>
      rw [List.dropWhile_cons_of_neg (by simpa [TokenKind.isGap] using hgap),
        outline_of_not_gap hgap]
      simp [dropGap, mark, hgap]

/-- Token lists that the grammar cannot tell apart. -/
def Alike (ts us : List Token) : Prop := outline ts = outline us

theorem Alike.skipSpaces {ts us : List Token} (h : Alike ts us) :
    Alike (Parser.skipSpaces ts) (Parser.skipSpaces us) := by
  rw [Alike, outline_skipSpaces, outline_skipSpaces, h]

theorem Alike.skipBlanks {ts us : List Token} (h : Alike ts us) :
    Alike (Parser.skipBlanks ts) (Parser.skipBlanks us) := by
  rw [Alike, outline_skipBlanks, outline_skipBlanks, h]

def AtGap : List Token → Prop
  | [] => True
  | token :: _ => token.kind.isGap = true

theorem Alike.cons {t : Token} {ts us : List Token} (ht : t.kind.isGap = false)
    (h : Alike (t :: ts) us) : ∃ u rest, us = u :: rest ∧ u.mark = t.mark ∧ Alike ts rest := by
  rw [Alike, outline_of_not_gap ht] at h
  cases us with
  | nil => cases h
  | cons u rest =>
    cases hu : u.kind.isGap with
    | false =>
      rw [outline_of_not_gap hu, List.cons.injEq] at h
      exact ⟨u, rest, rfl, h.1.symm, h.2⟩
    | true =>
      -- A gap in front would show in the outline.
      rw [outline_cons] at h
      obtain hnil | ⟨kind, more, hput, hgap, -⟩ :=
        Mark.put_gap u.mark hu (outline rest)
      · rw [hnil] at h
        cases h
      · rw [hput] at h
        have hkind : t.kind = kind := congrArg Prod.fst (List.cons.inj h).1
        rw [hkind, hgap] at ht
        cases ht

theorem Alike.heads {ts us : List Token} (h : Alike ts us) :
    (AtGap (Parser.skipSpaces ts) ∧ AtGap (Parser.skipSpaces us)) ∨
    ∃ t rest u others, Parser.skipSpaces ts = t :: rest ∧ Parser.skipSpaces us = u :: others ∧
      t.kind.isGap = false ∧ u.mark = t.mark ∧ Alike rest others := by
  have halike := h.skipSpaces
  have hgap : ∀ {vs ws : List Token}, Alike vs ws → AtGap vs → AtGap ws := by
    intro vs ws hvs hgap
    cases ws with
    | nil => trivial
    | cons w others =>
      cases hw : w.kind.isGap with
      | true => exact hw
      | false =>
        obtain ⟨v, rest, rfl, hmark, -⟩ := Alike.cons hw hvs.symm
        have hkind : v.kind = w.kind := congrArg Prod.fst hmark
        have hv : v.kind.isGap = true := hgap
        rw [hkind, hw] at hv
        cases hv
  cases hts : Parser.skipSpaces ts with
  | nil =>
    rw [hts] at halike
    exact Or.inl ⟨trivial, hgap halike trivial⟩
  | cons t rest =>
    rw [hts] at halike
    cases ht : t.kind.isGap with
    | true => exact Or.inl ⟨ht, hgap halike ht⟩
    | false =>
      obtain ⟨u, others, hus, hmark, hrest⟩ := halike.cons ht
      exact Or.inr ⟨t, rest, u, others, rfl, hus, ht, hmark, hrest⟩

theorem isGap_of_isWordPart {token : Token} (h : token.isWordPart = true) :
    token.kind.isGap = false := by
  unfold Token.isWordPart at h
  cases hkind : token.kind <;> simp_all [TokenKind.isWordPart, TokenKind.isGap]

theorem Alike.words {ts us : List Token} (h : Alike ts us) :
    (us.takeWhile Token.isWordPart).map Token.mark =
        (ts.takeWhile Token.isWordPart).map Token.mark ∧
      Alike (ts.dropWhile Token.isWordPart) (us.dropWhile Token.isWordPart) := by
  have hkinds : ∀ {t u : Token}, u.mark = t.mark → u.isWordPart = t.isWordPart := by
    intro t u hmark
    have hkind : u.kind = t.kind := congrArg Prod.fst hmark
    simp only [Token.isWordPart, hkind]
  induction ts generalizing us with
  | nil =>
    cases us with
    | nil => exact ⟨rfl, h⟩
    | cons u others =>
      cases hu : u.isWordPart with
      | false => simpa [hu] using h
      | true =>
        obtain ⟨v, rest, hnil, -⟩ := Alike.cons (isGap_of_isWordPart hu) h.symm
        cases hnil
  | cons t rest ih =>
    cases ht : t.isWordPart with
    | true =>
      obtain ⟨u, others, rfl, hmark, hrest⟩ := h.cons (isGap_of_isWordPart ht)
      have hu := (hkinds hmark).trans ht
      simpa [ht, hu, hmark] using ih hrest
    | false =>
      cases us with
      | nil => simpa [ht] using h
      | cons u others =>
        cases hu : u.isWordPart with
        | false => simpa [ht, hu] using h
        | true =>
          obtain ⟨v, left, hcons, hmark, -⟩ := Alike.cons (isGap_of_isWordPart hu) h.symm
          rw [(List.cons.inj hcons).1, hkinds hmark, hu] at ht
          cases ht

end Token

end ToyUnix
