import ToyUnix.Proofs.Shell.Outline

/-!
The grammar sees of a token list no more than its outline: each reader finds the same in lists that
are alike and leaves lists that are alike. Two token lists with the same outline, white space in
front apart, have the same tree or none, see `parse_congr`.
-/

set_option autoImplicit false

namespace ToyUnix

namespace Parser

open Token (Alike AtGap)

/-- Whatever the first reader finds the second one finds, and it leaves tokens that are alike, no
more than `us` has. -/
def Follows {α : Type} (us : List Token) (first second : Except Fault (α × List Token)) : Prop :=
  ∀ a rest, first = .ok (a, rest) →
    ∃ others, second = .ok (a, others) ∧ Alike rest others ∧ others.length ≤ us.length

section

variable {α β : Type} {us vs : List Token} {first second : Except Fault (α × List Token)}

theorem Follows.error (fault : Fault) : Follows us (.error fault) second := by
  intro a rest h
  cases h

theorem Follows.ok (a : α) {rest others : List Token} (h : Alike rest others)
    (hlength : others.length ≤ us.length) : Follows us (.ok (a, rest)) (.ok (a, others)) := by
  intro b left heq
  cases heq
  exact ⟨others, rfl, h, hlength⟩

theorem Follows.mono (h : Follows us first second) (hlength : us.length ≤ vs.length) :
    Follows vs first second := by
  intro a rest hfirst
  obtain ⟨others, hsecond, halike, hothers⟩ := h a rest hfirst
  exact ⟨others, hsecond, halike, Nat.le_trans hothers hlength⟩

theorem Follows.bind (h : Follows us first second)
    {f g : α × List Token → Except Fault (β × List Token)}
    (hnext : ∀ a rest others, Alike rest others → others.length ≤ us.length →
      Follows us (f (a, rest)) (g (a, others))) : Follows us (first >>= f) (second >>= g) := by
  intro b left hbind
  cases hfirst : first with
  | error fault =>
    rw [hfirst] at hbind
    cases hbind
  | ok found =>
    obtain ⟨a, rest⟩ := found
    rw [hfirst] at hbind
    obtain ⟨others, hsecond, halike, hlength⟩ := h a rest hfirst
    rw [hsecond]
    exact hnext a rest others halike hlength b left hbind

end

theorem length_skipSpaces (tokens : List Token) : (skipSpaces tokens).length ≤ tokens.length :=
  (List.dropWhile_sublist _).length_le

theorem length_skipBlanks (tokens : List Token) : (skipBlanks tokens).length ≤ tokens.length :=
  (List.dropWhile_sublist _).length_le

/-! Words. -/

theorem addToWord_congr {t u : Token} (h : u.mark = t.mark) (word : Word) :
    addToWord word u = addToWord word t := by
  have hkind : u.kind = t.kind := congrArg Prod.fst h
  have htext : u.text = t.text := congrArg Prod.snd h
  simp only [addToWord, hkind, htext]

theorem wordOf_congr {ts us : List Token} (h : us.map Token.mark = ts.map Token.mark) :
    wordOf us = wordOf ts := by
  suffices hfold : ∀ word : Word, us.foldl addToWord word = ts.foldl addToWord word from hfold {}
  induction ts generalizing us with
  | nil =>
    rw [List.map_nil, List.map_eq_nil_iff] at h
    simp [h]
  | cons t rest ih =>
    cases us with
    | nil => cases h
    | cons u others =>
      rw [List.map_cons, List.map_cons, List.cons.injEq] at h
      intro word
      rw [List.foldl_cons, List.foldl_cons, addToWord_congr h.1, ih h.2]

theorem word?_alike {ts us : List Token} (h : Alike ts us) :
    (word? ts = none ∧ word? us = none) ∨
    ∃ word rest others, word? ts = some (word, rest) ∧ word? us = some (word, others) ∧
      Alike rest others ∧ others.length < us.length := by
  obtain ⟨hmarks, hrest⟩ := h.words
  have hlength : (us.takeWhile Token.isWordPart).length +
      (us.dropWhile Token.isWordPart).length = us.length := by
    rw [← List.length_append, List.takeWhile_append_dropWhile]
  unfold word?
  cases hts : ts.takeWhile Token.isWordPart with
  | nil =>
    rw [hts, List.map_nil, List.map_eq_nil_iff] at hmarks
    exact Or.inl ⟨rfl, by rw [hmarks]⟩
  | cons t parts =>
    cases hus : us.takeWhile Token.isWordPart with
    | nil =>
      rw [hts, hus] at hmarks
      cases hmarks
    | cons u others =>
      rw [hts, hus] at hmarks
      rw [hus, List.length_cons] at hlength
      exact Or.inr ⟨_, _, _, rfl, congrArg (fun word => some (word, _)) (wordOf_congr hmarks), hrest,
        by omega⟩

/-! Redirections and simple commands. -/

theorem redirectTarget_follows {ts us : List Token} (h : Alike ts us) :
    Follows us (redirectTarget ts) (redirectTarget us) := by
  have hlength := length_skipSpaces us
  unfold redirectTarget
  obtain ⟨hts, -⟩ | ⟨word, rest, others, hts, hus, hrest, hothers⟩ := word?_alike h.skipSpaces
  · simp only [hts]
    exact .error _
  · simp only [hts, hus]
    exact .ok word hrest (by omega)

theorem redirectMode?_gap {kind : TokenKind} (h : kind.isGap = true) :
    redirectMode? kind = none := by
  cases kind <;> first | rfl | cases h

theorem redirects_gap (n : Nat) {tokens : List Token} (h : AtGap (skipSpaces tokens)) :
    redirects (n + 1) tokens = .ok ([], skipSpaces tokens) := by
  rw [redirects]
  generalize skipSpaces tokens = left at *
  cases left with
  | nil => rfl
  | cons t rest => simp only [redirectMode?_gap h]

theorem redirects_follows (n : Nat) {m : Nat} {ts us : List Token} (h : Alike ts us)
    (hm : us.length < m) : Follows us (redirects n ts) (redirects m us) := by
  induction n generalizing m ts us with
  | zero => exact .error _
  | succ n ih =>
    obtain ⟨m, rfl⟩ := Nat.exists_eq_add_one.2 (Nat.zero_lt_of_lt hm)
    have hskip := length_skipSpaces us
    obtain ⟨hts, hus⟩ | ⟨t, rest, u, others, hts, hus, ht, hmark, hrest⟩ := h.heads
    · rw [redirects_gap n hts, redirects_gap m hus]
      exact .ok [] h.skipSpaces hskip
    · have hkind : u.kind = t.kind := congrArg Prod.fst hmark
      rw [hus, List.length_cons] at hskip
      simp only [redirects, hts, hus, hkind]
      cases redirectMode? t.kind with
      | none =>
        have halike := h.skipSpaces
        rw [hts, hus] at halike
        exact .ok [] halike hskip
      | some mode =>
        refine Follows.mono (.bind (redirectTarget_follows hrest) ?_) (by omega)
        intro target left right hleft hright
        refine Follows.mono (.bind (ih hleft (by omega)) ?_) hright
        intro more left right hleft hright
        exact .ok _ hleft hright

theorem simpleItems_gap (nested : Bool) (n : Nat) (simple : Simple) {tokens : List Token}
    (h : AtGap (skipSpaces tokens)) :
    simpleItems nested (n + 1) simple tokens = .ok (simple, skipSpaces tokens) := by
  rw [simpleItems]
  generalize skipSpaces tokens = left at *
  cases left with
  | nil => rfl
  | cons t rest =>
    have hkind : t.kind.isGap = true := h
    have hbrace : t.kind ≠ .closeBrace := by
      intro hbrace
      simp [hbrace, TokenKind.isGap] at hkind
    have htext : t.kind ≠ .text := by
      intro htext
      simp [htext, TokenKind.isGap] at hkind
    have hword : t.isWordPart = false := by
      cases hword : t.isWordPart with
      | false => rfl
      | true =>
        rw [Token.isGap_of_isWordPart hword] at hkind
        cases hkind
    have hname : assignmentName? (t :: rest) = none := by
      cases rest <;> simp [assignmentName?, htext]
    have hnone : word? (t :: rest) = none := by simp [word?, hword]
    simp [hbrace, redirectMode?_gap hkind, hname, hnone]

theorem assignmentName?_alike {ts us : List Token} (h : Alike ts us) :
    (assignmentName? ts = none ∧ assignmentName? us = none) ∨
    ∃ name rest others, assignmentName? ts = some (name, rest) ∧
      assignmentName? us = some (name, others) ∧ Alike rest others ∧
      others.length < us.length := by
  -- What is read from the one list is there in the other one too.
  have hread : ∀ {vs ws : List Token} {name : String} {rest : List Token}, Alike vs ws →
      assignmentName? vs = some (name, rest) → ∃ others, assignmentName? ws = some (name, others) ∧
        Alike rest others ∧ others.length < ws.length := by
    intro vs ws name rest hvs hname
    match vs with
    | [] | [_] => cases hname
    | first :: sign :: left =>
      simp only [assignmentName?] at hname
      split at hname
      · rename_i hread
        obtain ⟨hfirst, hidentifier, hsign⟩ := hread
        cases hname
        obtain ⟨w, tail, rfl, hw, htail⟩ := hvs.cons (by simp [hfirst, TokenKind.isGap])
        obtain ⟨x, others, rfl, hx, hothers⟩ := htail.cons (by simp [hsign, TokenKind.isGap])
        have hkind : w.kind = first.kind := congrArg Prod.fst hw
        have htext : w.text = first.text := congrArg Prod.snd hw
        have hassign : x.kind = sign.kind := congrArg Prod.fst hx
        refine ⟨others, ?_, hothers, by simp only [List.length_cons]; omega⟩
        simp [assignmentName?, hkind, htext, hassign, hfirst, hidentifier, hsign]
      · cases hname
  cases hts : assignmentName? ts with
  | none =>
    cases hus : assignmentName? us with
    | none => exact Or.inl ⟨rfl, rfl⟩
    | some found =>
      obtain ⟨others, hothers, -⟩ := hread h.symm hus
      rw [hts] at hothers
      cases hothers
  | some found =>
    obtain ⟨name, rest⟩ := found
    obtain ⟨others, hus, halike, hlength⟩ := hread h hts
    exact Or.inr ⟨name, rest, others, rfl, hus, halike, hlength⟩

def simpleWord (nested : Bool) (n : Nat) (simple : Simple) (tokens : List Token) :
    Except Fault (Simple × List Token) :=
  match word? tokens with
  | none => .ok (simple, tokens)
  | some (word, rest) => simpleItems nested n { simple with words := simple.words ++ [word] } rest

theorem simpleItems_follows (nested : Bool) (n : Nat) {m : Nat} (simple : Simple)
    {ts us : List Token} (h : Alike ts us) (hm : us.length < m) :
    Follows us (simpleItems nested n simple ts) (simpleItems nested m simple us) := by
  induction n generalizing m simple ts us with
  | zero => exact .error _
  | succ n ih =>
    obtain ⟨m, rfl⟩ := Nat.exists_eq_add_one.2 (Nat.zero_lt_of_lt hm)
    have hskip := length_skipSpaces us
    have halike := h.skipSpaces
    obtain ⟨hts, hus⟩ | ⟨t, rest, u, others, hts, hus, ht, hmark, hrest⟩ := h.heads
    · rw [simpleItems_gap nested n simple hts, simpleItems_gap nested m simple hus]
      exact .ok simple halike hskip
    · have hkind : u.kind = t.kind := congrArg Prod.fst hmark
      rw [hts, hus] at halike
      rw [hus, List.length_cons] at hskip
      have hstop : Follows us (.ok (simple, t :: rest)) (.ok (simple, u :: others)) :=
        .ok simple halike (by simpa using hskip)
      have hword : Follows us (simpleWord nested n simple (t :: rest))
          (simpleWord nested m simple (u :: others)) := by
        unfold simpleWord
        obtain ⟨hnone, hnone'⟩ | ⟨word, left, right, hsome, hsome', hleft, hright⟩ :=
          word?_alike halike
        · simpa only [hnone, hnone'] using hstop
        · rw [List.length_cons] at hright
          simp only [hsome, hsome']
          exact (ih _ hleft (by omega)).mono (by omega)
      simp only [simpleItems, hts, hus, hkind]
      split
      · exact hstop
      · cases redirectMode? t.kind with
        | some mode =>
          refine Follows.mono (.bind (redirectTarget_follows hrest) ?_) (by omega)
          intro target left right hleft hright
          exact (ih _ hleft (by omega)).mono hright
        | none =>
          simp only
          split
          · obtain ⟨hnone, hnone'⟩ | ⟨name, left, right, hsome, hsome', hleft, hright⟩ :=
              assignmentName?_alike halike
            · simp only [hnone, hnone']
              exact hword
            · rw [List.length_cons] at hright
              simp only [hsome, hsome']
              obtain ⟨hvalue, hvalue'⟩ |
                ⟨value, more, others', hvalue, hvalue', hmore, hlength⟩ := word?_alike hleft
              · simp only [hvalue, hvalue', Option.getD_none]
                exact (ih _ hleft (by omega)).mono (by omega)
              · simp only [hvalue, hvalue', Option.getD_some]
                exact (ih _ hmore (by omega)).mono (by omega)
          · exact hword

theorem simpleCommand_follows (nested : Bool) {ts us : List Token} (h : Alike ts us) :
    Follows us (simpleCommand nested ts) (simpleCommand nested us) := by
  unfold simpleCommand
  refine .bind (simpleItems_follows nested _ {} h (Nat.lt_succ_self _)) ?_
  intro simple rest others hrest hlength
  simp only
  split
  · exact .error _
  · exact .ok _ hrest hlength

/-! Groups and functions. -/

theorem skipBlanks_head {tokens rest : List Token} {t : Token} (h : skipBlanks tokens = t :: rest) :
    t.kind.isGap = false := by
  have hnot := List.head?_dropWhile_not
    (fun token : Token => token.kind = .whitespace || token.kind = .newline) tokens
  unfold skipBlanks at h
  rw [h] at hnot
  simpa [TokenKind.isGap] using hnot

theorem Alike.tops {ts us : List Token} (h : Alike ts us) :
    (skipBlanks ts = [] ∧ skipBlanks us = []) ∨
    ∃ t rest u others, skipBlanks ts = t :: rest ∧ skipBlanks us = u :: others ∧
      u.mark = t.mark ∧ Alike rest others := by
  have halike := Token.Alike.skipBlanks h
  cases hts : skipBlanks ts with
  | nil =>
    cases hus : skipBlanks us with
    | nil => exact Or.inl ⟨rfl, rfl⟩
    | cons u others =>
      rw [hts, hus] at halike
      obtain ⟨v, rest, hnil, -⟩ := Token.Alike.cons (skipBlanks_head hus) halike.symm
      cases hnil
  | cons t rest =>
    rw [hts] at halike
    obtain ⟨u, others, hus, hmark, hrest⟩ := halike.cons (skipBlanks_head hts)
    exact Or.inr ⟨t, rest, u, others, rfl, hus, hmark, hrest⟩

theorem atListEnd_alike (nested : Bool) {ts us : List Token} (h : Alike ts us) :
    atListEnd nested (skipBlanks us) = atListEnd nested (skipBlanks ts) := by
  obtain ⟨hts, hus⟩ | ⟨t, rest, u, others, hts, hus, hmark, -⟩ := Alike.tops h
  · rw [hts, hus]
  · have hkind : u.kind = t.kind := congrArg Prod.fst hmark
    simp only [hts, hus, atListEnd, hkind]

theorem expect_follows {α : Type} (kind : TokenKind) {ts us : List Token} (h : Alike ts us)
    {f g : List Token → Except Fault (α × List Token)}
    (hnext : ∀ rest others, Alike rest others → others.length ≤ us.length →
      Follows us (f rest) (g others)) :
    Follows us (expect kind ts >>= f) (expect kind us >>= g) := by
  have hlength := length_skipBlanks us
  unfold expect
  obtain ⟨hts, -⟩ | ⟨t, rest, u, others, hts, hus, hmark, hrest⟩ := Alike.tops h
  · rw [hts]
    exact .error _
  · have hkind : u.kind = t.kind := congrArg Prod.fst hmark
    rw [hus, List.length_cons] at hlength
    simp only [hts, hus, hkind]
    split
    · exact hnext rest others hrest (by omega)
    · exact .error _

theorem group_follows (close : TokenKind) (wrap : Instruction → Instruction) {us : List Token}
    {first second : Except Fault (Instruction × List Token)} (h : Follows us first second) :
    Follows us
      (first >>= fun found => expect close found.2 >>= fun rest =>
        redirects (rest.length + 1) rest >>= fun more =>
          .ok (wrapRedirects (wrap found.1) more.1, more.2))
      (second >>= fun found => expect close found.2 >>= fun rest =>
        redirects (rest.length + 1) rest >>= fun more =>
          .ok (wrapRedirects (wrap found.1) more.1, more.2)) := by
  refine .bind h ?_
  intro body rest others hrest hlength
  refine (expect_follows close hrest ?_).mono hlength
  intro left right hleft hright
  refine Follows.mono (.bind (redirects_follows _ hleft (Nat.lt_succ_self _)) ?_) hright
  intro more left right hleft hright
  exact .ok _ hleft hright

/-- What follows a token of that kind, spaces in front of it apart. -/
def behind? (kind : TokenKind) (tokens : List Token) : Option (List Token) :=
  match skipSpaces tokens with
  | [] => none
  | token :: rest => if token.kind = kind then some rest else none

theorem behind?_alike {kind : TokenKind} (hkind : kind.isGap = false) {ts us : List Token}
    (h : Alike ts us) :
    (behind? kind ts = none ∧ behind? kind us = none) ∨
    ∃ rest others, behind? kind ts = some rest ∧ behind? kind us = some others ∧
      Alike rest others ∧ others.length < us.length := by
  have hlength := length_skipSpaces us
  have hnone : ∀ {vs : List Token}, AtGap (skipSpaces vs) → behind? kind vs = none := by
    intro vs hvs
    unfold behind?
    split
    · rfl
    · rename_i token rest hskip
      rw [hskip] at hvs
      have hgap : token.kind.isGap = true := hvs
      exact if_neg fun heq => by simp [heq, hkind] at hgap
  obtain ⟨hts, hus⟩ | ⟨t, rest, u, others, hts, hus, -, hmark, hrest⟩ := h.heads
  · exact Or.inl ⟨hnone hts, hnone hus⟩
  · have hsame : u.kind = t.kind := congrArg Prod.fst hmark
    rw [hus, List.length_cons] at hlength
    simp only [behind?, hts, hus, hsame]
    by_cases ht : t.kind = kind
    · exact Or.inr ⟨rest, others, if_pos ht, if_pos ht, hrest, by omega⟩
    · exact Or.inl ⟨if_neg ht, if_neg ht⟩

theorem functionHeader?_cons (name : Token) (rest : List Token) :
    functionHeader? (name :: rest) =
      if name.kind = .text && isIdentifier name.text then
        ((behind? .openParen rest).bind (behind? .closeParen)).map (name.text, ·)
      else none := by
  simp only [functionHeader?, behind?]
  cases name.kind = .text && isIdentifier name.text with
  | false => rfl
  | true =>
    cases skipSpaces rest with
    | nil => rfl
    | cons opening left =>
      by_cases hopen : opening.kind = .openParen
      · cases hleft : skipSpaces left with
        | nil => simp [behind?, hopen, hleft]
        | cons closing more =>
          by_cases hclose : closing.kind = .closeParen <;> simp [behind?, hopen, hleft, hclose]
      · simp [hopen]

theorem functionHeader?_alike {t u : Token} {ts us : List Token} (hmark : u.mark = t.mark)
    (h : Alike ts us) :
    (functionHeader? (t :: ts) = none ∧ functionHeader? (u :: us) = none) ∨
    ∃ name rest others, functionHeader? (t :: ts) = some (name, rest) ∧
      functionHeader? (u :: us) = some (name, others) ∧ Alike rest others ∧
      others.length < us.length := by
  have hkind : u.kind = t.kind := congrArg Prod.fst hmark
  have htext : u.text = t.text := congrArg Prod.snd hmark
  rw [functionHeader?_cons, functionHeader?_cons, hkind, htext]
  cases t.kind = .text && isIdentifier t.text with
  | false => exact Or.inl ⟨rfl, rfl⟩
  | true =>
    have hopen : TokenKind.isGap .openParen = false := rfl
    have hclose : TokenKind.isGap .closeParen = false := rfl
    obtain ⟨hts, hus⟩ | ⟨left, right, hts, hus, halike, hlength⟩ := behind?_alike hopen h
    · exact Or.inl (by simp [hts, hus])
    · obtain ⟨hleft, hright⟩ | ⟨rest, others, hleft, hright, hrest, hothers⟩ :=
        behind?_alike hclose halike
      · exact Or.inl (by simp [hts, hus, hleft, hright])
      · exact Or.inr ⟨t.text, rest, others, by simp [hts, hleft], by simp [hus, hright], hrest,
          by omega⟩

/-! Lists of commands. The readers call each other with one call less each time, so the second one
must have enough of them for its tokens. -/

theorem skipSpaces_of_ne {token : Token} (h : token.kind ≠ .whitespace) {rest : List Token} :
    skipSpaces (token :: rest) = token :: rest :=
  List.dropWhile_cons_of_neg (by simpa using h)

theorem skipBlanks_of_isGap {token : Token} (h : token.kind.isGap = false) {rest : List Token} :
    skipBlanks (token :: rest) = token :: rest :=
  List.dropWhile_cons_of_neg (by simpa [TokenKind.isGap] using h)

theorem skipBlanks_skipSpaces (tokens : List Token) :
    skipBlanks (skipSpaces tokens) = skipBlanks tokens := by
  induction tokens with
  | nil => rfl
  | cons token rest ih =>
    unfold skipSpaces skipBlanks at ih ⊢
    by_cases hspace : token.kind = .whitespace
    · rw [List.dropWhile_cons_of_pos (by simpa using hspace), ih,
        List.dropWhile_cons_of_pos (by simp [hspace])]
    · rw [List.dropWhile_cons_of_neg (by simpa using hspace)]

theorem skipSpaces_head {tokens rest : List Token} {t : Token} (h : skipSpaces tokens = t :: rest) :
    t.kind ≠ .whitespace := by
  have hnot := List.head?_dropWhile_not (fun token : Token => token.kind = .whitespace) tokens
  unfold skipSpaces at h
  rw [h] at hnot
  simpa using hnot

def listBehind (n : Nat) (nested : Bool) (first : Instruction)
    (join : Instruction → Instruction → Instruction) (tokens : List Token) :
    Except Fault (Instruction × List Token) :=
  if atListEnd nested (skipBlanks tokens) then .ok (first, skipBlanks tokens)
  else list n nested (skipBlanks tokens) >>= fun next => .ok (join first next.1, next.2)

def listRest (n : Nat) (nested : Bool) (first : Instruction) (tokens : List Token) :
    Except Fault (Instruction × List Token) :=
  match skipSpaces tokens with
  | [] => .ok (first, [])
  | token :: rest =>
    match separator? token.kind with
    | none => .ok (first, token :: rest)
    | some join => listBehind n nested first join rest

theorem list_succ (n : Nat) (nested : Bool) (tokens : List Token) :
    list (n + 1) nested tokens =
      if atListEnd nested (skipBlanks tokens) then .ok (.empty, skipBlanks tokens)
      else andOr n nested (skipBlanks tokens) >>= fun first => listRest n nested first.1 first.2 := by
  rw [list]
  rfl

theorem listRest_gap (n : Nat) (nested : Bool) (first : Instruction) {tokens : List Token}
    (h : AtGap (skipSpaces tokens)) :
    listRest n nested first tokens = listBehind n nested first .sequential tokens := by
  have hblanks := skipBlanks_skipSpaces tokens
  unfold listRest
  cases hskip : skipSpaces tokens with
  | nil =>
    rw [hskip] at hblanks
    have hnil : skipBlanks tokens = [] := hblanks.symm
    simp [listBehind, hnil, atListEnd]
  | cons t rest =>
    rw [hskip] at h hblanks
    have hgap : t.kind.isGap = true := h
    have hnewline : t.kind = .newline := by
      simpa [TokenKind.isGap, skipSpaces_head hskip] using hgap
    have hrest : skipBlanks rest = skipBlanks tokens := by
      rw [← hblanks]
      unfold skipBlanks
      rw [List.dropWhile_cons_of_pos (by simp [hnewline])]
    simp [hnewline, separator?, listBehind, hrest]

theorem andOrRest_gap (n : Nat) (nested : Bool) (left : Instruction) {tokens : List Token}
    (h : AtGap (skipSpaces tokens)) :
    andOrRest (n + 1) nested left tokens = .ok (left, skipSpaces tokens) := by
  rw [andOrRest]
  generalize skipSpaces tokens = rest at *
  cases rest with
  | nil => rfl
  | cons t rest =>
    have hgap : t.kind.isGap = true := h
    have hlogic : logic? t.kind = none := by
      cases hkind : t.kind <;> simp_all [TokenKind.isGap, logic?]
    simp only [hlogic]

theorem pipelineRest_gap (n : Nat) (nested : Bool) (left : Instruction) {tokens : List Token}
    (h : AtGap (skipSpaces tokens)) :
    pipelineRest (n + 1) nested left tokens = .ok (left, skipSpaces tokens) := by
  rw [pipelineRest]
  generalize skipSpaces tokens = rest at *
  cases rest with
  | nil => rfl
  | cons t rest =>
    have hgap : t.kind.isGap = true := h
    have hpipe : t.kind ≠ .pipe := by
      intro hpipe
      simp [hpipe, TokenKind.isGap] at hgap
    simp only [hpipe, if_false]

theorem command_gap (n : Nat) (nested : Bool) {tokens : List Token}
    (h : AtGap (skipSpaces tokens)) : ∃ fault, command n nested tokens = .error fault := by
  have hnone : ∀ rest : List Token, AtGap (skipSpaces rest) →
      ∃ fault, simpleCommand nested rest = .error fault := by
    intro rest hrest
    unfold simpleCommand
    rw [simpleItems_gap nested _ {} hrest]
    exact ⟨_, rfl⟩
  cases n with
  | zero => exact ⟨_, by rw [command]⟩
  | succ n =>
    rw [command]
    cases hskip : skipSpaces tokens with
    | nil => exact hnone [] trivial
    | cons t rest =>
      rw [hskip] at h
      have hgap : t.kind.isGap = true := h
      have hskipped : skipSpaces (t :: rest) = t :: rest := by
        unfold skipSpaces
        rw [List.dropWhile_cons_of_neg (by simpa using skipSpaces_head hskip)]
      have hheader : functionHeader? (t :: rest) = none := by
        rw [functionHeader?_cons]
        cases hkind : t.kind <;> simp_all [TokenKind.isGap]
      obtain ⟨fault, hfault⟩ := hnone (t :: rest) (by rw [hskipped]; exact h)
      refine ⟨fault, ?_⟩
      cases hkind : t.kind <;> simp_all [TokenKind.isGap]

/-- The second reader follows the first one with any number of calls that is enough for its own
tokens. -/
structure Followed (n m : Nat) (nested : Bool) (ts us : List Token) : Prop where
  list : 4 * us.length + 4 ≤ m → Follows us (list n nested ts) (list m nested us)
  andOr : 4 * us.length + 3 ≤ m → Follows us (andOr n nested ts) (andOr m nested us)
  andOrRest : 4 * us.length + 2 ≤ m → ∀ left,
    Follows us (andOrRest n nested left ts) (andOrRest m nested left us)
  pipeline : 4 * us.length + 2 ≤ m → Follows us (pipeline n nested ts) (pipeline m nested us)
  pipelineRest : 4 * us.length + 1 ≤ m → ∀ left,
    Follows us (pipelineRest n nested left ts) (pipelineRest m nested left us)
  command : 4 * us.length + 1 ≤ m → Follows us (command n nested ts) (command m nested us)

section

variable {n m : Nat} {nested : Bool} {ts us : List Token}

theorem listBehind_follows
    (ih : ∀ m nested ts us, Alike ts us → Followed n m nested ts us) (h : Alike ts us)
    (hm : skipBlanks us ≠ [] → 4 * (skipBlanks us).length + 4 ≤ m) (first : Instruction)
    (join : Instruction → Instruction → Instruction) :
    Follows us (listBehind n nested first join ts) (listBehind m nested first join us) := by
  have hlength := length_skipBlanks us
  unfold listBehind
  rw [atListEnd_alike nested h]
  cases hend : atListEnd nested (skipBlanks ts) with
  | true => exact .ok first (Token.Alike.skipBlanks h) hlength
  | false =>
    have hne : skipBlanks us ≠ [] := by
      intro hnil
      rw [← atListEnd_alike nested h, hnil] at hend
      cases hend
    refine Follows.mono
      (.bind ((ih m nested _ _ (Token.Alike.skipBlanks h)).list (hm hne)) ?_) hlength
    intro next rest others hrest hothers
    exact .ok _ hrest hothers

theorem listRest_follows
    (ih : ∀ m nested ts us, Alike ts us → Followed n m nested ts us) (h : Alike ts us)
    (hm : 4 * us.length + 3 ≤ m) (first : Instruction) :
    Follows us (listRest n nested first ts) (listRest m nested first us) := by
  have hlength := length_skipSpaces us
  have halike := h.skipSpaces
  obtain ⟨hts, hus⟩ | ⟨t, rest, u, others, hts, hus, -, hmark, hrest⟩ := h.heads
  · rw [listRest_gap n nested first hts, listRest_gap m nested first hus]
    refine listBehind_follows ih h (fun hne => ?_) first .sequential
    have hblanks := skipBlanks_skipSpaces us
    cases hskip : skipSpaces us with
    | nil =>
      rw [hskip] at hblanks
      exact absurd hblanks.symm hne
    | cons u others =>
      rw [hskip] at hus hblanks hlength
      have hgap : u.kind.isGap = true := hus
      have hothers : skipBlanks (u :: others) = skipBlanks others := by
        unfold skipBlanks
        rw [List.dropWhile_cons_of_pos (by simpa [TokenKind.isGap] using hgap)]
      have hle := length_skipBlanks others
      rw [← hothers, hblanks] at hle
      rw [List.length_cons] at hlength
      omega
  · have hkind : u.kind = t.kind := congrArg Prod.fst hmark
    have hblanks := length_skipBlanks others
    rw [hts, hus] at halike
    rw [hus, List.length_cons] at hlength
    simp only [listRest, hts, hus, hkind]
    cases separator? t.kind with
    | none => exact .ok first halike hlength
    | some join =>
      exact (listBehind_follows ih hrest (fun _ => by omega) first join).mono (by omega)

def plainCommand (n : Nat) (nested : Bool) (tokens : List Token) :
    Except Fault (Instruction × List Token) :=
  match functionHeader? tokens with
  | some (name, rest) =>
    command n nested (skipBlanks rest) >>= fun body => .ok (.function name body.1, body.2)
  | none => simpleCommand nested tokens

theorem command_follows
    (ih : ∀ m nested ts us, Alike ts us → Followed n m nested ts us) (h : Alike ts us)
    (hm : 4 * us.length ≤ m) :
    Follows us (command (n + 1) nested ts) (command (m + 1) nested us) := by
  have hlength := length_skipSpaces us
  have halike := h.skipSpaces
  obtain ⟨hts, -⟩ | ⟨t, rest, u, others, hts, hus, ht, hmark, hrest⟩ := h.heads
  · obtain ⟨fault, hfault⟩ := command_gap (n + 1) nested hts
    rw [hfault]
    exact .error fault
  · have hkind : u.kind = t.kind := congrArg Prod.fst hmark
    rw [hts, hus] at halike
    rw [hus, List.length_cons] at hlength
    have hinner := (ih m true rest others hrest).list (by omega)
    have hplain : Follows us (plainCommand n nested (t :: rest))
        (plainCommand m nested (u :: others)) := by
      unfold plainCommand
      obtain ⟨hnone, hnone'⟩ | ⟨name, left, right, hsome, hsome', hleft, hright⟩ :=
        functionHeader?_alike hmark hrest
      · simp only [hnone, hnone']
        exact (simpleCommand_follows nested halike).mono (by simpa using hlength)
      · have hblanks := length_skipBlanks right
        simp only [hsome, hsome']
        refine Follows.mono (.bind
          ((ih m nested _ _ (Token.Alike.skipBlanks hleft)).command (by omega)) ?_) (by omega)
        intro body left right hleft hright
        exact .ok _ hleft hright
    rw [command, command, hts, hus]
    simp only [hkind]
    cases hcase : t.kind
    case openBrace => exact (group_follows .closeBrace id hinner).mono (by omega)
    case openParen => exact (group_follows .closeParen .scoped hinner).mono (by omega)
    all_goals exact hplain

theorem andOrRest_follows
    (ih : ∀ m nested ts us, Alike ts us → Followed n m nested ts us) (h : Alike ts us)
    (hm : 4 * us.length + 1 ≤ m) (left : Instruction) :
    Follows us (andOrRest (n + 1) nested left ts) (andOrRest (m + 1) nested left us) := by
  have hlength := length_skipSpaces us
  have halike := h.skipSpaces
  obtain ⟨hts, hus⟩ | ⟨t, rest, u, others, hts, hus, -, hmark, hrest⟩ := h.heads
  · rw [andOrRest_gap n nested left hts, andOrRest_gap m nested left hus]
    exact .ok left halike hlength
  · have hkind : u.kind = t.kind := congrArg Prod.fst hmark
    have hblanks := length_skipBlanks others
    rw [hts, hus] at halike
    rw [hus, List.length_cons] at hlength
    simp only [andOrRest, hts, hus, hkind]
    cases logic? t.kind with
    | none => exact .ok left halike hlength
    | some logic =>
      refine Follows.mono (.bind
        ((ih m nested _ _ (Token.Alike.skipBlanks hrest)).pipeline (by omega)) ?_) (by omega)
      intro right rest others hrest hothers
      exact ((ih m nested _ _ hrest).andOrRest (by omega) _).mono hothers

theorem pipelineRest_follows
    (ih : ∀ m nested ts us, Alike ts us → Followed n m nested ts us) (h : Alike ts us)
    (hm : 4 * us.length ≤ m) (left : Instruction) :
    Follows us (pipelineRest (n + 1) nested left ts) (pipelineRest (m + 1) nested left us) := by
  have hlength := length_skipSpaces us
  have halike := h.skipSpaces
  obtain ⟨hts, hus⟩ | ⟨t, rest, u, others, hts, hus, -, hmark, hrest⟩ := h.heads
  · rw [pipelineRest_gap n nested left hts, pipelineRest_gap m nested left hus]
    exact .ok left halike hlength
  · have hkind : u.kind = t.kind := congrArg Prod.fst hmark
    have hblanks := length_skipBlanks others
    rw [hts, hus] at halike
    rw [hus, List.length_cons] at hlength
    simp only [pipelineRest, hts, hus, hkind]
    split
    · refine Follows.mono (.bind
        ((ih m nested _ _ (Token.Alike.skipBlanks hrest)).command (by omega)) ?_) (by omega)
      intro right rest others hrest hothers
      exact ((ih m nested _ _ hrest).pipelineRest (by omega) _).mono hothers
    · exact .ok left halike hlength

theorem list_follows
    (ih : ∀ m nested ts us, Alike ts us → Followed n m nested ts us) (h : Alike ts us)
    (hm : 4 * us.length + 3 ≤ m) :
    Follows us (list (n + 1) nested ts) (list (m + 1) nested us) := by
  have hlength := length_skipBlanks us
  have hblanks := Token.Alike.skipBlanks h
  rw [list_succ, list_succ, atListEnd_alike nested h]
  split
  · exact .ok Instruction.empty hblanks hlength
  · refine Follows.mono (.bind ((ih m nested _ _ hblanks).andOr (by omega)) ?_) hlength
    intro first rest others hrest hothers
    exact (listRest_follows ih hrest (by omega) first).mono hothers

end

/-- Every reader with `n` calls is followed: by induction on these calls, since each reader calls
others with one call less. -/
theorem followed (n m : Nat) (nested : Bool) (ts us : List Token) (h : Alike ts us) :
    Followed n m nested ts us := by
  induction n generalizing m nested ts us with
  | zero =>
    exact ⟨fun _ => by rw [list]; exact .error _, fun _ => by rw [andOr]; exact .error _,
      fun _ left => by rw [andOrRest]; exact .error _, fun _ => by rw [pipeline]; exact .error _,
      fun _ left => by rw [pipelineRest]; exact .error _, fun _ => by rw [command]; exact .error _⟩
  | succ n ih =>
    cases m with
    | zero => exact ⟨by omega, by omega, by omega, by omega, by omega, by omega⟩
    | succ m =>
      refine ⟨fun hm => list_follows ih h (by omega), fun hm => ?_,
        fun hm left => andOrRest_follows ih h (by omega) left, fun hm => ?_,
        fun hm left => pipelineRest_follows ih h (by omega) left,
        fun hm => command_follows ih h (by omega)⟩
      · rw [andOr, andOr]
        refine .bind ((ih m nested ts us h).pipeline (by omega)) ?_
        intro left rest others hrest hlength
        exact ((ih m nested rest others hrest).andOrRest (by omega) left).mono hlength
      · rw [pipeline, pipeline]
        refine .bind ((ih m nested ts us h).command (by omega)) ?_
        intro left rest others hrest hlength
        exact ((ih m nested rest others hrest).pipelineRest (by omega) left).mono hlength

theorem budget_pos (tokens : List Token) : 0 < budget tokens := by
  unfold budget
  omega

theorem skipBlanks_skipBlanks (tokens : List Token) :
    skipBlanks (skipBlanks tokens) = skipBlanks tokens := by
  cases hskip : skipBlanks tokens with
  | nil => rfl
  | cons t rest =>
    have hgap := skipBlanks_head hskip
    unfold skipBlanks
    rw [List.dropWhile_cons_of_neg (by simpa [TokenKind.isGap] using hgap)]

theorem list_skipBlanks {n : Nat} (hn : 0 < n) (nested : Bool) (tokens : List Token) :
    list n nested (skipBlanks tokens) = list n nested tokens := by
  obtain ⟨n, rfl⟩ := Nat.exists_eq_add_one.2 hn
  rw [list_succ, list_succ, skipBlanks_skipBlanks]

end Parser

open Token (Alike)

theorem parse_of_alike {ts us : List Token}
    (h : Alike (Parser.skipBlanks ts) (Parser.skipBlanks us)) {localScope : Bool}
    {tree : Instruction} (hparse : parse ts localScope = .ok tree) :
    parse us localScope = .ok tree := by
  have hlength := Parser.length_skipBlanks us
  have hread : Parser.Follows (Parser.skipBlanks us)
      (Parser.list (Parser.budget ts) false ts) (Parser.list (Parser.budget us) false us) := by
    have hfollowed := (Parser.followed (Parser.budget ts) (Parser.budget us) false _ _ h).list
      (by unfold Parser.budget; omega)
    rwa [Parser.list_skipBlanks (Parser.budget_pos ts),
      Parser.list_skipBlanks (Parser.budget_pos us)] at hfollowed
  unfold parse at hparse ⊢
  cases hlist : Parser.list (Parser.budget ts) false ts with
  | error fault =>
    rw [hlist] at hparse
    cases hparse
  | ok found =>
    obtain ⟨first, rest⟩ := found
    obtain ⟨others, hothers, hrest, -⟩ := hread first rest hlist
    rw [hlist] at hparse
    rw [hothers]
    obtain ⟨hleft, hright⟩ | ⟨t, left, u, right, hleft, -⟩ := Parser.Alike.tops hrest
    · simp only [Bind.bind, Except.bind, hleft] at hparse
      simpa only [Bind.bind, Except.bind, hright] using hparse
    · simp only [Bind.bind, Except.bind, hleft] at hparse
      cases hparse

/-- The tree of a token list is in its outline, and gaps in front do not count. -/
theorem parse_congr {ts us : List Token}
    (h : Mark.dropGap (Token.outline ts) = Mark.dropGap (Token.outline us)) (localScope : Bool)
    (tree : Instruction) : parse ts localScope = .ok tree ↔ parse us localScope = .ok tree := by
  have halike : Alike (Parser.skipBlanks ts) (Parser.skipBlanks us) := by
    rw [Alike, Token.outline_skipBlanks, Token.outline_skipBlanks, h]
  exact ⟨parse_of_alike halike, parse_of_alike halike.symm⟩

end ToyUnix
