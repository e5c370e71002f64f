import ToyUnix.Proofs.Shell.Grammar

/-!
A closing parenthesis behind the tokens. It is part of no word and no redirection, so the readers up
to those of simple commands find in front of it what they find without it, and leave it at the end.
-/

set_option autoImplicit false

namespace ToyUnix

namespace Parser

open Grammar

theorem dropWhile_concat {α : Type} {p : α → Bool} {a : α} (ha : p a = false) (l : List α) :
    (l ++ [a]).dropWhile p = l.dropWhile p ++ [a] := by
  induction l with
  | nil => simp [ha]
  | cons b l ih =>
    rw [List.cons_append, List.dropWhile_cons, List.dropWhile_cons, ih]
    split <;> rfl

theorem takeWhile_concat {α : Type} {p : α → Bool} {a : α} (ha : p a = false) (l : List α) :
    (l ++ [a]).takeWhile p = l.takeWhile p := by
  induction l with
  | nil => simp [ha]
  | cons b l ih => rw [List.cons_append, List.takeWhile_cons, List.takeWhile_cons, ih]

/-! The items of a simple command one by one. -/

/-- What the next item adds to a simple command, and the tokens behind it. -/
def item? (early : Bool) : List Token → Except Fault (Option ((Simple → Simple) × List Token))
  | [] => .ok none
  | token :: rest =>
    match redirectMode? token.kind with
    | some mode => redirectTarget rest >>= fun found =>
      .ok (some (fun simple =>
        { simple with redirects := simple.redirects ++ [(mode, found.1)] }, found.2))
    | none =>
      match if early then assignmentName? (token :: rest) else none with
      | some (name, rest) =>
        let found := (word? rest).getD ({}, rest)
        .ok (some (fun simple =>
          { simple with assignments := simple.assignments ++ [(name, found.1)] }, found.2))
      | none => .ok ((word? (token :: rest)).map fun found =>
        (fun simple => { simple with words := simple.words ++ [found.1] }, found.2))

def atBrace : List Token → Bool
  | [] => false
  | token :: _ => token.kind = .closeBrace

theorem simpleItems_succ (nested : Bool) (n : Nat) (simple : Simple) (tokens : List Token) :
    simpleItems nested (n + 1) simple tokens =
      if nested && atBrace (skipSpaces tokens) then .ok (simple, skipSpaces tokens)
      else item? simple.words.isEmpty (skipSpaces tokens) >>= fun next =>
        next.elim (.ok (simple, skipSpaces tokens)) fun next =>
          simpleItems nested n (next.1 simple) next.2 := by
  rw [simpleItems]
  cases hskip : skipSpaces tokens with
  | nil =>
    simp [atBrace, item?]
    rfl
  | cons token rest =>
    rw [atBrace, item?]
    simp only
    by_cases hbrace : (nested && decide (token.kind = .closeBrace)) = true
    · rw [if_pos hbrace, if_pos hbrace]
    · rw [if_neg hbrace, if_neg hbrace]
      cases redirectMode? token.kind with
      | some mode =>
        simp only
        cases redirectTarget rest <;> rfl
      | none =>
        simp only
        cases simple.words.isEmpty with
        | true =>
          simp only [if_true]
          cases assignmentName? (token :: rest) with
          | some assigned => rfl
          | none => cases word? (token :: rest) <;> rfl
        | false =>
          simp only [Bool.false_eq_true, if_false]
          cases word? (token :: rest) <;> rfl

section

variable {closing : Token} (hclosing : closing.kind = .closeParen)

include hclosing

theorem skipSpaces_concat (tokens : List Token) :
    skipSpaces (tokens ++ [closing]) = skipSpaces tokens ++ [closing] :=
  dropWhile_concat (by simp [hclosing]) tokens

theorem skipBlanks_concat (tokens : List Token) :
    skipBlanks (tokens ++ [closing]) = skipBlanks tokens ++ [closing] :=
  dropWhile_concat (by simp [hclosing]) tokens

theorem word?_concat (tokens : List Token) :
    word? (tokens ++ [closing]) =
      (word? tokens).map fun found => (found.1, found.2 ++ [closing]) := by
  have hnot : closing.isWordPart = false := by
    simp [Token.isWordPart, hclosing, TokenKind.isWordPart]
  unfold word?
  rw [takeWhile_concat hnot, dropWhile_concat hnot]
  split <;> rfl

theorem assignmentName?_concat (tokens : List Token) :
    assignmentName? (tokens ++ [closing]) =
      (assignmentName? tokens).map fun found => (found.1, found.2 ++ [closing]) := by
  match tokens with
  | [] => rfl
  | [name] => simp [assignmentName?, hclosing]
  | name :: sign :: rest =>
    simp only [List.cons_append, assignmentName?]
    split <;> rfl

theorem redirectTarget_concat {tokens rest : List Token} {target : Word}
    (h : redirectTarget tokens = .ok (target, rest)) :
    redirectTarget (tokens ++ [closing]) = .ok (target, rest ++ [closing]) := by
  simp only [redirectTarget] at h ⊢
  rw [skipSpaces_concat hclosing, word?_concat hclosing]
  cases hword : word? (skipSpaces tokens) with
  | none => simp [hword] at h
  | some found =>
    simp only [hword, Except.ok.injEq] at h
    simp [h]

theorem redirects_concat {n m : Nat} (hnm : n ≤ m) {tokens rest : List Token}
    {found : List Redirect} (h : redirects n tokens = .ok (found, rest)) :
    redirects m (tokens ++ [closing]) = .ok (found, rest ++ [closing]) := by
  induction n generalizing m tokens found with
  | zero => cases h
  | succ n ih =>
    obtain ⟨m, rfl⟩ := Nat.exists_eq_add_one.2 (Nat.lt_of_lt_of_le (Nat.succ_pos n) hnm)
    rw [redirects] at h ⊢
    rw [skipSpaces_concat hclosing]
    cases hskip : skipSpaces tokens with
    | nil =>
      simp only [hskip] at h
      cases h
      simp [hclosing, redirectMode?]
    | cons token left =>
      simp only [hskip, List.cons_append] at h ⊢
      cases hmode : redirectMode? token.kind with
      | none =>
        simp only [hmode] at h ⊢
        cases h
        rfl
      | some mode =>
        simp only [hmode] at h ⊢
        obtain ⟨⟨target, right⟩, htarget, h⟩ := ok_of_bind h
        obtain ⟨⟨others, last⟩, hothers, h⟩ := ok_of_bind h
        cases h
        rw [redirectTarget_concat hclosing htarget]
        simp only [bind, Except.bind]
        rw [ih (by omega) hothers]
        rfl

theorem atBrace_concat (tokens : List Token) : atBrace (tokens ++ [closing]) = atBrace tokens := by
  cases tokens with
  | nil => simp [atBrace, hclosing]
  | cons token rest => rfl

theorem item?_concat {early : Bool} {tokens : List Token}
    {next : Option ((Simple → Simple) × List Token)} (h : item? early tokens = .ok next) :
    item? early (tokens ++ [closing]) =
      .ok (next.map fun next => (next.1, next.2 ++ [closing])) := by
  cases tokens with
  | nil =>
    cases h
    simp [item?, hclosing, redirectMode?, assignmentName?, word?, Token.isWordPart,
      TokenKind.isWordPart]
  | cons token rest =>
    rw [List.cons_append]
    simp only [item?] at h ⊢
    cases hmode : redirectMode? token.kind with
    | some mode =>
      simp only [hmode] at h ⊢
      obtain ⟨⟨target, right⟩, htarget, h⟩ := ok_of_bind h
      cases h
      rw [redirectTarget_concat hclosing htarget]
      rfl
    | none =>
      simp only [hmode] at h ⊢
      have hname := assignmentName?_concat hclosing (token :: rest)
      have hword := word?_concat hclosing (token :: rest)
      rw [List.cons_append] at hname hword
      rw [hname, hword]
      have hassigned : (if early then (assignmentName? (token :: rest)).map fun found =>
            (found.1, found.2 ++ [closing]) else none) =
          (if early then assignmentName? (token :: rest) else none).map fun found =>
            (found.1, found.2 ++ [closing]) := by
        cases early <;> rfl
      rw [hassigned]
      generalize (if early then assignmentName? (token :: rest) else none) = assigned at h ⊢
      cases assigned with
      | none =>
        cases h
        cases word? (token :: rest) <;> rfl
      | some assigned =>
        cases h
        simp only [Option.map_some, word?_concat hclosing]
        cases word? assigned.2 <;> rfl

theorem simpleItems_concat {n m : Nat} (hnm : n ≤ m) {simple found : Simple}
    {tokens rest : List Token} (h : simpleItems true n simple tokens = .ok (found, rest)) :
    simpleItems true m simple (tokens ++ [closing]) = .ok (found, rest ++ [closing]) := by
  induction n generalizing m simple tokens with
  | zero => cases h
  | succ n ih =>
    obtain ⟨m, rfl⟩ := Nat.exists_eq_add_one.2 (Nat.lt_of_lt_of_le (Nat.succ_pos n) hnm)
    rw [simpleItems_succ] at h ⊢
    rw [skipSpaces_concat hclosing, atBrace_concat hclosing]
    split at h
    · rename_i hbrace
      cases h
      rw [if_pos hbrace]
    · rename_i hbrace
      rw [if_neg hbrace]
      obtain ⟨next, hnext, h⟩ := ok_of_bind h
      rw [item?_concat hclosing hnext]
      cases next with
      | none =>
        cases h
        rfl
      | some next => exact ih (Nat.le_of_succ_le_succ hnm) h

theorem behind?_concat {kind : TokenKind}
    {tokens rest : List Token} (h : behind? kind tokens = some rest) :
    behind? kind (tokens ++ [closing]) = some (rest ++ [closing]) := by
  unfold behind? at h ⊢
  rw [skipSpaces_concat hclosing]
  cases hskip : skipSpaces tokens with
  | nil => simp [hskip] at h
  | cons token left =>
    simp only [hskip] at h
    split at h
    · rename_i hkind
      cases h
      simp [hkind]
    · cases h

theorem functionHeader?_concat {token : Token} {rest left : List Token} {name : String}
    (h : functionHeader? (token :: rest) = some (name, left)) :
    functionHeader? (token :: (rest ++ [closing])) = some (name, left ++ [closing]) := by
  rw [functionHeader?_cons] at h ⊢
  split at h
  · rename_i hname
    obtain ⟨last, hlast, heq⟩ := Option.map_eq_some_iff.1 h
    cases heq
    obtain ⟨middle, hmiddle, hend⟩ := Option.bind_eq_some_iff.1 hlast
    rw [if_pos hname, behind?_concat hclosing hmiddle, Option.bind_some,
      behind?_concat hclosing hend]
    rfl
  · cases h

end

/-- At the top level a simple command is what it is inside a group, or inside a group it is over
before, at a closing brace. -/
theorem simpleItems_inside {n : Nat} {simple found : Simple} {tokens rest : List Token}
    (h : simpleItems false n simple tokens = .ok (found, rest)) :
    (simpleItems true n simple tokens = .ok (found, rest) ∧
      ∀ token more, rest = token :: more → token.kind ≠ .closeBrace) ∨
    ∃ shorter brace more, brace.kind = .closeBrace ∧
      simpleItems true n simple tokens = .ok (shorter, brace :: more) := by
  induction n generalizing simple tokens with
  | zero => cases h
  | succ n ih =>
    rw [simpleItems_succ, if_neg (by simp)] at h
    rw [simpleItems_succ, Bool.true_and]
    cases hbrace : atBrace (skipSpaces tokens) with
    | true =>
      cases hskip : skipSpaces tokens with
      | nil =>
        rw [hskip] at hbrace
        cases hbrace
      | cons token left =>
        rw [hskip] at hbrace
        exact .inr ⟨simple, token, left, by simpa [atBrace] using hbrace, rfl⟩
    | false =>
      rw [if_neg (by simp)]
      obtain ⟨next, hnext, h⟩ := ok_of_bind h
      rw [hnext]
      cases next with
      | none =>
        cases h
        refine .inl ⟨rfl, fun token more heq hkind => ?_⟩
        simp [heq, atBrace, hkind] at hbrace
      | some next => exact ih h

end Parser

end ToyUnix
