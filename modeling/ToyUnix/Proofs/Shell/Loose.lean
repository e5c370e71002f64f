import ToyUnix.Proofs.Shell.Closing
import ToyUnix.Proofs.Shell.Derivation
import ToyUnix.Proofs.Shell.Patience

/-!
Where a list inside parentheses is not what it is at the top level. At the top level a closing brace
is part of a word, and inside a group it ends the list if a word could begin there. `Loose` says
that a list has such a brace, following the list from one command to the next as the readers do, and
`Agrees` that two readers find the same up to the first one of these.
-/

set_option autoImplicit false

namespace ToyUnix

namespace Parser

open Grammar

/-- A simple command that is over at a closing brace when it stands inside a group. -/
def Braced (tokens : List Token) : Prop :=
  functionHeader? tokens = none ∧
  (∀ token ∈ tokens.head?, token.kind ≠ .openBrace ∧ token.kind ≠ .openParen) ∧
  ∃ simple brace more, brace.kind = .closeBrace ∧
    simpleItems true (tokens.length + 1) {} tokens = .ok (simple, brace :: more)

/-- Behind such a token another command of the same list begins. -/
def isJoint (kind : TokenKind) : Bool :=
  kind = .pipe || (logic? kind).isSome || (separator? kind).isSome

/-- From the beginning of the tokens on, the list has a closing brace as a word, or at the beginning
of one, that does not stand inside a group. -/
inductive Loose : List Token → Prop
  | here {tokens : List Token} (h : Braced (skipSpaces tokens)) : Loose tokens
  | body {tokens rest : List Token} {name : String}
      (hheader : functionHeader? (skipSpaces tokens) = some (name, rest))
      (h : Loose (skipBlanks rest)) : Loose tokens
  | behind {n : Nat} {tokens rest more : List Token} {tree : Instruction} {token : Token}
      (hcommand : command n false tokens = .ok (tree, rest))
      (hskip : skipSpaces rest = token :: more) (hjoint : isJoint token.kind = true)
      (h : Loose (skipBlanks more)) : Loose tokens

/-- The same of a list from behind one of its commands on. -/
def Beyond (rest : List Token) : Prop :=
  ∃ token more, skipSpaces rest = token :: more ∧ isJoint token.kind = true ∧
    Loose (skipBlanks more)

theorem beyond_cons {tokens rest : List Token} {token : Token}
    (hskip : skipSpaces tokens = token :: rest) :
    Beyond tokens ↔ isJoint token.kind = true ∧ Loose (skipBlanks rest) := by
  simp only [Beyond, hskip, List.cons.injEq]
  constructor
  · rintro ⟨first, more, ⟨rfl, rfl⟩, h⟩
    exact h
  · exact fun h => ⟨token, rest, ⟨rfl, rfl⟩, h⟩

theorem not_beyond_nil {tokens : List Token} (hskip : skipSpaces tokens = []) :
    ¬ Beyond tokens := by
  rintro ⟨token, more, h, -⟩
  rw [hskip] at h
  cases h

theorem loose_iff {n : Nat} {tokens rest : List Token} {tree : Instruction}
    (h : command n false tokens = .ok (tree, rest)) :
    Loose tokens ↔ Braced (skipSpaces tokens) ∨
      (∃ name left, functionHeader? (skipSpaces tokens) = some (name, left) ∧
        Loose (skipBlanks left)) ∨ Beyond rest := by
  constructor
  · intro hloose
    cases hloose with
    | here hbraced => exact .inl hbraced
    | body hheader hbody => exact .inr (.inl ⟨_, _, hheader, hbody⟩)
    | behind hcommand hskip hjoint hmore =>
      obtain ⟨-, rfl⟩ := Prod.mk.inj (command_unique h hcommand)
      exact .inr (.inr ⟨_, _, hskip, hjoint, hmore⟩)
  · rintro (hbraced | ⟨name, left, hheader, hbody⟩ | ⟨token, more, hskip, hjoint, hmore⟩)
    · exact .here hbraced
    · exact .body hheader hbody
    · exact .behind h hskip hjoint hmore

/-- A parenthesis behind the tokens does not make a function header of their end. -/
def Shut (rest : List Token) : Prop :=
  ∀ token more, skipSpaces rest = token :: more → token.kind ≠ .openParen

theorem skipSpaces_cons {tokens rest : List Token} {token : Token}
    (hskip : skipSpaces tokens = token :: rest) : skipSpaces (token :: rest) = token :: rest :=
  skipSpaces_of_ne (skipSpaces_head hskip)

/-- The reader has come to a closing brace. -/
def Cut {α : Type} (x : Except Fault (α × List Token)) : Prop :=
  ∃ brace more, brace.kind = .closeBrace ∧
    (x = .error (unexpected (brace :: more)) ∨ ∃ a, x = .ok (a, brace :: more))

theorem Cut.ok {α : Type} (a : α) {brace : Token} (hbrace : brace.kind = .closeBrace)
    (more : List Token) : Cut (.ok (a, brace :: more)) :=
  ⟨brace, more, hbrace, .inr ⟨a, rfl⟩⟩

theorem Cut.bind {α β : Type} {x : Except Fault (α × List Token)}
    {f : α × List Token → Except Fault (β × List Token)} (h : Cut x)
    (hf : ∀ a brace more, brace.kind = .closeBrace → Cut (f (a, brace :: more))) :
    Cut (x >>= f) := by
  obtain ⟨brace, more, hbrace, rfl | ⟨a, rfl⟩⟩ := h
  · exact ⟨brace, more, hbrace, .inl rfl⟩
  · exact hf a brace more hbrace

/-- What the one reader finds outside the other one finds inside, with the parenthesis behind it; or
it comes to a closing brace that is loose, which happens at the top level only. -/
def Agrees {α : Type} (closing : Token) (nested : Bool) (loose : Prop)
    (inside outside : Except Fault (α × List Token)) : Prop :=
  ∀ a rest, outside = .ok (a, rest) → Shut rest →
    (inside = .ok (a, rest ++ [closing]) ∧ (nested = false → (loose ↔ Beyond rest))) ∨
    (nested = false ∧ loose ∧ Cut inside)

namespace Agrees

variable {α β : Type} {closing : Token} {nested : Bool} {loose loose' : Prop}

theorem error (fault : Fault) (inside : Except Fault (α × List Token)) :
    Agrees closing nested loose inside (.error fault) := fun _ _ h => nomatch h

theorem ok (a : α) {rest : List Token} (h : nested = false → (loose ↔ Beyond rest)) :
    Agrees closing nested loose (.ok (a, rest ++ [closing])) (.ok (a, rest)) := by
  intro b last heq _
  cases heq
  exact .inl ⟨rfl, h⟩

theorem congr {inside outside : Except Fault (α × List Token)}
    (h : Agrees closing nested loose inside outside) (hiff : nested = false → (loose ↔ loose')) :
    Agrees closing nested loose' inside outside := by
  intro a rest houtside hshut
  rcases h a rest houtside hshut with ⟨hinside, hrest⟩ | ⟨htop, hloose, hcut⟩
  · exact .inl ⟨hinside, fun htop => (hiff htop).symm.trans (hrest htop)⟩
  · exact .inr ⟨htop, (hiff htop).1 hloose, hcut⟩

theorem stop (closing : Token) (nested : Bool) (a : α) (tokens : List Token) :
    Agrees closing nested (Beyond tokens) (.ok (a, skipSpaces tokens ++ [closing]))
      (.ok (a, skipSpaces tokens)) := by
  refine .ok a fun _ => ?_
  cases hskip : skipSpaces tokens with
  | nil => exact ⟨fun h => absurd h (not_beyond_nil hskip), fun h => absurd h (not_beyond_nil rfl)⟩
  | cons token rest => rw [beyond_cons hskip, beyond_cons (skipSpaces_cons hskip)]

theorem bind {x y : Except Fault (α × List Token)}
    {f g : α × List Token → Except Fault (β × List Token)} (h : Agrees closing nested loose x y)
    (hnext : ∀ a rest, Agrees closing nested (Beyond rest) (f (a, rest ++ [closing])) (g (a, rest)))
    (hshut : ∀ a rest b last, g (a, rest) = .ok (b, last) → Shut last → Shut rest)
    (hcut : ∀ a brace more, brace.kind = .closeBrace → Cut (f (a, brace :: more))) :
    Agrees closing nested loose (x >>= f) (y >>= g) := by
  intro b last hboth hlast
  obtain ⟨⟨a, rest⟩, hfirst, hsecond⟩ := ok_of_bind hboth
  rcases h a rest hfirst (hshut a rest b last hsecond hlast) with ⟨rfl, hrest⟩ | ⟨htop, hloose, hx⟩
  · rcases hnext a rest b last hsecond hlast with ⟨hinside, hbeyond⟩ | ⟨htop, hbeyond, hsecond⟩
    · exact .inl ⟨hinside, fun htop => (hrest htop).trans (hbeyond htop)⟩
    · exact .inr ⟨htop, (hrest htop).2 hbeyond, hsecond⟩
  · exact .inr ⟨htop, hloose, hx.bind hcut⟩

end Agrees

/-! What the readers do at a closing token, and where the next one begins. -/

theorem skipSpaces_brace {brace : Token} (hbrace : brace.kind = .closeBrace) (more : List Token) :
    skipSpaces (brace :: more) = brace :: more :=
  skipSpaces_of_ne (by simp [hbrace])

theorem cut_pipelineRest (n : Nat) (left : Instruction) {brace : Token}
    (hbrace : brace.kind = .closeBrace) (more : List Token) :
    Cut (pipelineRest n true left (brace :: more)) := by
  cases n with
  | zero => exact ⟨brace, more, hbrace, .inl rfl⟩
  | succ n =>
    rw [pipelineRest, skipSpaces_brace hbrace]
    simp only [hbrace, reduceCtorEq, if_false]
    exact .ok left hbrace more

theorem cut_andOrRest (n : Nat) (left : Instruction) {brace : Token}
    (hbrace : brace.kind = .closeBrace) (more : List Token) :
    Cut (andOrRest n true left (brace :: more)) := by
  cases n with
  | zero => exact ⟨brace, more, hbrace, .inl rfl⟩
  | succ n =>
    rw [andOrRest, skipSpaces_brace hbrace]
    simp only [hbrace, logic?]
    exact .ok left hbrace more

theorem cut_listRest (n : Nat) (first : Instruction) {brace : Token}
    (hbrace : brace.kind = .closeBrace) (more : List Token) :
    Cut (listRest n true first (brace :: more)) := by
  rw [listRest, skipSpaces_brace hbrace]
  simp only [hbrace, separator?]
  exact .ok first hbrace more

theorem shut_of_pipelineRest {n : Nat} {nested : Bool} {left tree : Instruction}
    {tokens rest : List Token} (h : pipelineRest n nested left tokens = .ok (tree, rest))
    (hrest : Shut rest) : Shut tokens := by
  intro token more hskip hopen
  cases n with
  | zero => cases h
  | succ n =>
    rw [pipelineRest, hskip] at h
    simp only [hopen, reduceCtorEq, if_false] at h
    cases h
    exact hrest token more (skipSpaces_cons hskip) hopen

theorem shut_of_andOrRest {n : Nat} {nested : Bool} {left tree : Instruction}
    {tokens rest : List Token} (h : andOrRest n nested left tokens = .ok (tree, rest))
    (hrest : Shut rest) : Shut tokens := by
  intro token more hskip hopen
  cases n with
  | zero => cases h
  | succ n =>
    rw [andOrRest, hskip] at h
    simp only [hopen, logic?] at h
    cases h
    exact hrest token more (skipSpaces_cons hskip) hopen

theorem shut_of_listRest {n : Nat} {nested : Bool} {first tree : Instruction}
    {tokens rest : List Token} (h : listRest n nested first tokens = .ok (tree, rest))
    (hrest : Shut rest) : Shut tokens := by
  intro token more hskip hopen
  rw [listRest, hskip] at h
  simp only [hopen, separator?] at h
  cases h
  exact hrest token more (skipSpaces_cons hskip) hopen

theorem not_loose_nil : ¬ Loose [] := by
  intro h
  cases h with
  | here hbraced =>
    obtain ⟨-, -, simple, brace, more, -, hitems⟩ := hbraced
    cases hitems
  | body hheader _ => cases hheader
  | @behind n _ _ _ _ _ hcommand _ _ _ =>
    obtain ⟨fault, hfault⟩ := @command_gap n false [] trivial
    rw [hfault] at hcommand
    cases hcommand

theorem functionHeader?_of_kind {token : Token} (h : token.kind ≠ .text) (rest : List Token) :
    functionHeader? (token :: rest) = none := by
  rw [functionHeader?_cons]
  simp [h]

theorem braced_brace {brace : Token} (hbrace : brace.kind = .closeBrace) (more : List Token) :
    Braced (brace :: more) := by
  refine ⟨functionHeader?_of_kind (by simp [hbrace]) more, ?_, {}, brace, more, hbrace, ?_⟩
  · intro token htoken
    obtain rfl := Option.some.inj htoken
    simp [hbrace]
  · rw [simpleItems, skipSpaces_brace hbrace]
    simp [hbrace]

theorem command_closeParen (n : Nat) (nested : Bool) {token : Token}
    (htoken : token.kind = .closeParen) (rest : List Token) :
    ∃ fault, command n nested (token :: rest) = .error fault := by
  cases n with
  | zero => exact ⟨_, rfl⟩
  | succ n =>
    have hskip : skipSpaces (token :: rest) = token :: rest := skipSpaces_of_ne (by simp [htoken])
    have hname : assignmentName? (token :: rest) = none := by
      cases rest <;> simp [assignmentName?, htoken]
    have hword : word? (token :: rest) = none := by
      simp [word?, Token.isWordPart, htoken, TokenKind.isWordPart]
    refine ⟨unexpected (token :: rest), ?_⟩
    rw [command_cons n nested hskip, plainCommand, functionHeader?_of_kind (by simp [htoken])]
    simp [htoken, simpleCommand, simpleItems, hskip, redirectMode?, hname, hword, bind, Except.bind,
      Simple.isEmpty]

theorem andOr_closeParen (n : Nat) (nested : Bool) {token : Token}
    (htoken : token.kind = .closeParen) (rest : List Token) :
    ∃ fault, andOr n nested (token :: rest) = .error fault := by
  match n with
  | 0 => exact ⟨_, rfl⟩
  | 1 => exact ⟨_, rfl⟩
  | n + 2 =>
    obtain ⟨fault, hfault⟩ := command_closeParen n nested htoken rest
    refine ⟨fault, ?_⟩
    rw [andOr, pipeline, hfault]
    rfl

theorem list_closeParen (n : Nat) {token : Token} (htoken : token.kind = .closeParen)
    (rest : List Token) : ∃ fault, list n false (token :: rest) = .error fault := by
  cases n with
  | zero => exact ⟨_, rfl⟩
  | succ n =>
    obtain ⟨fault, hfault⟩ := andOr_closeParen n false htoken rest
    have hskip : skipBlanks (token :: rest) = token :: rest :=
      skipBlanks_of_isGap (by simp [htoken, TokenKind.isGap])
    refine ⟨fault, ?_⟩
    rw [list_succ, hskip, hfault]
    rfl

theorem simpleCommand_name {nested : Bool} {token opening : Token} {rest left last : List Token}
    {tree : Instruction} (hname : token.kind = .text) (hskip : skipSpaces rest = opening :: left)
    (hopen : opening.kind = .openParen)
    (h : simpleCommand nested (token :: rest) = .ok (tree, last)) : last = opening :: left := by
  cases rest with
  | nil => cases hskip
  | cons second others =>
    have hsecond : second.kind = .whitespace ∨ second.kind = .openParen := by
      by_cases hspace : second.kind = .whitespace
      · exact .inl hspace
      · rw [skipSpaces_of_ne hspace] at hskip
        obtain ⟨rfl, -⟩ := List.cons.inj hskip
        exact .inr hopen
    have htext : skipSpaces (token :: second :: others) = token :: second :: others :=
      skipSpaces_of_ne (by simp [hname])
    have hassign : assignmentName? (token :: second :: others) = none := by
      rcases hsecond with h | h <;> simp [assignmentName?, h]
    have hword : word? (token :: second :: others) = some (wordOf [token], second :: others) := by
      have hnot : second.isWordPart = false := by
        rcases hsecond with h | h <;> simp [Token.isWordPart, h, TokenKind.isWordPart]
      have hpart : token.isWordPart = true := by
        simp [Token.isWordPart, hname, TokenKind.isWordPart]
      simp [word?, hpart, hnot]
    have hstop : word? (opening :: left) = none := by
      simp [word?, Token.isWordPart, hopen, TokenKind.isWordPart]
    simp [simpleCommand, simpleItems_succ, item?, atBrace, htext, hname, redirectMode?, hassign,
      hword, hskip, hopen, hstop, bind, Except.bind, Simple.isEmpty] at h
    exact h.2.symm

theorem functionHeader?_concat_none {closing token : Token} (hclosing : closing.kind = .closeParen)
    {nested : Bool} {rest last : List Token} {tree : Instruction}
    (hcommand : simpleCommand nested (token :: rest) = .ok (tree, last)) (hlast : Shut last) :
    functionHeader? (token :: (rest ++ [closing])) = none := by
  rw [functionHeader?_cons]
  split
  · rename_i hname
    simp only [Bool.and_eq_true, decide_eq_true_eq] at hname
    rw [Option.map_eq_none_iff]
    unfold behind?
    rw [skipSpaces_concat hclosing]
    cases hskip : skipSpaces rest with
    | nil => simp [hclosing]
    | cons opening left =>
      by_cases hopen : opening.kind = .openParen
      · obtain rfl := simpleCommand_name hname.1 hskip hopen hcommand
        exact absurd hopen (hlast opening left (skipSpaces_cons hskip))
      · simp [hopen]
  · rfl

end Parser

end ToyUnix
