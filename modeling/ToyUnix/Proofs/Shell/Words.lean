import ToyUnix.Proofs.Shell.Scanning

/-!
The words of the grammar. `Grammar.Value` says which word the tokens side by side stand for: each
token has parts of its own, the inside of double quotes as it is written there, and literals next to
each other are one. It is the word that the parser makes of them, see `Parser.value_iff`.
-/

set_option autoImplicit false

namespace ToyUnix

namespace Grammar

open ToyUnix.Parser (isEscapable)

/-- The inside of double quotes, where a backslash counts before a few characters only. -/
inductive Body : List Char → List WordPart → Prop
  | nil : Body [] []
  | plain {c : Char} {cs : List Char} {parts : List WordPart} (hslash : c ≠ '\\')
      (hdollar : c ≠ '$') (h : Body cs parts) :
      Body (c :: cs) (.literal (String.ofList [c]) :: parts)
  | escaped {c : Char} {cs : List Char} {parts : List WordPart} (hc : isEscapable c = true)
      (h : Body cs parts) : Body ('\\' :: c :: cs) (.literal (String.ofList [c]) :: parts)
  | joined {cs : List Char} {parts : List WordPart} (h : Body cs parts) :
      Body ('\\' :: '\n' :: cs) parts
  | kept {c : Char} {cs : List Char} {parts : List WordPart} (hc : isEscapable c = false)
      (hline : c ≠ '\n') (h : Body cs parts) :
      Body ('\\' :: c :: cs) (.literal (String.ofList ['\\', c]) :: parts)
  | backslash : Body ['\\'] [.literal "\\"]
  | named {span rest : List Char} {name : String} {parts : List WordPart}
      (hname : Names span name rest) (h : Body rest parts) :
      Body ('$' :: (span ++ rest)) (.variable name :: parts)
  | dollar {cs : List Char} {parts : List WordPart}
      (hnone : ∀ span name rest, cs = span ++ rest → ¬ Names span name rest) (h : Body cs parts) :
      Body ('$' :: cs) (.literal "$" :: parts)

/-- The parts of one token, and whether it was in quotes; a text token without text was. -/
inductive Gives : TokenKind → String → List WordPart → Bool → Prop
  | access {name : String} : Gives .variableAccess name [.variable name] false
  | expansion {text : String} {parts : List WordPart} (h : Body text.toList parts) :
      Gives .expansionString text parts true
  | blank : Gives .text "" [] true
  | text {text : String} (h : text ≠ "") : Gives .text text [.literal text] false
  | sign {kind : TokenKind} {text : String}
      (h : kind ∈ [.assignment, .openBracket, .closeBracket, .openBrace, .closeBrace]) :
      Gives kind text [.literal text] false

/-- The parts of all tokens. -/
inductive Collects : List Token → List WordPart → Bool → Prop
  | nil : Collects [] [] false
  | cons {token : Token} {tokens : List Token} {parts more : List WordPart} {quoted others : Bool}
      (h : Gives token.kind token.text parts quoted) (hrest : Collects tokens more others) :
      Collects (token :: tokens) (parts ++ more) (quoted || others)

/-- Literals side by side are one literal. -/
inductive Merges : List WordPart → List WordPart → Prop
  | nil : Merges [] []
  | named {name : String} {parts merged : List WordPart} (h : Merges parts merged) :
      Merges (.variable name :: parts) (.variable name :: merged)
  | literal {text : String} {parts merged : List WordPart}
      (hend : ∀ other, parts.head? ≠ some (.literal other)) (h : Merges parts merged) :
      Merges (.literal text :: parts) (.literal text :: merged)
  | join {first second : String} {parts merged : List WordPart}
      (h : Merges (.literal (first ++ second) :: parts) merged) :
      Merges (.literal first :: .literal second :: parts) merged

/-- The word that tokens side by side stand for. -/
inductive Value : List Token → Word → Prop
  | merged {tokens : List Token} {parts : List WordPart} {word : Word}
      (h : Collects tokens parts word.quoted) (hmerges : Merges parts word.parts) :
      Value tokens word

end Grammar

namespace Parser

open Grammar

/-! Literals side by side. -/

theorem pushLiteral_snoc (parts : List WordPart) (before text : String) :
    pushLiteral (parts ++ [.literal before]) text = parts ++ [.literal (before ++ text)] := by
  simp [pushLiteral]

theorem pushLiteral_of_ne {parts : List WordPart}
    (h : ∀ before, parts.getLast? ≠ some (.literal before)) (text : String) :
    pushLiteral parts text = parts ++ [.literal text] := by
  unfold pushLiteral
  split
  · rename_i before hlast
    exact absurd hlast (h before)
  · rfl

theorem pushLiteral_pushLiteral (parts : List WordPart) (first second : String) :
    pushLiteral (pushLiteral parts first) second = pushLiteral parts (first ++ second) := by
  by_cases h : ∃ before, parts.getLast? = some (.literal before)
  · obtain ⟨before, hlast⟩ := h
    obtain ⟨init, rfl⟩ := List.getLast?_eq_some_iff.1 hlast
    rw [pushLiteral_snoc, pushLiteral_snoc, pushLiteral_snoc, String.append_assoc]
  · have hne : ∀ before, parts.getLast? ≠ some (.literal before) := not_exists.1 h
    rw [pushLiteral_of_ne hne, pushLiteral_snoc, pushLiteral_of_ne hne]

theorem pushPart_nil (part : WordPart) : pushPart [] part = [part] := by
  cases part <;> rfl

theorem pushPart_ne_nil (parts : List WordPart) (part : WordPart) : pushPart parts part ≠ [] := by
  cases part with
  | literal text =>
    rw [pushPart, pushLiteral]
    split <;> simp
  | «variable» name => simp [pushPart]

theorem pushPart_cons {parts : List WordPart} (h : parts ≠ []) (first part : WordPart) :
    pushPart (first :: parts) part = first :: pushPart parts part := by
  obtain ⟨second, before, rfl⟩ := List.exists_cons_of_ne_nil h
  cases part with
  | literal text =>
    simp only [pushPart, pushLiteral, List.getLast?_cons_cons, List.dropLast_cons_cons]
    split <;> rfl
  | «variable» name => rfl

theorem foldl_pushPart_cons {before : List WordPart} (h : before ≠ []) (first : WordPart)
    (parts : List WordPart) :
    parts.foldl pushPart (first :: before) = first :: parts.foldl pushPart before := by
  induction parts generalizing before with
  | nil => rfl
  | cons part parts ih =>
    rw [List.foldl_cons, List.foldl_cons, pushPart_cons h, ih (pushPart_ne_nil before part)]

theorem foldl_pushPart_pushPart (before parts : List WordPart) (part : WordPart) :
    (pushPart parts part).foldl pushPart before = pushPart (parts.foldl pushPart before) part := by
  cases part with
  | «variable» name => simp [pushPart]
  | literal text =>
    by_cases h : ∃ last, parts.getLast? = some (.literal last)
    · obtain ⟨last, hlast⟩ := h
      obtain ⟨init, rfl⟩ := List.getLast?_eq_some_iff.1 hlast
      simp [pushPart, pushLiteral_snoc, pushLiteral_pushLiteral]
    · rw [pushPart, pushLiteral_of_ne (not_exists.1 h)]
      simp [pushPart]

theorem foldl_foldl_pushPart (before parts : List WordPart) :
    (parts.foldl pushPart []).foldl pushPart before = parts.foldl pushPart before := by
  suffices h : ∀ merged : List WordPart, (parts.foldl pushPart merged).foldl pushPart before =
      parts.foldl pushPart (merged.foldl pushPart before) from h []
  induction parts with
  | nil => exact fun _ => rfl
  | cons part parts ih =>
    intro merged
    rw [List.foldl_cons, List.foldl_cons, ih, foldl_pushPart_pushPart]

theorem foldl_pushPart_apart {part : WordPart} {parts : List WordPart}
    (h : ∀ other, parts.head? = some (.literal other) → ∀ text, part ≠ .literal text) :
    parts.foldl pushPart [part] = part :: parts.foldl pushPart [] := by
  cases parts with
  | nil => rfl
  | cons next parts =>
    have hpush : pushPart [part] next = part :: pushPart [] next := by
      cases next with
      | «variable» name => rfl
      | literal other =>
        refine pushLiteral_of_ne (fun before hlast => ?_) other
        exact h other rfl before (Option.some.inj hlast)
    rw [List.foldl_cons, List.foldl_cons, hpush, foldl_pushPart_cons (pushPart_ne_nil [] next)]

theorem merges_foldl (part : WordPart) (parts : List WordPart) :
    Merges (part :: parts) (parts.foldl pushPart [part]) := by
  induction parts generalizing part with
  | nil =>
    cases part with
    | literal text => exact .literal nofun .nil
    | «variable» name => exact .named .nil
  | cons next parts ih =>
    have hnext := ih next
    rw [← pushPart_nil next] at hnext
    cases part with
    | «variable» name =>
      have hapart : ∀ text, WordPart.variable name ≠ .literal text := nofun
      rw [foldl_pushPart_apart fun _ _ => hapart]
      exact .named hnext
    | literal text =>
      cases next with
      | literal other => exact .join (ih (.literal (text ++ other)))
      | «variable» name =>
        have hapart : ∀ other, (WordPart.variable name :: parts).head? ≠ some (.literal other) :=
          nofun
        rw [foldl_pushPart_apart fun other hhead => absurd hhead (hapart other)]
        exact .literal hapart hnext

theorem merges_iff {parts merged : List WordPart} :
    Merges parts merged ↔ merged = parts.foldl pushPart [] := by
  constructor
  · intro h
    induction h with
    | nil => rfl
    | @named name parts merged h ih =>
      have hapart : ∀ text, WordPart.variable name ≠ .literal text := nofun
      rw [ih]
      exact (foldl_pushPart_apart fun _ _ => hapart).symm
    | literal hend h ih =>
      rw [ih]
      exact (foldl_pushPart_apart fun other hhead => absurd hhead (hend other)).symm
    | join h ih => exact ih
  · rintro rfl
    cases parts with
    | nil => exact .nil
    | cons part parts =>
      rw [List.foldl_cons, pushPart_nil]
      exact merges_foldl part parts

/-! The inside of double quotes. -/

theorem expansionFrom_skip (parts : List WordPart) (n : Nat) (cs : List Char) :
    expansionFrom parts n cs = expansionFrom parts 0 (cs.drop n) := by
  induction n generalizing cs with
  | zero => rfl
  | succ n ih =>
    cases cs with
    | nil => simp [expansionFrom]
    | cons c cs => rw [expansionFrom, ih, List.drop_succ_cons]

theorem expansionFrom_body {cs : List Char} {parts : List WordPart} (h : Body cs parts)
    (before : List WordPart) : expansionFrom before 0 cs = parts.foldl pushPart before := by
  induction h generalizing before with
  | nil => rfl
  | plain hslash hdollar h ih =>
    rw [expansionFrom.eq_def]
    simp only [if_neg hslash, if_neg hdollar, ih]
    rfl
  | escaped hc h ih =>
    simp only [expansionFrom, if_true, hc, ih]
    rfl
  | joined h ih =>
    have hline : isEscapable '\n' = false := rfl
    simp only [expansionFrom, if_true, hline, Bool.false_eq_true, if_false, ih]
  | kept hc hline h ih =>
    simp only [expansionFrom, if_true, hc, Bool.false_eq_true, if_false, if_neg hline, ih]
    rfl
  | backslash => rfl
  | named hname h ih =>
    rw [expansionFrom.eq_def]
    simp only [hname.variableAfter_eq]
    rw [expansionFrom_skip, List.drop_left' rfl, ih]
    rfl
  | dollar hnone h ih =>
    rw [expansionFrom.eq_def]
    simp only [variableAfter_eq_none.2 hnone, ih]
    rfl

theorem exists_body (cs : List Char) : ∃ parts, Body cs parts := by
  -- On the length, since a backslash or a variable takes several characters at once.
  induction hn : cs.length using Nat.strong_induction_on generalizing cs with
  | h n ih =>
  have hbehind : ∀ rest : List Char, rest.length < n → ∃ parts, Body rest parts :=
    fun rest hlt => ih _ hlt rest rfl
  cases cs with
  | nil => exact ⟨[], .nil⟩
  | cons c cs =>
    rw [List.length_cons] at hn
    by_cases hslash : c = '\\'
    · subst hslash
      cases cs with
      | nil => exact ⟨_, .backslash⟩
      | cons d rest =>
        rw [List.length_cons] at hn
        obtain ⟨parts, hparts⟩ := hbehind rest (by omega)
        cases hd : isEscapable d with
        | true => exact ⟨_, .escaped hd hparts⟩
        | false =>
          by_cases hline : d = '\n'
          · subst hline
            exact ⟨_, .joined hparts⟩
          · exact ⟨_, .kept hd hline hparts⟩
    · by_cases hdollar : c = '$'
      · subst hdollar
        cases hvariable : variableAfter cs with
        | none =>
          obtain ⟨parts, hparts⟩ := hbehind cs (by omega)
          exact ⟨_, .dollar (variableAfter_eq_none.1 hvariable) hparts⟩
        | some found =>
          obtain ⟨span, rest, rfl, -, hnames⟩ := variableAfter_iff.1 hvariable
          rw [List.length_append] at hn
          obtain ⟨parts, hparts⟩ := hbehind rest (by omega)
          exact ⟨_, .named hnames hparts⟩
      · obtain ⟨parts, hparts⟩ := hbehind cs (by omega)
        exact ⟨_, .plain hslash hdollar hparts⟩

/-! Tokens. -/

theorem addToWord_eq {token : Token} {parts : List WordPart} {quoted : Bool}
    (h : Gives token.kind token.text parts quoted) (word : Word) :
    addToWord word token = ⟨parts.foldl pushPart word.parts, word.quoted || quoted⟩ := by
  obtain ⟨kind, text, position⟩ := token
  cases h with
  | access => simp [addToWord, pushPart]
  | expansion hbody =>
    simp only [addToWord, expansionParts, expansionFrom_body hbody, foldl_foldl_pushPart,
      Bool.or_true]
  | blank => simp [addToWord]
  | text htext =>
    simp only [addToWord, if_neg htext, Bool.or_false]
    rfl
  | sign hkind =>
    simp only [List.mem_cons, List.not_mem_nil, or_false] at hkind
    obtain rfl | rfl | rfl | rfl | rfl := hkind <;> simp [addToWord, pushPart]

theorem exists_gives {token : Token} (h : token.isWordPart = true) :
    ∃ parts quoted, Gives token.kind token.text parts quoted := by
  obtain ⟨kind, text, position⟩ := token
  cases kind with
  | text =>
    by_cases htext : text = ""
    · subst htext
      exact ⟨_, _, .blank⟩
    · exact ⟨_, _, .text htext⟩
  | variableAccess => exact ⟨_, _, .access⟩
  | expansionString =>
    obtain ⟨parts, hparts⟩ := exists_body text.toList
    exact ⟨_, _, .expansion hparts⟩
  | assignment | openBracket | closeBracket | openBrace | closeBrace =>
    exact ⟨_, _, .sign (by simp)⟩
  | _ => cases h

theorem foldl_addToWord_eq {tokens : List Token} {parts : List WordPart} {quoted : Bool}
    (h : Collects tokens parts quoted) (word : Word) :
    tokens.foldl addToWord word = ⟨parts.foldl pushPart word.parts, word.quoted || quoted⟩ := by
  induction h generalizing word with
  | nil => simp
  | cons hfirst hrest ih =>
    rw [List.foldl_cons, addToWord_eq hfirst, ih, List.foldl_append, Bool.or_assoc]

theorem exists_collects {tokens : List Token} (h : ∀ token ∈ tokens, token.isWordPart = true) :
    ∃ parts quoted, Collects tokens parts quoted := by
  induction tokens with
  | nil => exact ⟨_, _, .nil⟩
  | cons token tokens ih =>
    obtain ⟨hfirst, hrest⟩ := List.forall_mem_cons.1 h
    obtain ⟨parts, quoted, hgives⟩ := exists_gives hfirst
    obtain ⟨more, others, hcollects⟩ := ih hrest
    exact ⟨_, _, .cons hgives hcollects⟩

theorem isWordPart_of_collects {tokens : List Token} {parts : List WordPart} {quoted : Bool}
    (h : Collects tokens parts quoted) : ∀ token ∈ tokens, token.isWordPart = true := by
  induction h with
  | nil => simp
  | @cons token tokens parts more quoted others hfirst hrest ih =>
    refine List.forall_mem_cons.2 ⟨?_, ih⟩
    obtain ⟨kind, text, position⟩ := token
    cases hfirst with
    | sign hkind =>
      simp only [List.mem_cons, List.not_mem_nil, or_false] at hkind
      obtain rfl | rfl | rfl | rfl | rfl := hkind <;> rfl
    | _ => rfl

/-- The value of a word is the one that the parser finds, and nothing else. -/
theorem value_iff {tokens : List Token} {word : Word} :
    Value tokens word ↔
      (∀ token ∈ tokens, token.isWordPart = true) ∧ word = wordOf tokens := by
  constructor
  · rintro ⟨hcollects, hmerges⟩
    refine ⟨isWordPart_of_collects hcollects, ?_⟩
    rw [wordOf, foldl_addToWord_eq hcollects, ← merges_iff.1 hmerges, Bool.false_or]
  · rintro ⟨hparts, rfl⟩
    obtain ⟨parts, quoted, hcollects⟩ := exists_collects hparts
    have hword : wordOf tokens = ⟨parts.foldl pushPart [], false || quoted⟩ :=
      foldl_addToWord_eq hcollects {}
    rw [Bool.false_or] at hword
    rw [hword]
    exact .merged hcollects (merges_iff.2 rfl)

end Parser

end ToyUnix
