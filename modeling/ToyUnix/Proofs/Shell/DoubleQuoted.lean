import ToyUnix.Proofs.Shell.RoundTrip

/-!
Arguments between double quotes. Inside them a backslash goes before a backslash, a dollar sign, a
quote and a backtick, and before nothing else. Texts that are written so, with a space between one
and the next, are a command, and whatever the variables are its words expand to the texts, see
`double_quoted_arguments`.
-/

set_option autoImplicit false

namespace ToyUnix

open ToyUnix.Parser (isEscapable)

def guarded (cs : List Char) : List Char :=
  cs.flatMap fun c => if isEscapable c then ['\\', c] else [c]

def sealedChars (text : String) : List Char := '"' :: (guarded text.toList ++ ['"'])

def sealedLine (texts : List String) : String :=
  String.ofList ([' '].intercalate (texts.map sealedChars))

def Word.sealed (text : String) : Word := ⟨if text = "" then [] else [.literal text], true⟩

theorem guarded_cons_of_escapable {c : Char} (h : isEscapable c = true) (cs : List Char) :
    guarded (c :: cs) = '\\' :: c :: guarded cs := by
  simp [guarded, h]

theorem guarded_cons {c : Char} (h : isEscapable c = false) (cs : List Char) :
    guarded (c :: cs) = c :: guarded cs := by
  simp [guarded, h]

theorem ne_of_not_escapable {c : Char} (h : isEscapable c = false) :
    c ≠ '$' ∧ c ≠ '"' ∧ c ≠ '\\' := by
  simp only [isEscapable, Bool.or_eq_false_iff, decide_eq_false_iff_not] at h
  exact ⟨h.1.1.1, h.1.1.2, h.1.2⟩

theorem intercalate_space (first : List Char) (others : List (List Char)) :
    [' '].intercalate (first :: others) = first ++ others.flatMap (' ' :: ·) := by
  induction others generalizing first with
  | nil => simp [List.intercalate]
  | cons next others ih =>
    have hnext := ih next
    simp only [List.intercalate] at hnext
    simp [List.intercalate, hnext]

/-! What the lexer finds. -/

def sealedToken (text : String) : Token :=
  ⟨.expansionString, String.ofList (guarded text.toList), 0⟩

def sealedTokens (texts : List String) : List Token :=
  texts.flatMap fun text => [Parser.space, sealedToken text]

namespace Token

open Mark (put putWord)

variable {rest : List Char}

theorem outlineFrom_guarded (before cs : List Char) :
    outlineFrom {} (.double before) (guarded cs ++ '"' :: rest) =
      (outlineFrom {} (.plain [] 0) rest).map
        (put (.expansionString, String.ofList (before ++ guarded cs))) := by
  induction cs generalizing before with
  | nil => simp [guarded, outlineFrom, stringKind]
  | cons c cs ih =>
    cases hc : isEscapable c with
    | true =>
      -- The backslash keeps whatever character comes next inside the quotes.
      rw [guarded_cons_of_escapable hc, List.cons_append, List.cons_append, outlineFrom,
        if_neg (by decide), if_pos rfl, outlineFrom, ih]
      simp
    | false =>
      obtain ⟨-, hquote, hslash⟩ := ne_of_not_escapable hc
      rw [guarded_cons hc, List.cons_append, outlineFrom, if_neg hquote, if_neg hslash, ih]
      simp

theorem outlineFrom_sealed (text : String) :
    outlineFrom {} (.plain [] 0) (sealedChars text ++ rest) =
      (outlineFrom {} (.plain [] 0) rest).map (put (sealedToken text).mark) := by
  have hid : putWord [] = id := rfl
  have hread := @outlineFrom_guarded rest [] text.toList
  rw [sealedChars, List.cons_append, List.append_assoc, List.singleton_append, outlineFrom,
    if_neg (by decide), if_neg (by decide), if_pos rfl, hread, hid, Option.map_id]
  rfl

theorem outlineFrom_sealedTokens (texts : List String) :
    outlineFrom {} (.plain [] 0) (texts.flatMap fun text => ' ' :: sealedChars text) =
      some (outline (sealedTokens texts)) := by
  induction texts with
  | nil => rfl
  | cons text texts ih =>
    rw [List.flatMap_cons, List.cons_append, outlineFrom_space rfl, outlineFrom_sealed, ih]
    rfl

end Token

/-! What the parser finds. -/

namespace Parser

theorem expansionFrom_guarded (parts : List WordPart) (cs : List Char) :
    expansionFrom parts 0 (guarded cs) =
      cs.foldl (fun parts c => pushLiteral parts (String.ofList [c])) parts := by
  induction cs generalizing parts with
  | nil => rfl
  | cons c cs ih =>
    cases hc : isEscapable c with
    | true =>
      rw [guarded_cons_of_escapable hc]
      simp only [expansionFrom, hc, if_true, ih, List.foldl_cons]
    | false =>
      obtain ⟨hdollar, -, hslash⟩ := ne_of_not_escapable hc
      rw [guarded_cons hc, expansionFrom.eq_def]
      simp only [hslash, hdollar, if_false, ih, List.foldl_cons]

theorem foldl_pushLiteral (before : String) (cs : List Char) :
    cs.foldl (fun parts c => pushLiteral parts (String.ofList [c])) [.literal before] =
      [.literal (before ++ String.ofList cs)] := by
  induction cs generalizing before with
  | nil => simp
  | cons c cs ih =>
    have hpush : pushLiteral [.literal before] (String.ofList [c]) =
        [.literal (before ++ String.ofList [c])] := rfl
    rw [List.foldl_cons, hpush, ih, String.append_assoc, ← String.ofList_append,
      List.singleton_append]

theorem expansionParts_guarded (text : String) :
    expansionParts (String.ofList (guarded text.toList)) = (Word.sealed text).parts := by
  rw [expansionParts, String.toList_ofList, expansionFrom_guarded, Word.sealed]
  cases hcs : text.toList with
  | nil =>
    obtain rfl : text = "" := String.toList_inj.1 hcs
    rfl
  | cons c cs =>
    have hne : text ≠ "" := by
      rintro rfl
      cases hcs
    have hpush : pushLiteral [] (String.ofList [c]) = [.literal (String.ofList [c])] := rfl
    rw [List.foldl_cons, hpush, foldl_pushLiteral, ← String.ofList_append, List.singleton_append,
      ← hcs, String.ofList_toList, if_neg hne]

theorem wordOf_sealed (text : String) : wordOf [sealedToken text] = .sealed text := by
  rw [wordOf, List.foldl_cons, List.foldl_nil, addToWord, sealedToken]
  simp only [expansionParts_guarded]
  unfold Word.sealed
  split <;> rfl

theorem word?_sealed (text : String) (texts : List String) :
    word? (sealedToken text :: sealedTokens texts) = some (.sealed text, sealedTokens texts) := by
  have happend := word?_append [sealedToken text] (sealedTokens texts) (by simp)
    (by simp [sealedToken, Token.isWordPart, TokenKind.isWordPart]) fun t ht => by
      cases texts with
      | nil => cases ht
      | cons next texts =>
        cases ht
        rfl
  rwa [wordOf_sealed] at happend

theorem simpleItems_sealedToken (nested : Bool) (n : Nat) (simple : Simple) (text : String)
    (texts : List String) :
    simpleItems nested (n + 1) simple (sealedToken text :: sealedTokens texts) =
      simpleItems nested n { simple with words := simple.words ++ [.sealed text] }
        (sealedTokens texts) := by
  have hword := word?_sealed text texts
  have hskip : skipSpaces (sealedToken text :: sealedTokens texts) =
      sealedToken text :: sealedTokens texts := skipSpaces_of_ne (by simp [sealedToken])
  have hassignment : assignmentName? (sealedToken text :: sealedTokens texts) = none := by
    cases texts <;> rfl
  have hkind : (sealedToken text).kind = .expansionString := rfl
  rw [simpleItems, hskip]
  simp [hkind, redirectMode?, hassignment, hword]

theorem simpleItems_sealedTokens (nested : Bool) {n : Nat} (simple : Simple) {texts : List String}
    (hn : texts.length < n) :
    simpleItems nested n simple (sealedTokens texts) =
      .ok ({ simple with words := simple.words ++ texts.map .sealed }, []) := by
  obtain ⟨n, rfl⟩ := Nat.exists_eq_add_one.2 (Nat.zero_lt_of_lt hn)
  induction texts generalizing n simple with
  | nil => simp [sealedTokens, simpleItems, skipSpaces]
  | cons text texts ih =>
    rw [List.length_cons] at hn
    obtain ⟨n, rfl⟩ := Nat.exists_eq_add_one.2 (show 0 < n by omega)
    have hfirst : sealedTokens (text :: texts) = space :: sealedToken text :: sealedTokens texts :=
      rfl
    rw [hfirst, simpleItems_space, simpleItems_sealedToken, ih _ n (by omega), List.map_cons,
      List.append_assoc, List.singleton_append]

theorem command_sealed (nested : Bool) (n : Nat) (text : String) (texts : List String) :
    command (n + 1) nested (sealedToken text :: sealedTokens texts) =
      .ok (.command [] ((text :: texts).map .sealed), []) := by
  have hlength : texts.length < (sealedToken text :: sealedTokens texts).length := by
    have htokens : (sealedTokens texts).length = texts.length * 2 := by
      simp [sealedTokens, List.map_const']
    rw [List.length_cons]
    omega
  have hsimple : simpleCommand nested (sealedToken text :: sealedTokens texts) =
      .ok (.command [] ((text :: texts).map .sealed), []) := by
    rw [simpleCommand, simpleItems_sealedToken, simpleItems_sealedTokens nested _ hlength]
    rfl
  have hskip : skipSpaces (sealedToken text :: sealedTokens texts) =
      sealedToken text :: sealedTokens texts := skipSpaces_of_ne (by simp [sealedToken])
  have hkind : (sealedToken text).kind = .expansionString := rfl
  have hheader : functionHeader? (sealedToken text :: sealedTokens texts) = none := by
    rw [functionHeader?_cons, hkind]
    rfl
  rw [command, hskip]
  simp only [hkind, hheader, hsimple]

theorem parse_sealed (text : String) (texts : List String) :
    parse (sealedToken text :: sealedTokens texts) false =
      .ok (.command [] ((text :: texts).map .sealed)) := by
  have hblanks : skipBlanks (sealedToken text :: sealedTokens texts) =
      sealedToken text :: sealedTokens texts := rfl
  have hbudget : ∃ n, budget (sealedToken text :: sealedTokens texts) = n + 4 :=
    ⟨budget (sealedToken text :: sealedTokens texts) - 4, by unfold budget; omega⟩
  obtain ⟨n, hn⟩ := hbudget
  rw [parse, hn, list_succ, hblanks, andOr, pipeline, command_sealed]
  rfl

end Parser

/-! What the words expand to. -/

theorem Word.expand_sealed (home : String) (lookup : Lookup) (text : String) :
    (Word.sealed text).expand home lookup = text := by
  unfold Word.sealed
  split
  · rename_i hempty
    rw [hempty]
    rfl
  · simp [Word.expand, expandParts]

theorem expandWords_sealed (home : String) (lookup : Lookup) (texts : List String) :
    expandWords home lookup (texts.map .sealed) = texts := by
  rw [expandWords, List.filterMap_map]
  have hkeep : ∀ text, ((fun word : Word =>
      let text := word.expand home lookup
      if word.quoted || text ≠ "" then some text else none) ∘ Word.sealed) text = some text := by
    intro text
    simp only [Function.comp_apply, Word.expand_sealed]
    rfl
  rw [funext hkeep, List.filterMap_some]

/-- Texts between double quotes come through a command line as they are, whatever is in them and
whatever the home directory and the variables are. -/
theorem double_quoted_arguments {texts : List String} (hne : texts ≠ []) :
    ∃ tokens words, tokenize {} (sealedLine texts) = some tokens ∧
      parse tokens false = .ok (.command [] words) ∧
      ∀ home lookup, expandWords home lookup words = texts := by
  obtain ⟨text, texts, rfl⟩ := List.exists_cons_of_ne_nil hne
  have hread := Token.outline_tokenize {} (sealedLine (text :: texts))
  rw [sealedLine, String.toList_ofList, List.map_cons, intercalate_space, List.flatMap_map,
    Token.outlineFrom_sealed, Token.outlineFrom_sealedTokens, Option.map_some,
    Option.map_eq_some_iff] at hread
  obtain ⟨tokens, htokens, houtline⟩ := hread
  have hsame : Token.outline tokens =
      Token.outline (sealedToken text :: sealedTokens texts) := houtline
  refine ⟨tokens, (text :: texts).map .sealed, ?_, ?_, fun home lookup =>
    expandWords_sealed home lookup _⟩
  · rwa [sealedLine, List.map_cons, intercalate_space, List.flatMap_map]
  · exact (parse_congr (congrArg Mark.dropGap hsame) false _).2 (Parser.parse_sealed text texts)

namespace Sample

/-- Nothing, a home directory and a variable with a newline, and all that needs a backslash. -/
theorem expanded_to_themselves :
    ["", "~/$HOME\n", "\"; \\\x60"] ≠ [] ∧
    ∃ tokens words, tokenize {} "\"\" \"~/\\$HOME\n\" \"\\\"; \\\\\\\x60\"" = some tokens ∧
      parse tokens false = .ok (.command [] words) ∧
      ∀ home lookup, expandWords home lookup words = ["", "~/$HOME\n", "\"; \\\x60"] := by
  have hline : sealedLine ["", "~/$HOME\n", "\"; \\\x60"] =
      "\"\" \"~/\\$HOME\n\" \"\\\"; \\\\\\\x60\"" := by decide
  have hne : ["", "~/$HOME\n", "\"; \\\x60"] ≠ [] := by simp
  have harguments := double_quoted_arguments hne
  rw [hline] at harguments
  exact ⟨hne, harguments⟩

end Sample

end ToyUnix
