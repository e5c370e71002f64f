import ToyUnix.Proofs.Shell.Rendering
import ToyUnix.Proofs.Shell.Words

/-!
What is written parses back. Each command is read as it was written, whatever ends it behind, so that
a tree is the tree of its text: see `parse_render`.
-/

set_option autoImplicit false

namespace ToyUnix

open ToyUnix.Parser (tokensOf)

def Glyph.tokens (glyphs : List Glyph) : List Token := tokensOf (glyphs.flatMap Glyph.marks)

def TokenKind.isLetters (kind : TokenKind) : Bool :=
  kind = .text || kind = .variableAccess || kind = .expansionString

namespace Parser

open Glyph (tokens)

theorem tokens_cons (glyph : Glyph) (glyphs : List Glyph) :
    tokens (glyph :: glyphs) = tokensOf glyph.marks ++ tokens glyphs := by
  simp [tokens, tokensOf]

theorem tokens_append (left right : List Glyph) :
    tokens (left ++ right) = tokens left ++ tokens right := by
  simp [tokens, tokensOf]

/-! Words. -/

theorem foldl_literal {before : List WordPart}
    (hbefore : ∀ text, before.getLast? ≠ some (.literal text)) (quoted : Bool) {text : String}
    (h : text ≠ "") :
    (tokens (text.toList.map .letter)).foldl addToWord ⟨before, quoted⟩ =
      ⟨before ++ [.literal text], quoted⟩ := by
  obtain ⟨c, cs, hcs⟩ := List.exists_cons_of_ne_nil (l := text.toList) (by simpa using h)
  have hletters : tokens (cs.map .letter) =
      tokensOf (cs.map fun c => (.text, String.ofList [c])) := by
    rw [tokens, List.flatMap_map, List.map_eq_flatMap]
    rfl
  have hstep : addToWord ⟨before, quoted⟩ ⟨.text, String.ofList [c], 0⟩ =
      ⟨before ++ [.literal (String.ofList [c])], quoted⟩ := by
    have hsome : String.ofList [c] ≠ "" := by simp
    simp only [addToWord, if_neg hsome, pushLiteral_of_ne hbefore]
  have hfold := foldl_addToWord before quoted (String.ofList [c]) cs
  rw [← String.ofList_append, List.singleton_append, ← hcs, String.ofList_toList] at hfold
  rw [hcs, List.map_cons, tokens_cons, hletters, ← hfold, ← hstep]
  rfl

theorem foldl_parts {parts before : List WordPart} (quoted : Bool)
    (h : ∀ part ∈ parts, part.isExpressible = true) (hapart : WordPart.apart parts = true)
    (hbefore : ∀ text, before.getLast? = some (.literal text) →
      ∀ next, parts.head? ≠ some (.literal next)) :
    (tokens (parts.flatMap WordPart.glyphs)).foldl addToWord ⟨before, quoted⟩ =
      ⟨before ++ parts, quoted⟩ := by
  induction parts generalizing before with
  | nil => simp [tokens, tokensOf]
  | cons part parts ih =>
    obtain ⟨hpart, hrest⟩ := List.forall_mem_cons.1 h
    rw [List.flatMap_cons, tokens_append, List.foldl_append]
    cases part with
    | literal text =>
      have hbehind : WordPart.apart parts = true ∧ ∀ next, parts.head? ≠ some (.literal next) := by
        cases parts with
        | nil => simp [WordPart.apart]
        | cons next parts =>
          cases next with
          | literal next => cases hapart
          | «variable» name => exact ⟨hapart, by simp⟩
      have hlast : ∀ before', before.getLast? ≠ some (.literal before') := fun before' heq =>
        hbefore before' heq text rfl
      have htext : text ≠ "" := by simpa [WordPart.isExpressible] using hpart
      rw [WordPart.glyphs, foldl_literal hlast quoted htext,
        ih hrest hbehind.1 fun _ _ => hbehind.2, List.append_assoc, List.singleton_append]
    | «variable» name =>
      have hbehind : WordPart.apart parts = true := hapart
      have hstep : (tokens (WordPart.glyphs (.variable name))).foldl addToWord ⟨before, quoted⟩ =
          ⟨before ++ [.variable name], quoted⟩ := rfl
      rw [hstep, ih hrest hbehind (by simp), List.append_assoc, List.singleton_append]

theorem wordOf_glyphs {word : Word} (h : word.isExpressible = true) :
    wordOf (tokens word.glyphs) = word := by
  simp only [Word.isExpressible, Bool.and_eq_true, List.all_eq_true] at h
  obtain ⟨parts, quoted⟩ := word
  have hquotes : (tokens (if quoted then [.quotes] else [])).foldl addToWord {} =
      ⟨[], quoted⟩ := by
    cases quoted <;> rfl
  rw [Word.glyphs, tokens_append, wordOf, List.foldl_append, hquotes,
    foldl_parts quoted h.1 h.2 (by simp), List.nil_append]

theorem exists_mark {glyphs : List Glyph} {token : Token} (h : token ∈ tokens glyphs) :
    ∃ glyph ∈ glyphs, ∃ mark ∈ glyph.marks, token.kind = mark.1 := by
  obtain ⟨mark, hmark, rfl⟩ := List.mem_map.1 h
  obtain ⟨glyph, hglyph, hmem⟩ := List.mem_flatMap.1 hmark
  exact ⟨glyph, hglyph, mark, hmem, rfl⟩

theorem isLetters_of_mem_glyphs {word : Word} {glyph : Glyph} (h : glyph ∈ word.glyphs)
    {mark : Mark} (hmark : mark ∈ glyph.marks) : mark.1.isLetters = true := by
  rcases List.mem_append.1 h with hglyph | hglyph
  · split at hglyph
    · obtain rfl := List.mem_singleton.1 hglyph
      obtain rfl := List.mem_singleton.1 hmark
      rfl
    · cases hglyph
  · obtain ⟨part, -, hpart⟩ := List.mem_flatMap.1 hglyph
    cases part with
    | literal text =>
      obtain ⟨c, -, rfl⟩ := List.mem_map.1 hpart
      obtain rfl := List.mem_singleton.1 hmark
      rfl
    | «variable» name =>
      obtain rfl := List.mem_singleton.1 hpart
      obtain rfl := List.mem_singleton.1 hmark
      rfl

theorem kind_of_mem_word {word : Word} {token : Token} (h : token ∈ tokens word.glyphs) :
    token.kind.isLetters = true := by
  obtain ⟨glyph, hglyph, mark, hmark, hkind⟩ := exists_mark h
  rw [hkind]
  exact isLetters_of_mem_glyphs hglyph hmark

theorem tokens_word_ne_nil {word : Word} (h : word.isExpressible = true)
    (hpresent : word.isPresent = true) : tokens word.glyphs ≠ [] := by
  intro hnil
  have hword := wordOf_glyphs h
  rw [hnil] at hword
  rw [← hword] at hpresent
  cases hpresent

theorem isLetters_cases {kind : TokenKind} (h : kind.isLetters = true) :
    kind = .text ∨ kind = .variableAccess ∨ kind = .expansionString := by
  simpa [TokenKind.isLetters, or_assoc] using h

theorem isWordPart_of_isLetters {token : Token} (h : token.kind.isLetters = true) :
    token.isWordPart = true := by
  obtain h | h | h := isLetters_cases h <;> simp [Token.isWordPart, h, TokenKind.isWordPart]

def space : Token := ⟨.whitespace, "", 0⟩

theorem word?_glyphs {word : Word} (h : word.isExpressible = true)
    (hpresent : word.isPresent = true) (rest : List Token) :
    word? (tokens word.glyphs ++ space :: rest) = some (word, space :: rest) := by
  have hread := word?_append (tokens word.glyphs) (space :: rest) (tokens_word_ne_nil h hpresent)
    (fun t ht => isWordPart_of_isLetters (kind_of_mem_word ht)) (by rintro t ⟨⟩; rfl)
  rwa [wordOf_glyphs h] at hread

/-! Simple commands. -/

def stops (nested : Bool) : TokenKind → Bool
  | .sequential | .parallel | .pipe | .logicalAnd | .logicalOr | .closeParen => true
  | .closeBrace => nested
  | _ => false

def Stops (nested : Bool) (rest : List Token) : Prop :=
  ∀ token, rest.head? = some token → stops nested token.kind = true

theorem assignmentName?_letters {letters : List Token}
    (h : ∀ token ∈ letters, token.kind.isLetters = true) (rest : List Token) :
    assignmentName? (letters ++ space :: rest) = none := by
  match letters with
  | [] => cases rest <;> simp [assignmentName?, space]
  | [_] => simp [assignmentName?, space]
  | t :: u :: more =>
    have hu : u.kind ≠ .assignment := by
      intro heq
      have hletters := h u (by simp)
      rw [heq] at hletters
      cases hletters
    simp [assignmentName?, hu]

theorem simpleItems_word (nested : Bool) (n : Nat) (simple : Simple) {word : Word}
    (h : word.isExpressible = true) (hpresent : word.isPresent = true) (rest : List Token) :
    simpleItems nested (n + 1) simple (tokens word.glyphs ++ space :: rest) =
      simpleItems nested n { simple with words := simple.words ++ [word] } (space :: rest) := by
  have hword := word?_glyphs h hpresent rest
  have hletters : ∀ token ∈ tokens word.glyphs, token.kind.isLetters = true :=
    fun token => kind_of_mem_word
  have hassignment := assignmentName?_letters hletters rest
  obtain ⟨t, more, ht⟩ := List.exists_cons_of_ne_nil (tokens_word_ne_nil h hpresent)
  rw [ht, List.cons_append] at hword hassignment ⊢
  have hfirst := isLetters_cases (hletters t (by simp [ht]))
  have hspace : t.kind ≠ .whitespace := by
    obtain hkind | hkind | hkind := hfirst <;> simp [hkind]
  rw [simpleItems, skipSpaces_of_ne hspace]
  obtain hkind | hkind | hkind := hfirst <;> simp [hkind, redirectMode?, hassignment, hword]

theorem simpleItems_assign (nested : Bool) (n : Nat) {simple : Simple} (hwords : simple.words = [])
    {name : String} (hname : isIdentifier name = true) {value : Word}
    (h : value.isExpressible = true) (rest : List Token) :
    simpleItems nested (n + 1) simple
        (tokensOf (Glyph.assign name).marks ++ (tokens value.glyphs ++ space :: rest)) =
      simpleItems nested n
        { simple with assignments := simple.assignments ++ [(name, value)] } (space :: rest) := by
  have hvalue : (word? (tokens value.glyphs ++ space :: rest)).getD
      ({}, tokens value.glyphs ++ space :: rest) = (value, space :: rest) := by
    cases hpresent : value.isPresent with
    | true => rw [word?_glyphs h hpresent, Option.getD_some]
    | false =>
      obtain ⟨parts, quoted⟩ := value
      obtain ⟨rfl, rfl⟩ : quoted = false ∧ parts = [] := by simpa [Word.isPresent] using hpresent
      rfl
  rw [simpleItems]
  simp [tokensOf, Glyph.marks, skipSpaces, redirectMode?, hwords, assignmentName?, hname, hvalue]

theorem simpleItems_space (nested : Bool) (n : Nat) (simple : Simple) (rest : List Token) :
    simpleItems nested (n + 1) simple (space :: rest) =
      simpleItems nested (n + 1) simple rest := by
  rw [simpleItems, simpleItems]
  rfl

theorem Stops.skipSpaces {nested : Bool} {rest : List Token} (h : Stops nested rest) :
    skipSpaces rest = rest := by
  cases rest with
  | nil => rfl
  | cons t rest =>
    have ht := h t rfl
    refine skipSpaces_of_ne fun hspace => ?_
    rw [hspace] at ht
    cases ht

theorem simpleItems_stops {nested : Bool} (n : Nat) (simple : Simple) {rest : List Token}
    (h : Stops nested rest) : simpleItems nested (n + 1) simple rest = .ok (simple, rest) := by
  rw [simpleItems, h.skipSpaces]
  cases rest with
  | nil => rfl
  | cons t rest =>
    have ht := h t rfl
    have hassignment : t.kind ≠ .text → assignmentName? (t :: rest) = none := by
      intro hkind
      cases rest <;> simp [assignmentName?, hkind]
    cases hkind : t.kind <;>
      simp_all [stops, redirectMode?, word?, Token.isWordPart, TokenKind.isWordPart]

theorem tokens_item (inside : List Glyph) :
    tokens (inside ++ [.space]) = tokens inside ++ [space] := by
  rw [tokens_append]
  rfl

theorem simpleItems_words {nested : Bool} {n : Nat} (simple : Simple) {words : List Word}
    (h : ∀ word ∈ words, word.isExpressible = true ∧ word.isPresent = true) {rest : List Token}
    (hrest : Stops nested rest) (hn : words.length < n) :
    simpleItems nested n simple
        (tokens (words.flatMap fun word => word.glyphs ++ [.space]) ++ rest) =
      .ok ({ simple with words := simple.words ++ words }, rest) := by
  obtain ⟨n, rfl⟩ := Nat.exists_eq_add_one.2 (Nat.zero_lt_of_lt hn)
  induction words generalizing n simple with
  | nil => simpa [tokens, tokensOf] using simpleItems_stops n simple hrest
  | cons word words ih =>
    obtain ⟨hword, hwords⟩ := List.forall_mem_cons.1 h
    rw [List.length_cons] at hn
    obtain ⟨n, rfl⟩ := Nat.exists_eq_add_one.2 (show 0 < n by omega)
    rw [List.flatMap_cons, tokens_append, tokens_item, List.append_assoc, List.append_assoc,
      List.singleton_append, simpleItems_word nested (n + 1) simple hword.1 hword.2,
      simpleItems_space, ih _ hwords n (by omega), List.append_assoc, List.singleton_append]

theorem simpleItems_glyphs {nested : Bool} {n : Nat} (before : List (String × Word))
    {assignments : List (String × Word)} {words : List Word}
    (hassignments : ∀ a ∈ assignments, isIdentifier a.1 = true ∧ a.2.isExpressible = true)
    (hwords : ∀ word ∈ words, word.isExpressible = true ∧ word.isPresent = true)
    {rest : List Token} (hrest : Stops nested rest) (hn : assignments.length + words.length < n) :
    simpleItems nested n { assignments := before }
        (tokens (Instruction.glyphs (.command assignments words)) ++ rest) =
      .ok ({ assignments := before ++ assignments, words := words }, rest) := by
  rw [Instruction.glyphs, tokens_append, List.append_assoc]
  obtain ⟨n, rfl⟩ := Nat.exists_eq_add_one.2 (Nat.zero_lt_of_lt hn)
  induction assignments generalizing n before with
  | nil =>
    have hread := simpleItems_words { assignments := before } hwords hrest
      (show words.length < n + 1 by simpa using hn)
    simpa [tokens, tokensOf] using hread
  | cons a assignments ih =>
    obtain ⟨⟨hname, hvalue⟩, hothers⟩ := List.forall_mem_cons.1 hassignments
    rw [List.length_cons] at hn
    obtain ⟨n, rfl⟩ := Nat.exists_eq_add_one.2 (show 0 < n by omega)
    rw [List.flatMap_cons, List.cons_append, tokens_cons, tokens_append, tokens_item]
    simp only [List.append_assoc, List.cons_append, List.nil_append]
    rw [simpleItems_assign nested (n + 1) rfl hname hvalue, simpleItems_space,
      ih _ hothers n (by omega), List.append_assoc, List.singleton_append]

theorem length_items {α : Type} (items : List α) {glyphs : α → List Glyph}
    (h : ∀ item ∈ items, tokens (glyphs item) ≠ []) :
    items.length ≤ (tokens (items.flatMap glyphs)).length := by
  induction items with
  | nil => exact Nat.zero_le _
  | cons item items ih =>
    obtain ⟨hitem, hrest⟩ := List.forall_mem_cons.1 h
    have hpos := List.length_pos_iff.2 hitem
    have hle := ih hrest
    rw [List.flatMap_cons, tokens_append, List.length_append, List.length_cons]
    omega

theorem simpleCommand_glyphs {nested : Bool} {assignments : List (String × Word)}
    {words : List Word} (h : Instruction.isExpressible (.command assignments words) = true)
    {rest : List Token} (hrest : Stops nested rest) :
    simpleCommand nested (tokens (Instruction.glyphs (.command assignments words)) ++ rest) =
      .ok (.command assignments words, rest) := by
  simp only [Instruction.isExpressible, Bool.and_eq_true, List.all_eq_true] at h
  obtain ⟨⟨hsome, hassignments⟩, hwords⟩ := h
  have hlength : assignments.length + words.length <
      (tokens (Instruction.glyphs (.command assignments words)) ++ rest).length + 1 := by
    have hassign : ∀ a ∈ assignments, tokens (.assign a.1 :: (a.2.glyphs ++ [.space])) ≠ [] :=
      fun a _ => by simp [tokens_cons, tokensOf, Glyph.marks]
    have hword : ∀ word ∈ words, tokens (word.glyphs ++ [.space]) ≠ [] :=
      fun word _ => by simp [tokens_item]
    have hleft := length_items assignments hassign
    have hright := length_items words hword
    rw [Instruction.glyphs, tokens_append, List.length_append, List.length_append]
    omega
  rw [simpleCommand, simpleItems_glyphs [] hassignments hwords hrest hlength]
  have hempty : (Simple.mk assignments words []).isEmpty = false := by
    simpa [Simple.isEmpty, imp_iff_not_or] using hsome
  simp only [Bind.bind, Except.bind, List.nil_append, hempty]
  rfl

/-! Commands and lists of them. -/

def starts (kind : TokenKind) : Bool := kind.isLetters || kind = .openBrace || kind = .openParen

/-- The tokens are read as a command with that tree. -/
structure Phrase (ts : List Token) (tree : Instruction) : Prop where
  begins : ∃ t more, ts = t :: more ∧ starts t.kind = true
  reads : ∀ {n : Nat} {nested : Bool} {rest : List Token}, 2 * ts.length ≤ n → Stops nested rest →
    command n nested (ts ++ rest) = .ok (tree, rest)

/-- The tokens are read as a list with that tree. -/
structure Body (ts : List Token) (tree : Instruction) : Prop where
  reads : ∀ {n : Nat} {nested : Bool} {rest : List Token}, 2 * ts.length + 4 ≤ n →
    atListEnd nested rest = true → list n nested (ts ++ rest) = .ok (tree, rest)

section

variable {ts us : List Token} {tree next : Instruction} {n : Nat} {nested : Bool}
  {rest : List Token}

theorem atListEnd_cases {t : Token} (h : atListEnd nested (t :: rest) = true) :
    nested = true ∧ (t.kind = .closeBrace ∨ t.kind = .closeParen) := by
  simpa [atListEnd] using h

theorem stops_cons {t : Token} (h : stops nested t.kind = true) : Stops nested (t :: rest) := by
  rintro u ⟨⟩
  exact h

theorem stops_of_atListEnd (h : atListEnd nested rest = true) : Stops nested rest := by
  intro t ht
  obtain ⟨more, rfl⟩ := List.head?_eq_some_iff.1 ht
  obtain ⟨rfl, hkind | hkind⟩ := atListEnd_cases h <;> simp [hkind, stops]

theorem Phrase.ahead (h : Phrase ts tree) (nested : Bool) (rest : List Token) :
    skipBlanks (ts ++ rest) = ts ++ rest ∧ atListEnd nested (ts ++ rest) = false := by
  obtain ⟨t, more, rfl, ht⟩ := h.begins
  have hkind : t.kind ≠ .whitespace ∧ t.kind ≠ .newline ∧ t.kind ≠ .closeBrace ∧
      t.kind ≠ .closeParen := by
    refine ⟨?_, ?_, ?_, ?_⟩ <;> intro heq <;> rw [heq] at ht <;> cases ht
  exact ⟨List.dropWhile_cons_of_neg (by simp [hkind]), by simp [atListEnd, hkind]⟩

theorem pipelineRest_stops (h : Stops nested rest)
    (hpipe : ∀ t, rest.head? = some t → t.kind ≠ .pipe) :
    pipelineRest (n + 1) nested tree rest = .ok (tree, rest) := by
  rw [pipelineRest, h.skipSpaces]
  cases rest with
  | nil => rfl
  | cons t rest => simp [hpipe t rfl]

theorem andOrRest_stops (h : Stops nested rest)
    (hlogic : ∀ t, rest.head? = some t → logic? t.kind = none) :
    andOrRest (n + 1) nested tree rest = .ok (tree, rest) := by
  rw [andOrRest, h.skipSpaces]
  cases rest with
  | nil => rfl
  | cons t rest => simp [hlogic t rfl]

theorem listRest_ends (h : atListEnd nested rest = true) :
    listRest n nested tree rest = .ok (tree, rest) := by
  rw [listRest, (stops_of_atListEnd h).skipSpaces]
  cases rest with
  | nil => rfl
  | cons t rest =>
    obtain ⟨-, hkind | hkind⟩ := atListEnd_cases h <;> simp [hkind, separator?]

theorem Phrase.pipeline (h : Phrase ts tree) (hn : 2 * ts.length + 2 ≤ n) (hrest : Stops nested rest)
    (hpipe : ∀ t, rest.head? = some t → t.kind ≠ .pipe) :
    Parser.pipeline n nested (ts ++ rest) = .ok (tree, rest) := by
  obtain ⟨n, rfl⟩ := Nat.exists_eq_add_of_le' (show 2 ≤ n by omega)
  rw [Parser.pipeline, h.reads (by omega) hrest]
  exact pipelineRest_stops hrest hpipe

theorem Phrase.andOr (h : Phrase ts tree) (hn : 2 * ts.length + 3 ≤ n) (hrest : Stops nested rest)
    (hpipe : ∀ t, rest.head? = some t → t.kind ≠ .pipe ∧ logic? t.kind = none) :
    Parser.andOr n nested (ts ++ rest) = .ok (tree, rest) := by
  obtain ⟨n, rfl⟩ := Nat.exists_eq_add_of_le' (show 2 ≤ n by omega)
  rw [Parser.andOr, h.pipeline (by omega) hrest fun t ht => (hpipe t ht).1]
  exact andOrRest_stops hrest fun t ht => (hpipe t ht).2

theorem ends_follow (h : atListEnd nested rest = true) (t : Token) (ht : rest.head? = some t) :
    t.kind ≠ .pipe ∧ logic? t.kind = none := by
  obtain ⟨more, rfl⟩ := List.head?_eq_some_iff.1 ht
  obtain ⟨-, hkind | hkind⟩ := atListEnd_cases h <;> simp [hkind, logic?]

theorem list_of_andOr (h : Phrase ts next) {left : List Token}
    (hread : Parser.andOr n nested (ts ++ left) = .ok (tree, rest))
    (hrest : atListEnd nested rest = true) : list (n + 1) nested (ts ++ left) = .ok (tree, rest) := by
  obtain ⟨hskip, hend⟩ := h.ahead nested left
  rw [list_succ, hskip, hend, hread]
  exact listRest_ends hrest

theorem Phrase.body (h : Phrase ts tree) : Body ts tree := by
  refine ⟨fun {n nested rest} hn hrest => ?_⟩
  obtain ⟨n, rfl⟩ := Nat.exists_eq_add_of_le' (show 1 ≤ n by omega)
  exact list_of_andOr h
    (h.andOr (by omega) (stops_of_atListEnd hrest) (ends_follow hrest)) hrest

variable {op : Token}

theorem Phrase.piped (hleft : Phrase ts tree) (hright : Phrase us next) (hop : op.kind = .pipe) :
    Body (ts ++ op :: space :: us) (.pipe tree next) := by
  refine ⟨fun {n nested rest} hn hrest => ?_⟩
  simp only [List.length_append, List.length_cons] at hn
  obtain ⟨n, rfl⟩ := Nat.exists_eq_add_of_le' (show 5 ≤ n by omega)
  have hstops : Stops nested (op :: space :: (us ++ rest)) := stops_cons (by rw [hop]; rfl)
  have hop' : op.kind ≠ .whitespace := by simp [hop]
  have hskip : skipBlanks (space :: (us ++ rest)) = us ++ rest := (hright.ahead nested rest).1
  have hread : Parser.pipeline (n + 3) nested (ts ++ op :: space :: (us ++ rest)) =
      .ok (.pipe tree next, rest) := by
    rw [Parser.pipeline, hleft.reads (by omega) hstops]
    simp only [Bind.bind, Except.bind, pipelineRest, skipSpaces_of_ne hop', hop, if_true, hskip]
    rw [hright.reads (by omega) (stops_of_atListEnd hrest)]
    exact pipelineRest_stops (stops_of_atListEnd hrest) fun t ht => (ends_follow hrest t ht).1
  rw [List.append_assoc]
  refine list_of_andOr hleft ?_ hrest
  rw [List.cons_append, List.cons_append, Parser.andOr, hread]
  exact andOrRest_stops (stops_of_atListEnd hrest) fun t ht => (ends_follow hrest t ht).2

theorem Phrase.decided (hleft : Phrase ts tree) (hright : Phrase us next) {logic : Logic}
    (hop : logic? op.kind = some logic) :
    Body (ts ++ op :: space :: us) (.conditional logic tree next) := by
  refine ⟨fun {n nested rest} hn hrest => ?_⟩
  simp only [List.length_append, List.length_cons] at hn
  obtain ⟨n, rfl⟩ := Nat.exists_eq_add_of_le' (show 5 ≤ n by omega)
  have hkinds : stops nested op.kind = true ∧ op.kind ≠ .pipe ∧ op.kind ≠ .whitespace := by
    cases hkind : op.kind <;> simp_all [logic?, stops]
  have hstops : Stops nested (op :: space :: (us ++ rest)) := stops_cons hkinds.1
  have hskip : skipBlanks (space :: (us ++ rest)) = us ++ rest := (hright.ahead nested rest).1
  have hfirst : Parser.pipeline (n + 3) nested (ts ++ op :: space :: (us ++ rest)) =
      .ok (tree, op :: space :: (us ++ rest)) :=
    hleft.pipeline (by omega) hstops (by rintro t ⟨⟩; exact hkinds.2.1)
  have hsecond : Parser.pipeline (n + 2) nested (us ++ rest) = .ok (next, rest) :=
    hright.pipeline (by omega) (stops_of_atListEnd hrest) fun t ht => (ends_follow hrest t ht).1
  have hread : Parser.andOr (n + 4) nested (ts ++ op :: space :: (us ++ rest)) =
      .ok (.conditional logic tree next, rest) := by
    rw [Parser.andOr, hfirst]
    simp only [Bind.bind, Except.bind, andOrRest, skipSpaces_of_ne hkinds.2.2, hop, hskip, hsecond]
    exact andOrRest_stops (stops_of_atListEnd hrest) fun t ht => (ends_follow hrest t ht).2
  rw [List.append_assoc, List.cons_append, List.cons_append]
  exact list_of_andOr hleft hread hrest

theorem Phrase.joined (hleft : Phrase ts tree) (hright : Phrase us next)
    {join : Instruction → Instruction → Instruction} (hop : separator? op.kind = some join)
    (hnewline : op.kind ≠ .newline) :
    Body (ts ++ op :: space :: us) (join tree next) := by
  refine ⟨fun {n nested rest} hn hrest => ?_⟩
  simp only [List.length_append, List.length_cons] at hn
  obtain ⟨n, rfl⟩ := Nat.exists_eq_add_of_le' (show 1 ≤ n by omega)
  have hkinds : stops nested op.kind = true ∧ (op.kind ≠ .pipe ∧ logic? op.kind = none) ∧
      op.kind ≠ .whitespace := by
    cases hkind : op.kind <;> simp_all [separator?, stops, logic?]
  have hstops : Stops nested (op :: space :: (us ++ rest)) := stops_cons hkinds.1
  have hfirst : Parser.andOr n nested (ts ++ op :: space :: (us ++ rest)) =
      .ok (tree, op :: space :: (us ++ rest)) :=
    hleft.andOr (by omega) hstops (by rintro t ⟨⟩; exact hkinds.2.1)
  have hsecond : list n nested (us ++ rest) = .ok (next, rest) := hright.body.reads (by omega) hrest
  obtain ⟨hahead, hend⟩ := hleft.ahead nested (op :: space :: (us ++ rest))
  obtain ⟨hskip, hmore⟩ := hright.ahead nested rest
  have hbehind : skipBlanks (space :: (us ++ rest)) = us ++ rest := hskip
  rw [List.append_assoc, List.cons_append, List.cons_append, list_succ, hahead, hend, hfirst]
  simp only [Bind.bind, Except.bind, listRest, skipSpaces_of_ne hkinds.2.2, hop, listBehind,
    hbehind, hmore, hsecond]
  rfl

theorem body_nil : Body [] .empty := by
  refine ⟨fun {n nested rest} hn hrest => ?_⟩
  obtain ⟨n, rfl⟩ := Nat.exists_eq_add_of_le' (show 1 ≤ n by omega)
  have hskip : skipBlanks rest = rest := by
    cases rest with
    | nil => rfl
    | cons t rest =>
      obtain ⟨-, hkind | hkind⟩ := atListEnd_cases hrest <;>
        exact List.dropWhile_cons_of_neg (by simp [hkind])
  rw [List.nil_append, list_succ, hskip, hrest]
  rfl

/-! Groups, redirections and functions. -/

theorem redirects_stops (h : Stops nested rest) :
    redirects (n + 1) (space :: rest) = .ok ([], rest) := by
  have hskip : skipSpaces (space :: rest) = rest := h.skipSpaces
  rw [redirects, hskip]
  cases rest with
  | nil => rfl
  | cons t rest =>
    have ht := h t rfl
    have hmode : redirectMode? t.kind = none := by
      cases hkind : t.kind <;> simp_all [stops, redirectMode?]
    simp [hmode]

theorem redirects_target (h : Stops nested rest) {mode : RedirectMode}
    (hop : redirectMode? op.kind = some mode) {target : Word}
    (htarget : target.isExpressible = true) (hpresent : target.isPresent = true) :
    redirects (n + 2) (space :: op :: space :: (tokens target.glyphs ++ space :: rest)) =
      .ok ([(mode, target)], rest) := by
  have hspace : op.kind ≠ .whitespace := by
    intro heq
    rw [heq] at hop
    cases hop
  have hskip : ∀ tokens, skipSpaces (space :: op :: tokens) = op :: tokens := fun tokens =>
    skipSpaces_of_ne hspace
  have hword := word?_glyphs htarget hpresent rest
  have hread : redirectTarget (space :: (tokens target.glyphs ++ space :: rest)) =
      .ok (target, space :: rest) := by
    have hahead : skipSpaces (space :: (tokens target.glyphs ++ space :: rest)) =
        tokens target.glyphs ++ space :: rest := by
      obtain ⟨t, more, ht⟩ := List.exists_cons_of_ne_nil (tokens_word_ne_nil htarget hpresent)
      have hletters := kind_of_mem_word (ht ▸ List.mem_cons_self : t ∈ tokens target.glyphs)
      have hfirst : t.kind ≠ .whitespace := by
        intro heq
        rw [heq] at hletters
        cases hletters
      rw [ht, List.cons_append]
      exact skipSpaces_of_ne hfirst
    simp only [redirectTarget, hahead, hword]
  rw [redirects, hskip]
  simp only [hop, hread, Bind.bind, Except.bind, redirects_stops h]
  rfl

theorem Body.closes (h : Body ts tree) {closing : Token}
    (hclose : closing.kind = .closeBrace ∨ closing.kind = .closeParen)
    {n : Nat} (hn : 2 * ts.length + 4 ≤ n) (left : List Token) :
    list n true (space :: (ts ++ closing :: left)) = .ok (tree, closing :: left) ∧
      expect closing.kind (closing :: left) = .ok left := by
  have hend : atListEnd true (closing :: left) = true := by simpa [atListEnd] using hclose
  have hskip : skipBlanks (space :: (ts ++ closing :: left)) = skipBlanks (ts ++ closing :: left) :=
    rfl
  have hclosing : skipBlanks (closing :: left) = closing :: left := by
    obtain hkind | hkind := hclose <;> exact List.dropWhile_cons_of_neg (by simp [hkind])
  refine ⟨?_, by simp [expect, hclosing]⟩
  rw [← list_skipBlanks (by omega), hskip, list_skipBlanks (by omega), h.reads hn hend]

theorem Body.braces (h : Body ts tree) {opening closing : Token} (hopen : opening.kind = .openBrace)
    (hclose : closing.kind = .closeBrace) {found : List Redirect} {left : List Token}
    (hn : 2 * ts.length + 5 ≤ n) (hfound : redirects (left.length + 1) left = .ok (found, rest)) :
    command n nested (opening :: space :: (ts ++ closing :: left)) =
      .ok (wrapRedirects tree found, rest) := by
  obtain ⟨n, rfl⟩ := Nat.exists_eq_add_of_le' (show 1 ≤ n by omega)
  have hbudget : 2 * ts.length + 4 ≤ n := by omega
  obtain ⟨hread, hexpect⟩ := h.closes (.inl hclose) hbudget left
  rw [hclose] at hexpect
  rw [command, skipSpaces_of_ne (by simp [hopen])]
  simp only [hopen, hread, Bind.bind, Except.bind, hexpect, hfound]
  rfl

theorem Body.braced (h : Body ts tree) {opening closing : Token} (hopen : opening.kind = .openBrace)
    (hclose : closing.kind = .closeBrace) :
    Phrase (opening :: space :: (ts ++ [closing, space])) tree := by
  refine ⟨⟨_, _, rfl, by rw [hopen]; rfl⟩, fun {n nested rest} hn hrest => ?_⟩
  simp only [List.length_cons, List.length_append] at hn
  simpa [wrapRedirects] using h.braces hopen hclose (by omega) (redirects_stops hrest)

theorem Body.redirected (h : Body ts tree) {opening closing : Token}
    (hopen : opening.kind = .openBrace) (hclose : closing.kind = .closeBrace) {mode : RedirectMode}
    (hop : redirectMode? op.kind = some mode) {target : Word}
    (htarget : target.isExpressible = true) (hpresent : target.isPresent = true) :
    Phrase (opening :: space :: (ts ++ closing :: space :: op :: space ::
      (tokens target.glyphs ++ [space]))) (.redirect mode target tree) := by
  refine ⟨⟨_, _, rfl, by rw [hopen]; rfl⟩, fun {n nested rest} hn hrest => ?_⟩
  simp only [List.length_cons, List.length_append] at hn
  simpa [wrapRedirects] using
    h.braces hopen hclose (by omega) (redirects_target hrest hop htarget hpresent)

theorem Body.parentheses (h : Body ts tree) {opening closing : Token}
    (hopen : opening.kind = .openParen) (hclose : closing.kind = .closeParen) :
    Phrase (opening :: space :: (ts ++ [closing, space])) (.scoped tree) := by
  refine ⟨⟨_, _, rfl, by rw [hopen]; rfl⟩, fun {n nested rest} hn hrest => ?_⟩
  simp only [List.length_cons, List.length_append] at hn
  obtain ⟨n, rfl⟩ := Nat.exists_eq_add_of_le' (show 1 ≤ n by omega)
  have hbudget : 2 * ts.length + 4 ≤ n := by omega
  obtain ⟨hread, hexpect⟩ := h.closes (.inr hclose) hbudget (space :: rest)
  rw [hclose] at hexpect
  have hstops : redirects (rest.length + 1 + 1) (space :: rest) = .ok ([], rest) :=
    redirects_stops hrest
  rw [List.cons_append, List.cons_append, List.append_assoc, command,
    skipSpaces_of_ne (by simp [hopen])]
  simp only [hopen, List.cons_append, List.nil_append, hread, Bind.bind, Except.bind, hexpect,
    List.length_cons, hstops]
  rfl

theorem Phrase.function (h : Phrase ts tree) {name : String} (hname : isIdentifier name = true) :
    Phrase (tokensOf (Glyph.header name).marks ++ ts) (.function name tree) := by
  refine ⟨⟨_, _, rfl, rfl⟩, fun {n nested rest} hn hrest => ?_⟩
  simp only [List.length_append] at hn
  have hlength : (tokensOf (Glyph.header name).marks).length = 4 := rfl
  obtain ⟨n, rfl⟩ := Nat.exists_eq_add_of_le' (show 1 ≤ n by omega)
  have hskip : skipBlanks (space :: (ts ++ rest)) = ts ++ rest := (h.ahead nested rest).1
  have hheader : functionHeader? (tokensOf (Glyph.header name).marks ++ (ts ++ rest)) =
      some (name, space :: (ts ++ rest)) := by
    simp [tokensOf, Glyph.marks, functionHeader?, skipSpaces, hname, space]
  have hspace : skipSpaces (tokensOf (Glyph.header name).marks ++ (ts ++ rest)) =
      tokensOf (Glyph.header name).marks ++ (ts ++ rest) := rfl
  have hbody : command n nested (ts ++ rest) = .ok (tree, rest) := h.reads (by omega) hrest
  rw [List.append_assoc, command, hspace]
  simp only [tokensOf, Glyph.marks, List.map_cons, List.cons_append] at hheader ⊢
  simp only [hheader, hskip, hbody, Bind.bind, Except.bind]
  rfl

theorem functionHeader?_letters {t : Token} {more : List Token}
    (h : ∀ token ∈ more, token.kind ≠ .openParen) (hrest : Stops nested rest) :
    functionHeader? (t :: (more ++ rest)) = none := by
  have hnone : behind? .openParen (more ++ rest) = none := by
    induction more with
    | nil =>
      rw [List.nil_append, behind?, hrest.skipSpaces]
      cases rest with
      | nil => rfl
      | cons u rest =>
        have hu := hrest u rfl
        cases hkind : u.kind <;> simp_all [stops]
    | cons u more ih =>
      obtain ⟨hu, hothers⟩ := List.forall_mem_cons.1 h
      by_cases hspace : u.kind = .whitespace
      · have hskip : skipSpaces (u :: (more ++ rest)) = skipSpaces (more ++ rest) :=
          List.dropWhile_cons_of_pos (by simpa using hspace)
        rw [List.cons_append, behind?, hskip]
        exact ih hothers
      · simp [behind?, skipSpaces_of_ne hspace, hu]
  rw [functionHeader?_cons, hnone]
  split <;> rfl

theorem kind_of_mem_command {assignments : List (String × Word)} {words : List Word} {token : Token}
    (h : token ∈ tokens (Instruction.glyphs (.command assignments words))) :
    token.kind ≠ .openParen := by
  obtain ⟨glyph, hglyph, mark, hmark, hkind⟩ := exists_mark h
  have hword : ∀ word : Word, glyph ∈ word.glyphs → mark.1 ≠ .openParen := by
    intro word hmem heq
    have hletters := isLetters_of_mem_glyphs hmem hmark
    rw [heq] at hletters
    cases hletters
  have hspace : glyph = .space → mark.1 ≠ .openParen := by
    rintro rfl
    simp [List.mem_singleton.1 hmark]
  rw [hkind]
  rcases List.mem_append.1 hglyph with hmem | hmem
  · obtain ⟨a, -, hitem⟩ := List.mem_flatMap.1 hmem
    rcases List.mem_cons.1 hitem with rfl | hitem
    · simp only [Glyph.marks, List.mem_cons, List.not_mem_nil, or_false] at hmark
      obtain rfl | rfl := hmark <;> simp
    · rcases List.mem_append.1 hitem with hvalue | hvalue
      · exact hword a.2 hvalue
      · exact hspace (List.mem_singleton.1 hvalue)
  · obtain ⟨word, -, hitem⟩ := List.mem_flatMap.1 hmem
    rcases List.mem_append.1 hitem with hletter | hletter
    · exact hword word hletter
    · exact hspace (List.mem_singleton.1 hletter)

theorem command_begins {assignments : List (String × Word)} {words : List Word}
    (h : Instruction.isExpressible (.command assignments words) = true) :
    ∃ t more, tokens (Instruction.glyphs (.command assignments words)) = t :: more ∧
      t.kind.isLetters = true := by
  simp only [Instruction.isExpressible, Bool.and_eq_true, List.all_eq_true] at h
  obtain ⟨⟨hsome, -⟩, hwords⟩ := h
  rw [Instruction.glyphs, tokens_append]
  cases assignments with
  | cons a assignments => exact ⟨_, _, rfl, rfl⟩
  | nil =>
    cases words with
    | nil => cases hsome
    | cons word words =>
      obtain ⟨hword, hpresent⟩ := hwords word List.mem_cons_self
      obtain ⟨t, more, ht⟩ := List.exists_cons_of_ne_nil (tokens_word_ne_nil hword hpresent)
      have hletters := kind_of_mem_word (ht ▸ List.mem_cons_self : t ∈ tokens word.glyphs)
      rw [List.flatMap_cons, tokens_append, tokens_item, ht]
      exact ⟨t, _, rfl, hletters⟩

theorem phrase_command {assignments : List (String × Word)} {words : List Word}
    (h : Instruction.isExpressible (.command assignments words) = true) :
    Phrase (tokens (Instruction.glyphs (.command assignments words)))
      (.command assignments words) := by
  obtain ⟨t, more, ht, hletters⟩ := command_begins h
  have hall : ∀ token ∈ tokens (Instruction.glyphs (.command assignments words)),
      token.kind ≠ .openParen := fun token => kind_of_mem_command
  rw [ht] at hall
  have hmore := (List.forall_mem_cons.1 hall).2
  refine ⟨⟨t, more, ht, by simp [starts, hletters]⟩, fun {n nested rest} hn hrest => ?_⟩
  have hread := simpleCommand_glyphs h hrest
  rw [ht] at hn hread ⊢
  rw [List.length_cons] at hn
  obtain ⟨n, rfl⟩ := Nat.exists_eq_add_of_le' (show 1 ≤ n by omega)
  have hheader := functionHeader?_letters (t := t) hmore hrest
  have hspace : t.kind ≠ .whitespace := by
    obtain hkind | hkind | hkind := isLetters_cases hletters <;> simp [hkind]
  rw [List.cons_append] at hread ⊢
  rw [command, skipSpaces_of_ne hspace]
  obtain hkind | hkind | hkind := isLetters_cases hletters <;>
    simp only [hkind, hheader, hread]

end

theorem tokens_enclosed (opening closing : TokenKind × List Char) (inside : List Glyph) :
    tokens (Glyph.enclosed opening closing inside) =
      ⟨opening.1, String.ofList opening.2, 0⟩ :: space ::
        (tokens inside ++ [⟨closing.1, String.ofList closing.2, 0⟩, space]) := by
  rw [Glyph.enclosed, tokens_cons, tokens_append]
  rfl

theorem tokens_infixed (sign : TokenKind × List Char) (left right : List Glyph) :
    tokens (left ++ .symbol sign :: right) =
      tokens left ++ ⟨sign.1, String.ofList sign.2, 0⟩ :: space :: tokens right := by
  rw [tokens_append, tokens_cons]
  rfl

theorem phrase_glyphs {tree : Instruction} (h : tree.isExpressible = true) :
    Phrase (tokens tree.glyphs) tree := by
  induction tree with
  | empty =>
    rw [Instruction.glyphs, Glyph.braces, tokens_enclosed]
    exact body_nil.braced rfl rfl
  | command assignments words => exact phrase_command h
  | pipe left right hleft hright =>
    rw [Instruction.isExpressible, Bool.and_eq_true] at h
    rw [Instruction.glyphs, Glyph.infixed, Glyph.braces, tokens_enclosed, tokens_infixed]
    exact Body.braced (Phrase.piped (hleft h.1) (hright h.2) rfl) rfl rfl
  | sequential first next hfirst hnext
  | parallel first next hfirst hnext =>
    rw [Instruction.isExpressible, Bool.and_eq_true] at h
    rw [Instruction.glyphs, Glyph.infixed, Glyph.braces, tokens_enclosed, tokens_infixed]
    exact Body.braced (Phrase.joined (hfirst h.1) (hnext h.2) rfl (by decide)) rfl rfl
  | conditional logic left right hleft hright =>
    rw [Instruction.isExpressible, Bool.and_eq_true] at h
    rw [Instruction.glyphs, Glyph.infixed, Glyph.braces, tokens_enclosed, tokens_infixed]
    exact Body.braced (Phrase.decided (hleft h.1) (hright h.2) (by cases logic <;> rfl)) rfl rfl
  | redirect mode target inner hinner =>
    simp only [Instruction.isExpressible, Bool.and_eq_true] at h
    rw [Instruction.glyphs, tokens_infixed, Glyph.braces, tokens_enclosed, tokens_item]
    have hop : redirectMode? mode.sign.1 = some mode := by cases mode <;> rfl
    simpa using Body.redirected (hinner h.2).body rfl rfl hop h.1.1 h.1.2
  | function name body hbody =>
    rw [Instruction.isExpressible, Bool.and_eq_true] at h
    rw [Instruction.glyphs, tokens_cons]
    exact (hbody h.2).function h.1
  | «scoped» inner hinner =>
    rw [Instruction.glyphs, Glyph.parentheses, tokens_enclosed]
    exact (hinner h).body.parentheses rfl rfl

end Parser

/-- Every tree that can be written is the tree of its text. -/
theorem parse_render {tree : Instruction} (h : tree.isExpressible = true) :
    ∃ tokens, tokenize {} tree.render = some tokens ∧ parse tokens false = .ok tree := by
  obtain ⟨tokens, htokens, houtline⟩ := tokenize_glyphs (tree.fits_glyphs h)
  refine ⟨tokens, htokens, ?_⟩
  rw [parse_congr (congrArg Mark.dropGap houtline)]
  have hbudget : 2 * (Glyph.tokens tree.glyphs).length + 4 ≤
      Parser.budget (Glyph.tokens tree.glyphs) := by
    unfold Parser.budget
    omega
  have hread : Parser.list _ false (Glyph.tokens tree.glyphs ++ []) = _ :=
    (Parser.phrase_glyphs h).body.reads hbudget rfl
  rw [List.append_nil] at hread
  change parse (Glyph.tokens tree.glyphs) false = _
  rw [parse, hread]
  rfl

/-- How a command is written. -/
example : (Instruction.command [("X", ⟨[.variable "1"], false⟩)]
      [⟨[], true⟩, .ofText "a b"]).render =
    "X=${1} \"\" \\a\\ \\b " := by decide

namespace Sample

/-- A tree with every constructor, and with words that need their quotes. -/
def thicket : Instruction :=
  .parallel
    (.function "f" (.scoped (.redirect .append ⟨[.literal "a b", .variable "1"], false⟩
      (.command [("X", ⟨[], false⟩)] [⟨[], true⟩, ⟨[.literal "\n;'"], true⟩]))))
    (.conditional .or (.pipe .empty (.command [] [.ofText "f"]))
      (.sequential (.command [("Y", ⟨[.variable "?", .variable "Y"], false⟩)] []) .empty))

theorem thicket_written : thicket.isExpressible = true ∧
    ∃ tokens, tokenize {} thicket.render = some tokens ∧ parse tokens false = .ok thicket :=
  ⟨by decide, parse_render (by decide)⟩

end Sample

end ToyUnix
