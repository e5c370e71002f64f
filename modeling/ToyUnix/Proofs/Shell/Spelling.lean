import ToyUnix.Proofs.Shell.Stripping

/-!
How tokens are written. `Token.Spells` says which characters a token may stand for. They decide what
its text is, and they open no quote that they do not close; an operator that the lexer finds is written
so.
-/

set_option autoImplicit false

namespace ToyUnix

namespace Token

open Segment (advance)

/-- What may stand between double quotes: no quote without a backslash, and each backslash has its
character. -/
def isQuotable : List Char → Bool
  | [] => true
  | c :: cs =>
    if c = '\\' then
      match cs with
      | [] => false
      | _ :: cs => isQuotable cs
    else c ≠ '"' && isQuotable cs

def symbols (options : ParseOptions) : List (TokenKind × List Char) :=
  [(.newline, ['\n']), (.logicalOr, ['|', '|']), (.logicalAnd, ['&', '&']), (.parallel, ['&']),
    (.sequential, [';']), (.openParen, ['(']), (.closeParen, [')']), (.openBrace, ['{']),
    (.closeBrace, ['}']), (.openBracket, ['[']), (.closeBracket, [']']), (.assignment, ['='])] ++
  (if options.pipes then [(.pipe, ['|'])] else []) ++
  if options.redirection then
    [(.append, ['>', '>']), (.overwrite, ['>']), (.fileInput, ['<'])]
  else []

/-- No quote, no white space, and no punctuation where it is recognized. -/
def isWordChar (options : ParseOptions) (c : Char) : Bool :=
  isPlain c && !isSpace c && !"\n&;()\x7b\x7d[]=".toList.contains c &&
    !(options.pipes && c = '|') && !(options.redirection && (c = '>' || c = '<'))

/-- How a token is written: as it is, behind a backslash, in quotes, or as a name behind `$`. -/
inductive Spells (options : ParseOptions) : TokenKind → String → List Char → Prop
  | word {span : List Char} (hsome : span ≠ []) (h : ∀ c ∈ span, isWordChar options c = true) :
      Spells options .text (String.ofList span) span
  | blanks {span : List Char} (hsome : span ≠ []) (h : ∀ c ∈ span, isSpace c = true) :
      Spells options .whitespace (String.ofList span) span
  | symbol {kind : TokenKind} {span : List Char} (h : (kind, span) ∈ symbols options) :
      Spells options kind (String.ofList span) span
  | name {name : List Char} (h : isIdentifier (String.ofList name) = true) :
      Spells options .variableAccess (String.ofList name) ('$' :: name)
  | special {c : Char} (h : isSpecialName c = true) :
      Spells options .variableAccess (String.ofList [c]) ['$', c]
  | braced {name : List Char} (hsome : name ≠ []) (hclose : '}' ∉ name)
      (h : ∀ c ∈ name, isPlain c = true) :
      Spells options .variableAccess (String.ofList name) ('$' :: '{' :: (name ++ ['}']))
  | escaped {c : Char} (h : c ≠ '\n') : Spells options .text (String.ofList [c]) ['\\', c]
  | single {body : List Char} (h : '\'' ∉ body) :
      Spells options .text (String.ofList body) ('\'' :: (body ++ ['\'']))
  | double {body : List Char} (h : isQuotable body = true) :
      Spells options (stringKind options) (String.ofList body) ('"' :: (body ++ ['"']))

/-- The text of a token, by its first characters. -/
def content (kind : TokenKind) : List Char → List Char
  | [] => []
  | c :: cs =>
    if c = '\\' then cs
    else if c = '\'' ∨ c = '"' then cs.dropLast
    else if kind = .variableAccess then if cs.head? = some '\x7b' then cs.tail.dropLast else cs
    else c :: cs

variable {options : ParseOptions}

/-! Quotes. -/

theorem isQuotable_cons {c : Char} (h : c ≠ '\\') (cs : List Char) :
    isQuotable (c :: cs) = (c ≠ '"' && isQuotable cs) := by
  rw [isQuotable.eq_def]
  simp [h]

theorem isQuotable_append {body : List Char} (h : isQuotable body = true) (more : List Char) :
    isQuotable (body ++ more) = isQuotable more := by
  fun_induction isQuotable body with
  | case1 => rfl
  | case2 => cases h
  | case3 d cs ih => simpa [isQuotable] using ih h
  | case4 c cs hslash ih =>
    rw [Bool.and_eq_true] at h
    rw [List.cons_append, isQuotable_cons hslash, ih h.2, h.1, Bool.true_and]

def Inside (q : Char) (body : List Char) : Prop :=
  body.foldl advance (some q, false) = (some q, false) ∧
    ∀ inner, inner <+: body → (inner.foldl advance (some q, false)).1 = some q

theorem inside_single {body : List Char} (h : '\'' ∉ body) : Inside '\'' body := by
  have hstay : ∀ inner : List Char, '\'' ∉ inner →
      inner.foldl advance (some '\'', false) = (some '\'', false) := by
    intro inner hinner
    induction inner with
    | nil => rfl
    | cons c inner ih =>
      rw [List.mem_cons, not_or] at hinner
      have hc : advance (some '\'', false) c = (some '\'', false) := by
        simp [advance, Ne.symm hinner.1]
      rw [List.foldl_cons, hc, ih hinner.2]
  exact ⟨hstay body h, fun inner hinner => by
    rw [hstay inner fun hmem => h (hinner.subset hmem)]⟩

theorem inside_double {body : List Char} (h : isQuotable body = true) : Inside '"' body := by
  fun_induction isQuotable body with
  | case1 => exact ⟨rfl, fun inner hinner => by rw [List.prefix_nil.1 hinner]; rfl⟩
  | case2 => cases h
  | case3 d cs ih =>
    have hslash : advance (some '"', false) '\\' = (some '"', true) := rfl
    have hescaped : advance (some '"', true) d = (some '"', false) := rfl
    obtain ⟨hall, hinside⟩ := ih h
    refine ⟨by simpa [hslash, hescaped] using hall, fun inner hinner => ?_⟩
    rcases List.prefix_cons_iff.1 hinner with rfl | ⟨after, rfl, hafter⟩
    · rfl
    · rcases List.prefix_cons_iff.1 hafter with rfl | ⟨behind, rfl, hbehind⟩
      · rfl
      · simpa [hslash, hescaped] using hinside behind hbehind
  | case4 c cs hslash ih =>
    rw [Bool.and_eq_true, decide_eq_true_eq] at h
    have hstay : advance (some '"', false) c = (some '"', false) := by simp [advance, h.1, hslash]
    obtain ⟨hall, hinside⟩ := ih h.2
    refine ⟨by simpa [hstay] using hall, fun inner hinner => ?_⟩
    rcases List.prefix_cons_iff.1 hinner with rfl | ⟨after, rfl, hafter⟩
    · rfl
    · simpa [hstay] using hinside after hafter

/-! The characters of a token. -/

theorem isPlain_of_isWordChar {c : Char} (h : isWordChar options c = true) : isPlain c = true := by
  simp only [isWordChar, Bool.and_eq_true] at h
  exact h.1.1.1.1

theorem isPlain_of_isSpecialName {c : Char} (h : isSpecialName c = true) : isPlain c = true := by
  cases hplain : isPlain c with
  | true => rfl
  | false =>
    simp only [isPlain, Bool.and_eq_false_iff, decide_eq_false_iff_not, not_not] at hplain
    obtain (rfl | rfl) | rfl := hplain <;> cases h

theorem isPlain_of_mem_symbols {symbol : TokenKind × List Char} (h : symbol ∈ symbols options) :
    symbol.1 ≠ .variableAccess ∧ symbol.2 ≠ [] ∧ ∀ c ∈ symbol.2, isPlain c = true := by
  have hall : (symbols ⟨true, true, true⟩).all (fun symbol =>
      symbol.1 ≠ .variableAccess && (symbol.2 ≠ [] && symbol.2.all isPlain)) = true := by decide
  have hmem : symbol ∈ symbols ⟨true, true, true⟩ := by
    simp only [symbols, List.mem_append, List.mem_ite_nil_right, if_true] at h ⊢
    exact h.imp (Or.imp_right And.right) And.right
  simpa using List.all_eq_true.1 hall symbol hmem

theorem isNameChar_of_isIdentifier {name : String} (h : isIdentifier name = true) {c : Char}
    (hc : c ∈ name.toList) : isNameChar c = true := by
  unfold isIdentifier at h
  cases hname : name.toList with
  | nil =>
    rw [hname] at hc
    cases hc
  | cons d cs =>
    rw [hname] at h hc
    simp only [Bool.and_eq_true, List.all_eq_true] at h
    rcases List.mem_cons.1 hc with rfl | hc
    · exact Thinned.isNameChar_of_isNameStart h.1
    · exact h.2 c hc

theorem Spells.shape {kind : TokenKind} {text : String} {span : List Char}
    (h : Spells options kind text span) :
    (span ≠ [] ∧ ∀ c ∈ span, isPlain c = true) ∨
    (kind = .text ∧ ∃ c, c ≠ '\n' ∧ span = ['\\', c]) ∨
    ((kind = .text ∨ kind = .expansionString) ∧
      ∃ q body, (q = '\'' ∨ q = '"') ∧ Inside q body ∧ span = q :: (body ++ [q])) := by
  cases h with
  | word hsome h =>
    exact .inl ⟨hsome, fun c hc => isPlain_of_isWordChar (h c hc)⟩
  | blanks hsome h => exact .inl ⟨hsome, fun c hc => isPlain_of_isSpace (h c hc)⟩
  | symbol h => exact .inl (isPlain_of_mem_symbols h).2
  | name h =>
    refine .inl ⟨List.cons_ne_nil _ _, fun c hc => ?_⟩
    rcases List.mem_cons.1 hc with rfl | hc
    · rfl
    · exact (Thinned.not_gap_of_name (isNameChar_of_isIdentifier h (by simpa using hc))).1
  | special h =>
    have hdollar : isPlain '$' = true := rfl
    exact .inl ⟨List.cons_ne_nil _ _, by simp [hdollar, isPlain_of_isSpecialName h]⟩
  | braced hsome hclose h =>
    refine .inl ⟨List.cons_ne_nil _ _, ?_⟩
    have hdollar : isPlain '$' = true := rfl
    have hopen : isPlain '\x7b' = true := rfl
    have hclosed : isPlain '\x7d' = true := rfl
    simpa [hdollar, hopen, hclosed, or_imp, forall_and] using h
  | escaped h => exact .inr (.inl ⟨rfl, _, h, rfl⟩)
  | single h => exact .inr (.inr ⟨.inl rfl, '\'', _, .inl rfl, inside_single h, rfl⟩)
  | double h =>
    refine .inr (.inr ⟨?_, '"', _, .inr rfl, inside_double h, rfl⟩)
    unfold stringKind
    split
    · exact .inr rfl
    · exact .inl rfl

theorem content_plain {kind : TokenKind} (hkind : kind ≠ .variableAccess) {span : List Char}
    (h : ∀ c ∈ span, isPlain c = true) : content kind span = span := by
  cases span with
  | nil => rfl
  | cons c cs =>
    obtain ⟨hslash, hsingle, hdouble⟩ := ne_of_isPlain (h c List.mem_cons_self)
    simp [content, hslash, hsingle, hdouble, hkind]

theorem Spells.text_eq {kind : TokenKind} {text : String} {span : List Char}
    (h : Spells options kind text span) : text = String.ofList (content kind span) := by
  have hname : ∀ {c : Char} {cs : List Char}, c ≠ '\x7b' →
      content .variableAccess ('$' :: c :: cs) = c :: cs := by
    intro c cs hc
    simp [content, hc]
  cases h with
  | word hsome h =>
    rw [content_plain (by decide) fun c hc => isPlain_of_isWordChar (h c hc)]
  | blanks hsome h =>
    rw [content_plain (by decide) fun c hc => isPlain_of_isSpace (h c hc)]
  | symbol h =>
    obtain ⟨hkind, -, hplain⟩ := isPlain_of_mem_symbols h
    rw [content_plain hkind hplain]
  | @name name h =>
    cases name with
    | nil => rfl
    | cons c cs =>
      rw [hname]
      rintro rfl
      rw [isIdentifier, String.toList_ofList] at h
      cases h
  | special h =>
    rw [hname]
    rintro rfl
    cases h
  | braced hsome hclose h => simp [content]
  | escaped h => rfl
  | single h => simp [content]
  | double h => simp [content]

theorem Spells.closes {kind : TokenKind} {text : String} {span : List Char}
    (h : Spells options kind text span) :
    span ≠ [] ∧ span.foldl advance (none, false) = (none, false) := by
  obtain ⟨hsome, hplain⟩ | ⟨-, c, -, rfl⟩ | ⟨-, q, body, hq, hinside, rfl⟩ := h.shape
  · exact ⟨hsome, foldl_plain hplain⟩
  · exact ⟨List.cons_ne_nil _ _, rfl⟩
  · have hopen : advance (none, false) q = (some q, false) := by simp [advance, hq]
    have hclose : advance (some q, false) q = (none, false) := by simp [advance]
    refine ⟨List.cons_ne_nil _ _, ?_⟩
    rw [List.foldl_cons, hopen, List.foldl_append, hinside.1, List.foldl_cons, hclose,
      List.foldl_nil]

theorem Spells.unjoined {kind : TokenKind} {text : String} {span : List Char}
    (h : Spells options kind text span) {j : Nat} (hj : j < span.length)
    (hquote : (span.take j).foldl advance (none, false) = (none, false))
    (hslash : span[j]? = some '\\') : ∃ c, c ≠ '\n' ∧ span[j + 1]? = some c := by
  obtain ⟨hsome, hplain⟩ | ⟨-, c, hc, rfl⟩ | ⟨-, q, body, hq, hinside, rfl⟩ := h.shape
  · cases hplain '\\' (List.mem_of_getElem? hslash)
  · cases j with
    | zero => exact ⟨c, hc, rfl⟩
    | succ j =>
      obtain rfl : j = 0 := by
        simp only [List.length_cons, List.length_nil] at hj
        omega
      cases hquote
  · have hopen : advance (none, false) q = (some q, false) := by simp [advance, hq]
    cases j with
    | zero =>
      obtain rfl : q = '\\' := by simpa using hslash
      rcases hq with hq | hq <;> cases hq
    | succ j =>
      have hle : j ≤ body.length := by
        simp only [List.length_cons, List.length_append, List.length_nil] at hj
        omega
      rw [List.take_succ_cons, List.take_append_of_le_length hle, List.foldl_cons, hopen] at hquote
      have hstill := hinside.2 (body.take j) (List.take_prefix j body)
      rw [hquote] at hstill
      cases hstill

/-! Operators. -/

theorem isWordChar_of_no_operator {c : Char} (hc : isPlain c = true) {cs : List Char}
    (h : operator? options (c :: cs) = none) : isWordChar options c = true := by
  simp only [operator?] at h
  split at h <;> (try split at h) <;> (try split at h) <;> first
    | cases h; done
    | simp_all [isWordChar, isSpace]

theorem Spells.symbol_one {kind : TokenKind} {c : Char} (h : (kind, [c]) ∈ symbols options)
    (cs : List Char) :
    0 < 1 ∧ Spells options kind (String.ofList [c]) ((c :: cs).take 1) :=
  ⟨Nat.one_pos, .symbol h⟩

theorem Spells.symbol_two {kind : TokenKind} {c : Char} (h : (kind, [c, c]) ∈ symbols options)
    {cs : List Char} (hhead : cs.head? = some c) :
    0 < 2 ∧ Spells options kind (String.ofList [c, c]) ((c :: cs).take 2) := by
  obtain ⟨rest, rfl⟩ := List.head?_eq_some_iff.1 hhead
  exact ⟨Nat.two_pos, .symbol h⟩

theorem variableAfter_spells {cs : List Char} (hplain : ∀ c ∈ cs, isPlain c = true) {length : Nat}
    {name : String} (h : variableAfter cs = some (length, name)) :
    Spells options .variableAccess name ('$' :: cs.take length) := by
  obtain ⟨span, rest, rfl, rfl, hnames⟩ := variableAfter_iff.1 h
  rw [List.take_left' rfl]
  cases hnames with
  | plain hname _ => exact .name hname
  | special hspecial => exact .special hspecial
  | braced hsome hclose => exact .braced hsome hclose fun c hc => hplain c (by simp [hc])

theorem operator?_spells {cs : List Char} (hplain : ∀ c ∈ cs, isPlain c = true) {kind : TokenKind}
    {length : Nat} {text : String} (h : operator? options cs = some (kind, length, text)) :
    0 < length ∧ Spells options kind text (cs.take length) := by
  cases cs with
  | nil => cases h
  | cons c cs =>
    simp only [operator?] at h
    split at h <;> (try split at h) <;> (try split at h) <;>
      simp only [Option.some.injEq, Prod.mk.injEq, Option.map_eq_some_iff, reduceCtorEq] at h
    case h_14 =>
      obtain ⟨⟨n, name⟩, hvariable, rfl, rfl, rfl⟩ := h
      exact ⟨Nat.succ_pos n,
        variableAfter_spells (List.forall_mem_cons.1 hplain).2 hvariable⟩
    case h_15.isTrue =>
      rename_i hspace
      obtain ⟨rfl, rfl, rfl⟩ := h
      rw [← List.prefix_iff_eq_take.1 (List.takeWhile_prefix isSpace),
        List.takeWhile_cons_of_pos hspace]
      exact ⟨Nat.succ_pos _, .blanks (List.cons_ne_nil _ _) fun d hd => by
        rw [← List.takeWhile_cons_of_pos hspace] at hd
        exact List.mem_takeWhile_imp hd⟩
    all_goals
      obtain ⟨rfl, rfl, rfl⟩ := h
      first
        | exact Spells.symbol_one (by simp_all [symbols]) cs
        | exact Spells.symbol_two (by simp_all [symbols]) ‹_›

theorem operator?_symbol {symbol : TokenKind × List Char}
    (h : symbol ∈ symbols options) (rest : List Char) :
    operator? options (symbol.2 ++ ' ' :: rest) =
      some (symbol.1, symbol.2.length, String.ofList symbol.2) := by
  obtain ⟨expansion, redirection, pipes⟩ := options
  revert symbol
  cases redirection <;> cases pipes <;> simp [symbols, operator?]

end Token

end ToyUnix
