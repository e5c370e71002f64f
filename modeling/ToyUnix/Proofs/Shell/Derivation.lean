import ToyUnix.Proofs.Shell.Grammar

/-!
Derivations of what is parsed. Every reader takes tokens from which its tree can be derived, and leaves
the others as they are. So whatever `parse` accepts has a derivation from all its tokens: see
`parse_derives`.
-/

set_option autoImplicit false

namespace ToyUnix

namespace Parser

open Grammar

/-- Whatever the reader gives, it has taken tokens for it of which `Q` holds. -/
structure Takes {α : Type} (tokens : List Token) (Q : List Token → α → Prop)
    (result : Except Fault (α × List Token)) : Prop where
  taken : ∀ a rest, result = .ok (a, rest) → ∃ used, tokens = used ++ rest ∧ Q used a

namespace Takes

variable {α β : Type} {tokens : List Token} {Q : List Token → α → Prop}
  {R : List Token → β → Prop}

theorem error (fault : Fault) : Takes tokens Q (.error fault) := ⟨fun _ _ h => nomatch h⟩

theorem ok {used rest : List Token} {a : α} (heq : tokens = used ++ rest) (h : Q used a) :
    Takes tokens Q (.ok (a, rest)) where
  taken _ _ hresult := by
    cases hresult
    exact ⟨used, heq, h⟩

theorem nothing {a : α} (h : Q [] a) : Takes tokens Q (.ok (a, tokens)) := ok rfl h

theorem bind {x : Except Fault (α × List Token)}
    {f : α × List Token → Except Fault (β × List Token)} (hx : Takes tokens Q x)
    (hf : ∀ a used rest, Q used a → Takes rest (fun more b => R (used ++ more) b) (f (a, rest))) :
    Takes tokens R (x >>= f) := by
  constructor
  intro b last hresult
  obtain ⟨⟨a, rest⟩, ha, hb⟩ := ok_of_bind hresult
  obtain ⟨used, rfl, hused⟩ := hx.taken a rest ha
  obtain ⟨more, rfl, hmore⟩ := (hf a used rest hused).taken b last hb
  exact ⟨used ++ more, by simp, hmore⟩

theorem behind (before : List Token) {rest : List Token} {x : Except Fault (α × List Token)}
    (heq : tokens = before ++ rest) (h : Takes rest (fun used a => Q (before ++ used) a) x) :
    Takes tokens Q x := by
  constructor
  intro a last hresult
  obtain ⟨used, rfl, hused⟩ := h.taken a last hresult
  exact ⟨before ++ used, by rw [heq]; simp, hused⟩

theorem mono {Q' : List Token → α → Prop} {x : Except Fault (α × List Token)}
    (h : Takes tokens Q x) (hle : ∀ used a, Q used a → Q' used a) : Takes tokens Q' x := by
  constructor
  intro a rest hresult
  obtain ⟨used, heq, hused⟩ := h.taken a rest hresult
  exact ⟨used, heq, hle used a hused⟩

theorem operand {spaces rest : List Token} {token : Token} (heq : tokens = spaces ++ token :: rest)
    {x : Except Fault (α × List Token)} (hx : Takes (skipBlanks rest) Q x)
    {f : α × List Token → Except Fault (β × List Token)}
    (hf : ∀ gaps a used last, Gaps gaps → Q used a →
      Takes last (fun more b => R (spaces ++ token :: (gaps ++ used) ++ more) b) (f (a, last))) :
    Takes tokens R (x >>= f) := by
  obtain ⟨gaps, hrest, hgaps⟩ := skipBlanks_eq rest
  have hbefore : tokens = (spaces ++ token :: gaps) ++ skipBlanks rest := by
    simpa [← hrest] using heq
  refine .behind _ hbefore (hx.bind fun a used last hused => ?_)
  simpa using hf gaps a used last hgaps hused

end Takes

theorem takes_redirects (n : Nat) (tokens : List Token) :
    Takes tokens (fun used found => ∃ first spaces, used = first ++ spaces ∧
      Redirections first found ∧ Spaces spaces) (redirects n tokens) := by
  constructor
  intro found rest h
  obtain ⟨used, spaces, rfl, hused, hspaces⟩ := redirects_eq h
  exact ⟨used ++ spaces, by simp, used, spaces, rfl, hused, hspaces⟩

theorem takes_simpleCommand {nested : Bool} {tokens : List Token}
    (hspace : ∀ token ∈ tokens.head?, token.kind ≠ .whitespace)
    (hbrace : ∀ token ∈ tokens.head?, token.kind ≠ .openBrace) :
    Takes tokens (Derives .command) (simpleCommand nested tokens) := by
  unfold simpleCommand
  cases hitems : simpleItems nested (tokens.length + 1) {} tokens with
  | error fault => exact .error fault
  | ok found =>
    obtain ⟨simple, rest⟩ := found
    change Takes tokens _ (if simple.isEmpty then _ else _)
    split
    · exact .error _
    · rename_i hsome
      obtain ⟨spaces, used, more, heq, hspaces, hused, hfound⟩ := simpleItems_itemized hitems
      obtain rfl : simple = more := by simpa [Simple.join] using hfound
      cases spaces with
      | cons space spaces =>
        have hhead : space ∈ tokens.head? := by simp [heq]
        exact absurd (hspaces space List.mem_cons_self) (hspace space hhead)
      | nil =>
        refine .ok heq (.simple (fun token htoken => hbrace token ?_) hused ?_ (wraps _ _))
        · cases used with
          | nil => cases htoken
          | cons first used => simpa [heq] using htoken
        · rintro rfl
          exact hsome rfl

def Sequenced (tokens : List Token) (tree : Instruction) : Prop :=
  ∃ gaps used tail, tokens = gaps ++ (used ++ tail) ∧ Gaps gaps ∧ Derives .sequence used tree ∧
    Ends tail

/-- All readers with that many calls. -/
structure Sound (n : Nat) : Prop where
  list : ∀ nested tokens, atListEnd nested (skipBlanks tokens) = false →
    Takes tokens Sequenced (list n nested tokens)
  andOr : ∀ nested tokens, Takes tokens (Derives .andOr) (andOr n nested tokens)
  andOrRest : ∀ nested left before tokens, Derives .andOr before left →
    Takes tokens (fun used tree => Derives .andOr (before ++ used) tree)
      (andOrRest n nested left tokens)
  pipeline : ∀ nested tokens, Takes tokens (Derives .pipeline) (pipeline n nested tokens)
  pipelineRest : ∀ nested left before tokens, Derives .pipeline before left →
    Takes tokens (fun used tree => Derives .pipeline (before ++ used) tree)
      (pipelineRest n nested left tokens)
  command : ∀ nested tokens, Takes tokens (Derives .command) (command n nested tokens)

section

variable {n : Nat}

theorem takes_listBehind (ih : Sound n) (nested : Bool) {first : Instruction} {left : List Token}
    {token : Token} {join : Instruction → Instruction → Instruction} (tokens : List Token)
    (hfirst : Derives .andOr left first) (htoken : Joins token.kind join) :
    Takes tokens (fun used tree => Sequenced (left ++ token :: used) tree)
      (listBehind n nested first join tokens) := by
  obtain ⟨gaps, heq, hgaps⟩ := skipBlanks_eq tokens
  unfold listBehind
  split
  · exact .ok heq ⟨[], left, token :: gaps, rfl, by simp [Gaps], .last hfirst,
      .separator htoken hgaps⟩
  · rename_i hend
    refine .behind gaps heq ((ih.list nested (skipBlanks tokens) ?_).bind
      fun next used rest hnext => .nothing ?_)
    · rw [skipBlanks_skipBlanks]
      simpa using hend
    · obtain ⟨between, used, tail, rfl, hbetween, hused, htail⟩ := hnext
      exact ⟨[], left ++ token :: ((gaps ++ between) ++ used), tail, by simp, by simp [Gaps],
        .join hfirst htoken (hgaps.append hbetween) hused, htail⟩

theorem takes_listRest (ih : Sound n) (nested : Bool) {first : Instruction} {left : List Token}
    (tokens : List Token) (hfirst : Derives .andOr left first) :
    Takes tokens (fun used tree => Sequenced (left ++ used) tree)
      (listRest n nested first tokens) := by
  obtain ⟨spaces, heq, hspaces⟩ := skipSpaces_eq tokens
  have hstop : Sequenced (left ++ spaces) first :=
    ⟨[], left, spaces, rfl, by simp [Gaps], .last hfirst, .gaps hspaces.gaps⟩
  unfold listRest
  split
  · rename_i hskip
    exact .ok (hskip ▸ heq) hstop
  · rename_i token rest hskip
    rw [hskip] at heq
    split
    · exact .ok heq hstop
    · rename_i join hjoin
      refine .behind (spaces ++ [token]) (by simpa using heq) ?_
      simpa using takes_listBehind ih nested rest (hfirst.after hspaces) (separator?_joins hjoin)

theorem takes_list (ih : Sound n) (nested : Bool) (tokens : List Token)
    (hend : atListEnd nested (skipBlanks tokens) = false) :
    Takes tokens Sequenced (list (n + 1) nested tokens) := by
  obtain ⟨gaps, heq, hgaps⟩ := skipBlanks_eq tokens
  rw [list_succ, hend]
  refine .behind gaps heq ((ih.andOr nested _).bind fun first used rest hfirst => ?_)
  refine (takes_listRest ih nested rest hfirst).mono fun more tree hmore => ?_
  obtain ⟨between, used', tail, hsplit, hbetween, hused, htail⟩ := hmore
  exact ⟨gaps ++ between, used', tail, by simp [hsplit], hgaps.append hbetween, hused, htail⟩

theorem takes_andOrRest (ih : Sound n) (nested : Bool) {left : Instruction} {before : List Token}
    (tokens : List Token) (hleft : Derives .andOr before left) :
    Takes tokens (fun used tree => Derives .andOr (before ++ used) tree)
      (andOrRest (n + 1) nested left tokens) := by
  obtain ⟨spaces, heq, hspaces⟩ := skipSpaces_eq tokens
  rw [andOrRest]
  split
  · rename_i hskip
    exact .ok (hskip ▸ heq) (hleft.after hspaces)
  · rename_i token rest hskip
    rw [hskip] at heq
    split
    · exact .ok heq (hleft.after hspaces)
    · rename_i logic hlogic
      refine .operand heq (ih.pipeline nested _) fun gaps right used last hgaps hright => ?_
      have hboth := (hleft.after hspaces).conditional (logic?_decides hlogic) hgaps hright
      simpa using ih.andOrRest nested _ _ last hboth

theorem takes_pipelineRest (ih : Sound n) (nested : Bool) {left : Instruction} {before : List Token}
    (tokens : List Token) (hleft : Derives .pipeline before left) :
    Takes tokens (fun used tree => Derives .pipeline (before ++ used) tree)
      (pipelineRest (n + 1) nested left tokens) := by
  obtain ⟨spaces, heq, hspaces⟩ := skipSpaces_eq tokens
  rw [pipelineRest]
  split
  · rename_i hskip
    exact .ok (hskip ▸ heq) (hleft.after hspaces)
  · rename_i token rest hskip
    rw [hskip] at heq
    split
    · rename_i hpipe
      refine .operand heq (ih.command nested _) fun gaps right used last hgaps hright => ?_
      have hboth := (hleft.after hspaces).pipe hpipe hgaps hright
      simpa using ih.pipelineRest nested _ _ last hboth
    · exact .ok heq (hleft.after hspaces)

theorem takes_listGaps (ih : Sound n) (nested : Bool) (tokens : List Token) :
    Takes tokens (fun used tree => ∀ gaps, Gaps gaps → Derives .list (used ++ gaps) tree)
      (list n nested tokens) := by
  cases hend : atListEnd nested (skipBlanks tokens) with
  | true =>
    obtain ⟨before, heq, hbefore⟩ := skipBlanks_eq tokens
    cases n with
    | zero => exact .error _
    | succ n =>
      rw [list_succ, hend]
      exact .ok heq fun gaps hgaps => .nothing (hbefore.append hgaps)
  | false =>
    refine (ih.list nested tokens hend).mono fun used tree hused gaps hgaps => ?_
    obtain ⟨before, middle, tail, rfl, hbefore, hmiddle, htail⟩ := hused
    have hlist := hmiddle.something hbefore (htail.append hgaps)
    simpa using hlist

theorem Takes.expect {α : Type} {tokens : List Token} {Q : List Token → α → Prop} {kind : TokenKind}
    {f : List Token → Except Fault (α × List Token)}
    (h : ∀ gaps closing rest, Gaps gaps → closing.kind = kind →
      Takes rest (fun used a => Q (gaps ++ closing :: used) a) (f rest)) :
    Takes tokens Q (expect kind tokens >>= f) := by
  obtain ⟨gaps, heq, hgaps⟩ := skipBlanks_eq tokens
  unfold Parser.expect
  split
  · exact .error _
  · rename_i closing rest hskip
    rw [hskip] at heq
    split
    · rename_i hkind
      refine .behind (gaps ++ [closing]) (by simpa using heq) ?_
      simp only [List.append_assoc, List.singleton_append]
      exact h gaps closing rest hgaps hkind
    · exact .error _

theorem takes_group (ih : Sound n) (close : TokenKind) (wrap : Instruction → Instruction)
    (tokens : List Token) :
    Takes tokens
      (fun used tree => ∃ inner closing tail spaces body redirects,
        used = (inner ++ closing :: tail) ++ spaces ∧ Derives .list inner body ∧
        closing.kind = close ∧ Redirections tail redirects ∧ Wraps (wrap body) redirects tree ∧
        Spaces spaces)
      (list n true tokens >>= fun found => expect close found.2 >>= fun rest =>
        redirects (rest.length + 1) rest >>= fun more =>
          .ok (wrapRedirects (wrap found.1) more.1, more.2)) := by
  refine (takes_listGaps ih true tokens).bind fun body inner rest hbody => ?_
  refine .expect fun gaps closing rest hgaps hclose => ?_
  refine (takes_redirects _ rest).bind fun found used last hused => .nothing ?_
  obtain ⟨tail, spaces, rfl, htail, hspaces⟩ := hused
  exact ⟨inner ++ gaps, closing, tail, spaces, body, found, by simp, hbody gaps hgaps, hclose, htail,
    wraps _ _, hspaces⟩

theorem behind?_eq {kind : TokenKind} {tokens rest : List Token}
    (h : behind? kind tokens = some rest) :
    ∃ spaces token, tokens = spaces ++ token :: rest ∧ Spaces spaces ∧ token.kind = kind := by
  obtain ⟨spaces, heq, hspaces⟩ := skipSpaces_eq tokens
  unfold behind? at h
  split at h
  · cases h
  · rename_i token left hskip
    split at h
    · rename_i hkind
      cases h
      exact ⟨spaces, token, hskip ▸ heq, hspaces, hkind⟩
    · cases h

theorem functionHeader?_eq {name : Token} {tokens rest : List Token} {text : String}
    (h : functionHeader? (name :: tokens) = some (text, rest)) :
    text = name.text ∧ IsName name ∧ ∃ spaces opening inner closing,
      tokens = spaces ++ opening :: (inner ++ closing :: rest) ∧ Spaces spaces ∧
      opening.kind = .openParen ∧ Spaces inner ∧ closing.kind = .closeParen := by
  rw [functionHeader?_cons] at h
  split at h
  · rename_i hname
    obtain ⟨last, hlast, heq⟩ := Option.map_eq_some_iff.1 h
    cases heq
    obtain ⟨middle, hmiddle, hrest⟩ := Option.bind_eq_some_iff.1 hlast
    obtain ⟨spaces, opening, rfl, hspaces, hopen⟩ := behind?_eq hmiddle
    obtain ⟨inner, closing, rfl, hinner, hclose⟩ := behind?_eq hrest
    exact ⟨rfl, by simpa [IsName] using hname, spaces, opening, inner, closing, rfl, hspaces, hopen,
      hinner, hclose⟩
  · cases h

theorem takes_plainCommand (ih : Sound n) (nested : Bool) {token : Token} (tokens : List Token)
    (hspace : token.kind ≠ .whitespace) (hbrace : token.kind ≠ .openBrace) :
    Takes (token :: tokens) (Derives .command) (plainCommand n nested (token :: tokens)) := by
  unfold plainCommand
  split
  · rename_i text rest hheader
    obtain ⟨rfl, hname, spaces, opening, inner, closing, rfl, hspaces, hopen, hinner, hclose⟩ :=
      functionHeader?_eq hheader
    obtain ⟨gaps, heq, hgaps⟩ := skipBlanks_eq rest
    refine .behind (token :: (spaces ++ opening :: (inner ++ closing :: gaps))) ?_
      ((ih.command nested _).bind fun body used last hbody => .nothing ?_)
    · simpa using heq
    · have hfunction := hbody.function hname hspaces hopen hinner hclose hgaps
      simpa using hfunction
  · refine takes_simpleCommand (fun first hfirst => ?_) fun first hfirst => ?_
    · obtain rfl := Option.some.inj hfirst
      exact hspace
    · obtain rfl := Option.some.inj hfirst
      exact hbrace

theorem takes_command (ih : Sound n) (nested : Bool) (tokens : List Token) :
    Takes tokens (Derives .command) (command (n + 1) nested tokens) := by
  obtain ⟨spaces, heq, hspaces⟩ := skipSpaces_eq tokens
  refine .behind spaces heq ?_
  suffices h : Takes (skipSpaces tokens) (Derives .command) (command (n + 1) nested tokens) from
    h.mono fun used tree hused => hused.before hspaces
  rw [command]
  cases hskip : skipSpaces tokens with
  | nil => exact takes_simpleCommand (by simp) (by simp)
  | cons token rest =>
    have hplain (hbrace : token.kind ≠ .openBrace) :=
      takes_plainCommand ih nested rest (skipSpaces_head hskip) hbrace
    have hgroup (close : TokenKind) (wrap : Instruction → Instruction) :=
      takes_group ih close wrap rest
    dsimp only
    cases hkind : token.kind
    case openBrace =>
      refine .behind [token] rfl ((hgroup .closeBrace id).mono fun used tree hused => ?_)
      obtain ⟨inner, closing, tail, after, body, found, rfl, hinner, hclose, htail, hwraps, hafter⟩ :=
        hused
      exact (hinner.braces hkind hclose htail hwraps).after hafter
    case openParen =>
      refine .behind [token] rfl ((hgroup .closeParen .scoped).mono fun used tree hused => ?_)
      obtain ⟨inner, closing, tail, after, body, found, rfl, hinner, hclose, htail, hwraps, hafter⟩ :=
        hused
      exact (hinner.parens hkind hclose htail hwraps).after hafter
    all_goals exact hplain (by simp [hkind])

end

theorem sound (n : Nat) : Sound n := by
  induction n with
  | zero => constructor <;> intros <;> exact Takes.error _
  | succ n ih =>
    constructor
    case list => exact takes_list ih
    case andOr =>
      intro nested tokens
      refine (ih.pipeline nested tokens).bind fun left used rest hleft => ?_
      exact ih.andOrRest nested left used rest hleft.certain
    case andOrRest =>
      intro nested left before tokens hleft
      exact takes_andOrRest ih nested tokens hleft
    case pipeline =>
      intro nested tokens
      refine (ih.command nested tokens).bind fun left used rest hleft => ?_
      exact ih.pipelineRest nested left used rest hleft.direct
    case pipelineRest =>
      intro nested left before tokens hleft
      exact takes_pipelineRest ih nested tokens hleft
    case command => exact takes_command ih

end Parser

/-- A token list that is accepted is a list in the grammar, all of it, and the tree is what it
means. -/
theorem parse_derives {tokens : List Token} {tree : Instruction}
    (h : parse tokens false = .ok tree) : Grammar.Derives .list tokens tree := by
  unfold parse at h
  have hsound := Parser.takes_listGaps (Parser.sound (Parser.budget tokens)) false tokens
  obtain ⟨⟨found, rest⟩, hlist, hend⟩ := Parser.ok_of_bind h
  obtain ⟨used, rfl, hused⟩ := hsound.taken found rest hlist
  obtain ⟨gaps, heq, hgaps⟩ := Parser.skipBlanks_eq rest
  simp only at hend
  split at hend
  · rename_i hskip
    cases hend
    rw [hskip, List.append_nil] at heq
    exact heq ▸ hused gaps hgaps
  · cases hend

namespace Sample

def mixed : String := "x= a >o<p b | ( c; ) && f ( )\n\x7b \x7d\n"

/-- The redirections of the first command have its word between them, and the body of `f` is
empty. -/
def mixedTree : Instruction :=
  .conditional .and
    (.pipe
      (.redirect .overwrite (.ofText "o")
        (.redirect .input (.ofText "p") (.command [("x", {})] [.ofText "a", .ofText "b"])))
      (.scoped (.command [] [.ofText "c"])))
    (.function "f" .empty)

theorem mixed_derives :
    ∃ tokens, tokenize {} mixed = some tokens ∧ parse tokens false = .ok mixedTree ∧
      Grammar.Derives .list tokens mixedTree := by
  have hparse : ((tokenize {} mixed).map fun tokens => parse tokens false) =
      some (.ok mixedTree) := by
    decide +kernel
  obtain ⟨tokens, htokens, htree⟩ := Option.map_eq_some_iff.1 hparse
  exact ⟨tokens, htokens, htree, parse_derives htree⟩

end Sample

end ToyUnix
