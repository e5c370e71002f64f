import ToyUnix.Proofs.Shell.Loose

/-!
A script in parentheses. The readers count how deep in groups they are and not in which ones, so
inside parentheses a closing brace ends the list just as inside braces, where the parenthesis is not
found then. Everything else is read as at the top level: see `parse_parenthesized`.
-/

set_option autoImplicit false

namespace ToyUnix

namespace Parser

open Grammar

/-! The readers inside the parentheses and outside. -/

structure Agreed (closing : Token) (n : Nat) : Prop where
  list : ∀ nested tokens, Agrees closing nested (Loose (skipBlanks tokens))
    (list n true (tokens ++ [closing])) (list n nested tokens)
  andOr : ∀ nested tokens, Agrees closing nested (Loose tokens)
    (andOr n true (tokens ++ [closing])) (andOr n nested tokens)
  andOrRest : ∀ nested left tokens, Agrees closing nested (Beyond tokens)
    (andOrRest n true left (tokens ++ [closing])) (andOrRest n nested left tokens)
  pipeline : ∀ nested tokens, Agrees closing nested (Loose tokens)
    (pipeline n true (tokens ++ [closing])) (pipeline n nested tokens)
  pipelineRest : ∀ nested left tokens, Agrees closing nested (Beyond tokens)
    (pipelineRest n true left (tokens ++ [closing])) (pipelineRest n nested left tokens)
  command : ∀ nested tokens, Agrees closing nested (Loose tokens)
    (command n true (tokens ++ [closing])) (command n nested tokens)

section

variable {closing : Token} {n : Nat}

theorem agrees_atListEnd (hclosing : closing.kind = .closeParen) {nested : Bool} (a : Instruction)
    {tokens : List Token} {inside outside : Except Fault (Instruction × List Token)}
    (h : Agrees closing nested (Loose tokens) inside outside)
    (hparen : nested = false → ∀ token more, tokens = token :: more → token.kind = .closeParen →
      ∃ fault, outside = .error fault) :
    Agrees closing nested (Loose tokens)
      (if atListEnd true (tokens ++ [closing]) then .ok (a, tokens ++ [closing]) else inside)
      (if atListEnd nested tokens then .ok (a, tokens) else outside) := by
  cases tokens with
  | nil =>
    have hend : atListEnd true ([] ++ [closing]) = true := by simp [atListEnd, hclosing]
    rw [if_pos hend, if_pos (by rfl)]
    exact .ok a fun _ => ⟨fun hloose => absurd hloose not_loose_nil,
      fun hbeyond => absurd hbeyond (not_beyond_nil rfl)⟩
  | cons token more =>
    have hsame : atListEnd true (token :: more ++ [closing]) = atListEnd true (token :: more) := rfl
    rw [hsame]
    cases nested with
    | true =>
      split
      · exact .ok a (by simp)
      · exact h
    | false =>
      rw [if_neg (show ¬ atListEnd false (token :: more) = true by simp [atListEnd])]
      split
      · rename_i hend
        intro b last houtside hshut
        have hkind : token.kind = .closeBrace ∨ token.kind = .closeParen := by
          simpa [atListEnd] using hend
        rcases hkind with hbrace | hclose
        · have hbraced : Braced (skipSpaces (token :: more)) := by
            rw [skipSpaces_brace hbrace]
            exact braced_brace hbrace more
          exact .inr ⟨rfl, .here hbraced, .ok a hbrace (more ++ [closing])⟩
        · obtain ⟨fault, hfault⟩ := hparen rfl token more rfl hclose
          rw [hfault] at houtside
          cases houtside
      · exact h

variable (hclosing : closing.kind = .closeParen)

include hclosing

theorem Agreed.listBehind (ih : Agreed closing n) (nested : Bool) (first : Instruction)
    (join : Instruction → Instruction → Instruction) (tokens : List Token) :
    Agrees closing nested (Loose (skipBlanks tokens))
      (listBehind n true first join (tokens ++ [closing]))
      (listBehind n nested first join tokens) := by
  unfold Parser.listBehind
  rw [skipBlanks_concat hclosing]
  refine agrees_atListEnd hclosing first ?_ fun htop token more htokens hclose => ?_
  · have hlist := ih.list nested (skipBlanks tokens)
    rw [skipBlanks_skipBlanks] at hlist
    exact hlist.bind (fun next rest => .ok _ fun _ => .rfl)
      (fun next rest b last heq hlast => by cases heq; exact hlast)
      fun next brace more hbrace => .ok _ hbrace more
  · obtain ⟨fault, hfault⟩ := list_closeParen n hclose more
    exact ⟨fault, by rw [htop, htokens, hfault]; rfl⟩

theorem Agreed.listRest (ih : Agreed closing n) (nested : Bool) (first : Instruction)
    (tokens : List Token) :
    Agrees closing nested (Beyond tokens)
      (listRest n true first (tokens ++ [closing])) (listRest n nested first tokens) := by
  unfold Parser.listRest
  have hstop := Agrees.stop closing nested first tokens
  rw [skipSpaces_concat hclosing]
  cases hskip : skipSpaces tokens with
  | nil =>
    rw [hskip] at hstop
    simpa only [List.nil_append, hclosing, separator?] using hstop
  | cons token rest =>
    rw [hskip] at hstop
    simp only [List.cons_append]
    cases hjoin : separator? token.kind with
    | none => exact hstop
    | some join =>
      refine (ih.listBehind hclosing nested first join rest).congr fun _ => ?_
      rw [beyond_cons hskip]
      simp [isJoint, hjoin]

theorem Agreed.list_succ (ih : Agreed closing n) (nested : Bool) (tokens : List Token) :
    Agrees closing nested (Loose (skipBlanks tokens))
      (Parser.list (n + 1) true (tokens ++ [closing])) (Parser.list (n + 1) nested tokens) := by
  rw [Parser.list_succ, Parser.list_succ, skipBlanks_concat hclosing]
  refine agrees_atListEnd hclosing .empty ?_ fun htop token more htokens hclose => ?_
  · exact (ih.andOr nested (skipBlanks tokens)).bind
      (fun first rest => ih.listRest hclosing nested first rest)
      (fun first rest b last heq hlast => shut_of_listRest heq hlast)
      fun first brace more hbrace => cut_listRest n first hbrace more
  · obtain ⟨fault, hfault⟩ := andOr_closeParen n nested hclose more
    exact ⟨fault, by rw [htokens, hfault]; rfl⟩

theorem Agreed.andOrRest_succ (ih : Agreed closing n) (nested : Bool) (left : Instruction)
    (tokens : List Token) :
    Agrees closing nested (Beyond tokens) (Parser.andOrRest (n + 1) true left (tokens ++ [closing]))
      (Parser.andOrRest (n + 1) nested left tokens) := by
  have hstop := Agrees.stop closing nested left tokens
  rw [Parser.andOrRest, Parser.andOrRest, skipSpaces_concat hclosing]
  cases hskip : skipSpaces tokens with
  | nil =>
    rw [hskip] at hstop
    simpa only [List.nil_append, hclosing, logic?] using hstop
  | cons token rest =>
    rw [hskip] at hstop
    simp only [List.cons_append]
    cases hlogic : logic? token.kind with
    | none => exact hstop
    | some logic =>
      simp only [skipBlanks_concat hclosing]
      refine Agrees.bind ((ih.pipeline nested (skipBlanks rest)).congr fun _ => ?_)
        (fun right last => ih.andOrRest nested _ last)
        (fun right rest b last heq hlast => shut_of_andOrRest heq hlast)
        fun right brace more hbrace => cut_andOrRest n _ hbrace more
      rw [beyond_cons hskip]
      simp [isJoint, hlogic]

theorem Agreed.pipelineRest_succ (ih : Agreed closing n) (nested : Bool) (left : Instruction)
    (tokens : List Token) :
    Agrees closing nested (Beyond tokens)
      (Parser.pipelineRest (n + 1) true left (tokens ++ [closing]))
      (Parser.pipelineRest (n + 1) nested left tokens) := by
  have hstop := Agrees.stop closing nested left tokens
  rw [Parser.pipelineRest, Parser.pipelineRest, skipSpaces_concat hclosing]
  cases hskip : skipSpaces tokens with
  | nil =>
    rw [hskip] at hstop
    simpa only [List.nil_append, hclosing, reduceCtorEq, if_false] using hstop
  | cons token rest =>
    rw [hskip] at hstop
    simp only [List.cons_append]
    split
    · rename_i hpipe
      rw [skipBlanks_concat hclosing]
      refine Agrees.bind ((ih.command nested (skipBlanks rest)).congr fun _ => ?_)
        (fun right last => ih.pipelineRest nested _ last)
        (fun right rest b last heq hlast => shut_of_pipelineRest heq hlast)
        fun right brace more hbrace => cut_pipelineRest n _ hbrace more
      rw [beyond_cons hskip]
      simp [isJoint, hpipe]
    · exact hstop

theorem Agreed.group (ih : Agreed closing n) (close : TokenKind)
    (hclose : close ≠ .openParen) (wrap : Instruction → Instruction) {tokens last : List Token}
    {tree : Instruction} (h : group n close wrap tokens = .ok (tree, last)) :
    group n close wrap (tokens ++ [closing]) = .ok (tree, last ++ [closing]) := by
  unfold Parser.group at h ⊢
  obtain ⟨⟨body, rest⟩, hbody, h⟩ := ok_of_bind h
  obtain ⟨left, hleft, h⟩ := ok_of_bind h
  obtain ⟨⟨found, last⟩, hfound, h⟩ := ok_of_bind h
  cases h
  have hshut : Shut rest := by
    intro token more hskip hopen
    rw [expect, ← skipBlanks_skipSpaces, hskip,
      skipBlanks_of_isGap (by simp [hopen, TokenKind.isGap])] at hleft
    simp only [hopen, if_neg (Ne.symm hclose)] at hleft
    cases hleft
  have hinner : expect close (rest ++ [closing]) = .ok (left ++ [closing]) := by
    unfold expect at hleft ⊢
    rw [skipBlanks_concat hclosing]
    cases hskip : skipBlanks rest with
    | nil =>
      rw [hskip] at hleft
      cases hleft
    | cons token more =>
      rw [hskip] at hleft
      simp only [List.cons_append] at hleft ⊢
      split at hleft
      · rename_i hkind
        cases hleft
        rw [if_pos hkind]
      · cases hleft
  have hle : left.length + 1 ≤ (left ++ [closing]).length + 1 := by simp
  have hredirects := redirects_concat hclosing hle hfound
  rcases ih.list true tokens body rest hbody hshut with ⟨hlist, -⟩ | ⟨htop, -⟩
  · rw [hlist]
    simp only [bind, Except.bind, hinner, hredirects]
  · cases htop

theorem simpleCommand_concat {nested : Bool} {tokens rest : List Token} {tree : Instruction}
    (h : Parser.simpleCommand nested tokens = .ok (tree, rest)) :
    (Parser.simpleCommand true (tokens ++ [closing]) = .ok (tree, rest ++ [closing]) ∧
      (nested = false → ∀ simple brace more, brace.kind = .closeBrace →
        simpleItems true (tokens.length + 1) {} tokens ≠ .ok (simple, brace :: more))) ∨
    (nested = false ∧
      (∃ simple brace more, brace.kind = .closeBrace ∧
        simpleItems true (tokens.length + 1) {} tokens = .ok (simple, brace :: more)) ∧
      Cut (Parser.simpleCommand true (tokens ++ [closing]))) := by
  unfold Parser.simpleCommand at h ⊢
  obtain ⟨⟨simple, last⟩, hitems, h⟩ := ok_of_bind h
  have hconcat : ∀ {found : Simple} {left : List Token},
      simpleItems true (tokens.length + 1) {} tokens = .ok (found, left) →
      simpleItems true ((tokens ++ [closing]).length + 1) {} (tokens ++ [closing]) =
        .ok (found, left ++ [closing]) :=
    fun hfound => simpleItems_concat hclosing (by simp) hfound
  by_cases hempty : simple.isEmpty = true
  · simp only [hempty, if_true] at h
    cases h
  · simp only [if_neg hempty] at h
    cases h
    have hsame : simpleItems true (tokens.length + 1) {} tokens = .ok (simple, rest) →
        (simpleItems true ((tokens ++ [closing]).length + 1) {} (tokens ++ [closing]) >>=
          fun found => if found.1.isEmpty then .error (unexpected found.2)
            else .ok (found.1.toInstruction, found.2)) =
          .ok (simple.toInstruction, rest ++ [closing]) := by
      intro hfound
      rw [hconcat hfound]
      simp only [bind, Except.bind, if_neg hempty]
    cases nested with
    | true => exact .inl ⟨hsame hitems, by simp⟩
    | false =>
      rcases simpleItems_inside hitems with ⟨hfound, hrest⟩ | ⟨shorter, brace, more, hbrace, hfound⟩
      · refine .inl ⟨hsame hfound, fun _ other brace more hbrace hother => ?_⟩
        obtain ⟨-, heq⟩ := Prod.mk.inj (Except.ok.inj (hfound.symm.trans hother))
        exact hrest brace more heq hbrace
      · refine .inr ⟨rfl, ⟨shorter, brace, more, hbrace, hfound⟩, ?_⟩
        refine ⟨brace, more ++ [closing], hbrace, ?_⟩
        rw [hconcat hfound]
        simp only [bind, Except.bind]
        split
        · exact .inl rfl
        · exact .inr ⟨_, rfl⟩

omit hclosing in
theorem loose_iff_beyond {tokens rest : List Token} {tree : Instruction}
    (h : Parser.command n false tokens = .ok (tree, rest))
    (hheader : functionHeader? (skipSpaces tokens) = none)
    (hbraced : ¬ Braced (skipSpaces tokens)) : Loose tokens ↔ Beyond rest := by
  rw [loose_iff h]
  simp [hheader, hbraced]

theorem Agreed.group_agrees (ih : Agreed closing n) {nested : Bool} {tokens left : List Token}
    {token : Token} {close : TokenKind} {wrap : Instruction → Instruction}
    (hskip : skipSpaces tokens = token :: left)
    (hopen : token.kind = .openBrace ∨ token.kind = .openParen) (hclose : close ≠ .openParen)
    (hcommand : Parser.command (n + 1) nested tokens = Parser.group n close wrap left) :
    Agrees closing nested (Loose tokens) (Parser.group n close wrap (left ++ [closing]))
      (Parser.group n close wrap left) := by
  intro tree rest hfound _
  refine .inl ⟨ih.group hclosing close hclose wrap hfound, fun htop => ?_⟩
  subst htop
  refine loose_iff_beyond (hcommand.trans hfound) ?_ ?_
  · rw [hskip]
    exact functionHeader?_of_kind (by rcases hopen with h | h <;> simp [h]) left
  · rintro ⟨-, hhead, -⟩
    obtain ⟨hbrace, hparen⟩ := hhead token (by rw [hskip]; rfl)
    exact hopen.elim hbrace hparen

theorem Agreed.function_agrees (ih : Agreed closing n) {nested : Bool}
    {tokens left behind : List Token} {token : Token} {name : String}
    (hskip : skipSpaces tokens = token :: left)
    (hheader : functionHeader? (token :: left) = some (name, behind))
    (hcommand : Parser.command (n + 1) nested tokens = plainCommand n nested (token :: left)) :
    Agrees closing nested (Loose tokens) (plainCommand n true (token :: (left ++ [closing])))
      (plainCommand n nested (token :: left)) := by
  intro tree rest hplain hshut
  have hfound := hcommand.trans hplain
  unfold plainCommand at hplain ⊢
  simp only [hheader] at hplain
  obtain ⟨⟨body, last⟩, hbody, heq⟩ := ok_of_bind hplain
  cases heq
  rw [functionHeader?_concat hclosing hheader]
  simp only [skipBlanks_concat hclosing]
  rcases ih.command nested (skipBlanks behind) body last hbody hshut with
    ⟨hsame, hiff⟩ | ⟨htop, hloose, hcut⟩
  · rw [hsame]
    refine .inl ⟨rfl, fun htop => ?_⟩
    subst htop
    rw [loose_iff hfound, hskip]
    constructor
    · rintro (⟨hnone, -⟩ | ⟨_, _, heq, hloose⟩ | hbeyond)
      · rw [hheader] at hnone
        cases hnone
      · rw [hheader] at heq
        cases heq
        exact (hiff rfl).1 hloose
      · exact hbeyond
    · exact fun hbeyond => .inr (.inr hbeyond)
  · refine .inr ⟨htop, .body (by rw [hskip]; exact hheader) hloose, ?_⟩
    exact hcut.bind fun a brace more hbrace => .ok _ hbrace more

theorem simple_agrees {nested : Bool} {tokens left : List Token} {token : Token}
    (hskip : skipSpaces tokens = token :: left)
    (hopen : token.kind ≠ .openBrace ∧ token.kind ≠ .openParen)
    (hheader : functionHeader? (token :: left) = none)
    (hcommand : Parser.command (n + 1) nested tokens = plainCommand n nested (token :: left)) :
    Agrees closing nested (Loose tokens) (plainCommand n true (token :: (left ++ [closing])))
      (plainCommand n nested (token :: left)) := by
  intro tree rest hplain hshut
  have hfound := hcommand.trans hplain
  unfold plainCommand at hplain ⊢
  simp only [hheader] at hplain
  rw [functionHeader?_concat_none hclosing hplain hshut]
  rcases simpleCommand_concat hclosing hplain with ⟨hsame, hnot⟩ | ⟨htop, hitems, hcut⟩
  · refine .inl ⟨hsame, fun htop => ?_⟩
    subst htop
    refine loose_iff_beyond hfound (by rw [hskip]; exact hheader) ?_
    rw [hskip]
    rintro ⟨-, -, simple, brace, more, hkind, hitems⟩
    exact hnot rfl simple brace more hkind hitems
  · refine .inr ⟨htop, .here ?_, hcut⟩
    rw [hskip]
    refine ⟨hheader, fun first hfirst => ?_, hitems⟩
    obtain rfl := Option.some.inj hfirst
    exact hopen

theorem Agreed.command_succ (ih : Agreed closing n) (nested : Bool) (tokens : List Token) :
    Agrees closing nested (Loose tokens) (Parser.command (n + 1) true (tokens ++ [closing]))
      (Parser.command (n + 1) nested tokens) := by
  cases hskip : skipSpaces tokens with
  | nil =>
    obtain ⟨fault, hfault⟩ := command_nil n nested hskip
    rw [hfault]
    exact .error fault _
  | cons token left =>
    have hinside : skipSpaces (tokens ++ [closing]) = token :: (left ++ [closing]) := by
      rw [skipSpaces_concat hclosing, hskip]
      rfl
    have hcommand := command_cons n nested hskip
    rw [command_cons n true hinside, hcommand]
    by_cases hbrace : token.kind = .openBrace
    · rw [if_pos hbrace] at hcommand
      rw [if_pos hbrace, if_pos hbrace]
      exact ih.group_agrees hclosing hskip (.inl hbrace) (by simp) hcommand
    · rw [if_neg hbrace] at hcommand
      rw [if_neg hbrace, if_neg hbrace]
      by_cases hparen : token.kind = .openParen
      · rw [if_pos hparen] at hcommand
        rw [if_pos hparen, if_pos hparen]
        exact ih.group_agrees hclosing hskip (.inr hparen) (by simp) hcommand
      · rw [if_neg hparen] at hcommand
        rw [if_neg hparen, if_neg hparen]
        cases hheader : functionHeader? (token :: left) with
        | some found => exact ih.function_agrees hclosing hskip hheader hcommand
        | none => exact simple_agrees hclosing hskip ⟨hbrace, hparen⟩ hheader hcommand

/-- Inside the parentheses everything is read as outside, up to the first closing brace that is
loose. -/
theorem agreed (n : Nat) : Agreed closing n := by
  induction n with
  | zero => constructor <;> intros <;> exact Agrees.error _ _
  | succ n ih =>
    constructor
    case list => exact ih.list_succ hclosing
    case andOr =>
      intro nested tokens
      exact (ih.pipeline nested tokens).bind (fun left rest => ih.andOrRest nested left rest)
        (fun left rest b last heq hlast => shut_of_andOrRest heq hlast)
        fun left brace more hbrace => cut_andOrRest n left hbrace more
    case andOrRest => exact ih.andOrRest_succ hclosing
    case pipeline =>
      intro nested tokens
      exact (ih.command nested tokens).bind (fun left rest => ih.pipelineRest nested left rest)
        (fun left rest b last heq hlast => shut_of_pipelineRest heq hlast)
        fun left brace more hbrace => cut_pipelineRest n left hbrace more
    case pipelineRest => exact ih.pipelineRest_succ hclosing
    case command => exact ih.command_succ hclosing

end

/-! A script in parentheses. -/

section

variable {opening closing : Token} {ts : List Token}

theorem parse_group (hopening : opening.kind = .openParen) (closing : Token) (ts : List Token) :
    ∃ n, budget ts ≤ n ∧ (∀ fault, group n .closeParen .scoped (ts ++ [closing]) = .error fault →
      parse (opening :: (ts ++ [closing])) false = .error fault) ∧
      (∀ tree, group n .closeParen .scoped (ts ++ [closing]) = .ok (tree, []) →
        parse (opening :: (ts ++ [closing])) false = .ok tree) := by
  have hblanks : skipBlanks (opening :: (ts ++ [closing])) = opening :: (ts ++ [closing]) :=
    skipBlanks_of_isGap (by simp [hopening, TokenKind.isGap])
  have hspaces : skipSpaces (opening :: (ts ++ [closing])) = opening :: (ts ++ [closing]) :=
    skipSpaces_of_ne (by simp [hopening])
  have hbudget : budget (opening :: (ts ++ [closing])) = (budget ts + 12) + 4 := by
    simp only [budget, List.length_cons, List.length_append, List.length_nil]
    omega
  have hcommand : ∀ n, command (n + 1) false (opening :: (ts ++ [closing])) =
      group n .closeParen .scoped (ts ++ [closing]) := by
    intro n
    rw [command_cons n false hspaces, if_neg (by simp [hopening]), if_pos hopening]
  have hlist : ∀ n, list (n + 4) false (opening :: (ts ++ [closing])) =
      (group n .closeParen .scoped (ts ++ [closing]) >>= fun left =>
        pipelineRest (n + 1) false left.1 left.2) >>= (fun left =>
          andOrRest (n + 2) false left.1 left.2) >>= fun first =>
            listRest (n + 3) false first.1 first.2 := by
    intro n
    rw [list_succ, hblanks, if_neg (by simp [atListEnd]), andOr, pipeline, hcommand]
  refine ⟨budget ts + 12, by omega, fun fault hfault => ?_, fun tree htree => ?_⟩
  · rw [parse, hbudget, hlist, hfault]
    rfl
  · rw [parse, hbudget, hlist, htree]
    rfl

theorem group_of_list {n : Nat} {tree : Instruction} {rest : List Token}
    (hclosing : closing.kind = .closeParen) (hrest : skipBlanks rest = [])
    (h : list n true (ts ++ [closing]) = .ok (tree, rest ++ [closing])) :
    group n .closeParen .scoped (ts ++ [closing]) = .ok (.scoped tree, []) := by
  have hexpect : expect .closeParen (rest ++ [closing]) = .ok [] := by
    rw [expect, skipBlanks_concat hclosing, hrest]
    simp [hclosing]
  rw [group, h]
  simp only [bind, Except.bind, hexpect]
  rfl

theorem group_of_cut {n : Nat} {tokens : List Token} (h : Cut (list n true tokens)) :
    ∃ brace more, brace.kind = .closeBrace ∧
      group n .closeParen .scoped tokens = .error (unexpected (brace :: more)) := by
  obtain ⟨brace, more, hbrace, h | ⟨tree, h⟩⟩ := h
  · refine ⟨brace, more, hbrace, ?_⟩
    rw [group, h]
    rfl
  · have hblanks : skipBlanks (brace :: more) = brace :: more :=
      skipBlanks_of_isGap (by simp [hbrace, TokenKind.isGap])
    refine ⟨brace, more, hbrace, ?_⟩
    rw [group, h]
    simp [bind, Except.bind, expect, hblanks, hbrace]

theorem shut_of_blanks {rest : List Token} (hrest : skipBlanks rest = []) : Shut rest := by
  intro token more hskip hopen
  rw [← skipBlanks_skipSpaces, hskip,
    skipBlanks_of_isGap (by simp [hopen, TokenKind.isGap])] at hrest
  cases hrest

theorem not_beyond_blanks {rest : List Token} (hrest : skipBlanks rest = []) : ¬ Beyond rest := by
  rintro ⟨token, more, hskip, -, hloose⟩
  rw [← skipBlanks_skipSpaces, hskip] at hrest
  unfold skipBlanks at hrest hloose
  rw [List.dropWhile_cons] at hrest
  split at hrest
  · rw [hrest] at hloose
    exact not_loose_nil hloose
  · cases hrest

/-- In parentheses a script is what it is outside, or they stop at its first loose brace. -/
theorem parse_enclosed (hopening : opening.kind = .openParen)
    (hclosing : closing.kind = .closeParen) {tree : Instruction} (h : parse ts false = .ok tree) :
    (¬ Loose (skipBlanks ts) ∧ parse (opening :: (ts ++ [closing])) false = .ok (.scoped tree)) ∨
    (Loose (skipBlanks ts) ∧ ∃ brace more, brace.kind = .closeBrace ∧
      parse (opening :: (ts ++ [closing])) false = .error (unexpected (brace :: more))) := by
  obtain ⟨⟨found, rest⟩, hlist, hend⟩ := ok_of_bind h
  have hrest : skipBlanks rest = [] ∧ found = tree := by
    cases hskip : skipBlanks rest with
    | nil =>
      simp only [hskip] at hend
      cases hend
      exact ⟨rfl, rfl⟩
    | cons token more =>
      simp only [hskip] at hend
      cases hend
  obtain ⟨hrest, rfl⟩ := hrest
  obtain ⟨n, hn, herror, hok⟩ := parse_group hopening closing ts
  rcases (agreed hclosing n).list false ts found rest (list_mono hn false ts _ hlist)
      (shut_of_blanks hrest) with ⟨hinside, hiff⟩ | ⟨-, hloose, hcut⟩
  · refine .inl ⟨fun hloose => not_beyond_blanks hrest ((hiff rfl).1 hloose), ?_⟩
    exact hok _ (group_of_list hclosing hrest hinside)
  · obtain ⟨brace, more, hbrace, hgroup⟩ := group_of_cut hcut
    exact .inr ⟨hloose, brace, more, hbrace, herror _ hgroup⟩

end

end Parser

section

open ToyUnix.Parser

variable {opening closing : Token} {ts : List Token} {tree : Instruction}

/-- Parentheses take a script that the top level takes exactly if it has no loose closing brace; if
it has one they stop there. -/
theorem parse_parenthesized (hopening : opening.kind = .openParen)
    (hclosing : closing.kind = .closeParen) (h : parse ts false = .ok tree) :
    (parse (opening :: (ts ++ [closing])) false = .ok (.scoped tree) ↔ ¬ Loose (skipBlanks ts)) ∧
    (Loose (skipBlanks ts) → ∃ brace more, brace.kind = .closeBrace ∧
      parse (opening :: (ts ++ [closing])) false = .error (unexpected (brace :: more))) := by
  rcases parse_enclosed hopening hclosing h with
    ⟨hnot, hscoped⟩ | ⟨hloose, brace, more, hbrace, herror⟩
  · exact ⟨⟨fun _ => hnot, fun _ => hscoped⟩, fun hloose => absurd hloose hnot⟩
  · refine ⟨⟨fun hscoped => ?_, fun hnot => absurd hloose hnot⟩,
      fun _ => ⟨brace, more, hbrace, herror⟩⟩
    rw [herror] at hscoped
    cases hscoped

end

namespace Sample

def echoBrace : List Token :=
  [⟨.whitespace, " ", 1⟩, ⟨.text, "echo", 2⟩, ⟨.whitespace, " ", 6⟩, ⟨.closeBrace, "\x7d", 7⟩,
    ⟨.whitespace, " ", 8⟩]

def groups : List Token :=
  [⟨.text, "f", 1⟩, ⟨.openParen, "(", 2⟩, ⟨.closeParen, ")", 3⟩, ⟨.openBrace, "\x7b", 4⟩,
    ⟨.text, "a", 5⟩, ⟨.sequential, ";", 6⟩, ⟨.closeBrace, "\x7d", 7⟩, ⟨.sequential, ";", 8⟩,
    ⟨.text, "b", 9⟩, ⟨.pipe, "|", 10⟩, ⟨.openParen, "(", 11⟩, ⟨.text, "f", 12⟩,
    ⟨.closeParen, ")", 13⟩, ⟨.newline, "\n", 14⟩]

def leftParen : Token := ⟨.openParen, "(", 0⟩

def rightParen : Token := ⟨.closeParen, ")", 9⟩

open ToyUnix.Parser in
theorem groups_parenthesized :
    parse groups false =
      .ok (.sequential (.function "f" (.command [] [.ofText "a"]))
        (.pipe (.command [] [.ofText "b"]) (.scoped (.command [] [.ofText "f"])))) ∧
    ¬ Loose (skipBlanks groups) ∧
    parse echoBrace false = .ok (.command [] [.ofText "echo", .ofText "\x7d"]) ∧
    Loose (skipBlanks echoBrace) := by
  have hopening : leftParen.kind = .openParen := rfl
  have hclosing : rightParen.kind = .closeParen := rfl
  have hgroups : parse groups false =
      .ok (.sequential (.function "f" (.command [] [.ofText "a"]))
        (.pipe (.command [] [.ofText "b"]) (.scoped (.command [] [.ofText "f"])))) := by
    decide +kernel
  have hecho : parse echoBrace false = .ok (.command [] [.ofText "echo", .ofText "\x7d"]) := by
    decide +kernel
  refine ⟨hgroups, ?_, hecho, ?_⟩
  · exact (parse_parenthesized hopening hclosing hgroups).1.1 (by decide +kernel)
  · by_contra hnot
    have hscoped := (parse_parenthesized hopening hclosing hecho).1.2 hnot
    exact absurd hscoped (by decide +kernel)

theorem brace_not_parenthesized :
    tokenize {} "( echo \x7d )" = some (leftParen :: (echoBrace ++ [rightParen])) ∧
    parse echoBrace false = .ok (.command [] [.ofText "echo", .ofText "\x7d"]) ∧
    parse (leftParen :: (echoBrace ++ [rightParen])) false =
      .error (.badSyntax "near unexpected token \x60\x7d'") := by
  decide +kernel

end Sample

end ToyUnix
