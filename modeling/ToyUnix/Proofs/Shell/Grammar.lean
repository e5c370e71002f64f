import Mathlib.Data.List.TakeWhile
import ToyUnix.Proofs.Shell.Layout
import ToyUnix.Proofs.Shell.Words

/-!
The grammar as derivations. `Grammar.Derives` says of a list of tokens that it is a list, a command
and so on of a given tree, each token standing in one place. The readers that do not call each other,
up to those of simple commands, take what the grammar says they take.
-/

set_option autoImplicit false

namespace ToyUnix

open ToyUnix.Parser (Redirect Simple)

namespace Grammar

def Spaces (tokens : List Token) : Prop := ∀ token ∈ tokens, token.kind = .whitespace

/-- Spaces and newlines. -/
def Gaps (tokens : List Token) : Prop := ∀ token ∈ tokens, token.kind.isGap = true

def IsName (token : Token) : Prop := token.kind = .text ∧ isIdentifier token.text = true

/-- What comes behind a word does not go on with it. -/
def Apart (rest : List Token) : Prop := ∀ token ∈ rest.head?, token.isWordPart = false

/-- `;`, `&` and the newline. -/
inductive Joins : TokenKind → (Instruction → Instruction → Instruction) → Prop
  | sequential : Joins .sequential .sequential
  | newline : Joins .newline .sequential
  | parallel : Joins .parallel .parallel

/-- `&&` and `||`. -/
inductive Decides : TokenKind → Logic → Prop
  | and : Decides .logicalAnd .and
  | or : Decides .logicalOr .or

/-- `<`, `>` and `>>`. -/
inductive Redirects : TokenKind → RedirectMode → Prop
  | input : Redirects .fileInput .input
  | overwrite : Redirects .overwrite .overwrite
  | append : Redirects .append .append

/-- A word is one or more word parts side by side. -/
inductive Reads : List Token → Word → Prop
  | parts {parts : List Token} {word : Word} (hsome : parts ≠ []) (h : Value parts word) :
      Reads parts word

inductive Redirection : List Token → Redirect → Prop
  | target {op : Token} {mode : RedirectMode} {spaces parts : List Token} {target : Word}
      (hop : Redirects op.kind mode) (hspaces : Spaces spaces) (h : Reads parts target) :
      Redirection (op :: (spaces ++ parts)) (mode, target)

inductive Redirections : List Token → List Redirect → Prop
  | none : Redirections [] []
  | more {spaces first rest : List Token} {redirect : Redirect} {redirects : List Redirect}
      (hspaces : Spaces spaces) (hfirst : Redirection first redirect) (hapart : Apart rest)
      (hrest : Redirections rest redirects) :
      Redirections (spaces ++ (first ++ rest)) (redirect :: redirects)

/-- The redirection that is written first is the outermost. -/
inductive Wraps (inner : Instruction) : List Redirect → Instruction → Prop
  | none : Wraps inner [] inner
  | first {mode : RedirectMode} {target : Word} {redirects : List Redirect} {tree : Instruction}
      (h : Wraps inner redirects tree) :
      Wraps inner ((mode, target) :: redirects) (.redirect mode target tree)

/-- What a simple command consists of. There are assignments up to the first word only, and up to
there whatever looks like an assignment is one. -/
inductive Items : Bool → List Token → Simple → Prop
  | none {early : Bool} : Items early [] {}
  | assignment {name sign : Token} {parts spaces rest : List Token} {value : Word}
      {simple : Simple} (hname : IsName name) (hsign : sign.kind = .assignment)
      (hvalue : Value parts value) (hspaces : Spaces spaces) (hapart : Apart (spaces ++ rest))
      (hrest : Items true rest simple) :
      Items true (name :: sign :: (parts ++ (spaces ++ rest)))
        { simple with assignments := (name.text, value) :: simple.assignments }
  | word {early : Bool} {parts spaces rest : List Token} {word : Word} {simple : Simple}
      (h : Reads parts word)
      (hearly : early = true → ∀ name sign more, parts = name :: sign :: more → IsName name →
        sign.kind ≠ .assignment)
      (hspaces : Spaces spaces) (hapart : Apart (spaces ++ rest)) (hrest : Items false rest simple) :
      Items early (parts ++ (spaces ++ rest)) { simple with words := word :: simple.words }
  | redirect {early : Bool} {first spaces rest : List Token} {redirect : Redirect} {simple : Simple}
      (h : Redirection first redirect) (hspaces : Spaces spaces) (hapart : Apart (spaces ++ rest))
      (hrest : Items early rest simple) :
      Items early (first ++ (spaces ++ rest))
        { simple with redirects := redirect :: simple.redirects }

/-- How a list ends: in gaps, perhaps behind a separator. -/
inductive Ends : List Token → Prop
  | gaps {gaps : List Token} (h : Gaps gaps) : Ends gaps
  | separator {token : Token} {gaps : List Token} {join : Instruction → Instruction → Instruction}
      (h : Joins token.kind join) (hgaps : Gaps gaps) : Ends (token :: gaps)

inductive Symbol
  | list
  /-- A list with something in it, and nothing behind the last command. -/
  | sequence
  | andOr
  | pipeline
  | command
  deriving DecidableEq, Repr

/-- The tokens make up a phrase of that kind, and the tree is what it means. -/
inductive Derives : Symbol → List Token → Instruction → Prop
  | before {symbol : Symbol} {spaces tokens : List Token} {tree : Instruction}
      (hspaces : Spaces spaces) (h : Derives symbol tokens tree) :
      Derives symbol (spaces ++ tokens) tree
  | after {symbol : Symbol} {tokens spaces : List Token} {tree : Instruction}
      (h : Derives symbol tokens tree) (hspaces : Spaces spaces) :
      Derives symbol (tokens ++ spaces) tree
  | nothing {gaps : List Token} (h : Gaps gaps) : Derives .list gaps .empty
  | something {gaps tokens tail : List Token} {tree : Instruction} (hgaps : Gaps gaps)
      (h : Derives .sequence tokens tree) (htail : Ends tail) :
      Derives .list (gaps ++ (tokens ++ tail)) tree
  | last {tokens : List Token} {tree : Instruction} (h : Derives .andOr tokens tree) :
      Derives .sequence tokens tree
  | join {left gaps right : List Token} {token : Token} {first next : Instruction}
      {join : Instruction → Instruction → Instruction} (hfirst : Derives .andOr left first)
      (htoken : Joins token.kind join) (hgaps : Gaps gaps) (hnext : Derives .sequence right next) :
      Derives .sequence (left ++ token :: (gaps ++ right)) (join first next)
  | certain {tokens : List Token} {tree : Instruction} (h : Derives .pipeline tokens tree) :
      Derives .andOr tokens tree
  | conditional {first gaps second : List Token} {token : Token} {left right : Instruction}
      {logic : Logic} (hleft : Derives .andOr first left) (htoken : Decides token.kind logic)
      (hgaps : Gaps gaps) (hright : Derives .pipeline second right) :
      Derives .andOr (first ++ token :: (gaps ++ second)) (.conditional logic left right)
  | direct {tokens : List Token} {tree : Instruction} (h : Derives .command tokens tree) :
      Derives .pipeline tokens tree
  | pipe {first gaps second : List Token} {token : Token} {left right : Instruction}
      (hleft : Derives .pipeline first left) (htoken : token.kind = .pipe) (hgaps : Gaps gaps)
      (hright : Derives .command second right) :
      Derives .pipeline (first ++ token :: (gaps ++ second)) (.pipe left right)
  | braces {opening closing : Token} {tokens tail : List Token} {body tree : Instruction}
      {redirects : List Redirect} (hopen : opening.kind = .openBrace)
      (h : Derives .list tokens body) (hclose : closing.kind = .closeBrace)
      (htail : Redirections tail redirects) (hwraps : Wraps body redirects tree) :
      Derives .command (opening :: (tokens ++ closing :: tail)) tree
  | parens {opening closing : Token} {tokens tail : List Token} {body tree : Instruction}
      {redirects : List Redirect} (hopen : opening.kind = .openParen)
      (h : Derives .list tokens body) (hclose : closing.kind = .closeParen)
      (htail : Redirections tail redirects) (hwraps : Wraps (.scoped body) redirects tree) :
      Derives .command (opening :: (tokens ++ closing :: tail)) tree
  | function {name opening closing : Token} {spaces inner gaps tokens : List Token}
      {body : Instruction} (hname : IsName name) (hspaces : Spaces spaces)
      (hopen : opening.kind = .openParen) (hinner : Spaces inner)
      (hclose : closing.kind = .closeParen) (hgaps : Gaps gaps) (h : Derives .command tokens body) :
      Derives .command (name :: (spaces ++ opening :: (inner ++ closing :: (gaps ++ tokens))))
        (.function name.text body)
  | simple {tokens : List Token} {simple : Simple} {tree : Instruction}
      (hfirst : ∀ token ∈ tokens.head?, token.kind ≠ .openBrace) (h : Items true tokens simple)
      (hsome : simple ≠ {})
      (hwraps : Wraps (.command simple.assignments simple.words) simple.redirects tree) :
      Derives .command tokens tree

/-! How the parts of the grammar go together. -/

section

variable {tokens more rest : List Token}

theorem Gaps.append (h : Gaps tokens) (hmore : Gaps more) : Gaps (tokens ++ more) :=
  List.forall_mem_append.2 ⟨h, hmore⟩

theorem Spaces.gaps (h : Spaces tokens) : Gaps tokens := by
  intro token htoken
  simp [TokenKind.isGap, h token htoken]

theorem Ends.append (h : Ends tokens) (hmore : Gaps more) : Ends (tokens ++ more) := by
  cases h with
  | gaps hgaps => exact .gaps (hgaps.append hmore)
  | separator htoken hgaps => exact .separator htoken (hgaps.append hmore)

theorem Apart.of_append (h : Apart (tokens ++ rest)) : Apart tokens := by
  cases tokens with
  | nil => exact fun _ hmem => nomatch hmem
  | cons token tokens => exact h

theorem wraps (inner : Instruction) (redirects : List Redirect) :
    Wraps inner redirects (Parser.wrapRedirects inner redirects) := by
  induction redirects with
  | nil => exact .none
  | cons redirect redirects ih => exact .first ih

end

end Grammar

namespace Parser

open Grammar

/-! What the readers skip and what they take. -/

theorem skipSpaces_eq (tokens : List Token) :
    ∃ spaces, tokens = spaces ++ skipSpaces tokens ∧ Spaces spaces := by
  refine ⟨tokens.takeWhile fun token => token.kind = .whitespace,
    List.takeWhile_append_dropWhile.symm, fun token htoken => ?_⟩
  simpa using List.mem_takeWhile_imp htoken

theorem skipBlanks_eq (tokens : List Token) :
    ∃ gaps, tokens = gaps ++ skipBlanks tokens ∧ Gaps gaps := by
  refine ⟨tokens.takeWhile fun token => token.kind = .whitespace || token.kind = .newline,
    List.takeWhile_append_dropWhile.symm, fun token htoken => ?_⟩
  simpa [TokenKind.isGap] using List.mem_takeWhile_imp htoken

theorem separator?_joins {kind : TokenKind} {join : Instruction → Instruction → Instruction}
    (h : separator? kind = some join) : Joins kind join := by
  cases kind <;> cases h <;> constructor

theorem logic?_decides {kind : TokenKind} {logic : Logic} (h : logic? kind = some logic) :
    Decides kind logic := by
  cases kind <;> cases h <;> constructor

theorem redirectMode?_redirects {kind : TokenKind} {mode : RedirectMode}
    (h : redirectMode? kind = some mode) : Redirects kind mode := by
  cases kind <;> cases h <;> constructor

theorem dropWhile_apart (tokens : List Token) : Apart (tokens.dropWhile Token.isWordPart) := by
  intro token htoken
  have hnot := List.head?_dropWhile_not Token.isWordPart tokens
  rw [Option.mem_def.1 htoken] at hnot
  simpa using hnot

theorem word?_eq {tokens rest : List Token} {word : Word} (h : word? tokens = some (word, rest)) :
    ∃ parts, tokens = parts ++ rest ∧ Reads parts word ∧ Apart rest := by
  have hsplit : tokens = tokens.takeWhile Token.isWordPart ++ tokens.dropWhile Token.isWordPart :=
    List.takeWhile_append_dropWhile.symm
  unfold word? at h
  split at h
  · cases h
  · rename_i hsome
    cases h
    exact ⟨_, hsplit, .parts hsome (value_iff.2 ⟨fun part => List.mem_takeWhile_imp, rfl⟩),
      dropWhile_apart tokens⟩

theorem word?_getD_eq (tokens : List Token) :
    ∃ parts, tokens = parts ++ ((word? tokens).getD ({}, tokens)).2 ∧
      Value parts ((word? tokens).getD ({}, tokens)).1 ∧
      Apart ((word? tokens).getD ({}, tokens)).2 := by
  cases hword : word? tokens with
  | none =>
    refine ⟨[], rfl, value_iff.2 ⟨by simp, rfl⟩, ?_⟩
    have hnone : tokens.takeWhile Token.isWordPart = [] := by
      unfold word? at hword
      split at hword
      · assumption
      · cases hword
    have hsplit := List.takeWhile_append_dropWhile (p := Token.isWordPart) (l := tokens)
    rw [hnone, List.nil_append] at hsplit
    exact hsplit ▸ dropWhile_apart tokens
  | some found =>
    obtain ⟨word, rest⟩ := found
    obtain ⟨parts, heq, hreads, hapart⟩ := word?_eq hword
    cases hreads with
    | parts hsome h => exact ⟨parts, heq, h, hapart⟩

theorem assignmentName?_eq {tokens rest : List Token} {text : String}
    (h : assignmentName? tokens = some (text, rest)) :
    ∃ name sign, tokens = name :: sign :: rest ∧ text = name.text ∧ IsName name ∧
      sign.kind = .assignment := by
  unfold assignmentName? at h
  split at h
  · rename_i name sign rest
    split at h
    · rename_i hname
      cases h
      exact ⟨name, sign, rfl, rfl, ⟨hname.1, hname.2.1⟩, hname.2.2⟩
    · cases h
  · cases h

theorem redirectTarget_eq {tokens rest : List Token} {target : Word}
    (h : redirectTarget tokens = .ok (target, rest)) :
    ∃ spaces parts, tokens = spaces ++ (parts ++ rest) ∧ Spaces spaces ∧ Reads parts target ∧
      Apart rest := by
  obtain ⟨spaces, heq, hspaces⟩ := skipSpaces_eq tokens
  unfold redirectTarget at h
  dsimp only at h
  split at h
  · rename_i found hword
    cases h
    obtain ⟨parts, hparts, hreads, hapart⟩ := word?_eq hword
    exact ⟨spaces, parts, hparts ▸ heq, hspaces, hreads, hapart⟩
  · cases h

theorem ok_of_bind {α β : Type} {x : Except Fault α} {f : α → Except Fault β} {b : β}
    (h : (x >>= f) = .ok b) : ∃ a, x = .ok a ∧ f a = .ok b := by
  cases x with
  | error fault => cases h
  | ok a => exact ⟨a, rfl, h⟩

theorem redirects_eq {n : Nat} {tokens rest : List Token} {found : List Redirect}
    (h : redirects n tokens = .ok (found, rest)) :
    ∃ used spaces, tokens = used ++ (spaces ++ rest) ∧ Redirections used found ∧ Spaces spaces := by
  induction n generalizing tokens found with
  | zero => cases h
  | succ n ih =>
    obtain ⟨spaces, heq, hspaces⟩ := skipSpaces_eq tokens
    rw [redirects] at h
    split at h
    · rename_i hskip
      cases h
      exact ⟨[], spaces, by rw [heq, hskip]; rfl, .none, hspaces⟩
    · rename_i op left hskip
      split at h
      · cases h
        exact ⟨[], spaces, by rw [heq, hskip]; rfl, .none, hspaces⟩
      · rename_i mode hmode
        obtain ⟨⟨target, right⟩, htarget, h⟩ := ok_of_bind h
        obtain ⟨⟨others, last⟩, hothers, h⟩ := ok_of_bind h
        cases h
        obtain ⟨inner, parts, rfl, hinner, hreads, hapart⟩ := redirectTarget_eq htarget
        obtain ⟨used, after, rfl, hused, hafter⟩ := ih hothers
        refine ⟨spaces ++ ((op :: (inner ++ parts)) ++ used), after, ?_,
          .more hspaces (.target (redirectMode?_redirects hmode) hinner hreads)
            hapart.of_append hused, hafter⟩
        rw [heq, hskip]
        simp

/-! Simple commands. -/

def Simple.join (simple more : Simple) : Simple where
  assignments := simple.assignments ++ more.assignments
  words := simple.words ++ more.words
  redirects := simple.redirects ++ more.redirects

theorem Simple.join_empty (simple : Simple) : simple.join {} = simple := by
  simp [join]

/-- From `tokens` to `rest` there are the items that `found` has more than `simple`. -/
def Itemized (simple found : Simple) (tokens rest : List Token) : Prop :=
  ∃ spaces used more, tokens = spaces ++ (used ++ rest) ∧ Spaces spaces ∧
    Items simple.words.isEmpty used more ∧ found = simple.join more

namespace Itemized

variable {simple found next : Simple} {tokens rest right : List Token}

theorem stop (h : skipSpaces tokens = rest) : Itemized found found tokens rest := by
  obtain ⟨spaces, heq, hspaces⟩ := skipSpaces_eq tokens
  refine ⟨spaces, [], {}, ?_, hspaces, .none, found.join_empty.symm⟩
  rw [heq, h]
  rfl

theorem step (item : Simple → Simple) {first : List Token}
    (hfirst : skipSpaces tokens = first ++ right) (hapart : Apart right)
    (hrest : Itemized next found right rest)
    (hitem : ∀ spaces used more, Spaces spaces → Apart (spaces ++ used) →
      Items next.words.isEmpty used more →
      Items simple.words.isEmpty (first ++ (spaces ++ used)) (item more))
    (hjoin : ∀ more, next.join more = simple.join (item more)) :
    Itemized simple found tokens rest := by
  obtain ⟨spaces, heq, hspaces⟩ := skipSpaces_eq tokens
  obtain ⟨between, used, more, rfl, hbetween, hused, rfl⟩ := hrest
  rw [← List.append_assoc] at hapart
  refine ⟨spaces, first ++ (between ++ used), item more, ?_, hspaces,
    hitem _ _ _ hbetween hapart.of_append hused, hjoin more⟩
  rw [heq, hfirst]
  simp

theorem assignment {text : String} (hearly : simple.words.isEmpty = true)
    (hname : assignmentName? (skipSpaces tokens) = some (text, right))
    (hrest : let (value, last) := (word? right).getD ({}, right)
      Itemized { simple with assignments := simple.assignments ++ [(text, value)] } found last rest) :
    Itemized simple found tokens rest := by
  obtain ⟨name, sign, heq, rfl, hname, hsign⟩ := assignmentName?_eq hname
  obtain ⟨parts, hright, hvalue, hapart⟩ := word?_getD_eq right
  generalize (word? right).getD ({}, right) = taken at *
  obtain ⟨value, last⟩ := taken
  have hfirst : skipSpaces tokens = (name :: sign :: parts) ++ last :=
    heq.trans (congrArg (name :: sign :: ·) hright)
  refine step (fun more => { more with assignments := (name.text, value) :: more.assignments })
    hfirst hapart hrest (fun spaces used more hspaces hbehind hused => ?_) fun more => ?_
  · rw [hearly] at hused ⊢
    exact .assignment hname hsign hvalue hspaces hbehind hused
  · simp [Simple.join]

theorem word {word : Word} (hfound : word? (skipSpaces tokens) = some (word, right))
    (hplain : simple.words.isEmpty = true → assignmentName? (skipSpaces tokens) = none)
    (hrest : Itemized { simple with words := simple.words ++ [word] } found right rest) :
    Itemized simple found tokens rest := by
  obtain ⟨parts, hparts, hreads, hapart⟩ := word?_eq hfound
  have hlate : (simple.words ++ [word]).isEmpty = false := by
    cases simple.words <;> rfl
  refine step (fun more => { more with words := word :: more.words }) hparts hapart hrest
    (fun spaces used more hspaces hapart hused => ?_) fun more => ?_
  · refine .word hreads (fun hearly name sign others heq hname hsign => ?_) hspaces hapart
      (hlate ▸ hused)
    have hnone := hplain hearly
    rw [hparts, heq] at hnone
    simp [assignmentName?, hname.1, hname.2, hsign] at hnone
  · simp [Simple.join]

theorem redirect {op : Token} {left : List Token} {mode : RedirectMode} {target : Word}
    (hskip : skipSpaces tokens = op :: left) (hmode : redirectMode? op.kind = some mode)
    (htarget : redirectTarget left = .ok (target, right))
    (hrest : Itemized { simple with redirects := simple.redirects ++ [(mode, target)] } found right
      rest) : Itemized simple found tokens rest := by
  obtain ⟨inner, parts, rfl, hinner, hreads, hapart⟩ := redirectTarget_eq htarget
  have hfirst : skipSpaces tokens = (op :: (inner ++ parts)) ++ right := by
    rw [hskip]
    simp
  refine step (fun more => { more with redirects := (mode, target) :: more.redirects }) hfirst hapart
    hrest (fun spaces used more hspaces hapart hused => ?_) fun more => ?_
  · exact .redirect (.target (redirectMode?_redirects hmode) hinner hreads) hspaces hapart hused
  · simp [Simple.join]

end Itemized

theorem simpleItems_itemized {nested : Bool} {n : Nat} {simple found : Simple}
    {tokens rest : List Token} (h : simpleItems nested n simple tokens = .ok (found, rest)) :
    Itemized simple found tokens rest := by
  induction n generalizing simple tokens with
  | zero => cases h
  | succ n ih =>
    rw [simpleItems] at h
    split at h
    · rename_i hskip
      cases h
      exact .stop hskip
    · rename_i token left hskip
      rw [← hskip] at h
      split at h
      · cases h
        exact .stop rfl
      · split at h
        · rename_i mode hmode
          cases htarget : redirectTarget left with
          | error fault =>
            rw [htarget] at h
            cases h
          | ok target =>
            rw [htarget] at h
            exact .redirect hskip hmode htarget (ih h)
        · split at h
          · rename_i hearly
            split at h
            · rename_i hname
              exact .assignment hearly hname (ih h)
            · rename_i hnone
              split at h
              · cases h
                exact .stop rfl
              · rename_i hfound
                exact .word hfound (fun _ => hnone) (ih h)
          · rename_i hlate
            split at h
            · cases h
              exact .stop rfl
            · rename_i hfound
              exact .word hfound (fun hearly => absurd hearly hlate) (ih h)

end Parser

end ToyUnix
