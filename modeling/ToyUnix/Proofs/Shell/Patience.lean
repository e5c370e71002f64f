import ToyUnix.Proofs.Shell.Grammar

/-!
The readers count their calls down, and give up when none is left. What a reader finds with some
number of calls it finds with every greater number: see `list_mono` and `command_unique`.
-/

set_option autoImplicit false

namespace ToyUnix

namespace Parser

open Grammar

def Gives {α : Type} (first second : Except Fault α) : Prop := ∀ a, first = .ok a → second = .ok a

namespace Gives

variable {α β : Type}

theorem refl (x : Except Fault α) : Gives x x := fun _ => id

theorem error (fault : Fault) (x : Except Fault α) : Gives (.error fault) x := fun _ h => nomatch h

theorem bind {x y : Except Fault α} {f g : α → Except Fault β} (h : Gives x y)
    (hnext : ∀ a, Gives (f a) (g a)) : Gives (x >>= f) (y >>= g) := by
  intro b hb
  obtain ⟨a, ha, hfa⟩ := ok_of_bind hb
  rw [h a ha]
  exact hnext a b hfa

end Gives

structure Steady (n : Nat) : Prop where
  list : ∀ nested tokens, Gives (list n nested tokens) (list (n + 1) nested tokens)
  andOr : ∀ nested tokens, Gives (andOr n nested tokens) (andOr (n + 1) nested tokens)
  andOrRest : ∀ nested left tokens,
    Gives (andOrRest n nested left tokens) (andOrRest (n + 1) nested left tokens)
  pipeline : ∀ nested tokens, Gives (pipeline n nested tokens) (pipeline (n + 1) nested tokens)
  pipelineRest : ∀ nested left tokens,
    Gives (pipelineRest n nested left tokens) (pipelineRest (n + 1) nested left tokens)
  command : ∀ nested tokens, Gives (command n nested tokens) (command (n + 1) nested tokens)

def group (n : Nat) (close : TokenKind) (wrap : Instruction → Instruction) (tokens : List Token) :
    Except Fault (Instruction × List Token) :=
  list n true tokens >>= fun found => expect close found.2 >>= fun rest =>
    redirects (rest.length + 1) rest >>= fun more =>
      .ok (wrapRedirects (wrap found.1) more.1, more.2)

theorem command_cons (n : Nat) (nested : Bool) {tokens rest : List Token} {token : Token}
    (hskip : skipSpaces tokens = token :: rest) :
    command (n + 1) nested tokens =
      if token.kind = .openBrace then group n .closeBrace id rest
      else if token.kind = .openParen then group n .closeParen .scoped rest
      else plainCommand n nested (token :: rest) := by
  rw [command, hskip]
  cases hkind : token.kind <;> simp only [hkind, reduceCtorEq, if_true, if_false] <;> rfl

theorem command_nil (n : Nat) (nested : Bool) {tokens : List Token}
    (hskip : skipSpaces tokens = []) : ∃ fault, command (n + 1) nested tokens = .error fault :=
  command_gap (n + 1) nested (by rw [hskip]; trivial)

theorem Steady.listRest {n : Nat} (h : Steady n) (nested : Bool) (first : Instruction)
    (tokens : List Token) :
    Gives (listRest n nested first tokens) (listRest (n + 1) nested first tokens) := by
  unfold Parser.listRest
  split
  · exact .refl _
  · split
    · exact .refl _
    · unfold listBehind
      split
      · exact .refl _
      · exact (h.list nested _).bind fun next => .refl _

theorem Steady.command_succ {n : Nat} (h : Steady n) (nested : Bool) (tokens : List Token) :
    Gives (Parser.command (n + 1) nested tokens) (Parser.command (n + 2) nested tokens) := by
  cases hskip : skipSpaces tokens with
  | nil =>
    obtain ⟨fault, hfault⟩ := command_nil n nested hskip
    rw [hfault]
    exact .error fault _
  | cons token rest =>
    have hgroup : ∀ close wrap, Gives (group n close wrap rest) (group (n + 1) close wrap rest) :=
      fun close wrap => (h.list true rest).bind fun found => .refl _
    rw [command_cons n nested hskip, command_cons (n + 1) nested hskip]
    split
    · exact hgroup _ _
    · split
      · exact hgroup _ _
      · unfold plainCommand
        split
        · exact (h.command nested _).bind fun body => .refl _
        · exact .refl _

theorem steady (n : Nat) : Steady n := by
  induction n with
  | zero => constructor <;> intros <;> exact Gives.error _ _
  | succ n ih =>
    constructor
    case list =>
      intro nested tokens
      rw [list_succ, list_succ]
      split
      · exact .refl _
      · exact (ih.andOr nested _).bind fun first => ih.listRest nested first.1 first.2
    case andOr =>
      intro nested tokens
      exact (ih.pipeline nested tokens).bind fun left => ih.andOrRest nested left.1 left.2
    case andOrRest =>
      intro nested left tokens
      rw [andOrRest, andOrRest]
      split
      · exact .refl _
      · split
        · exact .refl _
        · exact (ih.pipeline nested _).bind fun right => ih.andOrRest nested _ right.2
    case pipeline =>
      intro nested tokens
      exact (ih.command nested tokens).bind fun left => ih.pipelineRest nested left.1 left.2
    case pipelineRest =>
      intro nested left tokens
      rw [pipelineRest, pipelineRest]
      split
      · exact .refl _
      · split
        · exact (ih.command nested _).bind fun right => ih.pipelineRest nested _ right.2
        · exact .refl _
    case command => exact ih.command_succ

theorem list_mono {n m : Nat} (h : n ≤ m) (nested : Bool) (tokens : List Token) :
    Gives (list n nested tokens) (list m nested tokens) := by
  induction h with
  | refl => exact .refl _
  | step _ ih => exact fun a ha => (steady _).list nested tokens a (ih a ha)

theorem command_mono {n m : Nat} (h : n ≤ m) (nested : Bool) (tokens : List Token) :
    Gives (command n nested tokens) (command m nested tokens) := by
  induction h with
  | refl => exact .refl _
  | step _ ih => exact fun a ha => (steady _).command nested tokens a (ih a ha)

theorem command_unique {n m : Nat} {nested : Bool} {tokens : List Token}
    {found other : Instruction × List Token} (h : command n nested tokens = .ok found)
    (h' : command m nested tokens = .ok other) : found = other := by
  have hn := command_mono (Nat.le_max_left n m) nested tokens found h
  have hm := command_mono (Nat.le_max_right n m) nested tokens other h'
  exact Except.ok.inj (hn.symm.trans hm)

end Parser

end ToyUnix
