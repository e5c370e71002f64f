import Mathlib.Tactic.SplitIfs
import ToyUnix.Shell.Parser
import ToyUnix.Shell.Scope

/-!
The names that scripts assign to. The parser takes a word for an assignment only if it begins with
an identifier, so no script assigns to a positional name. What it does not take it calls a mistake
in the syntax.
-/

set_option autoImplicit false

namespace ToyUnix

/-- A name that every call binds. -/
def IsPositional (name : String) : Prop :=
  name = "0" ∨ name = "#" ∨ name = "@" ∨ ∃ i, positionalIndex? name = some (i + 1)

theorem Frame.binding?_isSome {frame : Frame} {name : String} (h : IsPositional name) :
    (frame.binding? name).isSome := by
  unfold Frame.binding?
  split_ifs
  · rfl
  · rfl
  · rfl
  · obtain h | h | h | ⟨i, hi⟩ := h
    · contradiction
    · contradiction
    · contradiction
    · rw [hi]
      rfl

theorem digitValue?_nameStart {c : Char} (h : isNameStart c = true) : digitValue? c = none := by
  refine if_neg ?_
  rintro ⟨-, hhigh⟩
  have hdigit : c.val.toNat ≤ 57 := UInt32.le_iff_toNat_le.1 hhigh
  have hstart := le_of_isNameStart h
  omega

theorem not_isPositional {name : String} (h : isIdentifier name = true) : ¬ IsPositional name := by
  unfold isIdentifier at h
  split at h
  · cases h
  · rename_i c cs hname
    have hc : isNameStart c = true := (Bool.and_eq_true_iff.1 h).1
    have hother {text : String} {d : Char} (htext : text.toList = [d])
        (hd : isNameStart d = false) : name ≠ text := by
      rintro rfl
      rw [htext] at hname
      cases hname
      rw [hd] at hc
      cases hc
    rintro (hzero | hcount | hall | ⟨i, hi⟩)
    · exact hother (d := '0') rfl rfl hzero
    · exact hother (d := '#') rfl rfl hcount
    · exact hother (d := '@') rfl rfl hall
    · unfold positionalIndex? readUnsigned? at hi
      rw [hname] at hi
      have hplus : c ≠ '+' := by
        rintro rfl
        cases hc
      simp [hplus, readNat?, readDigits, digitValue?_nameStart hc] at hi

theorem not_isPositional_of_none {name : String} (hnone : positionalIndex? name = none)
    (h : name ∉ ["0", "#", "@"]) : ¬ IsPositional name := by
  simp only [List.mem_cons, List.not_mem_nil, or_false, not_or] at h
  rintro (hzero | hcount | hall | ⟨i, hi⟩)
  · exact h.1 hzero
  · exact h.2.1 hcount
  · exact h.2.2 hall
  · rw [hnone] at hi
    cases hi

theorem not_isPositional_status : ¬ IsPositional "?" := not_isPositional_of_none rfl (by decide)

theorem not_isPositional_dollar : ¬ IsPositional "$" := not_isPositional_of_none rfl (by decide)

/-- All names that a tree assigns to, those within functions and parentheses included. -/
def Instruction.assigned : Instruction → List String
  | .empty => []
  | .command assignments _ => assignments.map (·.1)
  | .pipe left right | .sequential left right | .parallel left right | .conditional _ left right =>
    left.assigned ++ right.assigned
  | .redirect _ _ inner | .function _ inner | .scoped inner => inner.assigned

/-- A tree as scripts have it, which assigns to identifiers only. -/
def Instruction.Named (tree : Instruction) : Prop := ∀ name ∈ tree.assigned, isIdentifier name = true

namespace Parser

/-- A reader complains about nothing but the syntax. -/
def Complains {α : Type} (result : Except Fault α) : Prop :=
  ∀ fault, result = .error fault → ∃ detail, fault = .badSyntax detail

namespace Complains

variable {α β : Type}

theorem ok (a : α) : Complains (.ok a) := nofun

theorem unexpected (tokens : List Token) : Complains (α := α) (.error (unexpected tokens)) := by
  rintro _ ⟨rfl⟩
  cases tokens with
  | nil => exact ⟨_, rfl⟩
  | cons token rest => exact ⟨_, rfl⟩

theorem bind {x : Except Fault α} {f : α → Except Fault β} (hx : Complains x)
    (hf : ∀ a, Complains (f a)) : Complains (x >>= f) := by
  cases x with
  | error fault =>
    rintro _ ⟨rfl⟩
    exact hx fault rfl
  | ok a => exact hf a

end Complains

theorem complains_redirectTarget (tokens : List Token) : Complains (redirectTarget tokens) := by
  unfold redirectTarget
  dsimp only
  split
  · exact .ok _
  · exact .unexpected _

theorem complains_redirects (n : Nat) (tokens : List Token) : Complains (redirects n tokens) := by
  induction n generalizing tokens with
  | zero => exact .unexpected _
  | succ n ih =>
    rw [redirects]
    split
    · exact .ok _
    · split
      · exact .ok _
      · exact (complains_redirectTarget _).bind fun _ => (ih _).bind fun _ => .ok _

theorem complains_expect (kind : TokenKind) (tokens : List Token) :
    Complains (expect kind tokens) := by
  unfold expect
  split
  · exact .unexpected _
  · split
    · exact .ok _
    · exact .unexpected _

theorem complains_simpleItems (nested : Bool) (n : Nat) (simple : Simple) (tokens : List Token) :
    Complains (simpleItems nested n simple tokens) := by
  induction n generalizing simple tokens with
  | zero => exact .unexpected _
  | succ n ih =>
    rw [simpleItems]
    split
    · exact .ok _
    · split
      · exact .ok _
      · split
        · exact (complains_redirectTarget _).bind fun _ => ih _ _
        · split
          · split
            · exact ih _ _
            · split
              · exact .ok _
              · exact ih _ _
          · split
            · exact .ok _
            · exact ih _ _

/-- A reader gives no other trees, and no fault that is not about the syntax. -/
structure Names (result : Except Fault (Instruction × List Token)) : Prop where
  named : ∀ tree rest, result = .ok (tree, rest) → tree.Named
  complains : Complains result

namespace Names

theorem error {fault : Fault} (h : Complains (α := Instruction × List Token) (.error fault)) :
    Names (.error fault) :=
  ⟨nofun, h⟩

theorem unexpected (tokens : List Token) : Names (.error (unexpected tokens)) :=
  error (.unexpected tokens)

theorem ok {tree : Instruction} (h : tree.Named) (rest : List Token) : Names (.ok (tree, rest)) where
  named _ _ heq := by
    cases heq
    exact h
  complains := .ok _

theorem bind {x : Except Fault (Instruction × List Token)}
    {f : Instruction × List Token → Except Fault (Instruction × List Token)} (hx : Names x)
    (hf : ∀ tree rest, tree.Named → Names (f (tree, rest))) : Names (x >>= f) := by
  cases x with
  | error fault => exact error hx.complains
  | ok result => exact hf _ _ (hx.named _ _ rfl)

theorem after {α : Type} {x : Except Fault α} {f : α → Except Fault (Instruction × List Token)}
    (hx : Complains x) (hf : ∀ a, Names (f a)) : Names (x >>= f) := by
  cases x with
  | error fault =>
    refine error ?_
    rintro _ ⟨rfl⟩
    exact hx fault rfl
  | ok a => exact hf a

end Names

theorem named_both {left right : Instruction} (hleft : left.Named) (hright : right.Named)
    {tree : Instruction} (h : tree.assigned = left.assigned ++ right.assigned) : tree.Named := by
  intro name hname
  rw [h, List.mem_append] at hname
  exact hname.elim (hleft name) (hright name)

theorem named_separator {kind : TokenKind} {join : Instruction → Instruction → Instruction}
    (h : separator? kind = some join) {first next : Instruction} (hfirst : first.Named)
    (hnext : next.Named) : (join first next).Named := by
  refine named_both hfirst hnext ?_
  cases kind <;> cases h <;> rfl

theorem named_wrapRedirects {inner : Instruction} (h : inner.Named) (redirects : List Redirect) :
    (wrapRedirects inner redirects).Named := by
  induction redirects with
  | nil => exact h
  | cons redirect redirects ih => exact ih

theorem assignmentName?_identifier {tokens rest : List Token} {name : String}
    (h : assignmentName? tokens = some (name, rest)) : isIdentifier name = true := by
  unfold assignmentName? at h
  split at h
  · split at h
    · rename_i hname
      cases h
      exact hname.2.1
    · cases h
  · cases h

def Simple.Named (simple : Simple) : Prop := ∀ a ∈ simple.assignments, isIdentifier a.1 = true

theorem named_simpleItems {nested : Bool} {n : Nat} {simple found : Simple}
    {tokens rest : List Token} (h : simple.Named)
    (hfound : simpleItems nested n simple tokens = .ok (found, rest)) : found.Named := by
  induction n generalizing simple tokens with
  | zero => cases hfound
  | succ n ih =>
    have hword {words : List Word} : Simple.Named { simple with words } := h
    rw [simpleItems] at hfound
    split at hfound
    · cases hfound
      exact h
    · split at hfound
      · cases hfound
        exact h
      · split at hfound
        · rename_i rest _ _ _ mode _
          cases htarget : redirectTarget rest with
          | error fault =>
            rw [htarget] at hfound
            cases hfound
          | ok target =>
            obtain ⟨target, left⟩ := target
            rw [htarget] at hfound
            change simpleItems nested n { simple with redirects := _ } left = _ at hfound
            refine ih ?_ hfound
            exact h
        · split at hfound
          · split at hfound
            · rename_i name rest hname
              refine ih (fun a ha => ?_) hfound
              rcases List.mem_append.1 ha with ha | ha
              · exact h a ha
              · rw [List.mem_singleton.1 ha]
                exact assignmentName?_identifier hname
            · split at hfound
              · cases hfound
                exact h
              · exact ih hword hfound
          · split at hfound
            · cases hfound
              exact h
            · exact ih hword hfound

theorem names_simpleCommand (nested : Bool) (tokens : List Token) :
    Names (simpleCommand nested tokens) := by
  unfold simpleCommand
  have hcomplains := complains_simpleItems nested (tokens.length + 1) {} tokens
  cases hitems : simpleItems nested (tokens.length + 1) {} tokens with
  | error fault =>
    refine .error ?_
    rintro _ ⟨rfl⟩
    exact hcomplains fault hitems
  | ok found =>
    obtain ⟨simple, rest⟩ := found
    change Names (if simple.isEmpty then _ else _)
    have hsimple := named_simpleItems (fun _ h => absurd h List.not_mem_nil) hitems
    split
    · exact .unexpected _
    · refine .ok (named_wrapRedirects (fun name hname => ?_) _) _
      obtain ⟨a, ha, rfl⟩ := List.mem_map.1 hname
      exact hsimple a ha

/-- All readers with that many calls. -/
structure Naming (n : Nat) : Prop where
  list : ∀ nested tokens, Names (list n nested tokens)
  andOr : ∀ nested tokens, Names (andOr n nested tokens)
  andOrRest : ∀ nested left tokens, left.Named → Names (andOrRest n nested left tokens)
  pipeline : ∀ nested tokens, Names (pipeline n nested tokens)
  pipelineRest : ∀ nested left tokens, left.Named → Names (pipelineRest n nested left tokens)
  command : ∀ nested tokens, Names (command n nested tokens)

theorem naming (n : Nat) : Naming n := by
  induction n with
  | zero => constructor <;> intros <;> exact Names.unexpected _
  | succ n ih =>
    constructor
    case list =>
      intro nested tokens
      rw [list]
      dsimp only
      split
      · exact .ok (fun _ h => absurd h List.not_mem_nil) _
      · refine (ih.andOr _ _).bind fun first rest hfirst => ?_
        dsimp only
        split
        · exact .ok hfirst _
        · split
          · exact .ok hfirst _
          · rename_i join hjoin
            split
            · exact .ok hfirst _
            · exact (ih.list _ _).bind fun next rest hnext =>
                .ok (named_separator hjoin hfirst hnext) _
    case andOr =>
      intro nested tokens
      exact (ih.pipeline _ _).bind fun left rest hleft => ih.andOrRest _ _ _ hleft
    case andOrRest =>
      intro nested left tokens hleft
      rw [andOrRest]
      split
      · exact .ok hleft _
      · split
        · exact .ok hleft _
        · exact (ih.pipeline _ _).bind fun right rest hright =>
            ih.andOrRest _ _ _ (named_both hleft hright rfl)
    case pipeline =>
      intro nested tokens
      exact (ih.command _ _).bind fun left rest hleft => ih.pipelineRest _ _ _ hleft
    case pipelineRest =>
      intro nested left tokens hleft
      rw [pipelineRest]
      split
      · exact .ok hleft _
      · split
        · exact (ih.command _ _).bind fun right rest hright =>
            ih.pipelineRest _ _ _ (named_both hleft hright rfl)
        · exact .ok hleft _
    case command =>
      intro nested tokens
      rw [command]
      split
      · exact names_simpleCommand ..
      · split
        · exact (ih.list _ _).bind fun body rest hbody => .after (complains_expect _ _) fun rest =>
            .after (complains_redirects _ _) fun found => .ok (named_wrapRedirects hbody _) _
        · exact (ih.list _ _).bind fun body rest hbody => .after (complains_expect _ _) fun rest =>
            .after (complains_redirects _ _) fun found =>
              .ok (named_wrapRedirects (show (Instruction.scoped body).Named from hbody) _) _
        · split
          · exact (ih.command _ _).bind fun body rest hbody =>
              .ok (show (Instruction.function _ body).Named from hbody) rest
          · exact names_simpleCommand ..

end Parser

theorem complains_parseScript (options : ParseOptions) (text : String) (localScope : Bool) :
    Parser.Complains (parseScript options text localScope) := by
  unfold parseScript
  split
  · refine ((Parser.naming _).list false _).complains.bind fun found => ?_
    dsimp only
    split
    · exact .ok _
    · exact .unexpected _
  · exact .unexpected _

theorem named_of_parseScript {options : ParseOptions} {text : String} {localScope : Bool}
    {tree : Instruction} (h : parseScript options text localScope = .ok tree) : tree.Named := by
  unfold parseScript at h
  split at h
  · rename_i tokens _
    unfold parse at h
    have hlist := (Parser.naming (Parser.budget tokens)).list false tokens
    cases hread : Parser.list (Parser.budget tokens) false tokens with
    | error fault =>
      rw [hread] at h
      cases h
    | ok found =>
      obtain ⟨tree, rest⟩ := found
      have htree := hlist.named tree rest hread
      rw [hread] at h
      simp only [bind, Except.bind] at h
      split at h
      · cases h
        split <;> exact htree
      · cases h
  · cases h

end ToyUnix
