import Mathlib.Data.List.Infix
import ToyUnix.Text.Lines

/-!
What the lines of a text come to when they are written one by one, each with a newline after it.
That is the text again, but for the carriage returns that belonged to the endings, and the last line
is ended too: see `join_textLines`.
-/

set_option autoImplicit false

namespace ToyUnix

/-- One carriage return less before each newline. -/
def dropReturns : List Char → List Char
  | '\r' :: '\n' :: cs => '\n' :: dropReturns cs
  | c :: cs => c :: dropReturns cs
  | [] => []

/-- A newline, unless the last line is ended already or there is none. -/
def lastEnding (cs : List Char) : List Char :=
  if cs = [] ∨ cs.getLast? = some '\n' then [] else ['\n']

/-- A text with all its lines ended by a newline alone. -/
def relined (text : String) : String :=
  String.ofList (dropReturns text.toList ++ lastEnding text.toList)

theorem dropReturns_eq_self_iff (cs : List Char) :
    dropReturns cs = cs ↔ ¬ ['\r', '\n'] <:+: cs := by
  fun_induction dropReturns cs with
  | case1 cs ih =>
    have hwithin : ['\r', '\n'] <:+: '\r' :: '\n' :: cs := ⟨[], cs, rfl⟩
    simp [hwithin]
  | case2 c cs hother ih =>
    have hstart : ¬ ['\r', '\n'] <+: c :: cs := by
      rintro ⟨rest, heq⟩
      obtain ⟨rfl, rfl⟩ := List.cons.inj heq
      exact hother rest rfl rfl
    simp [ih, List.infix_cons_iff, hstart]
  | case3 => simp

theorem dropReturns_line {line : List Char} (hline : '\n' ∉ line) (cs : List Char) :
    dropReturns (line ++ '\n' :: cs) = dropReturn line ++ '\n' :: dropReturns cs := by
  induction line with
  | nil => rfl
  | cons c line ih =>
    obtain ⟨-, hline⟩ := List.ne_and_not_mem_of_not_mem_cons hline
    cases line with
    | nil => by_cases hreturn : c = '\r' <;> simp [dropReturns, dropReturn, hreturn]
    | cons d line =>
      have hd : d ≠ '\n' := fun heq => hline (heq ▸ List.mem_cons_self)
      have hdrop : dropReturn (c :: d :: line) = c :: dropReturn (d :: line) := by
        simp only [dropReturn, List.getLast?_cons_cons, List.dropLast_cons_cons]
        split <;> rfl
      have hfirst : dropReturns (c :: (d :: line ++ '\n' :: cs)) =
          c :: dropReturns (d :: line ++ '\n' :: cs) := by
        simp [dropReturns, hd]
      rw [hdrop, List.cons_append, hfirst, ih hline, List.cons_append]

theorem dropReturns_unended {line : List Char} (hline : '\n' ∉ line) : dropReturns line = line := by
  rw [dropReturns_eq_self_iff]
  exact fun hwithin => hline (hwithin.subset (by simp))

theorem lastEnding_line (line cs : List Char) : lastEnding (line ++ '\n' :: cs) = lastEnding cs := by
  cases cs with
  | nil => simp [lastEnding]
  | cons c cs =>
    have hlast : (line ++ '\n' :: c :: cs).getLast? = (c :: cs).getLast? := by
      rw [List.getLast?_append_of_ne_nil _ (List.cons_ne_nil _ _), List.getLast?_cons_cons]
    simp [lastEnding, hlast]

/-- By induction on what is still to be split; the line begun so far has not ended. -/
theorem flatMap_linesFrom {current : List Char} (hcurrent : '\n' ∉ current) (cs : List Char) :
    (linesFrom current cs).flatMap (· ++ ['\n']) =
      dropReturns (current ++ cs) ++ lastEnding (current ++ cs) := by
  induction cs generalizing current with
  | nil =>
    rw [List.append_nil, dropReturns_unended hcurrent]
    by_cases hnil : current = []
    · subst hnil
      rfl
    · have hlast : current.getLast? ≠ some '\n' := fun heq =>
        hcurrent (List.mem_of_getLast? heq)
      simp [linesFrom, lastEnding, hnil, hlast]
  | cons c cs ih =>
    by_cases hc : c = '\n'
    · subst hc
      rw [linesFrom, List.flatMap_cons, ih List.not_mem_nil, dropReturns_line hcurrent,
        lastEnding_line]
      simp
    · have hmore : '\n' ∉ current ++ [c] := by simpa [hcurrent] using Ne.symm hc
      rw [linesFrom, ih hmore, List.append_assoc]
      · rfl
      · exact hc

theorem join_textLines (text : String) :
    String.join ((textLines text).map (· ++ "\n")) = relined text := by
  refine String.toList_injective ?_
  rw [String.toList_join, relined, String.toList_ofList, textLines, List.map_map, List.flatMap_map]
  simpa using flatMap_linesFrom List.not_mem_nil text.toList

theorem relined_eq_self_iff (text : String) : relined text = text ↔
    (text.toList = [] ∨ text.toList.getLast? = some '\n') ∧
      ¬ ['\r', '\n'] <:+: text.toList := by
  rw [← String.toList_inj, relined, String.toList_ofList]
  by_cases hended : text.toList = [] ∨ text.toList.getLast? = some '\n'
  · rw [lastEnding, if_pos hended, List.append_nil, dropReturns_eq_self_iff]
    exact (and_iff_right hended).symm
  · -- With the newline at its end it is another text.
    refine iff_of_false (fun heq => hended (.inr ?_)) (fun h => hended h.1)
    rw [← heq, lastEnding, if_neg hended]
    simp

end ToyUnix
