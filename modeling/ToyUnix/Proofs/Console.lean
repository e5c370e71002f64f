import Mathlib.Tactic.Cases
import ToyUnix.Console

/-!
What is left to read. A console gives its lines one by one, and each is given once.
-/

set_option autoImplicit false

namespace ToyUnix

/-- The lines of a byte input. What stands after the last newline is one too. -/
def lineCount : Bytes → Nat
  | [] => 0
  | byte :: bytes => if byte = 10 then lineCount bytes + 1 else max 1 (lineCount bytes)

theorem lineCount_le (bytes : Bytes) : lineCount bytes ≤ bytes.length := by
  induction bytes with
  | nil => exact Nat.le_refl _
  | cons byte bytes ih =>
    simp only [lineCount, List.length_cons]
    split <;> omega

theorem lineCount_takeLine {bytes : Bytes} (h : bytes ≠ []) :
    lineCount (Reader.takeLine bytes).2 + 1 = lineCount bytes := by
  induction bytes with
  | nil => exact absurd rfl h
  | cons byte bytes ih =>
    simp only [Reader.takeLine, lineCount]
    split
    · rfl
    · cases bytes with
      | nil => rfl
      | cons next rest =>
        have := ih (List.cons_ne_nil _ _)
        simp only
        omega

theorem lineCount_takeTerminalLine (input : Bytes) :
    lineCount (Console.takeTerminalLine input).2 ≤ lineCount input ∧
      ∀ line, (Console.takeTerminalLine input).1 = some line →
        lineCount (Console.takeTerminalLine input).2 + 1 = lineCount input := by
  have htake : (Console.takeTerminalLine input).2 = (Reader.takeLine input).2 := by
    unfold Console.takeTerminalLine
    split
    · simp [*]
    · split <;> simp [*]
  rw [htake]
  by_cases hinput : input = []
  · subst hinput
    exact ⟨Nat.le_refl _, nofun⟩
  · have := lineCount_takeLine hinput
    exact ⟨by omega, fun _ _ => this⟩

namespace Console

def lines (w : World) : Console → Nat
  | .buffer id => (w.buffers[id]?.map (·.input.length)).getD 0
  | .terminal id => (w.terminals[id]?.map (lineCount ·.input)).getD 0
  | .input id _ => (w.inputs[id]?.map (·.length)).getD 0
  | .pipe _ parent | .file _ parent => lines w parent

def Within (w : World) : Console → Prop
  | .buffer id => id < w.buffers.length
  | .terminal id => id < w.terminals.length
  | .input id _ => id < w.inputs.length
  | .pipe _ parent | .file _ parent => Within w parent

theorem lines_le_linesLeft (w : World) (console : Console) :
    console.lines w ≤ console.linesLeft w := by
  induction console with
  | terminal id =>
    simp only [lines, linesLeft]
    cases w.terminals[id]? with
    | none => exact Nat.le_refl _
    | some state => exact lineCount_le _
  | pipe id parent ih => exact ih
  | file writer parent ih => exact ih
  | _ => exact Nat.le_refl _

theorem lines_readLine {w w' : World} {console : Console} {line : String}
    (h : console.readLine w = (some line, w')) : console.lines w' + 1 = console.lines w := by
  induction console with
  | buffer id =>
    simp only [readLine] at h
    split at h
    · rename_i first rest hinput
      cases h
      obtain ⟨state, hstate, hrest⟩ := Option.map_eq_some_iff.1 hinput
      simp [lines, updateBuffer, hstate, hrest]
    · cases h
  | terminal id =>
    simp only [readLine] at h
    split at h
    · cases h
    · rename_i state hstate
      obtain ⟨hline, rfl⟩ := Prod.mk.inj h
      simpa [lines, updateTerminal, hstate] using
        (lineCount_takeTerminalLine state.input).2 line hline
  | input id parent =>
    simp only [readLine] at h
    split at h
    · rename_i first rest hinput
      cases h
      have := (List.getElem?_eq_some_iff.1 hinput).1
      simp only [lines, List.getElem?_set_self this, hinput]
      rfl
    · cases h
  | pipe id parent ih => exact ih h
  | file writer parent ih => exact ih h

end Console

end ToyUnix
