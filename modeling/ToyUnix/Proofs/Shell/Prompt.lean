import ToyUnix.Proofs.Shell.Graceful
import ToyUnix.Proofs.Shell.Leftovers

/-!
What one prompt cycle does for a session. It uses up a line unless it ends with a fault, it leaves
nobody alive that it has started, and it comes to an end if the command that it reads does.
-/

set_option autoImplicit false

namespace ToyUnix

open Job (Keeps Tends Tidy)
open World (Around Frugal)

namespace Shell

variable {id scope : Nat} {settings : ShellSettings} {host : Context} {w v s : World}

/-! Lines. -/

theorem readLogical_lines {limit : Nat} {before text : String} (hw : settings.console.Within w)
    (h : readLogical settings limit before w = (some text, s)) :
    settings.console.lines s + 1 ≤ settings.console.lines w := by
  induction limit generalizing before w with
  | zero => cases h
  | succ limit ih =>
    have hread : w.Frugal 0 (settings.console.readLine w).2 := .readLine w settings.console
    simp only [readLogical] at h
    split at h <;> rename_i hline <;> rw [hline] at hread
    · cases h
    · rename_i line t
      have hless := Console.lines_readLine hline
      have hwrite : t.Frugal 0 (settings.console.write t settings.config.continuationPrompt) :=
        .write ..
      split at h
      · cases h
        exact Nat.le_of_eq hless
      · obtain ⟨hwithin, hle⟩ := hwrite.lines (hread.lines hw).1
        have := ih hwithin h
        omega

theorem drain_frugal (depth limit : Nat) (shell : Context) :
    (drain (execute depth) id shell settings limit).Keeps (.frugal 0) := by
  induction limit with
  | zero => exact Keeps.pure ()
  | succ limit ih =>
    refine (Keeps.update fun w => ?_).bind fun taken => ?_
    · change w.Frugal 0 (takePending id w).2
      unfold takePending
      split
      · exact .anyShell ..
      · exact .refl w
    split
    · exact Keeps.pure ()
    refine (execute_frugal 0 depth ..).attempt.bind fun outcome => ?_
    split
    · exact ih
    · exact (Keeps.modify fun w => (Manners.frugal 0).writeLine ..).bind fun _ => ih
    · exact (Keeps.modify fun w => Frugal.anyShell ..).bind fun _ => Keeps.throw _
    · refine (Keeps.modify fun w => Frugal.anyShell ..).bind fun _ => ?_
      exact (reportFault_frugal ..).bind fun _ => ih

theorem cycle_frugal {depth : Nat} {result : Except Fault Unit}
    (hrun : (cycle (execute depth) id scope settings host w).finish = some (s, result)) :
    (readCommand settings (showPrompt id settings host w)).2.Frugal 0 s := by
  rw [cycle_eq] at hrun
  generalize readCommand settings (showPrompt id settings host w) = read at hrun
  obtain ⟨_ | line, v⟩ := read
  · cases hrun
    exact .refl _
  simp only at hrun
  split at hrun
  · cases hrun
    exact .refl _
  split at hrun
  · exact (reportFault_frugal ..).finish (Nat.zero_le _) hrun
  · rename_i tree _
    rw [Course.finish_bind] at hrun
    obtain ⟨⟨t, drained⟩, hdrain, hdone⟩ := Option.bind_eq_some_iff.1 hrun
    cases hdone
    have hdrained := (drain_frugal depth _ _).finish (Nat.zero_le _) hdrain
    exact (Frugal.anyShell v id _).trans (Frugal.trans hdrained (.anyShell t id _))

theorem lines_cycle {depth : Nat} (hw : settings.console.Within w) {result : Except Fault Unit}
    (hrun : (cycle (execute depth) id scope settings host w).finish = some (s, result)) :
    settings.console.Within s ∧ settings.console.lines s ≤ settings.console.lines w ∧
      (result = .ok () → settings.console.lines s + 1 ≤ settings.console.lines w) := by
  have hprompt : w.Frugal 0 (showPrompt id settings host w) := showPrompt_keeps (.frugal 0) ..
  have hread : (showPrompt id settings host w).Frugal 0
      (readCommand settings (showPrompt id settings host w)).2 := readCommand_keeps (.frugal 0) ..
  obtain ⟨hwithin, hle⟩ := hprompt.lines hw
  obtain ⟨hwithin', hle'⟩ := hread.lines hwithin
  obtain ⟨hend, hle''⟩ := (cycle_frugal hrun).lines hwithin'
  refine ⟨hend, by omega, ?_⟩
  rintro rfl
  rcases hcommand : readCommand settings (showPrompt id settings host w) with ⟨_ | text, v⟩
  · rw [cycle_eq, hcommand] at hrun
    cases hrun
  · rw [hcommand] at hle''
    have hless := readLogical_lines hwithin hcommand
    exact Nat.le_trans (Nat.succ_le_succ hle'') (Nat.le_trans hless hle)

/-! Processes. -/

section Outset

open Outset

variable {E : Outset}

theorem tidy_drain {shell : Context} (hshell : E.Admits shell) (depth limit : Nat) :
    Tidy E w (drain (execute depth) id shell settings limit) := by
  induction limit generalizing w with
  | zero => exact tidy_pure ()
  | succ limit ih =>
    refine (tidy_update fun hw => hw.apart ?_).bind fun taken s _ _ => ?_
    · unfold takePending
      split <;> exact ⟨rfl, rfl⟩
    split
    · exact tidy_pure ()
    refine (runs_execute depth shell _ _ s hshell).attempt.bind fun outcome s _ _ => ?_
    split
    · exact ih
    · exact (tidy_modify fun hs => hs.apart (Console.writeLine_apart ..)).bind fun _ s _ _ => ih
    · exact (tidy_modify fun hs => hs.apart ⟨rfl, rfl⟩).bind fun _ s _ _ => Tends.throw _
    · refine (tidy_modify fun hs => hs.apart ⟨rfl, rfl⟩).bind fun _ s _ _ => ?_
      exact (tidy_reportFault ..).bind fun _ s _ _ => ih

theorem tidy_cycle (hshell : E.Admits (.shell id scope settings host)) (depth : Nat) :
    Tidy E w (cycle (execute depth) id scope settings host) := by
  refine (tidy_modify fun hw => hw.apart (showPrompt_keeps .aloof ..)).bind fun _ s _ _ => ?_
  refine (tidy_update fun hs => hs.apart (readCommand_keeps .aloof ..)).bind fun line s _ _ => ?_
  split
  · exact Tends.throw _
  split
  · exact tidy_pure ()
  split
  · exact tidy_reportFault ..
  refine (tidy_modify fun hs => hs.apart ⟨rfl, rfl⟩).bind fun _ s _ _ => Tends.get_bind ?_
  refine (tidy_drain hshell depth _).attempt.bind fun result s _ _ => ?_
  exact (tidy_modify fun hs => hs.apart (setMode_apart ..)).bind fun _ s _ _ => tidy_ofExcept _

theorem isAlive_cycle {limit depth : Nat} (hw : w.processes.Sound limit)
    {result : Except Fault Unit}
    (hrun : (cycle (execute depth) id scope settings host w).finish = some (s, result)) (q : Nat) :
    s.processes.isAlive q = w.processes.isAlive q := by
  have htidy := tidy_cycle (w := w) (admits_plain w (.shell id scope settings host)) depth
  obtain ⟨hs, hgone, -⟩ := htidy.finish (since_plain hw _) hrun
  by_cases hlt : q < w.processes.all.length
  · exact hs.processes.isAlive_eq hlt
  · rw [hgone q (Nat.not_lt.1 hlt)]
    by_contra halive
    exact hlt (Processes.isAlive_lt (by simpa using Ne.symm halive))

end Outset

/-! Ends. -/

/-- The command that is read at the prompt comes to an end, if one is read. -/
def CommandEnds (depth id scope : Nat) (settings : ShellSettings) (host : Context) (w : World) :
    Prop :=
  ∀ line v tree, readCommand settings (showPrompt id settings host w) = (some line, v) →
    isBlankText line = false → parseScript settings.options line false = .ok tree →
      (execute depth (.shell id scope settings host) settings.console tree
        (setMode (.shell id scope settings host) .executing v)).finish ≠ none

theorem takePending_enqueue {mode : ShellMode} (h : w.duty? id = some ([], mode))
    (tree : Instruction) (scope : Nat) (settings : ShellSettings) (host : Context) :
    takePending id (enqueue id tree w) =
      (some tree, setMode (.shell id scope settings host) .executing w) := by
  obtain ⟨state, hstate, heq⟩ := Option.map_eq_some_iff.1 h
  obtain ⟨hpending, -⟩ := Prod.mk.inj heq
  have htaken : (enqueue id tree w).shells[id]?.map (·.pending) = some [tree] := by
    simp [enqueue, World.updateShell, hstate, hpending]
  have hshells : ((enqueue id tree w).updateShell id fun shell =>
      { shell with pending := [] }).shells =
      (setMode (.shell id scope settings host) .executing w).shells := by
    refine List.ext_getElem? fun other => ?_
    simp only [enqueue, setMode, World.updateShell, List.getElem?_modify]
    by_cases hother : id = other
    · subst hother
      simp [hstate, hpending]
    · simp [hother]
  unfold takePending
  rw [htaken]
  exact congrArg (fun shells => (some tree, { w with shells })) hshells

theorem drain_nothing {call : Caller} {shell : Context} {mode : ShellMode}
    (h : w.duty? id = some ([], mode)) (limit : Nat) :
    drain call id shell settings limit w = .done w (.ok ()) := by
  cases limit with
  | zero => rfl
  | succ limit =>
    obtain ⟨state, hstate, heq⟩ := Option.map_eq_some_iff.1 h
    have htaken : takePending id w = (none, w) := by
      simp [takePending, hstate, (Prod.mk.inj heq).1]
    rw [drain, Job.update_bind, htaken]
    rfl

theorem drain_finishes {depth : Nat} {shell : Context} {tree : Instruction} {mode : ShellMode}
    (htaken : takePending id w = (some tree, v)) (hv : v.duty? id = some ([], mode))
    (hends : (execute depth shell settings.console tree v).finish ≠ none) :
    (drain (execute depth) id shell settings 2 w).finish ≠ none := by
  obtain ⟨⟨t, outcome⟩, hcall⟩ := Option.ne_none_iff_exists'.1 hends
  have ht := (execute_around hcall).duty hv
  have hdone {u : World} {limit : Nat} (h : u.duty? id = some ([], mode)) :
      (drain (execute depth) id shell settings limit u).finish ≠ none := by
    rw [drain_nothing h]
    exact Option.some_ne_none _
  rw [drain, Job.update_bind, htaken]
  simp only [Job.attempt_bind, Course.finish_bind, hcall, Option.bind_some]
  split
  · exact hdone ht
  · exact hdone ((Around.writeLine ..).duty ht)
  · exact Option.some_ne_none _
  · have hclear := duty?_clearPending ht
    rw [Job.modify_bind]
    unfold reportFault
    split
    · rw [Job.modify_bind]
      exact hdone ((Around.writeLine ..).duty hclear)
    · exact Option.some_ne_none _

theorem cycle_finishes_iff {depth : Nat} (hidle : w.duty? id = some ([], .idle)) :
    (cycle (execute depth) id scope settings host w).finish ≠ none ↔
      CommandEnds depth id scope settings host w := by
  rw [cycle_eq]
  have hprompt := prompted_around id settings host w
  unfold CommandEnds
  generalize readCommand settings (showPrompt id settings host w) = read at hprompt ⊢
  obtain ⟨_ | line, v⟩ := read
  · exact iff_of_true (Option.some_ne_none _) nofun
  have hv : v.duty? id = some ([], .idle) := hprompt.duty hidle
  simp only
  split
  · rename_i hblank
    refine iff_of_true (Option.some_ne_none _) ?_
    rintro _ _ _ ⟨⟩ hfilled
    rw [hblank] at hfilled
    cases hfilled
  rename_i hblank
  cases hparse : parseScript settings.options line false with
  | error fault =>
    refine iff_of_true ?_ ?_
    · simp only [reportFault]
      split <;> exact Option.some_ne_none _
    · rintro _ _ _ ⟨⟩ - hok
      rw [hparse] at hok
      cases hok
  | ok tree =>
    have htaken := takePending_enqueue hv tree scope settings host
    simp only [(enqueue_idle hv tree).2, Course.finish_bind]
    constructor
    · rintro h _ _ _ ⟨⟩ - hok hcall
      rw [hparse] at hok
      obtain rfl := Except.ok.inj hok
      refine h ?_
      rw [drain, Job.update_bind, htaken]
      simp only [Job.attempt_bind, Course.finish_bind, hcall, Option.bind_none]
    · intro hends
      have hrun := drain_finishes htaken (duty?_setMode hv .executing)
        (hends line v tree rfl (by simpa using hblank) hparse)
      obtain ⟨⟨s, result⟩, hdrain⟩ := Option.ne_none_iff_exists'.1 hrun
      rw [hdrain]
      exact Option.some_ne_none _

end Shell

end ToyUnix
