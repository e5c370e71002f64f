import ToyUnix.Process.Basic

/-!
Killing. A process dies after all its live descendants, and only then do its reactions run. They may
fork, kill and listen themselves, so what is still to be done is a stack of errands. It empties: a
reaction step is done once, and between two of them a kill only spreads to children, which are
younger than their parents.
-/

set_option autoImplicit false

namespace ToyUnix

inductive Errand
  /-- Kill the live children, then the process itself. -/
  | kill (target : Nat) (code : Int)
  /-- Only the process itself is left to die. -/
  | finish (target : Nat) (code : Int)
  | react (dead : Nat) (reaction : Reaction)
  deriving DecidableEq, Repr

namespace Reaction

def size : Reaction → Nat
  | .done => 1
  | .note _ next | .fork _ next | .forkAs _ _ next | .kill _ _ next => next.size + 1
  | .listen _ reaction next => reaction.size + next.size + 1

end Reaction

namespace Processes

def noteOf (s : Processes) (dead : Nat) (tag : String) : DeathNote :=
  ⟨tag, s.pidOf dead, (s.all[dead]?.map (·.exitCode)).getD 0, s.isAlive dead,
    (s.children dead).map s.pidOf⟩

/-- The process is dead and off its table, and its reactions are taken from it. -/
def bury (s : Processes) (process : Process) (p : Nat) (code : Int) : Processes :=
  let corpse := { process with alive := false, exitCode := code, reactions := [] }
  Processes.updateTable { s with all := s.all.set p corpse } process.table fun table =>
    if table.present then table.release process.pid else table

/-- The next reaction step, and what is to be done before the rest of the reaction. -/
def step (s : Processes) : Errand → List Errand × Processes
  | .kill p code =>
    if s.isAlive p then ((s.children p).map (.kill · code) ++ [.finish p code], s) else ([], s)
  | .finish p code =>
    match s.all[p]? with
    | none => ([], s)
    | some process =>
      if process.alive then (process.reactions.map (.react p), s.bury process p code) else ([], s)
  | .react _ .done => ([], s)
  | .react p (.note tag next) =>
    ([.react p next], { s with deaths := s.deaths ++ [s.noteOf p tag] })
  | .react p (.fork parent next) => ([.react p next], (s.fork parent).2)
  | .react p (.forkAs parent user next) => ([.react p next], (s.forkAs parent user).2)
  | .react p (.kill target code next) => ([.kill target code, .react p next], s)
  | .react p (.listen target reaction next) =>
    match s.all[target]? with
    | none => ([.react p next], s)
    | some process =>
      if process.alive then
        let listening := { process with reactions := process.reactions ++ [reaction] }
        ([.react p next], { s with all := s.all.set target listening })
      else ([.react target reaction, .react p next], s)

/-! Two measures for the stack: the reaction steps that can still come, and how far the kills on it
can still spread. -/

end Processes

/-- More than a kill can spread to through `depth` generations of `n` processes. -/
def reach (n : Nat) : Nat → Nat
  | 0 => 1
  | depth + 1 => reach n depth * (n + 2)

theorem reach_pos (n depth : Nat) : 0 < reach n depth := by
  induction depth with
  | zero => exact Nat.one_pos
  | succ depth ih => exact Nat.mul_pos ih (by omega)

theorem reach_le {n a b : Nat} (h : a ≤ b) : reach n a ≤ reach n b := by
  induction h with
  | refl => exact Nat.le_refl _
  | step _ ih => exact Nat.le_trans ih (Nat.le_mul_of_pos_right _ (by omega))

def total {α : Type} (size : α → Nat) : List α → Nat
  | [] => 0
  | a :: rest => size a + total size rest

theorem total_append {α : Type} (size : α → Nat) (a b : List α) :
    total size (a ++ b) = total size a + total size b := by
  induction a with
  | nil => simp [total]
  | cons first rest ih => simp only [List.cons_append, total, ih, Nat.add_assoc]

namespace Errand

def reactionSize : Errand → Nat
  | .react _ reaction => reaction.size
  | _ => 0

def spread (n : Nat) : Errand → Nat
  | .kill p _ => reach n (n - p)
  | .finish _ _ => 1
  | .react _ _ => 0

end Errand

namespace Processes

def reactionSize (reactions : List Reaction) : Nat := total Reaction.size reactions

def waiting (s : Processes) : Nat := total (fun process => reactionSize process.reactions) s.all

def steps (errands : List Errand) : Nat := total Errand.reactionSize errands

def spread (n : Nat) (errands : List Errand) : Nat := total (Errand.spread n) errands

theorem steps_append (a b : List Errand) : steps (a ++ b) = steps a + steps b :=
  total_append _ a b

theorem spread_append (n : Nat) (a b : List Errand) : spread n (a ++ b) = spread n a + spread n b :=
  total_append _ a b

theorem waiting_set (s : Processes) (p : Nat) (process changed : Process)
    (h : s.all[p]? = some process) :
    total (fun process => reactionSize process.reactions) (s.all.set p changed)
      + reactionSize process.reactions = s.waiting + reactionSize changed.reactions := by
  unfold waiting
  generalize s.all = all at h ⊢
  induction all generalizing p with
  | nil => simp at h
  | cons first rest ih =>
    cases p with
    | zero =>
      simp only [List.getElem?_cons_zero, Option.some.injEq] at h
      subst h
      simp only [List.set_cons_zero, total]
      omega
    | succ p =>
      simp only [List.getElem?_cons_succ] at h
      have := ih p h
      simp only [List.set_cons_succ, total]
      omega

theorem all_updateTable (s : Processes) (t : Nat) (f : ProcessTable → ProcessTable) :
    (s.updateTable t f).all = s.all := by
  unfold updateTable
  split <;> rfl

theorem waiting_forkAs (s : Processes) (p : Nat) (user : User) :
    (s.forkAs p user).2.waiting = s.waiting := by
  unfold forkAs
  repeat' split
  all_goals first | rfl | simp [waiting, total_append, reactionSize, total]

theorem waiting_fork (s : Processes) (p : Nat) : (s.fork p).2.waiting = s.waiting := by
  unfold fork
  split
  · rfl
  · exact waiting_forkAs s p _

theorem mem_children {s : Processes} {p c : Nat} (h : c ∈ s.children p) :
    p < c ∧ c < s.all.length := by
  unfold children at h
  have := (List.mergeSort_perm _ _).mem_iff.1 h
  simp only [List.mem_map, List.mem_filter, Bool.and_eq_true, decide_eq_true_eq] at this
  obtain ⟨entry, ⟨hmem, hchild⟩, rfl⟩ := this
  have := List.snd_lt_of_mem_zipIdx hmem
  exact ⟨hchild.1.1, by omega⟩

theorem length_children (s : Processes) (p : Nat) : (s.children p).length ≤ s.all.length := by
  unfold children
  rw [List.length_mergeSort, List.length_map]
  exact Nat.le_trans (List.length_filter_le _ _) (by simp)

theorem spread_kills {n p : Nat} (code : Int) (hp : p < n) (targets : List Nat)
    (h : ∀ c ∈ targets, p < c) :
    spread n (targets.map (.kill · code)) ≤ targets.length * reach n (n - p - 1) := by
  induction targets with
  | nil => simp [spread, total]
  | cons c rest ih =>
    have hc := h c List.mem_cons_self
    have hr := ih fun d hd => h d (List.mem_cons_of_mem _ hd)
    have hreach : reach n (n - c) ≤ reach n (n - p - 1) := reach_le (by omega)
    simp only [spread, List.map_cons, total, Errand.spread, List.length_cons, Nat.add_mul,
      Nat.one_mul] at hr ⊢
    omega

theorem spread_children (s : Processes) (p : Nat) (code : Int) (hp : p < s.all.length) :
    spread s.all.length ((s.children p).map (.kill · code) ++ [.finish p code])
      < Errand.spread s.all.length (.kill p code) := by
  rw [spread_append]
  have hk := spread_kills code hp (s.children p) fun c hc => (mem_children hc).1
  have hl := Nat.mul_le_mul_right (reach s.all.length (s.all.length - p - 1))
    (length_children s p)
  have hpos := reach_pos s.all.length (s.all.length - p - 1)
  have hsucc : reach s.all.length (s.all.length - p)
      = reach s.all.length (s.all.length - p - 1) * (s.all.length + 2) := by
    rw [show s.all.length - p = s.all.length - p - 1 + 1 by omega]
    rfl
  have hlast : spread s.all.length [.finish p code] = 1 := rfl
  rw [hlast]
  simp only [Errand.spread, hsucc, Nat.mul_add, Nat.mul_comm _ s.all.length]
  omega

theorem isAlive_lt {s : Processes} {p : Nat} (h : s.isAlive p = true) : p < s.all.length := by
  unfold isAlive at h
  cases hp : s.all[p]? with
  | none => simp [hp] at h
  | some process => exact (List.getElem?_eq_some_iff.1 hp).1

theorem steps_reactions (p : Nat) (reactions : List Reaction) :
    steps (reactions.map (.react p)) = reactionSize reactions := by
  induction reactions with
  | nil => rfl
  | cons first rest ih => simp_all [steps, reactionSize, total, Errand.reactionSize]

theorem spread_reactions (n p : Nat) (reactions : List Reaction) :
    spread n (reactions.map (.react p)) = 0 := by
  induction reactions with
  | nil => rfl
  | cons first rest ih => simp_all [spread, total, Errand.spread]

/-- Each step either uses up a reaction step or leaves those as they are and spreads less far. -/
theorem step_decreases (s : Processes) (errand : Errand) (rest : List Errand) :
    Prod.Lex (· < ·) (· < ·)
      (steps ((s.step errand).1 ++ rest) + (s.step errand).2.waiting,
        spread (s.step errand).2.all.length ((s.step errand).1 ++ rest))
      (steps (errand :: rest) + s.waiting, spread s.all.length (errand :: rest)) := by
  have hcons : ∀ e : Errand, steps (e :: rest) = e.reactionSize + steps rest := fun e => rfl
  have hspread : ∀ e : Errand,
      spread s.all.length (e :: rest) = e.spread s.all.length + spread s.all.length rest :=
    fun e => rfl
  match errand with
  | .kill p code =>
    have hkills : ∀ targets : List Nat, steps (targets.map (.kill · code)) = 0 := by
      intro targets
      induction targets <;> simp_all [steps, total, Errand.reactionSize]
    simp only [step]
    split
    · rename_i hp
      have := spread_children s p code (isAlive_lt hp)
      rw [steps_append, spread_append, steps_append, hkills, hcons, hspread]
      simp only [steps, total, Errand.reactionSize, Nat.zero_add]
      exact Prod.Lex.right _ (by omega)
    · rw [hcons, hspread]
      simp only [List.nil_append, Errand.reactionSize, Nat.zero_add]
      have : 0 < Errand.spread s.all.length (.kill p code) := reach_pos _ _
      exact Prod.Lex.right _ (by omega)
  | .finish p code =>
    have hidle : Prod.Lex (· < ·) (· < ·) (steps rest + s.waiting, spread s.all.length rest)
        (steps (.finish p code :: rest) + s.waiting,
          spread s.all.length (.finish p code :: rest)) := by
      rw [hcons, hspread]
      simp only [Errand.reactionSize, Nat.zero_add]
      exact Prod.Lex.right _ (by simp [Errand.spread])
    simp only [step]
    split
    · exact hidle
    · rename_i process hp
      split
      · have hw := waiting_set s p process
          { process with alive := false, exitCode := code, reactions := [] } hp
        have hall : (s.bury process p code).all = s.all.set p
            { process with alive := false, exitCode := code, reactions := [] } :=
          all_updateTable _ _ _
        have hsteps : reactionSize process.reactions + (s.bury process p code).waiting
            = s.waiting := by
          simp only [waiting, hall] at hw ⊢
          simp only [reactionSize, total] at hw ⊢
          omega
        rw [steps_append, spread_append, hcons, hspread, steps_reactions, spread_reactions, hall,
          List.length_set]
        simp only [Errand.reactionSize, Errand.spread, Nat.zero_add]
        rw [Nat.add_right_comm, hsteps, Nat.add_comm]
        exact Prod.Lex.right _ (by omega)
      · exact hidle
  | .react p .done =>
    simp only [step, List.nil_append, hcons]
    exact Prod.Lex.left _ _ (by simp only [Errand.reactionSize, Reaction.size]; omega)
  | .react p (.note tag next) =>
    simp only [step, List.singleton_append, hcons]
    exact Prod.Lex.left _ _ (by simp only [Errand.reactionSize, Reaction.size, waiting]; omega)
  | .react p (.fork parent next) =>
    simp only [step, List.singleton_append, hcons, waiting_fork]
    exact Prod.Lex.left _ _ (by simp only [Errand.reactionSize, Reaction.size]; omega)
  | .react p (.forkAs parent user next) =>
    simp only [step, List.singleton_append, hcons, waiting_forkAs]
    exact Prod.Lex.left _ _ (by simp only [Errand.reactionSize, Reaction.size]; omega)
  | .react p (.kill target code next) =>
    simp only [step, hcons]
    exact Prod.Lex.left _ _ (by
      simp only [steps, List.cons_append, List.nil_append, total,
        Errand.reactionSize, Reaction.size]
      omega)
  | .react p (.listen target reaction next) =>
    simp only [step, hcons]
    split
    · exact Prod.Lex.left _ _ (by
        simp only [steps, List.cons_append, List.nil_append, total,
          Errand.reactionSize, Reaction.size]
        omega)
    · rename_i process hp
      split
      · have := waiting_set s target process
          { process with reactions := process.reactions ++ [reaction] } hp
        simp only [reactionSize, total_append, total] at this
        exact Prod.Lex.left _ _ (by
          simp only [steps, List.cons_append, List.nil_append, total,
            Errand.reactionSize, Reaction.size, waiting, reactionSize] at this ⊢
          omega)
      · exact Prod.Lex.left _ _ (by
          simp only [steps, List.cons_append, List.nil_append, total,
            Errand.reactionSize, Reaction.size]
          omega)

def run (s : Processes) : List Errand → Processes
  | [] => s
  | errand :: rest =>
    let next := s.step errand
    run next.2 (next.1 ++ rest)
termination_by errands => (steps errands + s.waiting, spread s.all.length errands)
decreasing_by exact step_decreases s errand rest

theorem run_nil (s : Processes) : s.run [] = s := by rw [run]

theorem run_cons (s : Processes) (errand : Errand) (rest : List Errand) :
    s.run (errand :: rest) = (s.step errand).2.run ((s.step errand).1 ++ rest) := by rw [run]

def kill (s : Processes) (p : Nat) (code : Int) : Processes := s.run [.kill p code]

/-- Registers a reaction to the death of `p`, which is run at once if `p` is dead. -/
def onDeath (s : Processes) (p : Nat) (reaction : Reaction) : Processes :=
  s.run [.react p (.listen p reaction .done)]

end Processes

end ToyUnix
