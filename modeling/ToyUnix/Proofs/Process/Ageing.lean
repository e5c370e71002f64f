import Mathlib.Logic.Relation
import ToyUnix.Proofs.Process.Cascade

/-!
Ageing. In the course of a history new processes come last, and those that are there keep their id,
owner, parent and table for life. Who is dead stays dead, with the code that it died with.
-/

set_option autoImplicit false

namespace ToyUnix

structure Process.Ages (process later : Process) : Prop where
  lineage : later.lineage = process.lineage
  dead : process.alive = false → later.alive = false ∧ later.exitCode = process.exitCode

theorem Process.Ages.refl (process : Process) : process.Ages process :=
  ⟨rfl, fun hdead => ⟨hdead, rfl⟩⟩

theorem Process.Ages.trans {process later last : Process} (h : process.Ages later)
    (h' : later.Ages last) : process.Ages last := by
  refine ⟨h'.lineage.trans h.lineage, fun hdead => ?_⟩
  obtain ⟨hlater, hcode⟩ := h.dead hdead
  obtain ⟨hlast, hcode'⟩ := h'.dead hlater
  exact ⟨hlast, hcode'.trans hcode⟩

theorem Process.Ages.living {process later : Process} (halive : process.alive = true)
    (h : later.lineage = process.lineage) : process.Ages later :=
  ⟨h, fun hdead => by rw [halive] at hdead; cases hdead⟩

namespace Processes

/-! What a single step or call can do. -/

theorem step_dead {s : Processes} {errand : Errand} {q : Nat} (hfor : errand.doomed? = some q)
    (hdead : s.isAlive q = false) : s.step errand = ([], s) := by
  cases errand with
  | kill p code =>
    obtain rfl := Option.some.inj hfor
    simp only [Processes.step, hdead, Bool.false_eq_true, if_false]
  | finish p code =>
    obtain rfl := Option.some.inj hfor
    simp only [Processes.step]
    split
    · rfl
    · rename_i process hp
      rw [isAlive, hp] at hdead
      exact if_neg (by simpa using hdead)
  | react p reaction => cases hfor

theorem step_kill {s : Processes} {q : Nat} {code : Int} (halive : s.isAlive q = true) :
    s.step (.kill q code) = ((s.children q).map (.kill · code) ++ [.finish q code], s) := by
  simp only [Processes.step, halive, if_true]

theorem step_finish_alive {s : Processes} {q : Nat} {code : Int} {process : Process}
    (hq : s.all[q]? = some process) (halive : process.alive = true) :
    s.step (.finish q code) = (process.reactions.map (.react q), s.bury process q code) := by
  simp only [Processes.step, hq, halive, if_true]

/-- Nothing happens to the processes, or one is started, or one is given another name, directory or
environment. -/
inductive Alters (s s' : Processes) : Prop
  | same : s'.all = s.all → Alters s s'
  | born (process : Process) : process.reactions = [] → process.alive = true →
      s'.all = s.all ++ [process] → Alters s s'
  | amended (p : Nat) (before after : Process) : s.all[p]? = some before →
      after.identity = before.identity → after.exitCode = before.exitCode →
      after.reactions = before.reactions → s'.all = s.all.set p after → Alters s s'

theorem forkAs_alters (s : Processes) (p : Nat) (user : User) : s.Alters (s.forkAs p user).2 := by
  cases hfork : s.forkAs p user with
  | mk outcome s' =>
    cases outcome with
    | error fault => exact forkAs_error hfork ▸ .same rfl
    | ok child =>
      obtain ⟨process, table, born, -, -, -, -, -, hid, hreactions, -, rfl⟩ := forkAs_ok hfork
      exact .born born hreactions (congrArg Prod.snd hid) rfl

theorem fork_alters (s : Processes) (p : Nat) : s.Alters (s.fork p).2 := by
  rcases fork_eq s p with heq | ⟨user, heq⟩
  · rw [heq]
    exact .same rfl
  · rw [heq]
    exact forkAs_alters s p user

theorem boot_alters (s : Processes) (computer : Nat) (users : List User) :
    s.Alters (s.boot computer users).2 := by
  cases hboot : s.boot computer users with
  | mk outcome s' =>
    cases outcome with
    | error fault => exact boot_error hboot ▸ .same rfl
    | ok t =>
      obtain ⟨root, init, table, -, -, hid, hreactions, -, rfl⟩ := boot_ok hboot
      exact .born init hreactions (congrArg Prod.snd hid) rfl

theorem update_alters (s : Processes) (p : Nat) {f : Process → Process}
    (hidentity : ∀ process, (f process).identity = process.identity)
    (hcode : ∀ process, (f process).exitCode = process.exitCode)
    (hreactions : ∀ process, (f process).reactions = process.reactions) :
    s.Alters (s.update p f) := by
  unfold Processes.update
  split
  · exact .same rfl
  · rename_i process hp
    exact .amended p process _ hp (hidentity process) (hcode process) (hreactions process) rfl

theorem begin_alters (s : Processes) (c : Call) : s.Alters (c.begin s).2 := by
  cases c with
  | boot computer users => exact boot_alters s computer users
  | fork parent => exact fork_alters s parent
  | forkAs parent user => exact forkAs_alters s parent user
  | kill target code => exact .same rfl
  | onDeath target reaction => exact .same rfl
  | setName target name => exact update_alters s target (fun _ => rfl) (fun _ => rfl) fun _ => rfl
  | setCwd target cwd => exact update_alters s target (fun _ => rfl) (fun _ => rfl) fun _ => rfl
  | setEnv target name value =>
    exact update_alters s target (fun _ => rfl) (fun _ => rfl) fun _ => rfl
  | unsetEnv target name =>
    exact update_alters s target (fun _ => rfl) (fun _ => rfl) fun _ => rfl
  | dropTable table => exact .same (all_updateTable _ _ _)

theorem step_alters (s : Processes) (errand : Errand) :
    s.Alters (s.step errand).2 ∨
    (∃ p code process, errand = .finish p code ∧ s.all[p]? = some process ∧
      process.alive = true ∧
      s.step errand = (process.reactions.map (.react p), s.bury process p code)) ∨
    ∃ dead target reaction next process, errand = .react dead (.listen target reaction next) ∧
      s.all[target]? = some process ∧ process.alive = true ∧
      s.step errand = ([.react dead next],
        { s with all := s.all.set target
                   { process with reactions := process.reactions ++ [reaction] } }) := by
  cases errand with
  | kill p code =>
    simp only [Processes.step]
    split <;> exact .inl (.same rfl)
  | finish p code =>
    simp only [Processes.step]
    split
    · exact .inl (.same rfl)
    · rename_i process hp
      split
      · rename_i halive
        exact .inr (.inl ⟨p, code, process, rfl, hp, halive, rfl⟩)
      · exact .inl (.same rfl)
  | react p reaction =>
    cases reaction with
    | done => exact .inl (.same rfl)
    | note tag next => exact .inl (.same rfl)
    | fork parent next => exact .inl (fork_alters s parent)
    | forkAs parent user next => exact .inl (forkAs_alters s parent user)
    | kill target code next => exact .inl (.same rfl)
    | listen target reaction next =>
      simp only [Processes.step]
      split
      · exact .inl (.same rfl)
      · rename_i process hp
        split
        · rename_i halive
          exact .inr (.inr ⟨p, target, reaction, next, process, rfl, hp, halive, rfl⟩)
        · exact .inl (.same rfl)

def Ages (s s' : Processes) : Prop :=
  ∀ (q : Nat) process, s.all[q]? = some process →
    ∃ later, s'.all[q]? = some later ∧ process.Ages later

namespace Ages

variable {s s' s'' : Processes}

theorem refl (s : Processes) : s.Ages s := fun _ process hq => ⟨process, hq, .refl process⟩

theorem trans (h : s.Ages s') (h' : s'.Ages s'') : s.Ages s'' := by
  intro q process hq
  obtain ⟨later, hlater, hages⟩ := h q process hq
  obtain ⟨last, hlast, hages'⟩ := h' q later hlater
  exact ⟨last, hlast, hages.trans hages'⟩

theorem set {p : Nat} {before after : Process} (hp : s.all[p]? = some before)
    (hall : s'.all = s.all.set p after) (h : before.Ages after) : s.Ages s' := by
  intro q process hq
  rw [hall]
  by_cases hqp : p = q
  · subst hqp
    obtain rfl := Option.some.inj (hq.symm.trans hp)
    exact ⟨after, List.getElem?_set_self (List.getElem?_eq_some_iff.1 hp).1, h⟩
  · exact ⟨process, by rw [List.getElem?_set_ne hqp, hq], .refl process⟩

theorem of_alters (h : s.Alters s') : s.Ages s' := by
  cases h with
  | same hall => exact fun q process hq => ⟨process, by rw [hall, hq], .refl process⟩
  | born process _ _ hall =>
    exact fun q before hq => ⟨before, by rw [hall]; exact getElem?_snoc.2 (.inl hq), .refl before⟩
  | amended p before after hp hidentity hcode _ hall =>
    obtain ⟨hlineage, halive⟩ := Prod.mk.inj hidentity
    exact set hp hall ⟨hlineage, fun hdead => ⟨halive.trans hdead, hcode⟩⟩

theorem step (s : Processes) (errand : Errand) : s.Ages (s.step errand).2 := by
  rcases step_alters s errand with halters | ⟨p, code, process, -, hp, halive, hstep⟩ |
    ⟨dead, target, reaction, next, process, -, hp, halive, hstep⟩
  · exact of_alters halters
  · rw [hstep]
    exact set hp (bury_all s process p code) (.living halive rfl)
  · rw [hstep]
    exact set hp rfl (.living halive rfl)

theorem begin (s : Processes) (c : Call) : s.Ages (c.begin s).2 := of_alters (begin_alters s c)

theorem length_le (h : s.Ages s') : s.all.length ≤ s'.all.length := by
  by_contra hlt
  obtain ⟨later, hlater, -⟩ := h s'.all.length _ (List.getElem?_eq_getElem (by omega))
  exact Nat.lt_irrefl _ (List.getElem?_eq_some_iff.1 hlater).1

theorem isAlive (h : s.Ages s') {q : Nat} (hq : q < s.all.length) (halive : s'.isAlive q = true) :
    s.isAlive q = true := by
  obtain ⟨later, hlater, hages⟩ := h q _ (List.getElem?_eq_getElem hq)
  obtain ⟨process, hprocess, hlive⟩ := isAlive_iff.1 halive
  obtain rfl := Option.some.inj (hlater.symm.trans hprocess)
  refine isAlive_iff.2 ⟨_, List.getElem?_eq_getElem hq, ?_⟩
  by_contra hdead
  rw [(hages.dead (by simpa using hdead)).1] at hlive
  cases hlive

end Ages

/-- The next errand is run or, when there is none, something is asked from outside. -/
inductive Turn : Processes × List Errand → Processes × List Errand → Prop
  | call (s : Processes) (c : Call) : c.Fair → Turn (s, []) ((c.begin s).2, (c.begin s).1)
  | step (s : Processes) (errand : Errand) (rest : List Errand) :
      Turn (s, errand :: rest) ((s.step errand).2, (s.step errand).1 ++ rest)

abbrev Turns : Processes × List Errand → Processes × List Errand → Prop :=
  Relation.ReflTransGen Turn

theorem Ages.turns {a b : Processes × List Errand} (h : Turns a b) : a.1.Ages b.1 := by
  induction h with
  | refl => exact .refl _
  | tail _ hturn ih =>
    cases hturn with
    | call s c hfair => exact ih.trans (.begin s c)
    | step s errand rest => exact ih.trans (.step s errand)

theorem Ages.later {a b : Processes × List Errand} (h : Later a b) : a.1.Ages b.1 := by
  induction h with
  | refl => exact .refl _
  | tail _ hnext ih =>
    cases hnext with
    | step s errand rest => exact ih.trans (.step s errand)

theorem Sound.turns {limit : Nat} {a b : Processes × List Errand} (hsound : a.1.Sound limit)
    (h : Turns a b) : ∃ limit', b.1.Sound limit' := by
  induction h with
  | refl => exact ⟨limit, hsound⟩
  | tail _ hturn ih =>
    obtain ⟨bound, hbound⟩ := ih
    cases hturn with
    | call s c hfair =>
      obtain ⟨bound', hbound'⟩ := exists_within (c.begin s).2
      refine ⟨max bound bound', (hbound.mono (Nat.le_max_left _ _)).begin c hfair ?_⟩
      exact fun table htable hpresent =>
        Nat.le_trans (hbound' table htable hpresent) (Nat.le_max_right _ _)
    | step s errand rest => exact hbound.exists_step errand

end Processes

end ToyUnix
