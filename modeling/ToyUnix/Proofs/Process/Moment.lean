import Mathlib.Logic.Relation
import Mathlib.Order.Bounds.Defs
import ToyUnix.Proofs.Process.Sound

/-!
Moments. Whatever is asked of the processes from outside, and whatever the reactions to a death do
while a kill is still spreading, the processes go from one moment to the next by single calls and
steps. Main statement: at every moment a table lists exactly its live processes, and their ids
together with the free ones are all ids below the next one (`Moment.pids_exact`).
-/

set_option autoImplicit false

namespace ToyUnix

namespace Processes

/-- What can be asked of the processes from outside. -/
inductive Call
  | boot (computer : Nat) (users : List User)
  | fork (parent : Nat)
  | forkAs (parent : Nat) (user : User)
  | kill (target : Nat) (code : Int)
  | onDeath (target : Nat) (reaction : Reaction)
  | setName (target : Nat) (name : String)
  | setCwd (target : Nat) (cwd : String)
  | setEnv (target : Nat) (name value : String)
  | unsetEnv (target : Nat) (name : String)
  | dropTable (table : Nat)
  deriving DecidableEq, Repr

/-- How a call begins: the errands that it leaves to be run, and the processes as they are then. -/
def Call.begin (s : Processes) : Call → List Errand × Processes
  | .boot computer users => ([], (s.boot computer users).2)
  | .fork parent => ([], (s.fork parent).2)
  | .forkAs parent user => ([], (s.forkAs parent user).2)
  | .kill target code => ([.kill target code], s)
  | .onDeath target reaction => ([.react target (.listen target reaction .done)], s)
  | .setName target name => ([], s.setName target name)
  | .setCwd target cwd => ([], s.setCwd target cwd)
  | .setEnv target name value => ([], s.setEnv target name value)
  | .unsetEnv target name => ([], s.unsetEnv target name)
  | .dropTable table => ([], s.dropTable table)

def Call.Fair : Call → Prop
  | .boot computer users => ∀ user ∈ users, user.computer = computer
  | _ => True

/-- The processes at some time of a history, and the errands that are still to be run then. The
calls of the history are `allowed` ones, and no table ever has more than `limit` live processes. -/
inductive Moment (allowed : Call → Prop) (limit : Nat) : Processes → List Errand → Prop
  | start : Moment allowed limit {} []
  | call {s : Processes} (c : Call) : Moment allowed limit s [] → c.Fair → allowed c →
      (c.begin s).2.Within limit → Moment allowed limit (c.begin s).2 (c.begin s).1
  | step {s : Processes} {errand : Errand} {rest : List Errand} :
      Moment allowed limit s (errand :: rest) → (s.step errand).2.Within limit →
      Moment allowed limit (s.step errand).2 ((s.step errand).1 ++ rest)

theorem Sound.begin {limit : Nat} {s : Processes} (h : s.Sound limit) (c : Call) (hfair : c.Fair)
    (hwithin : (c.begin s).2.Within limit) : (c.begin s).2.Sound limit := by
  cases c with
  | boot computer users => exact h.boot hfair hwithin
  | fork parent => exact h.fork parent hwithin
  | forkAs parent user => exact h.forkAs parent user hwithin
  | kill target code => exact h
  | onDeath target reaction => exact h
  | setName target name => exact h.update target fun _ => rfl
  | setCwd target cwd => exact h.update target fun _ => rfl
  | setEnv target name value => exact h.update target fun _ => rfl
  | unsetEnv target name => exact h.update target fun _ => rfl
  | dropTable t => exact h.dropTable t

theorem Moment.sound {allowed : Call → Prop} {limit : Nat} {s : Processes} {errands : List Errand}
    (h : Moment allowed limit s errands) : s.Sound limit := by
  induction h with
  | start => exact ⟨⟨by simp, by simp, by simp, by simp⟩, by simp, by simp, by simp⟩
  | call c _ hfair _ hwithin ih => exact ih.begin c hfair hwithin
  | step _ hwithin ih => exact ih.step _ hwithin

/-! What follows from soundness for a single table. -/

def Forks (s : Processes) (p : Nat) (outcome : Except Fault Nat × Processes) : Prop :=
  outcome = s.fork p ∨ ∃ user, outcome = s.forkAs p user

theorem Forks.error {s s' : Processes} {p : Nat} {fault : Fault}
    (h : s.Forks p (.error fault, s')) : s' = s := by
  rcases h with h | ⟨user, h⟩
  · exact fork_error h.symm
  · exact forkAs_error h.symm

theorem Forks.ok {s s' : Processes} {p child : Nat} (h : s.Forks p (.ok child, s')) :
    ∃ user, s.forkAs p user = (.ok child, s') := by
  rcases h with h | ⟨user, h⟩
  · exact fork_ok h.symm
  · exact ⟨user, h.symm⟩

theorem Sound.forkAs_pid {limit : Nat} {s s' : Processes} (h : s.Sound limit) {p child : Nat}
    {user : User} (hfork : s.forkAs p user = (.ok child, s')) {process : Process}
    (hp : s.all[p]? = some process) :
    IsLeast {pid | 0 < pid ∧ ∀ place, ¬ s.Lives process.table pid place} (s'.pidOf child) := by
  obtain ⟨other, table, born, hother, ht, -, hpresent, -, hid, -, rfl, hs'⟩ := forkAs_ok hfork
  rw [hp, Option.some.injEq] at hother
  subst hother
  have htallies := h.tallies _ _ ht hpresent
  have hpid : s'.pidOf s.all.length = table.allocate.1 := by
    simp only [Process.identity, Process.lineage, Prod.mk.injEq] at hid
    simp [pidOf, hs', hid.1.1]
  rw [hpid]
  exact ⟨htallies.allocate_unused (h.next_pos _ _ ht), fun pid hunused =>
    htallies.allocate_le hunused.1 hunused.2⟩

/-- At every moment, listeners' calls in the middle of a kill included, a table lists exactly its
live processes, each under its own id and no two under one. The free ids are the other ones below
`next`, and `next` is past the number of processes alive at once by one at most, so it stays within
32 bits if that number is below `2 ^ 32 - 1`. Owners belong to the computer of the table. A fork that
succeeds takes the smallest unused id, and one that fails changes nothing. -/
theorem Moment.pids_exact {allowed : Call → Prop} {limit : Nat} {s : Processes}
    {errands : List Errand} (h : Moment allowed limit s errands) {t : Nat} {table : ProcessTable}
    (ht : s.tables[t]? = some table) (hpresent : table.present = true) :
    (∀ pid place, (pid, place) ∈ table.live ↔ s.Lives t pid place) ∧
    (∀ pid a b, s.Lives t pid a → s.Lives t pid b → a = b) ∧
    (∀ pid ∈ table.free, ∀ place, ¬ s.Lives t pid place) ∧
    (∀ pid, pid ∈ table.free ∨ (∃ place, s.Lives t pid place) ↔ 0 < pid ∧ pid < table.next) ∧
    table.next ≤ limit + 1 ∧
    (∀ pid place process, s.Lives t pid place → s.all[place]? = some process →
      process.user.computer = table.computer) ∧
    (∀ p child process s', s.Forks p (.ok child, s') → s.all[p]? = some process →
      process.table = t →
      IsLeast {pid | 0 < pid ∧ ∀ place, ¬ s.Lives t pid place} (s'.pidOf child)) ∧
    ∀ p fault s', s.Forks p (.error fault, s') → s' = s := by
  have hsound := h.sound
  have htallies := hsound.tallies t table ht hpresent
  refine ⟨htallies.mem_live, fun pid a b => htallies.unique,
    fun pid hfree place => htallies.apart pid place hfree, htallies.counted,
    hsound.next_le t table ht, ?_, ?_, fun p fault s' => Forks.error⟩
  · rintro pid place process ⟨other, hother, rfl, -, -⟩ hget
    rw [hget, Option.some.injEq] at hother
    subst hother
    exact hsound.owner place process table hget ht
  · rintro p child process s' hforks hp rfl
    obtain ⟨user, hfork⟩ := hforks.ok
    exact hsound.forkAs_pid hfork hp

def relay : Processes :=
  let root : User := ⟨0, "root", .root, 0, "/root"⟩
  let init : Process := ⟨1, "init", root, none, 0, "/", [], true, 0, []⟩
  { all := [init, { init with pid := 2, parent := some 0, alive := false, exitCode := 7 }]
    tables := [⟨0, [(1, 0)], [2], 3, 0, true⟩] }

theorem relay_moment : Moment (fun _ => True) 2 relay [.react 1 (.fork 0 .done)] := by
  have h : Moment (fun _ => True) 2 {} [] := .start
  have h := h.call (.boot 0 [⟨0, "root", .root, 0, "/root"⟩]) (by simp [Call.Fair]) trivial
    (by decide)
  have h := h.call (.fork 0) trivial trivial (by decide)
  have h := h.call (.onDeath 1 (.fork 0 .done)) trivial trivial (by decide)
  have h := h.step (by decide)
  have h := h.step (by decide)
  have h := h.call (.kill 1 7) trivial trivial (by decide)
  have h := h.step (by decide +kernel)
  -- The children were sorted, so that step is evaluated before the next one is taken.
  generalize hs : Processes.step _ (Errand.kill 1 7) = r at h
  have hr : r.1 = [.finish 1 7] := by rw [← hs]; cbv
  rw [hr] at h
  have h := h.step (by rw [← hs]; decide +kernel)
  subst hs
  exact h

/-- In the middle of the kill, 2 is free again, and the fork takes it. -/
theorem relay_pids_exact :
    Moment (fun _ => True) 2 relay [.react 1 (.fork 0 .done)] ∧
    (∀ pid, pid ∈ [2] ∨ (∃ place, relay.Lives 0 pid place) ↔ 0 < pid ∧ pid < 3) ∧
    IsLeast {pid | 0 < pid ∧ ∀ place, ¬ relay.Lives 0 pid place} ((relay.fork 0).2.pidOf 2) := by
  have h := Moment.pids_exact relay_moment (t := 0) rfl rfl
  obtain ⟨-, -, -, hcounted, -, -, hfork, -⟩ := h
  exact ⟨relay_moment, hcounted, hfork 0 2 _ _ (Or.inl rfl) rfl rfl⟩

end Processes

end ToyUnix
