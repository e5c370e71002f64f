import ToyUnix.Process.Kill
import ToyUnix.Proofs.Process.Table

/-!
Sound processes. Each table that has not been given up tallies with its live processes, and the
parents and owners of processes are what they should be. Every single operation keeps that up, and
so does every step of a kill that is still spreading.
-/

set_option autoImplicit false

namespace ToyUnix

def Process.lineage (process : Process) : Nat × User × Option Nat × Nat :=
  (process.pid, process.user, process.parent, process.table)

def Process.identity (process : Process) : (Nat × User × Option Nat × Nat) × Bool :=
  (process.lineage, process.alive)

def Reaction.forks : Reaction → Bool
  | .done => false
  | .note _ next | .kill _ _ next => next.forks
  | .fork _ _ | .forkAs _ _ _ => true
  | .listen _ reaction next => reaction.forks || next.forks

def Errand.forks : Errand → Bool
  | .react _ reaction => reaction.forks
  | _ => false

namespace Processes

def Lives (s : Processes) (t pid place : Nat) : Prop :=
  ∃ process, s.all[place]? = some process ∧ process.table = t ∧ process.alive = true ∧
    process.pid = pid

/-- Parents come earlier and share the table, and owners belong to the computer of the table. -/
structure Rooted (s : Processes) : Prop where
  table_lt : ∀ (p : Nat) (process : Process), s.all[p]? = some process →
    process.table < s.tables.length
  owner : ∀ (p : Nat) (process : Process) (table : ProcessTable), s.all[p]? = some process →
    s.tables[process.table]? = some table → process.user.computer = table.computer
  parent_lt : ∀ (p q : Nat) (process : Process), s.all[p]? = some process →
    process.parent = some q → q < p
  same_table : ∀ (p q : Nat) (process parent : Process), s.all[p]? = some process →
    process.parent = some q → s.all[q]? = some parent → parent.table = process.table

structure Sound (limit : Nat) (s : Processes) : Prop extends Rooted s where
  tallies : ∀ (t : Nat) (table : ProcessTable), s.tables[t]? = some table →
    table.present = true → table.Tallies (s.Lives t)
  next_pos : ∀ (t : Nat) (table : ProcessTable), s.tables[t]? = some table → 0 < table.next
  next_le : ∀ (t : Nat) (table : ProcessTable), s.tables[t]? = some table → table.next ≤ limit + 1

def Within (limit : Nat) (s : Processes) : Prop :=
  ∀ table ∈ s.tables, table.present = true → table.live.length ≤ limit

instance (limit : Nat) (s : Processes) : Decidable (s.Within limit) :=
  inferInstanceAs (Decidable (∀ table ∈ s.tables, _ → _))

/-! What single operations do. -/

theorem forkAs_ok {s s' : Processes} {p child : Nat} {user : User}
    (h : s.forkAs p user = (.ok child, s')) :
    ∃ process table born, s.all[p]? = some process ∧ s.tables[process.table]? = some table ∧
      process.alive = true ∧ table.present = true ∧ user.computer = table.computer ∧
      born.identity = ((table.allocate.1, user, some p, process.table), true) ∧
      born.reactions = [] ∧ child = s.all.length ∧
      s' = { s with
        all := s.all ++ [born]
        tables := s.tables.set process.table (table.enroll s.all.length) } := by
  unfold forkAs at h
  split at h
  · simp at h
  · rename_i process hprocess
    split at h
    · simp at h
    · rename_i halive
      split at h
      · simp at h
      · rename_i table htable
        obtain ⟨hget, hpresent⟩ := Option.filter_eq_some_iff.1 htable
        split at h
        · simp at h
        · rename_i hsame
          simp only [not_or, not_not] at hsame
          simp only [Prod.mk.injEq, Except.ok.injEq] at h
          obtain ⟨rfl, rfl⟩ := h
          exact ⟨process, table, _, hprocess, hget, by simpa using halive, hpresent, hsame.2, rfl,
            rfl, rfl, rfl⟩

theorem forkAs_error {s s' : Processes} {p : Nat} {user : User} {fault : Fault}
    (h : s.forkAs p user = (.error fault, s')) : s' = s := by
  unfold forkAs at h
  split at h
  · exact (Prod.mk.inj h).2.symm
  · split at h
    · exact (Prod.mk.inj h).2.symm
    · split at h
      · exact (Prod.mk.inj h).2.symm
      · split at h
        · exact (Prod.mk.inj h).2.symm
        · simp at h

theorem boot_ok {s s' : Processes} {computer t : Nat} {users : List User}
    (h : s.boot computer users = (.ok t, s')) :
    ∃ root init table, root ∈ users ∧ t = s.tables.length ∧
      init.identity = ((1, root, none, t), true) ∧ init.reactions = [] ∧
      table = ⟨computer, [(1, s.all.length)], [], 2, s.all.length, true⟩ ∧
      s' = { s with all := s.all ++ [init], tables := s.tables ++ [table] } := by
  unfold boot at h
  split at h
  · simp at h
  · rename_i root hroot
    simp only [Prod.mk.injEq, Except.ok.injEq] at h
    obtain ⟨rfl, rfl⟩ := h
    exact ⟨root, _, _, List.mem_of_find?_eq_some hroot, rfl, rfl, rfl, rfl, rfl⟩

theorem boot_error {s s' : Processes} {computer : Nat} {users : List User} {fault : Fault}
    (h : s.boot computer users = (.error fault, s')) : s' = s := by
  unfold boot at h
  split at h
  · exact (Prod.mk.inj h).2.symm
  · simp at h

theorem fork_eq (s : Processes) (p : Nat) :
    s.fork p = (.error (.processDead 0), s) ∨ ∃ user, s.fork p = s.forkAs p user := by
  unfold fork
  split
  · exact Or.inl rfl
  · exact Or.inr ⟨_, rfl⟩

theorem fork_ok {s s' : Processes} {p child : Nat} (h : s.fork p = (.ok child, s')) :
    ∃ user, s.forkAs p user = (.ok child, s') := by
  rcases fork_eq s p with heq | ⟨user, heq⟩
  · rw [heq] at h
    cases (Prod.mk.inj h).1
  · exact ⟨user, heq ▸ h⟩

theorem fork_error {s s' : Processes} {p : Nat} {fault : Fault}
    (h : s.fork p = (.error fault, s')) : s' = s := by
  rcases fork_eq s p with heq | ⟨user, heq⟩
  · rw [heq] at h
    exact (Prod.mk.inj h).2.symm
  · exact forkAs_error (heq ▸ h)

theorem all_fork {s s' : Processes} {p child : Nat} (h : s.fork p = (.ok child, s')) :
    child = s.all.length ∧ ∃ born, s'.all = s.all ++ [born] := by
  obtain ⟨user, hfork⟩ := fork_ok h
  obtain ⟨_, _, born, -, -, -, -, -, -, -, hchild, rfl⟩ := forkAs_ok hfork
  exact ⟨hchild, born, rfl⟩

theorem isAlive_iff {s : Processes} {p : Nat} :
    s.isAlive p = true ↔ ∃ process, s.all[p]? = some process ∧ process.alive = true := by
  simp [isAlive, Option.any_eq_true]

theorem getElem?_of_map_eq {α β : Type} {f : α → β} {l l' : List α} (h : l'.map f = l.map f)
    {i : Nat} {a : α} (ha : l'[i]? = some a) : ∃ b, l[i]? = some b ∧ f b = f a := by
  have hat := congrArg (·[i]?) h
  simp only [List.getElem?_map, ha, Option.map_some] at hat
  exact Option.map_eq_some_iff.1 hat.symm

theorem map_set_of_eq {α β : Type} {f : α → β} {l : List α} {i : Nat} {a b : α}
    (ha : l[i]? = some a) (hab : f b = f a) : (l.set i b).map f = l.map f := by
  refine List.ext_getElem? fun j => ?_
  by_cases hj : i = j
  · subst hj
    obtain ⟨hlt, hget⟩ := List.getElem?_eq_some_iff.1 ha
    simp [hlt, hget, hab]
  · simp [hj]

theorem getElem?_snoc {α : Type} {l : List α} {a x : α} {i : Nat} :
    (l ++ [a])[i]? = some x ↔ l[i]? = some x ∨ i = l.length ∧ x = a := by
  by_cases hi : i < l.length
  · simp [List.getElem?_append_left hi, Nat.ne_of_lt hi]
  · rw [List.getElem?_append_right (Nat.le_of_not_lt hi), List.getElem?_singleton,
      List.getElem?_eq_none (Nat.le_of_not_lt hi)]
    have : i - l.length = 0 ↔ i = l.length := by omega
    simp [this, eq_comm]

theorem lives_congr {s s' : Processes}
    (h : s'.all.map Process.identity = s.all.map Process.identity) (t pid place : Nat) :
    s.Lives t pid place ↔ s'.Lives t pid place := by
  have hto : ∀ {a b : Processes}, b.all.map Process.identity = a.all.map Process.identity →
      b.Lives t pid place → a.Lives t pid place := by
    rintro a b hab ⟨process, hget, htable, halive, hpid⟩
    obtain ⟨before, hbefore, hid⟩ := getElem?_of_map_eq hab hget
    simp only [Process.identity, Process.lineage, Prod.mk.injEq] at hid
    exact ⟨before, hbefore, hid.1.2.2.2.trans htable, hid.2.trans halive, hid.1.1.trans hpid⟩
  exact ⟨hto h.symm, hto h⟩

theorem lives_append {s s' : Processes} {born : Process} (hall : s'.all = s.all ++ [born])
    (halive : born.alive = true) {t pid place : Nat} :
    s'.Lives t pid place ↔
      born.table = t ∧ pid = born.pid ∧ place = s.all.length ∨ s.Lives t pid place := by
  unfold Lives
  simp only [hall, getElem?_snoc]
  constructor
  · rintro ⟨process, hold | ⟨rfl, rfl⟩, htable, hlive, hpid⟩
    · exact Or.inr ⟨process, hold, htable, hlive, hpid⟩
    · exact Or.inl ⟨htable, hpid.symm, rfl⟩
  · rintro (⟨htable, hpid, hplace⟩ | ⟨process, hget, htable, hlive, hpid⟩)
    · exact ⟨born, Or.inr ⟨hplace, rfl⟩, htable, halive, hpid.symm⟩
    · exact ⟨process, Or.inl hget, htable, hlive, hpid⟩

theorem Rooted.congr {s s' : Processes} (h : s.Rooted)
    (htables : s'.tables.map (·.computer) = s.tables.map (·.computer))
    (hall : s'.all.map Process.lineage = s.all.map Process.lineage) : s'.Rooted := by
  have hback : ∀ {p : Nat} {process : Process}, s'.all[p]? = some process →
      ∃ before, s.all[p]? = some before ∧ before.lineage = process.lineage :=
    fun hp => getElem?_of_map_eq hall hp
  simp only [Process.lineage, Prod.mk.injEq] at hback
  refine ⟨fun p process hp => ?_, fun p process table hp ht => ?_, fun p q process hp hq => ?_,
    fun p q process parent hp hq hparent => ?_⟩
  · obtain ⟨before, hbefore, -, -, -, htable⟩ := hback hp
    have hlen := congrArg List.length htables
    simp only [List.length_map] at hlen
    rw [hlen, ← htable]
    exact h.table_lt p before hbefore
  · obtain ⟨before, hbefore, -, huser, -, htable⟩ := hback hp
    obtain ⟨tableBefore, htableBefore, hcomputer⟩ := getElem?_of_map_eq htables ht
    rw [← huser, ← hcomputer]
    exact h.owner p before tableBefore hbefore (htable ▸ htableBefore)
  · obtain ⟨before, hbefore, -, -, hparent, -⟩ := hback hp
    exact h.parent_lt p q before hbefore (hparent.trans hq)
  · obtain ⟨before, hbefore, -, -, hparentEq, htable⟩ := hback hp
    obtain ⟨parentBefore, hparentBefore, -, -, -, hparentTable⟩ := hback hparent
    rw [← htable, ← hparentTable]
    exact h.same_table p q before parentBefore hbefore (hparentEq.trans hq) hparentBefore

theorem Rooted.append {s s' : Processes} {born : Process} (h : s.Rooted)
    (hall : s'.all = s.all ++ [born]) (htable : born.table < s'.tables.length)
    (howner : ∀ table, s'.tables[born.table]? = some table → born.user.computer = table.computer)
    (hparent : ∀ q, born.parent = some q → ∃ parent, s.all[q]? = some parent ∧
      parent.table = born.table)
    (htables : ∀ t, t < s.tables.length →
      (s'.tables[t]?).map (·.computer) = (s.tables[t]?).map (·.computer))
    (hlen : s.tables.length ≤ s'.tables.length) : s'.Rooted := by
  have hback : ∀ {p : Nat} {process : Process}, s'.all[p]? = some process →
      s.all[p]? = some process ∨ p = s.all.length ∧ process = born :=
    fun hp => getElem?_snoc.1 (hall ▸ hp)
  have hold : ∀ {p : Nat} {process : Process}, s.all[p]? = some process → p < s.all.length :=
    fun hp => (List.getElem?_eq_some_iff.1 hp).1
  refine ⟨fun p process hp => ?_, fun p process table hp ht => ?_, fun p q process hp hq => ?_,
    fun p q process parent hp hq hget => ?_⟩
  · rcases hback hp with hp | ⟨-, rfl⟩
    · exact Nat.lt_of_lt_of_le (h.table_lt p process hp) hlen
    · exact htable
  · rcases hback hp with hp | ⟨-, rfl⟩
    · have hmap := htables _ (h.table_lt p process hp)
      rw [ht] at hmap
      obtain ⟨before, hbefore, hcomputer⟩ := Option.map_eq_some_iff.1 hmap.symm
      exact (h.owner p process before hp hbefore).trans hcomputer
    · exact howner table ht
  · rcases hback hp with hp | ⟨rfl, rfl⟩
    · exact h.parent_lt p q process hp hq
    · obtain ⟨parent, hget, -⟩ := hparent q hq
      exact hold hget
  · rcases hback hp with hp | ⟨rfl, rfl⟩
    · have hlt := h.parent_lt p q process hp hq
      rcases hback hget with hget | ⟨rfl, -⟩
      · exact h.same_table p q process parent hp hq hget
      · have := hold hp
        omega
    · obtain ⟨found, hfound, hsame⟩ := hparent q hq
      rcases hback hget with hget | ⟨rfl, -⟩
      · rw [hget, Option.some.injEq] at hfound
        exact hfound ▸ hsame
      · have := hold hfound
        omega

theorem Sound.congr {limit : Nat} {s s' : Processes} (h : s.Sound limit)
    (htables : s'.tables = s.tables)
    (hall : s'.all.map Process.identity = s.all.map Process.identity) : s'.Sound limit := by
  have hlineage : s'.all.map Process.lineage = s.all.map Process.lineage := by
    have := congrArg (List.map Prod.fst) hall
    simpa only [List.map_map, Function.comp_def, Process.identity] using this
  refine ⟨h.toRooted.congr (by rw [htables]) hlineage, fun t table ht hpresent => ?_,
    htables ▸ h.next_pos, htables ▸ h.next_le⟩
  exact (h.tallies t table (htables ▸ ht) hpresent).congr (lives_congr hall t)

theorem tables_update (s : Processes) (p : Nat) (f : Process → Process) :
    (s.update p f).tables = s.tables := by
  unfold Processes.update
  split <;> rfl

theorem getElem?_update (s : Processes) (p q : Nat) (f : Process → Process) :
    (s.update p f).all[q]? = if q = p then s.all[q]?.map f else s.all[q]? := by
  unfold Processes.update
  split
  · rename_i hnone
    split
    · rename_i hq
      rw [hq, hnone]
      rfl
    · rfl
  · rename_i process hp
    by_cases hq : q = p
    · subst hq
      rw [if_pos rfl, hp, List.getElem?_set_self (List.getElem?_eq_some_iff.1 hp).1]
      rfl
    · rw [if_neg hq, List.getElem?_set_ne (Ne.symm hq)]

theorem Sound.update {limit : Nat} {s : Processes} (h : s.Sound limit) (p : Nat)
    {f : Process → Process} (hf : ∀ process, (f process).identity = process.identity) :
    (s.update p f).Sound limit := by
  unfold Processes.update
  split
  · exact h
  · rename_i process hp
    exact h.congr rfl (map_set_of_eq hp (hf process))

theorem Sound.forkAs {limit : Nat} {s : Processes} (h : s.Sound limit) (p : Nat) (user : User)
    (hwithin : (s.forkAs p user).2.Within limit) : (s.forkAs p user).2.Sound limit := by
  obtain ⟨outcome, s', hfork⟩ : ∃ outcome s', s.forkAs p user = (outcome, s') := ⟨_, _, rfl⟩
  rw [hfork] at hwithin ⊢
  cases outcome with
  | error fault => exact forkAs_error hfork ▸ h
  | ok child =>
    obtain ⟨process, table, born, hp, ht, halive, hpresent, huser, hid, -, -, hs'⟩ :=
      forkAs_ok hfork
    simp only [Process.identity, Process.lineage, Prod.mk.injEq] at hid
    obtain ⟨⟨hpid, hborn, hparent, htable⟩, hlive⟩ := hid
    have hlt := h.table_lt p process hp
    have htallies := h.tallies _ _ ht hpresent
    have hall : s'.all = s.all ++ [born] := by rw [hs']
    have htables : ∀ t : Nat, s'.tables[t]? =
        if process.table = t then some (table.enroll s.all.length) else s.tables[t]? := by
      intro t
      rw [hs', List.getElem?_set]
      simp [hlt]
    have hlen : s'.tables.length = s.tables.length := by rw [hs', List.length_set]
    refine ⟨h.toRooted.append hall ?_ ?_ ?_ ?_ (Nat.le_of_eq hlen.symm), fun t other ht' hp' => ?_,
      fun t other ht' => ?_, fun t other ht' => ?_⟩
    · rw [hlen, htable]
      exact hlt
    · intro other hother
      rw [htable, htables, if_pos rfl, Option.some.injEq] at hother
      rw [hborn, huser, ← hother, ProcessTable.enroll_computer]
    · intro q hq
      rw [hparent, Option.some.injEq] at hq
      exact ⟨process, hq ▸ hp, htable.symm⟩
    · intro t _
      rw [htables]
      split
      · rename_i heq
        rw [← heq, ht, Option.map_some, Option.map_some, ProcessTable.enroll_computer]
      · rfl
    · rw [htables] at ht'
      split at ht'
      · rename_i heq
        cases ht'
        refine (htallies.enroll (h.next_pos _ _ ht) s.all.length).congr fun pid place => ?_
        rw [lives_append hall hlive, htable, hpid]
        simp [heq]
      · rename_i hne
        refine (h.tallies t other ht' hp').congr fun pid place => ?_
        rw [lives_append hall hlive, htable]
        simp [hne]
    · rw [htables] at ht'
      split at ht'
      · cases ht'
        exact Nat.lt_of_lt_of_le (h.next_pos _ _ ht) (ProcessTable.next_le_enroll table _)
      · exact h.next_pos t other ht'
    · have hget := ht'
      rw [htables] at ht'
      split at ht'
      · cases ht'
        have hle := htallies.next_enroll_le (h.next_pos _ _ ht) s.all.length
        have hold := h.next_le _ _ ht
        have hcount := hwithin _ (List.mem_of_getElem? hget) (by
          rw [ProcessTable.enroll_present, hpresent])
        omega
      · exact h.next_le t other ht'

theorem Sound.fork {limit : Nat} {s : Processes} (h : s.Sound limit) (p : Nat)
    (hwithin : (s.fork p).2.Within limit) : (s.fork p).2.Sound limit := by
  rcases fork_eq s p with heq | ⟨user, heq⟩
  · rw [heq]
    exact h
  · rw [heq] at hwithin ⊢
    exact h.forkAs p user hwithin

theorem getElem?_updateTable (s : Processes) (t u : Nat) (f : ProcessTable → ProcessTable) :
    (s.updateTable t f).tables[u]? = if t = u then (s.tables[u]?).map f else s.tables[u]? := by
  unfold updateTable
  split
  · rename_i hnone
    split
    · rename_i heq
      rw [← heq, hnone, Option.map_none]
    · rfl
  · rename_i table htable
    rw [List.getElem?_set]
    split
    · rename_i heq
      rw [← heq, htable, Option.map_some, if_pos (List.getElem?_eq_some_iff.1 htable).1]
    · rfl

theorem map_updateTable {α : Type} (g : ProcessTable → α) (s : Processes) (t : Nat)
    {f : ProcessTable → ProcessTable} (hf : ∀ table, g (f table) = g table) :
    (s.updateTable t f).tables.map g = s.tables.map g := by
  unfold updateTable
  split
  · rfl
  · rename_i table htable
    exact map_set_of_eq htable (hf table)

theorem bury_all (s : Processes) (process : Process) (p : Nat) (code : Int) :
    (s.bury process p code).all =
      s.all.set p { process with alive := false, exitCode := code, reactions := [] } :=
  all_updateTable _ _ _

theorem bury_tables (s : Processes) (process : Process) (p t : Nat) (code : Int) :
    (s.bury process p code).tables[t]? =
      if process.table = t then
        (s.tables[t]?).map fun table => if table.present then table.release process.pid else table
      else s.tables[t]? :=
  getElem?_updateTable _ _ _ _

theorem lives_bury {s : Processes} {process : Process} {p t pid place : Nat} {code : Int} :
    (s.bury process p code).Lives t pid place ↔ place ≠ p ∧ s.Lives t pid place := by
  unfold Lives
  rw [bury_all]
  by_cases hplace : p = place
  · subst hplace
    simp [List.getElem?_set]
  · simp [hplace, Ne.symm hplace]

theorem Sound.bury {limit : Nat} {s : Processes} (h : s.Sound limit) {process : Process} {p : Nat}
    (hp : s.all[p]? = some process) (halive : process.alive = true) (code : Int) :
    (s.bury process p code).Sound limit := by
  have hlineage : (s.bury process p code).all.map Process.lineage = s.all.map Process.lineage := by
    rw [bury_all]
    exact map_set_of_eq hp rfl
  have hcomputers : (s.bury process p code).tables.map (·.computer) = s.tables.map (·.computer) :=
    map_updateTable _ _ _ fun table => by split <;> rfl
  have hself : s.Lives process.table process.pid p := ⟨process, hp, rfl, halive, rfl⟩
  have hother : ∀ {t pid : Nat}, s.Lives t pid p → process.table = t ∧ process.pid = pid := by
    rintro t pid ⟨other, hget, htable, -, hpid⟩
    rw [hp, Option.some.injEq] at hget
    exact ⟨hget ▸ htable, hget ▸ hpid⟩
  refine ⟨h.toRooted.congr hcomputers hlineage, fun t table ht hpresent => ?_,
    fun t table ht => ?_, fun t table ht => ?_⟩
  · rw [bury_tables] at ht
    split at ht
    · rename_i heq
      subst heq
      obtain ⟨before, hbefore, rfl⟩ := Option.map_eq_some_iff.1 ht
      have hlisted : before.present = true := by
        by_contra hgone
        simp [hgone] at hpresent
      have htallies := h.tallies _ _ hbefore hlisted
      rw [if_pos hlisted]
      -- Ids tell the live processes of a table apart, so one less id is one less process.
      refine (htallies.release hself).congr fun pid place => ?_
      rw [lives_bury]
      refine and_congr_left fun hlives => not_congr ⟨?_, ?_⟩
      · rintro rfl
        exact htallies.unique hlives hself
      · rintro rfl
        exact (hother hlives).2.symm
    · rename_i hne
      refine (h.tallies t table ht hpresent).congr fun pid place => ?_
      rw [lives_bury]
      refine ⟨fun hlives => ⟨?_, hlives⟩, And.right⟩
      rintro rfl
      exact hne (hother hlives).1
  · rw [bury_tables] at ht
    split at ht
    · obtain ⟨before, hbefore, rfl⟩ := Option.map_eq_some_iff.1 ht
      split <;> exact h.next_pos t before hbefore
    · exact h.next_pos t table ht
  · rw [bury_tables] at ht
    split at ht
    · obtain ⟨before, hbefore, rfl⟩ := Option.map_eq_some_iff.1 ht
      split <;> exact h.next_le t before hbefore
    · exact h.next_le t table ht

theorem Sound.boot {limit : Nat} {s : Processes} (h : s.Sound limit) {computer : Nat}
    {users : List User} (hfair : ∀ user ∈ users, user.computer = computer)
    (hwithin : (s.boot computer users).2.Within limit) : (s.boot computer users).2.Sound limit := by
  obtain ⟨outcome, s', hboot⟩ : ∃ outcome s', s.boot computer users = (outcome, s') :=
    ⟨_, _, rfl⟩
  rw [hboot] at hwithin ⊢
  cases outcome with
  | error fault => exact boot_error hboot ▸ h
  | ok t =>
    obtain ⟨root, init, table, hroot, rfl, hid, -, htable, hs'⟩ := boot_ok hboot
    simp only [Process.identity, Process.lineage, Prod.mk.injEq] at hid
    obtain ⟨⟨hpid, huser, hparent, htableOf⟩, hlive⟩ := hid
    have hall : s'.all = s.all ++ [init] := by rw [hs']
    have htables : s'.tables = s.tables ++ [table] := by rw [hs']
    have hlast : s'.tables[s.tables.length]? = some table := by
      rw [htables, List.getElem?_concat_length]
    have hone : 1 ≤ limit := by
      have hcount := hwithin table (List.mem_of_getElem? hlast) (by rw [htable])
      rwa [htable] at hcount
    refine ⟨h.toRooted.append hall ?_ ?_ ?_ ?_ (by simp [htables]), fun t other ht hpresent => ?_,
      fun t other ht => ?_, fun t other ht => ?_⟩
    · simp [htables, htableOf]
    · intro other hother
      rw [htableOf, hlast, Option.some.injEq] at hother
      rw [huser, ← hother, htable]
      exact hfair root hroot
    · simp [hparent]
    · intro t ht
      rw [htables, List.getElem?_append_left ht]
    · rw [htables] at ht
      -- The tables that were there do not have the new process, and the new one has no other.
      rcases getElem?_snoc.1 ht with hold | ⟨rfl, rfl⟩
      · refine (h.tallies t other hold hpresent).congr fun pid place => ?_
        have hlt := (List.getElem?_eq_some_iff.1 hold).1
        rw [lives_append hall hlive, htableOf]
        simp [Nat.ne_of_gt hlt]
      · have hnone : ∀ pid place, ¬ s.Lives s.tables.length pid place := by
          rintro pid place ⟨process, hp, htable, -⟩
          have := h.table_lt place process hp
          omega
        rw [htable]
        refine ⟨fun pid place => ?_, by simp, by simp, fun pid => ?_, by simp⟩
        · rw [lives_append hall hlive]
          simp [hnone, htableOf, hpid]
        · simp only [lives_append hall hlive, hnone, htableOf, hpid, List.not_mem_nil, false_or,
            or_false, true_and, exists_and_left, exists_eq, and_true]
          omega
    · rw [htables] at ht
      rcases getElem?_snoc.1 ht with hold | ⟨rfl, rfl⟩
      · exact h.next_pos t other hold
      · rw [htable]
        exact Nat.two_pos
    · rw [htables] at ht
      rcases getElem?_snoc.1 ht with hold | ⟨rfl, rfl⟩
      · exact h.next_le t other hold
      · rw [htable]
        exact Nat.succ_le_succ hone

theorem Sound.dropTable {limit : Nat} {s : Processes} (h : s.Sound limit) (t : Nat) :
    (s.dropTable t).Sound limit := by
  have hall : (s.dropTable t).all = s.all := all_updateTable _ _ _
  have hback : ∀ {u : Nat} {table : ProcessTable}, (s.dropTable t).tables[u]? = some table →
      ∃ before, s.tables[u]? = some before ∧ table.next = before.next ∧
        (table.present = true → table = before) := by
    intro u table hu
    unfold Processes.dropTable at hu
    rw [getElem?_updateTable] at hu
    split at hu
    · obtain ⟨before, hbefore, rfl⟩ := Option.map_eq_some_iff.1 hu
      exact ⟨before, hbefore, rfl, by simp⟩
    · exact ⟨table, hu, rfl, fun _ => rfl⟩
  refine ⟨h.toRooted.congr (map_updateTable _ _ _ fun _ => rfl) (by rw [hall]),
    fun u table hu hpresent => ?_, fun u table hu => ?_, fun u table hu => ?_⟩
  · obtain ⟨before, hbefore, -, hsame⟩ := hback hu
    obtain rfl := hsame hpresent
    exact (h.tallies u table hbefore hpresent).congr (lives_congr (by rw [hall]) u)
  · obtain ⟨before, hbefore, hnext, -⟩ := hback hu
    exact hnext ▸ h.next_pos u before hbefore
  · obtain ⟨before, hbefore, hnext, -⟩ := hback hu
    exact hnext ▸ h.next_le u before hbefore

/-- All that a step can do to the processes: nothing to who they are, a fork, or a burial. -/
theorem step_cases (s : Processes) (errand : Errand) :
    ((s.step errand).2.tables = s.tables ∧
      (s.step errand).2.all.map Process.identity = s.all.map Process.identity) ∨
    (∃ p user child, errand.forks = true ∧ s.forkAs p user = (.ok child, (s.step errand).2)) ∨
    (∃ p code process, errand = .finish p code ∧ s.all[p]? = some process ∧
      process.alive = true ∧ (s.step errand).2 = s.bury process p code) := by
  have hforkAs : ∀ p user, (s.forkAs p user).2 = s ∨
      ∃ child, s.forkAs p user = (.ok child, (s.forkAs p user).2) := by
    intro p user
    cases hfork : s.forkAs p user with
    | mk outcome s' =>
      cases outcome with
      | error fault => exact Or.inl (forkAs_error hfork)
      | ok child => exact Or.inr ⟨child, rfl⟩
  cases errand with
  | kill p code =>
    simp only [Processes.step]
    split <;> exact Or.inl ⟨rfl, rfl⟩
  | finish p code =>
    simp only [Processes.step]
    split
    · exact Or.inl ⟨rfl, rfl⟩
    · rename_i process hp
      split
      · rename_i halive
        exact Or.inr (Or.inr ⟨p, code, process, rfl, hp, halive, rfl⟩)
      · exact Or.inl ⟨rfl, rfl⟩
  | react p reaction =>
    cases reaction with
    | done => exact Or.inl ⟨rfl, rfl⟩
    | note tag next => exact Or.inl ⟨rfl, rfl⟩
    | fork parent next =>
      simp only [Processes.step]
      rcases fork_eq s parent with heq | ⟨user, heq⟩
      · rw [heq]
        exact Or.inl ⟨rfl, rfl⟩
      · rw [heq]
        rcases hforkAs parent user with hsame | ⟨child, hok⟩
        · rw [hsame]
          exact Or.inl ⟨rfl, rfl⟩
        · exact Or.inr (Or.inl ⟨parent, user, child, rfl, hok⟩)
    | forkAs parent user next =>
      simp only [Processes.step]
      rcases hforkAs parent user with hsame | ⟨child, hok⟩
      · rw [hsame]
        exact Or.inl ⟨rfl, rfl⟩
      · exact Or.inr (Or.inl ⟨parent, user, child, rfl, hok⟩)
    | kill target code next => exact Or.inl ⟨rfl, rfl⟩
    | listen target reaction next =>
      simp only [Processes.step]
      split
      · exact Or.inl ⟨rfl, rfl⟩
      · rename_i process hp
        split
        · exact Or.inl ⟨rfl, map_set_of_eq hp rfl⟩
        · exact Or.inl ⟨rfl, rfl⟩

theorem Sound.step {limit : Nat} {s : Processes} (h : s.Sound limit) (errand : Errand)
    (hwithin : (s.step errand).2.Within limit) : (s.step errand).2.Sound limit := by
  rcases step_cases s errand with
    ⟨htables, hall⟩ | ⟨p, user, child, -, hfork⟩ | ⟨p, code, process, -, hp, halive, hbury⟩
  · exact h.congr htables hall
  · have hgrown : (s.forkAs p user).2 = (s.step errand).2 := by rw [hfork]
    rw [← hgrown] at hwithin ⊢
    exact h.forkAs p user hwithin
  · rw [hbury]
    exact h.bury hp halive code

end Processes

end ToyUnix
