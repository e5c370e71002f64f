import ToyUnix.Computer
import ToyUnix.Proofs.Process.Sound

/-!
What a computer has when it has been added to a world: a first process of its own super user, in a
table of the computer's own, from which its users can log in for as long as that process lives.
-/

set_option autoImplicit false

namespace ToyUnix

namespace World

variable {w w' : World} {config : ComputerConfig} {number : Nat} {computer : Computer} {user : User}

theorem addComputer_parts (hadd : w.addComputer config = (.ok number, w'))
    (hcomputer : w'.computers[number]? = some computer) :
    computer.users = config.users.map (User.ofConfig · computer.id) ∧
      bootProcesses w.processes computer.id computer.users =
        (.ok (computer.table, computer.init, computer.systemd), w'.processes) ∧
      w'.registry = w.registry ∧
      ∃ files, buildFiles w.files w.registry config = (.ok computer.fs, files) ∧
        w'.files = match computer.narrativeId with
          | none => files
          | some name => files.register w.registry name computer.fs := by
  simp only [addComputer, onFiles, onProcesses] at hadd
  generalize hbuilt : buildFiles w.files w.registry config = built at hadd ⊢
  obtain ⟨_ | fs, files⟩ := built
  · cases hadd
  · simp only at hadd
    generalize hbooted : bootProcesses w.processes w.nextComputer
      (config.users.map (User.ofConfig · w.nextComputer)) = booted at hadd
    obtain ⟨_ | ⟨table, init, systemd⟩, processes⟩ := booted
    · cases hadd
    · cases hadd
      rw [List.getElem?_concat_length, Option.some.injEq] at hcomputer
      subst hcomputer
      exact ⟨rfl, hbooted, rfl, files, rfl, rfl⟩

/-- The first process is a super user's, and the table it is in is there and is the computer's. -/
structure Based (w : World) (computer : Computer) : Prop where
  init : ∃ process, w.process? computer.init = some process ∧ process.table = computer.table ∧
    process.user.computer = computer.id ∧ process.user.isSuperUser = true
  table : ∃ table, w.processes.tables[computer.table]? = some table ∧
    table.computer = computer.id ∧ table.present = true
  users : ∀ user ∈ computer.users, user.computer = computer.id

theorem superUser_of_boot {s s' : Processes} {id t : Nat} {users : List User}
    (h : s.boot id users = (.ok t, s')) {process : Process}
    (hprocess : s'.all[s.all.length]? = some process) : process.user.isSuperUser = true := by
  unfold Processes.boot at h
  split at h
  · cases h
  · rename_i root hroot
    cases h
    rw [List.getElem?_concat_length, Option.some.injEq] at hprocess
    exact hprocess ▸ List.find?_some hroot

theorem bootProcesses_ok {s s' : Processes} {id t init systemd : Nat} {users : List User}
    (h : bootProcesses s id users = (.ok (t, init, systemd), s')) :
    ∃ process table, s'.all[init]? = some process ∧ process.table = t ∧ process.alive = true ∧
      process.user ∈ users ∧ process.user.isSuperUser = true ∧
      s'.tables[t]? = some table ∧ table.computer = id ∧ table.present = true := by
  unfold bootProcesses at h
  split at h
  · cases h
  · rename_i booted after hboot
    obtain ⟨root, first, table, hroot, rfl, hfirst, -, htable, hafter⟩ := Processes.boot_ok hboot
    simp only [Process.identity, Process.lineage, Prod.mk.injEq] at hfirst
    have hplace : (after.tables[s.tables.length]?.map (·.init)).getD 0 = s.all.length := by
      simp [hafter, htable]
    have hgiven : after.all[s.all.length]? = some first := by simp [hafter]
    have hsuper := superUser_of_boot hboot hgiven
    have hlisted : after.tables[s.tables.length]? = some table := by simp [hafter]
    simp only [hplace] at h
    split at h
    · cases h
    · rename_i forked last hfork
      obtain ⟨user, hfork⟩ := Processes.fork_ok hfork
      obtain ⟨process, entered, born, hprocess, hentered, halive, hpresent, -, -, -, hforked,
        rfl⟩ := Processes.forkAs_ok hfork
      obtain rfl := Option.some.inj (hgiven.symm.trans hprocess)
      rw [hfirst.1.2.2.2, hlisted, Option.some.injEq] at hentered
      subst hentered
      cases h
      have hne : s.all.length ≠ after.all.length :=
        (List.getElem?_eq_some_iff.1 hgiven).1.ne
      refine ⟨first, table.enroll after.all.length, ?_, hfirst.1.2.2.2, halive,
        hfirst.1.2.1 ▸ hroot, hsuper, ?_, ?_, ?_⟩
      · rw [Processes.setName, Processes.getElem?_update, if_neg (hforked ▸ hne)]
        exact Processes.getElem?_snoc.2 (Or.inl hgiven)
      · rw [Processes.setName, Processes.tables_update, hfirst.1.2.2.2]
        exact List.getElem?_set_self (List.getElem?_eq_some_iff.1 hlisted).1
      · rw [ProcessTable.enroll_computer, htable]
      · rw [ProcessTable.enroll_present, hpresent]

theorem based_addComputer (hadd : w.addComputer config = (.ok number, w'))
    (hcomputer : w'.computers[number]? = some computer) :
    w'.Based computer ∧ w'.processes.isAlive computer.init = true := by
  obtain ⟨husers, hboot, -⟩ := addComputer_parts hadd hcomputer
  obtain ⟨process, table, hprocess, hin, halive, huser, hsuper, htable, hnumber, hpresent⟩ :=
    bootProcesses_ok hboot
  have hown : ∀ user ∈ computer.users, user.computer = computer.id := by
    rw [husers]
    intro user huser
    obtain ⟨config, -, rfl⟩ := List.mem_map.1 huser
    rfl
  exact ⟨⟨⟨process, hprocess, hin, hown _ huser, hsuper⟩, ⟨table, htable, hnumber, hpresent⟩, hown⟩,
    Processes.isAlive_iff.2 ⟨process, hprocess, halive⟩⟩

theorem forkAs_own {s : Processes} {p : Nat} {process : Process} {table : ProcessTable}
    (hprocess : s.all[p]? = some process) (halive : process.alive = true)
    (htable : s.tables[process.table]? = some table) (hpresent : table.present = true)
    (hself : process.user.computer = table.computer) (huser : user.computer = table.computer) :
    ∃ child : Process, child.table = process.table ∧ child.user = user ∧ child.alive = true ∧
      s.forkAs p user = (.ok s.all.length,
        { s with
          all := s.all ++ [child]
          tables := s.tables.set process.table (table.enroll s.all.length) }) := by
  have hof : s.tableOf? process = some table := by
    rw [Processes.tableOf?, htable, Option.filter_some, if_pos hpresent]
  refine ⟨{ pid := table.allocate.1, name := process.name, user, parent := some p
            table := process.table, cwd := process.cwd, env := Processes.inheritedEnv process user
            alive := true, exitCode := 0, reactions := [] }, rfl, rfl, rfl, ?_⟩
  simp only [Processes.forkAs, hprocess, halive, hof, hself, huser, Bool.not_true, ne_eq,
    not_true_eq_false, or_self, if_false, Bool.false_eq_true]
  rfl

theorem introduced {s s' : Processes} {p : Nat} {child : Process} (user : User) (path : String)
    (hchild : s.all[p]? = some child) (hs' : s' = ((((s.setName p "login").setCwd p
      user.home).setEnv p "USER" user.name).setEnv p "HOME" user.home).setEnv p "PATH" path) :
    s'.tables = s.tables ∧ (∀ q, q ≠ p → s'.all[q]? = s.all[q]?) ∧
      ∃ login : Process, s'.all[p]? = some login ∧ login.cwd = user.home ∧
        login.identity = child.identity := by
  subst hs'
  simp only [Processes.setName, Processes.setCwd, Processes.setEnv, Processes.tables_update,
    Processes.getElem?_update, if_true, hchild, Option.map_some, true_and]
  exact ⟨fun q hq => by simp only [if_neg hq], _, rfl, rfl, rfl⟩

theorem Based.startLogin (h : w.Based computer)
    (halive : w.processes.isAlive computer.init = true) (huser : user ∈ computer.users) :
    ∃ (login : Process) (w' : World),
      w.startLogin computer user = (.ok w.processes.all.length, w') ∧ w'.files = w.files ∧
        w'.process? w.processes.all.length = some login ∧ login.cwd = user.home ∧
        login.alive = true ∧ login.table = computer.table ∧ login.user = user ∧
        w'.Based computer := by
  obtain ⟨init, hinit, hin, hown, hsuper⟩ := h.init
  obtain ⟨table, htable, hnumber, hpresent⟩ := h.table
  have hliving : init.alive = true := by
    obtain ⟨process, hprocess, hliving⟩ := Processes.isAlive_iff.1 halive
    exact (Option.some.inj (hinit.symm.trans hprocess)) ▸ hliving
  obtain ⟨child, hplace, haccount, hchild, hfork⟩ := forkAs_own hinit hliving (hin ▸ htable)
    hpresent (hown.trans hnumber.symm) ((h.users user huser).trans hnumber.symm)
  have hlast : (w.processes.all ++ [child])[w.processes.all.length]? = some child := by simp
  obtain ⟨htables, hothers, login, hlogin, hcwd, hborn⟩ := introduced user computer.searchPath
    (s := { w.processes with
      all := w.processes.all ++ [child]
      tables := w.processes.tables.set init.table (table.enroll w.processes.all.length) }) hlast rfl
  simp only [Process.identity, Process.lineage, Prod.mk.injEq] at hborn
  unfold World.startLogin onProcesses
  simp only [hfork]
  refine ⟨login, _, rfl, rfl, hlogin, hcwd, hborn.2.trans hchild,
    hborn.1.2.2.2.trans (hplace.trans hin), hborn.1.2.1.trans haccount,
    ⟨init, ?_, hin, hown, hsuper⟩, ⟨table.enroll w.processes.all.length, ?_, ?_, ?_⟩, h.users⟩
  · exact (hothers _ (List.getElem?_eq_some_iff.1 hinit).1.ne).trans
      (Processes.getElem?_snoc.2 (Or.inl hinit))
  · refine (congrArg (·[computer.table]?) htables).trans ?_
    rw [hin]
    exact List.getElem?_set_self (List.getElem?_eq_some_iff.1 htable).1
  · rw [ProcessTable.enroll_computer, hnumber]
  · rw [ProcessTable.enroll_present, hpresent]

end World

end ToyUnix
