import ToyUnix.Proofs.Populated
import ToyUnix.Proofs.Shell.Entrusted

/-!
Confinement. Where no login is configured a terminal logs in the first account but the super user's.
If that account has no root's rights, then whatever is typed, the session leaves alone what is
neither in the home directory nor in `/tmp`. Other accounts with root's rights than the super user's
are logged in as well, and these may change anything. Devices can lead from `/tmp` or from a home back
to the computer's own files; then what no path from there leads to is left alone.
Main statement: `Terminal.confined`.
-/

set_option autoImplicit false

namespace ToyUnix

namespace Files

variable {s : Files} {fs : FileSystem} {user : User} {t r registry id : Nat} {path inner : Path}
  {configs : List MountConfig}

/-! When a place tells the path. -/

theorem place?_devices (h : ∀ name, s.lookup? registry name = none) (handle : Nat) (path : Path) :
    s.place? (.devices handle registry) path = none := by
  cases path <;> simp only [place?, follow, h, Route.place?]

/-- No way leads through devices: they are not mounted, or there are none. -/
def Loopless (s : Files) (registry : Nat) (configs : List MountConfig) : Prop :=
  (∀ name, s.lookup? registry name = none) ∨ ∀ config ∈ configs, config.kind = .memory

theorem Furnished.place_owner (h : s.Furnished t r registry configs)
    (hdevices : s.Loopless registry configs)
    (hplace : s.place? (overlay t r) path = some (id, inner)) :
    (s.owner t (.memory r) path).fs = .memory id ∧
      (s.owner t (.memory r) path).point ++ inner = path := by
  have habove := List.prefix_iff_eq_append.1 (s.owner_above t (.memory r) path)
  rw [place?_mounts] at hplace
  rcases s.owner_mem t (.memory r) path with hroot | hmem
  · rw [hroot, place?_memory] at hplace
    rw [hroot] at habove ⊢
    cases hplace
    exact ⟨rfl, habove⟩
  · obtain ⟨asked, hasked, hprovides⟩ := h.asked _ hmem
    generalize s.owner t (.memory r) path = owner at *
    cases hprovides with
    | memory hkind hid hne hfresh =>
      rw [place?_memory] at hplace
      cases hplace
      exact ⟨rfl, habove⟩
    | devices handle hkind =>
      rcases hdevices with hnone | hmemory
      · rw [place?_devices hnone] at hplace
        cases hplace
      · exact absurd (hkind.symm.trans (hmemory asked hasked)) (by decide)

/-- Each tree has one mount only, so no two paths lead to one place. -/
theorem Furnished.place_inj (h : s.Furnished t r registry configs)
    (hdevices : s.Loopless registry configs) {other : Path} {place : Nat × Path}
    (hpath : s.place? (overlay t r) path = some place)
    (hother : s.place? (overlay t r) other = some place) : path = other := by
  obtain ⟨id, inner⟩ := place
  obtain ⟨hfs, hpoint⟩ := h.place_owner hdevices hpath
  obtain ⟨hotherfs, hotherpoint⟩ := h.place_owner hdevices hother
  have hroot : ∀ mount ∈ s.mounts t, mount.fs ≠ .memory r := by
    intro mount hmount hfs
    obtain ⟨asked, -, hprovides⟩ := h.asked mount hmount
    cases hprovides with
    | memory _ _ hne _ => exact hne (FileSystem.memory.inj hfs)
    | devices handle _ => cases hfs
  have hsame : s.owner t (.memory r) path = s.owner t (.memory r) other := by
    rcases s.owner_mem t (.memory r) path with hp | hp <;>
      rcases s.owner_mem t (.memory r) other with ho | ho
    · rw [hp, ho]
    · rw [hp] at hfs
      exact absurd (hotherfs.trans hfs.symm) (hroot _ ho)
    · rw [ho] at hotherfs
      exact absurd (hfs.trans hotherfs.symm) (hroot _ hp)
    · exact h.apart _ hp _ ho id hfs hotherfs
  rw [← hpoint, ← hotherpoint, hsame]

/-! What is out of the user's reach. -/

/-- In the user's home directory or in `/tmp`, however both are written. -/
def Allowed (user : User) (text : String) : Prop :=
  Path.ofText user.home <+: Path.ofText text ∨ ["tmp"] <+: Path.ofText text

/-- Nothing that the path leads to can also be found inside. -/
def Elsewhere (s : Files) (fs : FileSystem) (user : User) (text : String) : Prop :=
  ∀ inside place, Allowed user inside → s.place? fs (Path.ofText inside) = some place →
    s.place? fs (Path.ofText text) ≠ some place

theorem Elsewhere.spared {text : String} (h : s.Elsewhere fs user text)
    (hstandard : user.privilege = .standard) (id : Nat) (path : Path)
    (hplace : s.place? fs (Path.ofText text) = some (id, path)) : ¬ s.Granted fs user id path := by
  rintro ⟨inside, hwrite, hsame⟩
  have hinside := User.within_of_canWrite hstandard (Path.canonical_ofText inside) hwrite
  exact h inside _ hinside hsame hplace

end Files

namespace Terminal

open Files

variable {config : Config} {c : Nat} {user : User} {up : World}

/-! The login. -/

/-- The first account but the super user's is the first one without root's rights just when all
before that one are the super user's. -/
theorem find?_standard_iff {accounts : List UserConfig} {number : Nat}
    (hfirst : (accounts.map (User.ofConfig · number)).find? (fun user => !user.isSuperUser) =
      some user) :
    (accounts.map (User.ofConfig · number)).find? (fun user => user.privilege = .standard) =
        some user ↔
      ∀ account ∈ accounts.takeWhile (fun account => account.privilege = .root), account.id = 0 := by
  induction accounts with
  | nil => cases hfirst
  | cons account accounts ih =>
    have hsuper : (User.ofConfig account number).isSuperUser =
        (decide (account.id = 0) && decide (account.privilege = .root)) := rfl
    have hprivilege : (User.ofConfig account number).privilege = account.privilege := rfl
    rw [List.map_cons, List.find?_cons, hsuper] at hfirst
    rw [List.map_cons, List.find?_cons, hprivilege]
    cases hkind : account.privilege with
    | standard =>
      rw [hkind] at hfirst
      simpa [hkind] using hfirst
    | root =>
      rw [hkind] at hfirst
      by_cases hzero : account.id = 0
      · rw [decide_eq_true hzero] at hfirst
        simpa [hkind, hzero] using ih hfirst
      · rw [decide_eq_false hzero] at hfirst
        refine iff_of_false (fun hfind => ?_) fun hall => hzero (hall account (by simp [hkind]))
        have hstandard := List.find?_some hfind
        rw [← Option.some.inj hfirst, hprivilege, hkind] at hstandard
        cases hstandard

theorem loginUser_first {w : World} {computer : Computer}
    (hlogin : loginUser w computer none = .ok user)
    (hother : ∃ other ∈ computer.users, other.isSuperUser = false) :
    computer.users.find? (fun user => !user.isSuperUser) = some user := by
  obtain ⟨other, hmem, hother⟩ := hother
  have hsome : (computer.users.find? fun user => !user.isSuperUser).isSome := by
    rw [List.find?_isSome]
    exact ⟨other, hmem, by rw [hother]; rfl⟩
  obtain ⟨first, hfirst⟩ := Option.isSome_iff_exists.1 hsome
  simp only [loginUser, hfirst, Option.some_or] at hlogin
  rw [hfirst, Except.ok.inj hlogin]

/-! The computer that is up. -/

/-- What a session can count on. -/
structure Ready (config : ComputerConfig) (up : World) (computer : Computer) : Prop where
  users : computer.users = config.users.map (User.ofConfig · computer.id)
  pristine : up.files.Pristine
  homely : ∀ user ∈ computer.users, user.privilege = .standard → up.files.Homely computer.fs user
  injective : config.narrativeId = none ∨ (∀ mount ∈ config.mounts, mount.kind = .memory) →
    ∀ path other place, up.files.place? computer.fs path = some place →
      up.files.place? computer.fs other = some place → path = other

theorem lookup?_fresh {s : Files} (h : World.fresh.files.Moves s) (registry : Nat) (name : String) :
    s.lookup? registry name = none := by
  have hnone : World.fresh.files.devices registry = [] := by
    cases registry <;> rfl
  rw [lookup?, (h.keeps registry).devices, hnone]
  rfl

theorem place_inj_addComputer {config : ComputerConfig} {w : World} {added : Computer}
    (hadd : World.fresh.addComputer config = (.ok c, w)) (hadded : w.computers[c]? = some added)
    (hloopless : config.narrativeId = none ∨ ∀ mount ∈ config.mounts, mount.kind = .memory)
    {path other : Path} {place : Nat × Path} (hpath : w.files.place? added.fs path = some place)
    (hother : w.files.place? added.fs other = some place) : path = other := by
  obtain ⟨-, -, -, files, hbuilt, hfiles⟩ := World.addComputer_parts hadd hadded
  have hname := World.narrativeId_addComputer hadd hadded
  obtain ⟨t, r, hfs, hfurnished, -⟩ := buildFiles_ok hbuilt
  have hmoves := (World.moves_buildFiles World.fresh.files World.fresh.registry config).1
  rw [hbuilt] at hmoves
  have hkept : w.files.trees = files.trees ∧ w.files.tables = files.tables := by
    rw [hfiles]
    cases added.narrativeId <;> exact ⟨rfl, rfl⟩
  obtain ⟨htrees, htables⟩ := hkept
  have hfurnishes := hfurnished.keep htables (htrees ▸ Nat.le_refl _) fun id _ => by
    rw [Files.tree, htrees, Files.tree]
  rw [hfs] at hpath hother
  refine hfurnishes.place_inj (hloopless.imp_left fun hnone name => ?_) hpath hother
  rw [hnone] at hname
  rw [hfiles, hname]
  exact lookup?_fresh hmoves _ name

theorem boot_ready (h : boot config = (.ok (c, user), up)) :
    ∃ computer, up.computers[c]? = some computer ∧ Ready config.computer up computer ∧
      loginUser up computer config.computer.login = .ok user := by
  obtain ⟨w, v, added, computer, hadd, hadded, hpopulate, hfiles, hcomputer, hid, hfs, husers,
    hlogin⟩ := boot_parts h
  have haccounts := (World.addComputer_parts hadd hadded).1
  have hpristine := World.pristine_addComputer World.pristine_fresh hadd hadded
  have hgrows := World.populate_grows hadded hpopulate
  refine ⟨computer, hcomputer, ⟨?_, ?_, fun user huser hstandard => ?_, ?_⟩, hlogin⟩
  · rw [husers, hid, haccounts]
  · exact hfiles ▸ hpristine.grows hgrows
  · rw [hfiles, hfs]
    exact World.populate_homely hpristine hadded hpopulate (husers ▸ huser) hstandard
  · intro hloopless path other place hpath hother
    rw [hfiles, hfs, hgrows.standing.place?] at hpath hother
    exact place_inj_addComputer hadd hadded hloopless hpath hother

/-! The session. -/

/-- What the user does at a terminal with that input, once greeted. -/
def session (depth : Nat) (settings : ShellConfig) (c : Nat) (user : User) (input : Bytes)
    (up : World) : Course World (Except Fault Int) :=
  Session.run (execute depth) c (Console.addTerminal up input).1 settings user
    (greet c user (Console.addTerminal up input).1 (Console.addTerminal up input).2)

theorem run_session (hboot : boot config = (.ok (c, user), up)) {input : Bytes} {after : World}
    {result : Except Fault Int}
    (h : (session depth config.shell c user input up).finish = some (after, result)) :
    run config input =
      ⟨result.toOption.getD 1, (Console.addTerminal up input).1.output after⟩ := by
  unfold session at h
  unfold run
  rw [hboot]
  simp only [h]
  cases result <;> rfl

theorem greet_restricted (fs : FileSystem) (start : Files) (c : Nat) (user : User)
    (console : Console) (w : World) :
    World.Restricted fs user start w (greet c user console w) := by
  unfold greet
  split
  · exact .refl w
  · split
    · exact .write ..
    · exact .refl w

/-- What is elsewhere stays as it was, whatever the user types. -/
theorem session_elsewhere {config : ComputerConfig} {computer : Computer}
    (hcomputer : up.computers[c]? = some computer) (hready : Ready config up computer)
    (huser : user ∈ computer.users) (hstandard : user.privilege = .standard) {depth : Nat}
    {settings : ShellConfig} {input : Bytes} {after : World} {result : Except Fault Int}
    (hrun : (session depth settings c user input up).finish = some (after, result)) {text : String}
    (htext : up.files.Elsewhere computer.fs user text) :
    Alike up.files after.files computer.fs text := by
  have hhomely := hready.homely user huser hstandard
  have hterminal : World.Restricted computer.fs user up.files up (Console.addTerminal up input).2 :=
    .of_eq rfl rfl rfl
  have hgreeted := hterminal.trans
    (greet_restricted computer.fs up.files c user (Console.addTerminal up input).1 _)
  have hsame : ∀ other, (greet c user (Console.addTerminal up input).1
      (Console.addTerminal up input).2).computers[c]? = some other → other.fs = computer.fs := by
    intro other hother
    rw [hgreeted.computers, hcomputer] at hother
    exact congrArg Computer.fs (Option.some.inj hother).symm
  have hends := hgreeted.trans ((Session.run_restricted (execute_restricted hhomely depth) hsame
    (Console.addTerminal up input).1 settings).finish hrun)
  exact (hends.files (.refl hhomely hready.pristine.writers)).alike (htext.spared hstandard)

/-- A run that comes up and ends is a session. When no login is configured and there is an account
without root's rights, the first such account is logged in exactly if all before it have the number 0.
Then a session of it that comes to an end, whatever is typed, leaves every path as it was that leads
to nothing inside the home directory or `/tmp`. That is every path outside of them, unless devices are
mounted and the computer is one. -/
theorem confined (hboot : boot config = (.ok (c, user), up)) (hlogin : config.computer.login = none)
    (hstandard : ∃ account ∈ config.computer.users, account.privilege = .standard) :
    (∀ (input : Bytes) (after : World) (result : Except Fault Int),
      (session depth config.shell c user input up).finish = some (after, result) →
        run config input =
          ⟨result.toOption.getD 1, (Console.addTerminal up input).1.output after⟩) ∧
    ∃ computer, up.computers[c]? = some computer ∧
      computer.users = config.computer.users.map (User.ofConfig · computer.id) ∧
      (computer.users.find? (fun user => user.privilege = .standard) = some user ↔
        ∀ account ∈ config.computer.users.takeWhile (fun account => account.privilege = .root),
          account.id = 0) ∧
      (computer.users.find? (fun user => user.privilege = .standard) = some user →
        ∀ (depth : Nat) (input : Bytes) (after : World) (result : Except Fault Int),
          (session depth config.shell c user input up).finish = some (after, result) →
            (∀ text, up.files.Elsewhere computer.fs user text →
              Alike up.files after.files computer.fs text) ∧
            (config.computer.narrativeId = none ∨
                (∀ mount ∈ config.computer.mounts, mount.kind = .memory) →
              ∀ text, ¬ Allowed user text → Alike up.files after.files computer.fs text)) := by
  obtain ⟨computer, hcomputer, hready, hlogged⟩ := boot_ready hboot
  have hother : ∃ other ∈ computer.users, other.isSuperUser = false := by
    obtain ⟨account, hmem, hkind⟩ := hstandard
    refine ⟨User.ofConfig account computer.id, hready.users ▸ List.mem_map_of_mem hmem, ?_⟩
    simp [User.isSuperUser, User.isRoot, User.ofConfig, hkind]
  have hfirst := loginUser_first (hlogin ▸ hlogged) hother
  refine ⟨fun input after result hends => run_session hboot hends, ?_⟩
  refine ⟨computer, hcomputer, hready.users, ?_, fun hfound depth input after result hrun => ?_⟩
  · rw [hready.users] at hfirst ⊢
    exact find?_standard_iff hfirst
  · have huser := List.mem_of_find?_eq_some hfound
    have hkind : user.privilege = .standard := by simpa using List.find?_some hfound
    have helsewhere (text : String) (htext : up.files.Elsewhere computer.fs user text) :=
      session_elsewhere hcomputer hready huser hkind hrun htext
    refine ⟨helsewhere, fun hloopless text houtside => helsewhere text ?_⟩
    intro inside place hinside hplace htext
    have hsame := hready.injective hloopless _ _ place hplace htext
    rw [Allowed, hsame] at hinside
    exact houtside hinside

/-! The default accounts, and an account with root's rights between them. -/

def plain : World := (boot {}).2

def plainComputer : Computer := { World.computerOf [] with programs := some .utilities }

set_option maxRecDepth 4000 in
theorem plain_eq :
    ((boot {}).1, plain.computers[0]?,
      (session 9 {} 0 World.standardUser (Utf8.encode ":>b\n") plain).finish.map
        fun r => r.1.files.isFile plainComputer.fs "/home/user/b") =
      (.ok (0, World.standardUser), some plainComputer, some true) := by cbv

/-- The session makes a file in the home directory, and no other one does anything elsewhere. -/
theorem confined_plain :
    boot {} = (.ok (0, World.standardUser), plain) ∧
    (session 9 {} 0 World.standardUser (Utf8.encode ":>b\n") plain).finish.map
      (fun r => r.1.files.isFile plainComputer.fs "/home/user/b") = some true ∧
    ∀ (depth : Nat) (input : Bytes) (after : World) (result : Except Fault Int),
      (session depth {} 0 World.standardUser input plain).finish = some (after, result) →
        ∀ text, ¬ Allowed World.standardUser text →
          Alike plain.files after.files plainComputer.fs text := by
  obtain ⟨hlogged, hrest⟩ := Prod.mk.inj plain_eq
  obtain ⟨hup, hmakes⟩ := Prod.mk.inj hrest
  have hboot : boot {} = (.ok (0, World.standardUser), plain) := Prod.ext hlogged rfl
  refine ⟨hboot, hmakes, fun depth input after result hrun text => ?_⟩
  obtain ⟨-, computer, hcomputer, -, hfirst, hsession⟩ := confined hboot rfl
    ⟨⟨1000, "user", .standard, none⟩, List.mem_cons_of_mem _ List.mem_cons_self, rfl⟩
  obtain rfl := Option.some.inj (hup.symm.trans hcomputer)
  exact (hsession (hfirst.2 (by decide)) depth input after result hrun).2 (.inl rfl) text

def ranked : Config where
  computer := { users :=
    [⟨0, "root", .root, none⟩, ⟨5, "admin", .root, none⟩, ⟨1000, "kim", .standard, none⟩] }

def admin : User := ⟨5, "admin", .root, 0, "/root"⟩

def rankedUp : World := (boot ranked).2

def rankedComputer : Computer :=
  { plainComputer with users := ranked.computer.users.map (User.ofConfig · 0) }

theorem ranked_eq :
    ((boot ranked).1, rankedUp.computers[0]?,
      (rankedUp.files.apply (rankedComputer.view admin) "/etc/b" (.write [])).1) =
        (.ok (0, admin), some rankedComputer, .ok ()) := by cbv

/-- The account in between is logged in, and can make files in `/etc`. -/
theorem unconfined_admin :
    boot ranked = (.ok (0, admin), rankedUp) ∧
    (rankedUp.files.apply (rankedComputer.view admin) "/etc/b" (.write [])).1 = .ok () ∧
    ¬ ∀ (config : Config) (c : Nat) (user : User) (up : World) (computer : Computer),
      boot config = (.ok (c, user), up) → config.computer.login = none →
      (∃ account ∈ config.computer.users, account.privilege = .standard) →
      up.computers[c]? = some computer →
        computer.users.find? (fun user => user.privilege = .standard) = some user ∧
        ∀ (depth : Nat) (input : Bytes) (after : World) (result : Except Fault Int),
          (session depth config.shell c user input up).finish = some (after, result) →
            ∀ text, ¬ Allowed user text → Alike up.files after.files computer.fs text := by
  obtain ⟨hlogged, hrest⟩ := Prod.mk.inj ranked_eq
  obtain ⟨hup, hwrites⟩ := Prod.mk.inj hrest
  have hboot : boot ranked = (.ok (0, admin), rankedUp) := Prod.ext hlogged rfl
  refine ⟨hboot, hwrites, fun hclaim => ?_⟩
  have hfirst := (hclaim ranked 0 admin rankedUp rankedComputer hboot rfl
    ⟨⟨1000, "kim", .standard, none⟩, by decide, rfl⟩ hup).1
  exact absurd hfirst (by decide)

end Terminal

end ToyUnix
