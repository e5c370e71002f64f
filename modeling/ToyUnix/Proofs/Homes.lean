import ToyUnix.Setup
import ToyUnix.Proofs.Boot
import ToyUnix.Proofs.Files.Memory
import ToyUnix.Proofs.Files.Unmounting

/-!
Homes. The home of every user is made in the root of the computer's files, before the configured
mounts are attached, and a mount hides what is below its point. Main statement: `homes_iff`.
-/

set_option autoImplicit false

namespace ToyUnix

def MountConfig.point (mount : MountConfig) : Path := Path.ofText mount.path

/-- Of the configured mounts around a path, the one that is closest. -/
structure ComputerConfig.Around (config : ComputerConfig) (path : Path) (mount : MountConfig) :
    Prop where
  configured : mount ∈ config.mounts
  above : mount.point <+: path
  innermost : ∀ other ∈ config.mounts, other.point <+: path →
    other.point.length ≤ mount.point.length

namespace Files

variable {s s' : Files} {t r registry : Nat} {path : Path}

/-! How the files of a computer are built. -/

/-- The tree has nothing but directories, those of the texts among them. -/
structure Paved (s : Files) (r : Nat) (texts : List String) : Prop where
  inRange : r < s.trees.length
  grown : (s.tree r).Grown
  plain : ∀ (path : Path) (node : Node), (s.tree r).node? path = some node → node = .directory
  made : ∀ text ∈ texts, (s.tree r).node? (Path.ofText text) = some .directory

theorem plain_fresh {path : Path} {node : Node} (h : Tree.fresh.node? path = some node) :
    path = [] ∧ node = .directory := by
  by_cases hpath : path = []
  · subst hpath
    exact ⟨rfl, (Option.some.inj h).symm⟩
  · simp [Tree.fresh, Tree.node?, Assoc.get?, Ne.symm hpath] at h

theorem Paved.makeDirectory {done : List String} (h : s.Paved r done) (text : String)
    (hmade : s.apply (.memory r) text .makeDirectory = (.ok (), s')) :
    s'.Paved r (done ++ [text]) ∧ s'.tables = s.tables := by
  simp only [apply, route_memory, change, Tree.change] at hmade
  split at hmade
  · rename_i tree hmakes
    obtain rfl : s.setTree r tree = s' := (Prod.mk.inj hmade).2
    obtain ⟨hgrown, hhere, hother⟩ := h.grown.makeDirectory (Path.canonical_ofText text) hmakes
    have htree : (s.setTree r tree).tree r = tree := by rw [tree_setTree h.inRange, if_pos rfl]
    refine ⟨⟨by simpa [setTree] using h.inRange, by rwa [htree], fun path node hnode => ?_,
      fun other hmem => ?_⟩, rfl⟩
    · rw [htree] at hnode
      rcases hother path with hsame | ⟨-, -, hnew⟩
      · exact h.plain path node (hsame ▸ hnode)
      · exact Option.some.inj (hnode.symm.trans hnew)
    · rw [htree]
      rcases List.mem_append.1 hmem with hmem | hmem
      · rcases hother (Path.ofText other) with hsame | ⟨-, -, hnew⟩
        · rw [hsame, h.made other hmem]
        · exact hnew
      · rw [List.mem_singleton.1 hmem, hhere]
  · cases hmade

theorem Paved.makeDirectories {done texts : List String} (h : s.Paved r done)
    (hmade : World.makeDirectories s (.memory r) texts = (.ok (), s')) :
    s'.Paved r (done ++ texts) ∧ s'.tables = s.tables := by
  induction texts generalizing s done with
  | nil =>
    obtain rfl : s = s' := (Prod.mk.inj hmade).2
    exact ⟨by simpa using h, rfl⟩
  | cons text texts ih =>
    unfold World.makeDirectories at hmade
    split at hmade
    · rename_i next hnext
      obtain ⟨hpaved, htables⟩ := h.makeDirectory text hnext
      have hrest := ih hpaved hmade
      rw [List.append_assoc] at hrest
      exact ⟨hrest.1, hrest.2.trans htables⟩
    · cases hmade

theorem Paved.congr {texts : List String} (h : s.Paved r texts) (hlength : r < s'.trees.length)
    (htree : s'.tree r = s.tree r) : s'.Paved r texts :=
  ⟨hlength, htree ▸ h.grown, htree ▸ h.plain, htree ▸ h.made⟩

/-- What becomes of a configured mount: an empty file system of its own, or the devices. -/
inductive Provides (s : Files) (r registry : Nat) (config : MountConfig) : Mount → Prop
  | memory {id : Nat} : config.kind = .memory → id < s.trees.length → id ≠ r →
      s.tree id = Tree.fresh → Provides s r registry config ⟨config.point, .memory id⟩
  | devices (handle : Nat) : config.kind = .devices →
      Provides s r registry config ⟨config.point, .devices handle registry⟩

theorem Provides.point {config : MountConfig} {mount : Mount}
    (h : s.Provides r registry config mount) : mount.point = config.point := by
  cases h <;> rfl

theorem Provides.keep {config : MountConfig} {mount : Mount}
    (h : s.Provides r registry config mount) (hlength : s.trees.length ≤ s'.trees.length)
    (htrees : ∀ id < s.trees.length, s'.tree id = s.tree id) :
    s'.Provides r registry config mount := by
  cases h with
  | memory hkind hid hne hfresh =>
    exact .memory hkind (Nat.lt_of_lt_of_le hid hlength) hne ((htrees _ hid).trans hfresh)
  | devices handle hkind => exact .devices handle hkind

/-- The table has the configured mounts and no others, and each has a tree of its own. -/
structure Furnished (s : Files) (t r registry : Nat) (configs : List MountConfig) : Prop where
  inRange : t < s.tables.length
  pointed : Pointed (s.mounts t)
  apart : ∀ a ∈ s.mounts t, ∀ b ∈ s.mounts t, ∀ id, a.fs = .memory id → b.fs = .memory id → a = b
  asked : ∀ mount ∈ s.mounts t, ∃ config ∈ configs, s.Provides r registry config mount
  given : ∀ config ∈ configs, ∃ mount ∈ s.mounts t, s.Provides r registry config mount

namespace Furnished

variable {configs : List MountConfig}

theorem keep (h : s.Furnished t r registry configs) (htables : s'.tables = s.tables)
    (hlength : s.trees.length ≤ s'.trees.length)
    (htrees : ∀ id < s.trees.length, s'.tree id = s.tree id) :
    s'.Furnished t r registry configs := by
  have hmounts : s'.mounts t = s.mounts t := by simp only [mounts, htables]
  refine ⟨htables ▸ h.inRange, hmounts ▸ h.pointed, hmounts ▸ h.apart, fun mount hmount => ?_,
    fun config hconfig => ?_⟩
  · obtain ⟨config, hconfig, hprovides⟩ := h.asked mount (hmounts ▸ hmount)
    exact ⟨config, hconfig, hprovides.keep hlength htrees⟩
  · obtain ⟨mount, hmount, hprovides⟩ := h.given config hconfig
    exact ⟨mount, hmounts ▸ hmount, hprovides.keep hlength htrees⟩

theorem attach {config : MountConfig} {mount : Mount} (h : s.Furnished t r registry configs)
    (hprovides : s.Provides r registry config mount) (hbelow : mount.point ≠ [])
    (hfree : s.isMountPoint t mount.point = false)
    (hown : ∀ other ∈ s.mounts t, ∀ id, mount.fs = .memory id → other.fs ≠ .memory id) :
    (s.setMounts t (s.mounts t ++ [mount])).Furnished t r registry (configs ++ [config]) := by
  have hmounts := mounts_setMounts h.inRange (s.mounts t ++ [mount])
  have hkeep : ∀ {config : MountConfig} {mount : Mount}, s.Provides r registry config mount →
      (s.setMounts t (s.mounts t ++ [mount])).Provides r registry config mount :=
    fun hprovides => hprovides.keep (Nat.le_refl _) fun _ _ => rfl
  refine ⟨by simpa [setMounts] using h.inRange, ?_, ?_, ?_, ?_⟩
  · rw [hmounts]
    refine h.pointed.snoc ?_ hbelow fun other hother heq => ?_
    · rw [hprovides.point]
      exact Path.canonical_ofText _
    · rw [isMountPoint_iff.2 ⟨other, hother, heq⟩] at hfree
      cases hfree
  · rw [hmounts]
    intro a ha b hb id hfsa hfsb
    rcases List.mem_append.1 ha with ha | ha <;> rcases List.mem_append.1 hb with hb | hb
    · exact h.apart a ha b hb id hfsa hfsb
    · exact absurd hfsa (hown a ha id (List.mem_singleton.1 hb ▸ hfsb))
    · exact absurd hfsb (hown b hb id (List.mem_singleton.1 ha ▸ hfsa))
    · rw [List.mem_singleton.1 ha, List.mem_singleton.1 hb]
  · rw [hmounts]
    intro other hother
    rcases List.mem_append.1 hother with hother | hother
    · obtain ⟨asked, hasked, hprovides⟩ := h.asked other hother
      exact ⟨asked, List.mem_append_left _ hasked,
        hprovides.keep (Nat.le_refl _) fun _ _ => rfl⟩
    · obtain rfl := List.mem_singleton.1 hother
      exact ⟨config, by simp, hkeep hprovides⟩
  · rw [hmounts]
    intro other hother
    rcases List.mem_append.1 hother with hother | hother
    · obtain ⟨given, hgiven, hprovides⟩ := h.given other hother
      exact ⟨given, List.mem_append_left _ hgiven,
        hprovides.keep (Nat.le_refl _) fun _ _ => rfl⟩
    · obtain rfl := List.mem_singleton.1 hother
      exact ⟨mount, by simp, hkeep hprovides⟩

end Furnished

/-- What is made for a mount before it is attached. -/
def provision (s : Files) (registry : Nat) (config : MountConfig) : FileSystem × Files :=
  match config.kind with
  | .memory => s.addMemory
  | .devices => s.addDevices registry

theorem mounts_provision (s : Files) (registry : Nat) (config : MountConfig) (t : Nat) :
    (s.provision registry config).2.mounts t = s.mounts t := by
  unfold provision
  cases config.kind <;> rfl

theorem mountAll_cons {table : FileSystem} {config : MountConfig} {configs : List MountConfig}
    (h : World.mountAll s registry table (config :: configs) = (.ok (), s')) :
    ∃ next, (s.provision registry config).2.apply table config.path
        (.mount (s.provision registry config).1) = (.ok (), next) ∧
      World.mountAll next registry table configs = (.ok (), s') := by
  cases hkind : config.kind with
  | memory =>
    simp only [World.mountAll, provision, hkind] at h ⊢
    split at h
    · rename_i next hnext
      exact ⟨next, hnext, h⟩
    · cases h
  | devices =>
    simp only [World.mountAll, provision, hkind] at h ⊢
    split at h
    · rename_i next hnext
      exact ⟨next, hnext, h⟩
    · cases h

theorem Furnished.provision {done : List MountConfig} {texts : List String}
    (h : s.Furnished t r registry done) (hpaved : s.Paved r texts) (config : MountConfig) :
    (s.provision registry config).2.Furnished t r registry done ∧
      (s.provision registry config).2.Paved r texts ∧
      (s.provision registry config).2.Provides r registry config
        ⟨config.point, (s.provision registry config).1⟩ ∧
      ∀ other ∈ s.mounts t, ∀ id, (s.provision registry config).1 = .memory id →
        other.fs ≠ .memory id := by
  cases hkind : config.kind with
  | memory =>
    have htrees : ∀ id < s.trees.length, s.addMemory.2.tree id = s.tree id := by
      intro id hid
      simp [addMemory, Files.tree, List.getElem?_append_left hid]
    have hlength : s.trees.length ≤ s.addMemory.2.trees.length := by simp [addMemory]
    simp only [Files.provision, hkind]
    refine ⟨h.keep rfl hlength htrees, ?_, ?_, fun other hother id hnew hold => ?_⟩
    · exact hpaved.congr (Nat.lt_of_lt_of_le hpaved.inRange hlength) (htrees r hpaved.inRange)
    · exact .memory hkind (by simp [addMemory]) hpaved.inRange.ne' (by simp [addMemory, Files.tree])
    · obtain ⟨asked, -, hprovides⟩ := h.asked other hother
      cases hprovides with
      | memory _ hid _ _ =>
        cases hold
        exact Nat.lt_irrefl _ (FileSystem.memory.inj hnew ▸ hid)
      | devices handle _ => cases hold
  | devices =>
    simp only [Files.provision, hkind]
    exact ⟨h.keep rfl (Nat.le_refl _) fun _ _ => rfl, hpaved.congr hpaved.inRange rfl,
      .devices s.nextHandle hkind, fun _ _ _ hnew => by cases hnew⟩

/-- By induction on the mounts that are still to come. -/
theorem Furnished.mountAll {configs : List MountConfig} {root : FileSystem}
    {done : List MountConfig} (h : s.Furnished t r registry done) {texts : List String}
    (hpaved : s.Paved r texts)
    (hall : World.mountAll s registry (.mounts t root) configs = (.ok (), s')) :
    s'.Paved r texts ∧ s'.Furnished t r registry (done ++ configs) := by
  induction configs generalizing s done with
  | nil =>
    obtain rfl : s = s' := (Prod.mk.inj hall).2
    exact ⟨hpaved, by simpa using h⟩
  | cons config configs ih =>
    obtain ⟨next, hnext, hrest⟩ := mountAll_cons hall
    obtain ⟨hfurnished, hpaves, hprovides, hown⟩ := h.provision hpaved config
    obtain ⟨hbelow, hfree, rfl⟩ := mount_ok hnext
    have hdone := hfurnished.attach hprovides hbelow hfree (by rwa [mounts_provision])
    have hall := ih hdone (hpaves.congr hpaves.inRange rfl) hrest
    rwa [List.append_assoc] at hall

theorem buildFiles_ok {config : ComputerConfig} {fs : FileSystem}
    (h : World.buildFiles s registry config = (.ok fs, s')) :
    ∃ t r, fs = overlay t r ∧ s'.Furnished t r registry config.mounts ∧
      s'.Paved r (config.directories ++ config.users.map UserConfig.homeDirectory ++
        config.mounts.map (·.path)) := by
  have hstart : s.addMemory.2.Paved s.trees.length [] := by
    have htree : s.addMemory.2.tree s.trees.length = Tree.fresh := by simp [addMemory, Files.tree]
    refine ⟨by simp [addMemory], htree ▸ Tree.grown_fresh, fun path node hnode => ?_, by simp⟩
    rw [htree] at hnode
    exact (plain_fresh hnode).2
  unfold World.buildFiles at h
  simp only at h
  split at h
  · cases h
  · rename_i paved hpaved
    split at h
    · cases h
    · rename_i furnished hfurnished
      cases h
      obtain ⟨hpaves, -⟩ := hstart.makeDirectories hpaved
      have htable : (paved.addTable s.addMemory.1).2.Furnished paved.tables.length s.trees.length
          registry [] := by
        have hnone : (paved.addTable s.addMemory.1).2.mounts paved.tables.length = [] := by
          simp [addTable, Files.mounts]
        exact ⟨by simp [addTable], hnone ▸ .nil, by simp [hnone], by simp [hnone], by simp⟩
      have hunder : (paved.addTable s.addMemory.1).2.Paved s.trees.length _ :=
        hpaves.congr hpaves.inRange rfl
      obtain ⟨hkept, hmounted⟩ := htable.mountAll hunder hfurnished
      exact ⟨_, _, rfl, hmounted, hkept⟩

/-! Which mount is around a path. -/

variable {config : ComputerConfig}

theorem Furnished.owner_provides (h : s.Furnished t r registry config.mounts)
    {mount : MountConfig} (haround : config.Around path mount) (root : FileSystem) :
    s.Provides r registry mount (s.owner t root path) := by
  obtain ⟨made, hmade, hprovides⟩ := h.given mount haround.configured
  have howner : s.owner t root path = made := by
    refine owner_eq h.pointed hmade ?_ (fun other hother hupper => ?_) root
    · rw [hprovides.point]
      exact haround.above
    · obtain ⟨asked, hasked, hgives⟩ := h.asked other hother
      rw [hgives.point] at hupper ⊢
      rw [hprovides.point]
      exact haround.innermost asked hasked hupper
  rwa [howner]

theorem Furnished.exists_around (h : s.Furnished t r registry config.mounts) (path : Path)
    (root : FileSystem) :
    s.owner t root path = ⟨[], root⟩ ∨ ∃ mount, config.Around path mount := by
  refine (s.owner_mem t root path).imp_right fun hmem => ?_
  obtain ⟨mount, hmount, hprovides⟩ := h.asked _ hmem
  refine ⟨mount, hmount, hprovides.point ▸ s.owner_above t root path, fun other hother hupper => ?_⟩
  obtain ⟨made, hmade, hgives⟩ := h.given other hother
  rw [← hgives.point, ← hprovides.point]
  exact length_le_owner hmade (hgives.point ▸ hupper) root

theorem follow_devices (s : Files) (a b registry : Nat) (shown : String) (path : Path) :
    s.follow (.devices a registry) shown path = s.follow (.devices b registry) shown path := by
  cases path <;> simp only [follow]

theorem isDirectory_devices (s : Files) (handle registry : Nat) (text : String) :
    s.isDirectory (.devices handle registry) text = s.isDirectory (.devices 0 registry) text := by
  rw [isDirectory, route, follow_devices s handle 0]
  rfl

theorem isDirectory_mounts (s : Files) (t : Nat) (root : FileSystem) (text : String) :
    s.isDirectory (.mounts t root) text = true ↔
      Path.ofText text = (s.owner t root (Path.ofText text)).point ∨
        s.isDirectory (s.owner t root (Path.ofText text)).fs (Path.text
          ((Path.ofText text).drop (s.owner t root (Path.ofText text)).point.length)) = true := by
  have hinner := (Path.canonical_ofText text).drop
    (s.owner t root (Path.ofText text)).point.length
  rw [isDirectory, route_mounts, follow_mounts]
  simp [answers, isDirectory, route, Path.ofText_text hinner]

/-- A directory of the root stays one unless a mount above it hides it. Below an empty file system
nothing is left, and below the devices of the world there is what they lead to. -/
theorem Furnished.isDirectory_iff {texts : List String} {text : String}
    (h : s.Furnished t r registry config.mounts) (hpaved : s.Paved r texts) (hmade : text ∈ texts) :
    s.isDirectory (overlay t r) text = true ↔
      ∀ mount, config.Around (Path.ofText text) mount → mount.point = Path.ofText text ∨
        mount.kind = .devices ∧ s.isDirectory (.devices 0 registry)
          (Path.text ((Path.ofText text).drop mount.point.length)) = true := by
  have hcanonical := Path.canonical_ofText text
  have hprovides : ∀ mount, config.Around (Path.ofText text) mount →
      s.Provides r registry mount (s.owner t (.memory r) (Path.ofText text)) :=
    fun mount haround => h.owner_provides haround (.memory r)
  have hcases := h.exists_around (Path.ofText text) (.memory r)
  rw [isDirectory_mounts]
  generalize s.owner t (.memory r) (Path.ofText text) = owner at hprovides hcases ⊢
  constructor
  · intro hdirectory mount haround
    cases hprovides mount haround with
    | memory hkind hid hne hfresh =>
      refine Or.inl (hdirectory.elim Eq.symm fun hdirectory => ?_)
      rw [isDirectory_memory, hfresh, Path.ofText_text (hcanonical.drop _)] at hdirectory
      have happend := List.prefix_iff_eq_append.1 haround.above
      rwa [(plain_fresh hdirectory).1, List.append_nil] at happend
    | devices handle hkind =>
      exact hdirectory.imp Eq.symm fun hdirectory => ⟨hkind, isDirectory_devices s .. ▸ hdirectory⟩
  · intro hall
    rcases hcases with rfl | ⟨mount, haround⟩
    · refine Or.inr ((isDirectory_memory s r _).2 ?_)
      rw [List.length_nil, List.drop_zero, Path.ofText_text hcanonical]
      exact hpaved.made text hmade
    · cases hprovides mount haround with
      | memory hkind hid hne hfresh =>
        exact Or.inl ((hall mount haround).elim Eq.symm fun hdevices =>
          absurd (hkind.symm.trans hdevices.1) (by decide))
      | devices handle hkind =>
        exact (hall mount haround).imp Eq.symm fun hdevices =>
          (isDirectory_devices s ..).trans hdevices.2

/-! Writing the script to try. -/

theorem applyAll_error {fs : FileSystem} {path : String} {c : Change}
    {changes : List (String × Change)} {fault : Fault} (h : (s.apply fs path c).1 = .error fault) :
    (Setup.applyAll s fs ((path, c) :: changes)).1 = .error fault := by
  unfold Setup.applyAll
  split
  · rename_i hok
    rw [hok] at h
    cases h
  · rename_i herror
    rw [herror] at h
    exact h

theorem apply_root {user : User} (huser : user.isRoot = true) (n t : Nat) (root : FileSystem)
    (text : String) {c : Change} (hmounts : (Request.change c).mounts = false)
    (hkeeps : c ≠ .deleteDirectory) :
    s.apply (.view n (.mounts t root) user) text c =
      rebaseOutcome (s.owner t root (Path.ofText text)).point.text
        (s.change c (s.follow (s.owner t root (Path.ofText text)).fs
          (Path.text ((Path.ofText text).drop (s.owner t root (Path.ofText text)).point.length))
          ((Path.ofText text).drop (s.owner t root (Path.ofText text)).point.length))) := by
  have hwrites : user.canWrite (Path.ofText text) = true := by simp [User.canWrite, huser]
  rw [apply, route, follow, follow_mounts, change, if_pos hwrites,
    change_mounted s _ hmounts fun heq => absurd heq hkeeps]

theorem owner_snoc {name : String} (h : Pointed (s.mounts t))
    (hfree : ∀ mount ∈ s.mounts t, mount.point ≠ path ++ [name]) (root : FileSystem) :
    s.owner t root (path ++ [name]) = s.owner t root path := by
  have hupper : ∀ mount ∈ s.mounts t, mount.point <+: path ++ [name] → mount.point <+: path := by
    intro mount hmount hupper
    exact (List.prefix_concat_iff.1 hupper).resolve_left (hfree mount hmount)
  rcases s.owner_mem t root path with hroot | hmem
  · rcases s.owner_mem t root (path ++ [name]) with hsame | hmem
    · rw [hroot, hsame]
    · exact absurd (hupper _ hmem (s.owner_above t root _)) (not_above_of_owner h hroot hmem)
  · exact owner_eq h hmem ((s.owner_above t root path).trans (List.prefix_append _ _))
      (fun other hother habove => length_le_owner hother (hupper other hother habove) root) root

theorem write_ok_iff {tree : Tree}
    (hplain : ∀ (path : Path) (node : Node), tree.node? path = some node → node = .directory)
    (path : Path) (name : String) (data : Bytes) :
    (∃ after, tree.write (path ++ [name]) data = .ok after) ↔
      tree.node? path = some .directory ∧ tree.node? (path ++ [name]) ≠ some .directory := by
  have hparent : (path ++ [name]).parent = path := List.dropLast_concat
  cases habove : tree.node? path with
  | none => simp [Tree.write, Tree.checkParent, hparent, habove]
  | some node =>
    obtain rfl := hplain path node habove
    cases hthere : tree.node? (path ++ [name]) with
    | none => simp [Tree.write, Tree.checkParent, hparent, habove, hthere]
    | some node =>
      obtain rfl := hplain _ node hthere
      simp [Tree.write, Tree.checkParent, hparent, habove, hthere]

theorem setExecutable_written {tree after : Tree} {data : Bytes}
    (h : tree.write path data = .ok after) : ∃ last, after.setExecutable path true = .ok last := by
  obtain ⟨node, hfile, -, -, rfl⟩ := Tree.filed_write h
  cases node with
  | directory => exact absurd rfl hfile
  | _ => simp [Tree.setExecutable, Tree.node?_put]

theorem ofText_hello (home : String) :
    Path.ofText (home ++ "/hello.sh") = Path.ofText home ++ ["hello.sh"] := by
  have hchars : (home ++ "/hello.sh").toList = home.toList ++ '/' :: "hello.sh".toList := by simp
  have hname : cut '/' "hello.sh".toList = ["hello.sh".toList] := by decide
  have hsegment : Path.IsName "hello.sh" := ⟨by decide, by decide⟩
  rw [Path.ofText, hchars, cut_join, hname, Path.ofPieces, List.foldl_append]
  exact Path.descend_name hsegment

theorem applyAll_hello {user super : User} (hsuper : super.isRoot = true) {id : Nat}
    (hid : id < s.trees.length) {point : Path} {root : FileSystem}
    (howner : s.owner t root (Path.ofText (user.home ++ "/hello.sh")) = ⟨point, .memory id⟩)
    (n : Nat) :
    (Setup.applyAll s (.view n (.mounts t root) super) (Setup.helloFor user)).1 = .ok () ↔
      ∃ tree, (s.tree id).write ((Path.ofText (user.home ++ "/hello.sh")).drop point.length)
        (Utf8.encode Setup.helloScript) = .ok tree := by
  have happly : ∀ (s : Files) (c : Change), (Request.change c).mounts = false →
      c ≠ .deleteDirectory →
      s.owner t root (Path.ofText (user.home ++ "/hello.sh")) = ⟨point, .memory id⟩ →
      s.apply (.view n (.mounts t root) super) (user.home ++ "/hello.sh") c =
        rebaseOutcome point.text (s.change c (.tree id
          (Path.text ((Path.ofText (user.home ++ "/hello.sh")).drop point.length))
          ((Path.ofText (user.home ++ "/hello.sh")).drop point.length))) := by
    intro s c hmounts hkeeps howner
    rw [apply_root hsuper n t root _ hmounts hkeeps, howner, follow]
  generalize (Path.ofText (user.home ++ "/hello.sh")).drop point.length = inner at happly ⊢
  have hfirst := happly s (.write (Utf8.encode Setup.helloScript)) rfl (by simp) howner
  simp only [change, Tree.change] at hfirst
  cases hwrite : (s.tree id).write inner (Utf8.encode Setup.helloScript) with
  | error fault =>
    rw [hwrite] at hfirst
    rw [Setup.helloFor, applyAll_error (congrArg Prod.fst hfirst)]
    simp
  | ok tree =>
    rw [hwrite] at hfirst
    obtain ⟨last, hlast⟩ := setExecutable_written hwrite
    have htree : (s.setTree id tree).tree id = tree := by rw [tree_setTree hid, if_pos rfl]
    have hsecond := happly (s.setTree id tree) (.setExecutable true) rfl (by simp) howner
    simp only [change, Tree.change, htree, hlast] at hsecond
    simp [Setup.helloFor, Setup.applyAll, hfirst, hsecond, rebaseOutcome, rebaseFault,
      Except.mapError]

theorem Furnished.hello_taken {user super : User} (h : s.Furnished t r registry config.mounts)
    (hsuper : super.isRoot = true) {mount : Mount} (hmount : mount ∈ s.mounts t)
    (hat : mount.point = Path.ofText (user.home ++ "/hello.sh")) (n : Nat) :
    (Setup.applyAll s (.view n (overlay t r) super) (Setup.helloFor user)).1 ≠ .ok () ∧
      s.isDirectory (overlay t r) (user.home ++ "/hello.sh") = true := by
  have howner : s.owner t (.memory r) (Path.ofText (user.home ++ "/hello.sh")) = mount :=
    hat ▸ owner_eq h.pointed hmount (List.prefix_refl _) (fun _ _ hupper => hupper.length_le) _
  have hdrop : (Path.ofText (user.home ++ "/hello.sh")).drop mount.point.length = [] := by
    rw [hat, List.drop_length]
  refine ⟨fun hok => ?_, (isDirectory_mounts ..).2 (Or.inl (howner ▸ hat.symm))⟩
  obtain ⟨asked, -, hprovides⟩ := h.asked mount hmount
  cases hprovides with
  | memory hkind hid hne hfresh =>
    obtain ⟨tree, hwrite⟩ := (applyAll_hello hsuper hid howner n).1 hok
    rw [hdrop, hfresh] at hwrite
    simp [Tree.write, Tree.checkParent, Path.parent, Tree.fresh, Tree.node?, Assoc.get?] at hwrite
  | devices handle hkind =>
    have hfirst := apply_root (s := s) hsuper n t (.memory r) (user.home ++ "/hello.sh")
      (c := .write (Utf8.encode Setup.helloScript)) rfl (by simp)
    rw [howner, hdrop, follow] at hfirst
    rw [Setup.helloFor, applyAll_error (congrArg Prod.fst hfirst)] at hok
    cases hok

theorem Furnished.exists_layer {texts : List String} (h : s.Furnished t r registry config.mounts)
    (hpaved : s.Paved r texts)
    (hmemory : ∀ mount, config.Around path mount → mount.kind = .memory) :
    ∃ point id, s.owner t (.memory r) path = ⟨point, .memory id⟩ ∧ id < s.trees.length ∧
      (s.tree id).node? [] = some .directory ∧
      ∀ (path : Path) (node : Node), (s.tree id).node? path = some node → node = .directory := by
  rcases h.exists_around path (.memory r) with hroot | ⟨mount, haround⟩
  · exact ⟨[], r, hroot, hpaved.inRange, hpaved.grown.root, hpaved.plain⟩
  · have hprovides := h.owner_provides haround (.memory r)
    generalize s.owner t (.memory r) path = owner at hprovides
    cases hprovides with
    | memory hkind hid hne hfresh =>
      refine ⟨mount.point, _, rfl, hid, by rw [hfresh]; rfl, fun path node hnode => ?_⟩
      exact (plain_fresh (hfresh ▸ hnode)).2
    | devices handle hkind => exact absurd (hkind.symm.trans (hmemory mount haround)) (by decide)

/-- Where no devices are around the home, the script can be written just when the home is there and
its name is not taken by a directory. -/
theorem Furnished.hello_iff {user super : User} {texts : List String}
    (h : s.Furnished t r registry config.mounts) (hpaved : s.Paved r texts)
    (hsuper : super.isRoot = true)
    (hmemory : ∀ mount, config.Around (Path.ofText user.home) mount → mount.kind = .memory)
    (n : Nat) :
    (Setup.applyAll s (.view n (overlay t r) super) (Setup.helloFor user)).1 = .ok () ↔
      s.isDirectory (overlay t r) user.home = true ∧
        s.isDirectory (overlay t r) (user.home ++ "/hello.sh") = false := by
  have hpath := ofText_hello user.home
  by_cases hpoint : ∃ mount ∈ s.mounts t, mount.point = Path.ofText (user.home ++ "/hello.sh")
  · obtain ⟨mount, hmount, hat⟩ := hpoint
    obtain ⟨hfails, hdirectory⟩ := h.hello_taken hsuper hmount hat n
    exact iff_of_false hfails (by simp [hdirectory])
  · -- The home and the script are in one tree, so this is a matter of that tree alone.
    have hfree : ∀ mount ∈ s.mounts t, mount.point ≠ Path.ofText user.home ++ ["hello.sh"] :=
      fun mount hmount heq => hpoint ⟨mount, hmount, heq.trans hpath.symm⟩
    have hsame := owner_snoc h.pointed hfree (.memory r)
    obtain ⟨point, id, howner, hid, hroot, hplain⟩ := h.exists_layer hpaved hmemory
    have hnext : s.owner t (.memory r) (Path.ofText (user.home ++ "/hello.sh")) =
        ⟨point, .memory id⟩ := by rw [hpath, hsame, howner]
    have habove : point <+: Path.ofText user.home := by
      have habove := s.owner_above t (.memory r) (Path.ofText user.home)
      rwa [howner] at habove
    have hbelow : (Path.ofText user.home ++ ["hello.sh"]).drop point.length =
        (Path.ofText user.home).drop point.length ++ ["hello.sh"] :=
      List.drop_append_of_le_length habove.length_le
    have hinside : ∀ text, s.owner t (.memory r) (Path.ofText text) = ⟨point, .memory id⟩ →
        (s.isDirectory (overlay t r) text = true ↔
          (s.tree id).node? ((Path.ofText text).drop point.length) = some .directory) := by
      intro text howner
      rw [isDirectory_mounts, howner, isDirectory_memory,
        Path.ofText_text ((Path.canonical_ofText text).drop _)]
      refine or_iff_right_of_imp fun heq => ?_
      rw [heq, List.drop_length, hroot]
    rw [applyAll_hello hsuper hid hnext, hinside _ howner, ← Bool.not_eq_true, hinside _ hnext,
      hpath, hbelow, write_ok_iff hplain]

end Files

namespace World

/-- A computer that has been added has the home of a user as a directory just when the configured
mount that is closest around it, if any, is attached at the home itself, or is one of the devices of
the world that has such a directory. A login starts there in any case. And unless devices are around
the home the script to try can be written to it, if it is there and no directory has that name. -/
theorem homes_iff {w w' : World} {config : ComputerConfig} {number : Nat} {computer : Computer}
    {user : User} (hadd : w.addComputer config = (.ok number, w'))
    (hcomputer : w'.computers[number]? = some computer) (huser : user ∈ computer.users) :
    (w'.files.isDirectory computer.fs user.home = true ↔
      ∀ mount, config.Around (Path.ofText user.home) mount →
        mount.point = Path.ofText user.home ∨
          mount.kind = .devices ∧ w'.files.isDirectory (.devices 0 w'.registry)
            (Path.text ((Path.ofText user.home).drop mount.point.length)) = true) ∧
    (∃ (login : Process) (after : World),
      w'.startLogin computer user = (.ok w'.processes.all.length, after) ∧
        after.files = w'.files ∧ after.process? w'.processes.all.length = some login ∧
        login.alive = true ∧ login.cwd = user.home) ∧
    ((∀ mount, config.Around (Path.ofText user.home) mount → mount.kind = .memory) →
      ((Setup.applyAll w'.files (w'.viewOf computer computer.init) (Setup.helloFor user)).1 =
          .ok () ↔
        w'.files.isDirectory computer.fs user.home = true ∧
          w'.files.isDirectory computer.fs (user.home ++ "/hello.sh") = false)) := by
  obtain ⟨husers, -, hregistry, files, hbuilt, hfiles⟩ := addComputer_parts hadd hcomputer
  obtain ⟨hbased, halive⟩ := based_addComputer hadd hcomputer
  obtain ⟨t, r, hfs, hfurnished, hpaved⟩ := Files.buildFiles_ok hbuilt
  have htrees : w'.files.trees = files.trees := by
    rw [hfiles]
    cases computer.narrativeId <;> rfl
  have htables : w'.files.tables = files.tables := by
    rw [hfiles]
    cases computer.narrativeId <;> rfl
  have htree : ∀ id, w'.files.tree id = files.tree id := fun id => by rw [Files.tree, htrees]; rfl
  have hpaves := hpaved.congr (htrees ▸ hpaved.inRange) (htree r)
  have hfurnishes := hfurnished.keep htables (htrees ▸ Nat.le_refl _) fun id _ => htree id
  have hhome : user.home ∈ config.directories ++ config.users.map UserConfig.homeDirectory ++
      config.mounts.map (·.path) := by
    rw [husers] at huser
    obtain ⟨account, haccount, rfl⟩ := List.mem_map.1 huser
    exact List.mem_append_left _ (List.mem_append_right _ (List.mem_map_of_mem haccount))
  obtain ⟨init, hinit, -, -, hsuper⟩ := hbased.init
  have hroot : init.user.isRoot = true := (Bool.and_eq_true_iff.1 hsuper).2
  rw [hfs, hregistry]
  refine ⟨hfurnishes.isDirectory_iff hpaves hhome, ?_, fun hmemory => ?_⟩
  · obtain ⟨login, after, hlogin, hsame, hprocess, hcwd, halive, -⟩ :=
      hbased.startLogin halive huser
    exact ⟨login, after, hlogin, hsame, hprocess, halive, hcwd⟩
  · simp only [viewOf, hinit, Computer.view, hfs]
    exact hfurnishes.hello_iff hpaves hroot hmemory 0

/-! The default users, with mounts around the second one's home. -/

def mounting (mounts : List MountConfig) : ComputerConfig := { directories := [], mounts }

def withMounts (mounts : List MountConfig) : World := (World.fresh.addComputer (mounting mounts)).2

def computerOf (mounts : List MountConfig) : Computer :=
  { id := 0, hostname := "localhost", narrativeId := none, searchPath := "/bin:/usr/bin"
    users := (mounting mounts).users.map (User.ofConfig · 0), fs := Files.overlay 0 0
    table := 0, init := 0, systemd := 1 }

def standardUser : User := ⟨1000, "user", .standard, 0, "/home/user"⟩

theorem standardUser_mem (mounts : List MountConfig) :
    standardUser ∈ (computerOf mounts).users :=
  List.mem_cons_of_mem _ List.mem_cons_self

def nestedMounts : List MountConfig := [⟨"/home/user", .memory⟩, ⟨"/home", .memory⟩]

/-- A mount at the home itself is no harm, even below another one that is attached later. -/
theorem homes_iff_nested :
    (withMounts nestedMounts).files.isDirectory (computerOf nestedMounts).fs "/home/user" = true ∧
      (Setup.applyAll (withMounts nestedMounts).files
        ((withMounts nestedMounts).viewOf (computerOf nestedMounts) (computerOf nestedMounts).init)
        (Setup.helloFor standardUser)).1 = .ok () := by
  have hadd : World.fresh.addComputer (mounting nestedMounts) =
      (.ok 0, withMounts nestedMounts) := Prod.ext (by cbv) rfl
  have hcomputer : (withMounts nestedMounts).computers[0]? = some (computerOf nestedMounts) := by
    cbv
  have haround : ∀ mount, (mounting nestedMounts).Around
      (Path.ofText "/home/user") mount → mount = ⟨"/home/user", .memory⟩ := by
    intro mount h
    have hlength := h.innermost ⟨"/home/user", .memory⟩ List.mem_cons_self (by decide)
    rcases List.mem_pair.1 h.configured with rfl | rfl
    · rfl
    · exact absurd hlength (by decide)
  obtain ⟨hhome, -, hwrites⟩ := homes_iff hadd hcomputer (standardUser_mem _)
  have hdirectory := hhome.2 fun mount h => Or.inl (haround mount h ▸ rfl)
  have hunused : (withMounts nestedMounts).files.isDirectory (computerOf nestedMounts).fs
      (standardUser.home ++ "/hello.sh") = false := by cbv
  exact ⟨hdirectory, (hwrites fun mount h => haround mount h ▸ rfl).2 ⟨hdirectory, hunused⟩⟩

/-- A mount above the home hides it, and then the script cannot be written. -/
theorem homes_hidden :
    (Setup.applyAll (withMounts [⟨"/home", .memory⟩]).files
        ((withMounts [⟨"/home", .memory⟩]).viewOf (computerOf [⟨"/home", .memory⟩]) 0)
        (Setup.helloFor standardUser)).1 = .error (.notFound "/home/user") ∧
      ¬ ∀ (w w' : World) (config : ComputerConfig) (number : Nat) (computer : Computer)
          (user : User), w.addComputer config = (.ok number, w') →
        w'.computers[number]? = some computer → user ∈ computer.users →
          w'.files.isDirectory computer.fs user.home = true := by
  have hwrite : ∀ data, ((withMounts [⟨"/home", .memory⟩]).files.apply
      ((withMounts [⟨"/home", .memory⟩]).viewOf (computerOf [⟨"/home", .memory⟩]) 0)
      "/home/user/hello.sh" (.write data)).1 = .error (.notFound "/home/user") := by
    intro data
    cbv
  refine ⟨Files.applyAll_error (hwrite _), fun hclaim => ?_⟩
  have hadd : World.fresh.addComputer (mounting [⟨"/home", .memory⟩]) =
      (.ok 0, withMounts [⟨"/home", .memory⟩]) := Prod.ext (by cbv) rfl
  have hcomputer : (withMounts [⟨"/home", .memory⟩]).computers[0]? =
      some (computerOf [⟨"/home", .memory⟩]) := by cbv
  have hhidden : (withMounts [⟨"/home", .memory⟩]).files.isDirectory
      (computerOf [⟨"/home", .memory⟩]).fs standardUser.home = false := by cbv
  have hhome := hclaim _ _ _ _ _ _ hadd hcomputer (standardUser_mem _)
  rw [hhidden] at hhome
  cases hhome

end World

end ToyUnix
