import ToyUnix.Computer
import ToyUnix.Proofs.Files.Registry
import ToyUnix.Proofs.Files.Relay

/-!
Computers that address each other. A computer that is added to a world is registered under its
narrative id, and wherever another computer, or it itself, has the devices of the world mounted, its
files are below that id: what is asked for there it is asked for itself. Main statement:
`addressed`.
-/

set_option autoImplicit false

namespace ToyUnix

/-- What is registered last under each name after the computer has been added. -/
def Computer.enter (computer : Computer) (named : Assoc String FileSystem) :
    Assoc String FileSystem :=
  match computer.narrativeId with
  | none => named
  | some name => named.set name computer.fs

namespace World

/-- The worlds that can come about, each with what was registered last under every name. Whatever
else happens in a world, its computers keep their file systems and its files change by deeds. -/
inductive Reached : Assoc String FileSystem → World → Prop
  | fresh : Reached [] World.fresh
  | added {named : Assoc String FileSystem} {w w' : World} {config : ComputerConfig} {number : Nat}
      {computer : Computer} : Reached named w → w.addComputer config = (.ok number, w') →
      w'.computers[number]? = some computer → Reached (computer.enter named) w'
  | failed {named : Assoc String FileSystem} {w w' : World} {config : ComputerConfig}
      {fault : Fault} : Reached named w → w.addComputer config = (.error fault, w') →
      Reached named w'
  | registered {named : Assoc String FileSystem} {w : World} (name : String) {fs : FileSystem} :
      Reached named w → (∀ id root, fs = .mounts id root → id < w.files.tables.length) →
      Reached (named.set name fs) (w.updateFiles (·.register w.registry name fs))
  | unregistered {named : Assoc String FileSystem} {w : World} (name : String) : Reached named w →
      Reached (named.erase name) (w.updateFiles fun s => (s.unregister w.registry name).2)
  | expired {named : Assoc String FileSystem} {w : World} (held : List FileSystem) :
      Reached named w → Reached named (w.expireDevices held)
  | worked {named : Assoc String FileSystem} {w w' : World} (deeds : List Deed) :
      Reached named w → (∀ deed ∈ deeds, deed.Spares w.registry) →
      w'.files = w.files.run deeds → w'.registry = w.registry →
      w'.computers.map (·.fs) = w.computers.map (·.fs) → Reached named w'

/-! How the files of a computer are built. -/

/-- A property of files that is kept by all that the files of a computer are built with. -/
structure Building (P : Files → Prop) : Prop where
  apply : ∀ (s : Files) (fs : FileSystem) (text : String) (c : Change), P s →
    P (s.apply fs text c).2
  memory : ∀ s : Files, P s → P s.addMemory.2
  devices : ∀ (s : Files) (registry : Nat), P s → P (s.addDevices registry).2
  table : ∀ (s : Files) (root : FileSystem), P s → P (s.addTable root).2

namespace Building

variable {P : Files → Prop} {s : Files}

theorem next {outcome : Except Fault Unit × Files} {next : Files → Except Fault Unit × Files}
    (h : P outcome.2) (hnext : ∀ after : Files, P after → P (next after).2) :
    P (match outcome with
      | (.ok (), s) => next s
      | (.error fault, s) => (.error fault, s)).2 := by
  split
  · exact hnext _ h
  · exact h

theorem makeDirectories (hP : Building P) (h : P s) (fs : FileSystem) (paths : List String) :
    P (makeDirectories s fs paths).2 := by
  induction paths generalizing s with
  | nil => exact h
  | cons path paths ih => exact next (hP.apply s fs path .makeDirectory h) fun _ => ih

theorem mountAll (hP : Building P) (h : P s) (registry : Nat) (table : FileSystem)
    (mounts : List MountConfig) : P (mountAll s registry table mounts).2 := by
  induction mounts generalizing s with
  | nil => exact h
  | cons mount mounts ih =>
    cases hkind : mount.kind with
    | memory =>
      simp only [World.mountAll, hkind]
      exact next (hP.apply _ table mount.path _ (hP.memory s h)) fun _ => ih
    | devices =>
      simp only [World.mountAll, hkind]
      exact next (hP.apply _ table mount.path _ (hP.devices s registry h)) fun _ => ih

theorem buildFiles (hP : Building P) (h : P s) (registry : Nat) (config : ComputerConfig) :
    P (buildFiles s registry config).2 := by
  have hmade := hP.makeDirectories (hP.memory s h) s.addMemory.1
    (config.directories ++ config.users.map UserConfig.homeDirectory ++ config.mounts.map (·.path))
  simp only [World.buildFiles]
  split
  · rename_i fault after herror
    rwa [herror] at hmade
  · rename_i after hok
    rw [hok] at hmade
    have hmounted := hP.mountAll (hP.table after s.addMemory.1 hmade) registry
      (after.addTable s.addMemory.1).1 config.mounts
    split
    · rename_i fault last herror
      rwa [herror] at hmounted
    · rename_i last hok
      rwa [hok] at hmounted

end Building

theorem building_moves (s : Files) : Building s.Moves where
  apply _ fs text c h := h.trans (Files.moves_apply _ fs text c)
  memory _ h := h.tail .memory
  devices _ _ h := h.tail (.handle _)
  table _ root h := h.tail (.table root)

theorem moves_buildFiles (s : Files) (registry : Nat) (config : ComputerConfig) :
    s.Moves (buildFiles s registry config).2 ∧ ∀ fs, (buildFiles s registry config).1 = .ok fs →
      ∃ id root, fs = .mounts id root ∧ s.tables.length ≤ id ∧
        id < (buildFiles s registry config).2.tables.length := by
  refine ⟨(building_moves s).buildFiles .refl registry config, ?_⟩
  have hmade := (building_moves s).makeDirectories (.single .memory) s.addMemory.1
    (config.directories ++ config.users.map UserConfig.homeDirectory ++ config.mounts.map (·.path))
  simp only [buildFiles]
  split
  · exact fun fs hfs => by cases hfs
  · rename_i after hok
    rw [hok] at hmade
    have hmounts := (building_moves (after.addTable s.addMemory.1).2).mountAll .refl registry
      (after.addTable s.addMemory.1).1 config.mounts
    split
    · exact fun fs hfs => by cases hfs
    · rename_i last hok
      rw [hok] at hmounts
      refine fun fs hfs => ⟨after.tables.length, s.addMemory.1, (Except.ok.inj hfs).symm, ?_, ?_⟩
      · exact (hmade.keeps registry).tables
      · have hlength := (hmounts.keeps registry).tables
        simp only [Files.addTable, List.length_append, List.length_singleton] at hlength
        exact hlength

theorem addComputer_ok {w w' : World} {config : ComputerConfig} {number : Nat}
    (h : w.addComputer config = (.ok number, w')) :
    ∃ (computer : Computer) (files : Files), w'.computers = w.computers ++ [computer] ∧
      number = w.computers.length ∧ w'.registry = w.registry ∧ w.files.Moves files ∧
      (∃ id root, computer.fs = .mounts id root ∧ w.files.tables.length ≤ id ∧
        id < files.tables.length) ∧
      w'.files = match computer.narrativeId with
        | none => files
        | some name => files.register w.registry name computer.fs := by
  obtain ⟨hmoves, htable⟩ := moves_buildFiles w.files w.registry config
  simp only [addComputer, onFiles, onProcesses] at h
  generalize buildFiles w.files w.registry config = built at hmoves htable h
  obtain ⟨_ | fs, files⟩ := built
  · cases h
  · simp only at h
    generalize bootProcesses w.processes w.nextComputer
      (config.users.map (User.ofConfig · w.nextComputer)) = booted at h
    obtain ⟨_ | ⟨table, init, systemd⟩, processes⟩ := booted
    · cases h
    · cases h
      refine ⟨_, files, rfl, rfl, rfl, hmoves, htable fs rfl, rfl⟩

theorem addComputer_error {w w' : World} {config : ComputerConfig} {fault : Fault}
    (h : w.addComputer config = (.error fault, w')) :
    w'.computers = w.computers ∧ w'.registry = w.registry ∧ w.files.Moves w'.files := by
  obtain ⟨hmoves, -⟩ := moves_buildFiles w.files w.registry config
  simp only [addComputer, onFiles, onProcesses] at h
  generalize buildFiles w.files w.registry config = built at hmoves h
  obtain ⟨_ | fs, files⟩ := built
  · cases h
    exact ⟨rfl, rfl, hmoves⟩
  · simp only at h
    generalize bootProcesses w.processes w.nextComputer
      (config.users.map (User.ofConfig · w.nextComputer)) = booted at h
    obtain ⟨_ | ⟨table, init, systemd⟩, processes⟩ := booted
    · cases h
      exact ⟨rfl, rfl, hmoves⟩
    · cases h

/-! Registrations in a world. -/

theorem filed_fresh : Files.Filed [] World.fresh.files World.fresh.registry [] :=
  ⟨fun id => by simpa [World.fresh, Files.addRegistry, Files.mounts] using Pointed.nil, by decide,
    fun _ => rfl, by simp, by simp [World.fresh, Files.addRegistry, Files.devices]⟩

theorem filed_added {named : Assoc String FileSystem} {w w' : World} {config : ComputerConfig}
    {number : Nat} {computer : Computer}
    (h : Files.Filed named w.files w.registry (w.computers.map (·.fs)))
    (hadd : w.addComputer config = (.ok number, w'))
    (hcomputer : w'.computers[number]? = some computer) :
    Files.Filed (computer.enter named) w'.files w'.registry (w'.computers.map (·.fs)) ∧
      ∃ id root, w'.computers.map (·.fs) = w.computers.map (·.fs) ++ [.mounts id root] := by
  obtain ⟨added, files, hcomputers, rfl, hregistry, hmoves, ⟨id, root, hfs, hnew, hmade⟩,
    hfiles⟩ := addComputer_ok hadd
  rw [hcomputers, List.getElem?_concat_length, Option.some.injEq] at hcomputer
  subst hcomputer
  have hheld : w'.computers.map (·.fs) = w.computers.map (·.fs) ++ [.mounts id root] := by
    rw [hcomputers, List.map_append, ← hfs]
    rfl
  -- The table has a new number, so no device is there that leads to it and could be gone.
  have hfresh : ∀ device ∈ files.devices w.registry, device.fs ≠ .mounts id root := by
    intro device hdevice heq
    rw [(hmoves.keeps w.registry).devices] at hdevice
    exact Nat.not_lt.2 hnew (h.made device hdevice id root heq)
  have hholds := (h.moves hmoves).hold hfresh
  refine ⟨?_, id, root, hheld⟩
  rw [hheld, hregistry, hfiles, Computer.enter]
  cases added.narrativeId with
  | none => exact hholds
  | some name =>
    refine hholds.register name fun other inner heq => ?_
    rw [hfs, FileSystem.mounts.injEq] at heq
    exact heq.1 ▸ hmade

theorem Reached.filed {named : Assoc String FileSystem} {w : World} (h : w.Reached named) :
    Files.Filed named w.files w.registry (w.computers.map (·.fs)) ∧
      ∀ fs ∈ w.computers.map (·.fs), ∃ id root, fs = .mounts id root := by
  induction h with
  | fresh => exact ⟨filed_fresh, by simp [World.fresh]⟩
  | added _ hadd hcomputer ih =>
    obtain ⟨hfiled, id, root, hheld⟩ := filed_added ih.1 hadd hcomputer
    refine ⟨hfiled, fun fs hfs => ?_⟩
    rw [hheld] at hfs
    rcases List.mem_append.1 hfs with hfs | hfs
    · exact ih.2 fs hfs
    · exact ⟨id, root, List.mem_singleton.1 hfs⟩
  | failed _ hadd ih =>
    obtain ⟨hcomputers, hregistry, hmoves⟩ := addComputer_error hadd
    rw [hcomputers, hregistry]
    exact ⟨ih.1.moves hmoves, ih.2⟩
  | registered name _ hmade ih => exact ⟨ih.1.register name hmade, ih.2⟩
  | unregistered name _ ih => exact ⟨ih.1.unregister name, ih.2⟩
  | expired held _ ih => exact ⟨ih.1.expire fun fs hfs => List.mem_append_right held hfs, ih.2⟩
  | worked deeds _ hdeeds hfiles hregistry hcomputers ih =>
    rw [hfiles, hregistry, hcomputers]
    exact ⟨ih.1.run hdeeds, ih.2⟩

def mountsOf (w : World) (computer : Computer) : List Mount :=
  match computer.fs with
  | .mounts id _ => w.files.mounts id
  | _ => []

/-- A computer's files are found below its name in every mount of the devices of the world, also in
its own: a request for a path there does and answers what the computer itself would, with the paths
placed below its name, and changes nothing but what belongs to its namespace. -/
theorem addressed {named : Assoc String FileSystem} {w : World} (h : w.Reached named)
    {a b : Computer} (ha : a ∈ w.computers) (hb : b ∈ w.computers) {id : String}
    (hid : Path.IsName id) (hlatest : named.get? id = some b.fs) {point : Path} {handle : Nat}
    (hdevices : ⟨point, .devices handle w.registry⟩ ∈ w.mountsOf a)
    (hfurther : ∀ mount ∈ w.mountsOf a, ¬ point ++ [id] <+: mount.point)
    {path : String} (hpath : PathText.normalize path = path)
    {request : Request} (hmounts : request.mounts = false) :
    w.files.serve a.fs (PathText.rebase (Path.text (point ++ [id])) path) request =
      (rebaseReply (Path.text (point ++ [id])) (w.files.serve b.fs path request).1,
        (w.files.serve b.fs path request).2) ∧
      w.files.Within b.fs (w.files.serve b.fs path request).2 := by
  obtain ⟨hfiled, htables⟩ := h.filed
  refine ⟨?_, Files.within_serve hmounts b.fs path⟩
  obtain ⟨t, root, hafs⟩ := htables a.fs (List.mem_map_of_mem ha)
  obtain ⟨other, inner, hbfs⟩ := htables b.fs (List.mem_map_of_mem hb)
  have hlookup := hfiled.lookup? hlatest (List.mem_map_of_mem hb)
  rw [mountsOf, hafs] at hdevices hfurther
  rw [hbfs] at hlookup
  have hpointed := hfiled.pointed t
  have hcanonical : Path.Canonical (Path.ofText path) := Path.canonical_ofText path
  have hplace : Path.Canonical (point ++ [id]) :=
    Path.Canonical.append (hpointed.canonical _ hdevices) (by simpa [Path.Canonical] using hid)
  have htext : path = (Path.ofText path).text := by rw [← PathText.normalize_eq, hpath]
  rw [hafs, hbfs, htext, Path.rebase_text hplace hcanonical, List.append_assoc]
  exact Files.serve_relay hpointed hdevices hfurther hlookup hid hcanonical hmounts root

/-! Two computers, the first one with the devices mounted at `/net`. -/

def node (hostname name : String) (mounts : List MountConfig) : ComputerConfig :=
  { hostname, narrativeId := some name, users := [⟨0, "root", .root, none⟩]
    directories := ["/tmp"], mounts }

def lone : World := (World.fresh.addComputer (node "alpha" "alpha-01" [⟨"/net", .devices⟩])).2

def linked : World := (lone.addComputer (node "beta" "beta-02" [])).2

def booted (id : Nat) (hostname name : String) : Computer :=
  { id, hostname, narrativeId := some name, searchPath := "/bin:/usr/bin"
    users := [User.ofConfig ⟨0, "root", .root, none⟩ id], fs := Files.overlay id id
    table := id, init := 2 * id, systemd := 2 * id + 1 }

theorem computers_linked :
    linked.computers = [booted 0 "alpha" "alpha-01", booted 1 "beta" "beta-02"] := by
  cbv

theorem reached_linked :
    linked.Reached [("alpha-01", Files.overlay 0 0), ("beta-02", Files.overlay 1 1)] := by
  have halpha : World.fresh.addComputer (node "alpha" "alpha-01" [⟨"/net", .devices⟩]) =
      (.ok 0, lone) := Prod.ext (by cbv) rfl
  have hbeta : lone.addComputer (node "beta" "beta-02" []) = (.ok 1, linked) :=
    Prod.ext (by cbv) rfl
  have hlone : lone.computers[0]? = some (booted 0 "alpha" "alpha-01") := by cbv
  have hlinked : linked.computers[1]? = some (booted 1 "beta" "beta-02") := by
    rw [computers_linked]
    rfl
  exact .added (.added .fresh halpha hlone) hbeta hlinked

/-- The first computer writes a file of the second one, and fails to delete its own root. -/
theorem addressed_linked :
    (linked.files.serve (Files.overlay 0 0) "/net/beta-02/tmp/x" (.change (.write [104])) =
        (rebaseReply "/net/beta-02"
            (linked.files.serve (Files.overlay 1 1) "/tmp/x" (.change (.write [104]))).1,
          (linked.files.serve (Files.overlay 1 1) "/tmp/x" (.change (.write [104]))).2) ∧
      linked.files.Within (Files.overlay 1 1)
        (linked.files.serve (Files.overlay 1 1) "/tmp/x" (.change (.write [104]))).2) ∧
    (linked.files.serve (Files.overlay 0 0) "/net/alpha-01" (.change .deleteDirectory)).1 =
      .error (.busy "/net/alpha-01") := by
  have halpha : booted 0 "alpha" "alpha-01" ∈ linked.computers := by simp [computers_linked]
  have hbeta : booted 1 "beta" "beta-02" ∈ linked.computers := by simp [computers_linked]
  have hmounts : linked.mountsOf (booted 0 "alpha" "alpha-01") =
      [⟨["net"], .devices 1 linked.registry⟩] := by cbv
  have hdevices : ⟨["net"], .devices 1 linked.registry⟩ ∈
      linked.mountsOf (booted 0 "alpha" "alpha-01") := by
    rw [hmounts]
    exact List.mem_singleton_self _
  have hfurther : ∀ id : String, ∀ mount ∈ linked.mountsOf (booted 0 "alpha" "alpha-01"),
      ¬ ["net"] ++ [id] <+: mount.point := by
    simp [hmounts]
  have hother : Path.text (["net"] ++ ["beta-02"]) = "/net/beta-02" := by decide
  have hself : Path.text (["net"] ++ ["alpha-01"]) = "/net/alpha-01" := by decide
  have hfile : PathText.normalize "/tmp/x" = "/tmp/x" := by decide
  have hroot : PathText.normalize "/" = "/" := by decide
  have hwrite := addressed reached_linked halpha hbeta ⟨by decide, by decide⟩ (by decide) hdevices
    (hfurther "beta-02") hfile (show (Request.change (.write [104])).mounts = false from rfl)
  have hdelete := addressed reached_linked halpha halpha ⟨by decide, by decide⟩ (by decide) hdevices
    (hfurther "alpha-01") hroot (show (Request.change .deleteDirectory).mounts = false from rfl)
  rw [hother] at hwrite
  rw [hself] at hdelete
  exact ⟨hwrite, (congrArg Prod.fst hdelete.1).trans (by cbv)⟩

end World

end ToyUnix
