import ToyUnix.Terminal
import ToyUnix.Proofs.Addressing
import ToyUnix.Proofs.Homes
import ToyUnix.Proofs.Files.Custody
import ToyUnix.Proofs.Files.Promises

/-!
A populated computer. Populating only adds to the trees of a computer that has been added, so its
namespaces stay as its mounts made them. And since the script to try has been written to the home of
every account but the super user's, each of these homes is a directory in some tree.
Main statements: `World.populate_homely`, `Terminal.boot_parts`.
-/

set_option autoImplicit false

namespace ToyUnix

/-- The change takes no directory away and is not about mounts. -/
def Change.Adds (c : Change) : Prop := (Request.change c).mounts = false ∧ c ≠ .deleteDirectory

theorem Change.adds_makeDirectory : Change.makeDirectory.Adds := ⟨rfl, nofun⟩

theorem Change.adds_write (data : Bytes) : (Change.write data).Adds := ⟨rfl, nofun⟩

namespace Files

variable {s s' s'' : Files} {fs : FileSystem}

/-- The same namespaces, and every directory is still there. -/
structure Grows (s s' : Files) : Prop where
  standing : s.Standing s'
  writers : s'.writers = s.writers
  wooded : s.Wooded → s'.Wooded
  directories : s.Wooded → ∀ {id : Nat} {path : Path},
    (s.tree id).node? path = some .directory → (s'.tree id).node? path = some .directory

namespace Grows

theorem refl (s : Files) : s.Grows s := ⟨.refl s, rfl, id, fun _ _ _ h => h⟩

theorem trans (h : s.Grows s') (h' : s'.Grows s'') : s.Grows s'' where
  standing := h.standing.trans h'.standing
  writers := h'.writers.trans h.writers
  wooded := h'.wooded ∘ h.wooded
  directories hwooded _ _ hnode := h'.directories (h.wooded hwooded) (h.directories hwooded hnode)

theorem apply (s : Files) (fs : FileSystem) (text : String) {c : Change} (hc : c.Adds) :
    s.Grows (s.apply fs text c).2 where
  standing := (s.effect_apply fs text c).standing hc.1
  writers := (s.effect_apply fs text c).writers
  wooded hwooded := hwooded.apply fs text c
  directories hwooded _ _ := (s.effect_apply fs text c).directory hwooded
    (fun _ _ => canonical_place (Path.canonical_ofText text)) hc.2

theorem of_apply {text : String} {c : Change} (hc : c.Adds) {result : Except Fault Unit}
    (h : s.apply fs text c = (result, s')) : s.Grows s' := by
  have hgrows := apply s fs text hc
  rwa [h] at hgrows

theorem of_applyAll {changes : List (String × Change)} (hadds : ∀ change ∈ changes, change.2.Adds)
    {result : Except Fault Unit} (h : Setup.applyAll s fs changes = (result, s')) : s.Grows s' := by
  induction changes generalizing s with
  | nil =>
    obtain rfl : s = s' := (Prod.mk.inj h).2
    exact .refl s
  | cons change changes ih =>
    obtain ⟨hc, hrest⟩ := List.forall_mem_cons.1 hadds
    unfold Setup.applyAll at h
    split at h
    · rename_i next hnext
      exact (of_apply hc hnext).trans (ih hrest h)
    · rename_i fault next hnext
      obtain rfl : next = s' := (Prod.mk.inj h).2
      exact of_apply hc hnext

theorem installEach (s : Files) (fs : FileSystem) (dir : String) (programs : List Program) :
    s.Grows (s.installEach fs dir programs).2 := by
  induction programs generalizing s with
  | nil => exact .refl s
  | cons program programs ih =>
    have hc : (Change.install program).Adds := ⟨rfl, nofun⟩
    unfold Files.installEach
    split
    · rename_i next hnext
      exact (of_apply hc hnext).trans (ih next)
    · rename_i fault next hnext
      exact of_apply hc hnext

theorem installPrograms (s : Files) (fs : FileSystem) (dir : String) :
    s.Grows (s.installPrograms fs dir).2 := by
  unfold Files.installPrograms
  cases s.isDirectory fs dir with
  | true => exact installEach ..
  | false =>
    rcases hmade : s.apply fs dir .makeDirectory with ⟨fault | _, made⟩
    · simpa [hmade] using of_apply Change.adds_makeDirectory hmade
    · simpa [hmade] using (of_apply Change.adds_makeDirectory hmade).trans (installEach ..)

end Grows

theorem applyAll_mem {changes : List (String × Change)}
    (hadds : ∀ change ∈ changes, change.2.Adds)
    (hok : Setup.applyAll s fs changes = (.ok (), s')) {text : String} {c : Change}
    (hmem : (text, c) ∈ changes) :
    ∃ before after, s.Grows before ∧ before.apply fs text c = (.ok (), after) ∧
      after.Grows s' := by
  induction changes generalizing s with
  | nil => cases hmem
  | cons change changes ih =>
    obtain ⟨hc, hrest⟩ := List.forall_mem_cons.1 hadds
    unfold Setup.applyAll at hok
    split at hok
    · rename_i next hnext
      rcases List.mem_cons.1 hmem with rfl | hmem
      · exact ⟨s, next, .refl s, hnext, .of_applyAll hrest hok⟩
      · obtain ⟨before, after, hbefore, happly, hafter⟩ := ih hrest hok hmem
        exact ⟨before, after, (Grows.of_apply hc hnext).trans hbefore, happly, hafter⟩
    · cases hok

/-! Where a script was written there is a home. -/

theorem write_place {route : Route} {data : Bytes}
    (h : (s.change (.write data) route).1 = .ok ()) :
    ∃ id path tree, route.place? = some (id, path) ∧ (s.tree id).write path data = .ok tree := by
  have hrebase {point : String} {outcome : Except Fault Unit × Files}
      (h : (rebaseOutcome point outcome).1 = .ok ()) : outcome.1 = .ok () := by
    obtain ⟨_ | _, after⟩ := outcome
    · cases h
    · rfl
  induction route with
  | tree id shown path =>
    simp only [change, Tree.change] at h
    split at h
    · rename_i tree htree
      exact ⟨id, path, tree, rfl, htree⟩
    · cases h
  | deviceList registry => cases h
  | noDevice path => cases h
  | device name rest ih => exact ih (hrebase h)
  | view user path rest ih =>
    rw [change] at h
    split at h
    · exact ih h
    · cases h
  | mounted id path point rest ih => exact ih (hrebase h)

theorem home_of_hello (hpointed : ∀ t, Pointed (s.mounts t)) (hwooded : s.Wooded) {home : String}
    {data : Bytes} (h : (s.apply fs (home ++ "/hello.sh") (.write data)).1 = .ok ()) :
    ∃ id path, s.place? fs (Path.ofText home) = some (id, path) ∧
      (s.tree id).node? path = some .directory := by
  obtain ⟨id, inner, tree, hplace, hwrite⟩ := write_place h
  rw [place?_route, ofText_hello] at hplace
  obtain ⟨node, -, hthere, hparent, -⟩ := Tree.filed_write hwrite
  have hne : inner ≠ [] := by
    rintro rfl
    exact hthere (hwooded.of_node hparent).root
  obtain ⟨above, hpath, habove⟩ := place_above hpointed hplace
  have hhome : above ++ inner.parent = Path.ofText home := by
    rw [Path.parent, ← List.dropLast_append_of_ne_nil hne, ← hpath, List.dropLast_concat]
  exact ⟨id, inner.parent, hhome ▸ habove _ (Path.parent_above inner), hparent⟩

/-! Files before anybody uses them. -/

/-- Mounts and trees are as they were made, and nothing is being written. -/
structure Pristine (s : Files) : Prop where
  pointed : ∀ t, Pointed (s.mounts t)
  wooded : s.Wooded
  writers : s.writers = []

namespace Pristine

theorem apply (h : s.Pristine) (fs : FileSystem) (text : String) (c : Change) :
    (s.apply fs text c).2.Pristine where
  pointed := (s.moves_apply fs text c).pointed h.pointed
  wooded := h.wooded.apply fs text c
  writers := (s.effect_apply fs text c).writers.trans h.writers

theorem grows (h : s.Pristine) (hgrows : s.Grows s') : s'.Pristine where
  pointed t := hgrows.standing.mounts t ▸ h.pointed t
  wooded := hgrows.wooded h.wooded
  writers := hgrows.writers.trans h.writers

theorem building : World.Building Pristine where
  apply _ fs text c h := h.apply fs text c
  memory s h :=
    ⟨(Move.memory : s.Move _).pointed h.pointed, h.wooded.addMemory, h.writers⟩
  devices _ _ h := ⟨h.pointed, h.wooded, h.writers⟩
  table _ root h := ⟨(Move.table root).pointed h.pointed, h.wooded, h.writers⟩

theorem buildFiles (h : s.Pristine) {registry : Nat} {config : ComputerConfig}
    (hbuilt : World.buildFiles s registry config = (.ok fs, s')) : s'.Pristine := by
  have hkept := building.buildFiles h registry config
  rwa [hbuilt] at hkept

end Pristine

end Files

namespace Setup

theorem adds_systemFiles (s : Files) (fs : FileSystem) (hostname : String) :
    ∀ change ∈ systemFiles s fs hostname, change.2.Adds := by
  unfold systemFiles
  split <;> simp [Change.adds_makeDirectory, Change.adds_write]

theorem adds_helloFor (user : User) : ∀ change ∈ helloFor user, change.2.Adds := by
  have hset (value : Bool) : (Change.setExecutable value).Adds := ⟨rfl, nofun⟩
  simp [helloFor, Change.adds_write, hset]

theorem adds_all (s : Files) (fs : FileSystem) (hostname : String) (users : List User) :
    ∀ change ∈ systemFiles s fs hostname ++ users.flatMap helloFor, change.2.Adds := by
  intro change hmem
  rcases List.mem_append.1 hmem with hmem | hmem
  · exact adds_systemFiles s fs hostname change hmem
  · obtain ⟨user, -, hmem⟩ := List.mem_flatMap.1 hmem
    exact adds_helloFor user change hmem

end Setup

namespace World

variable {w w' : World} {c : Nat} {computer : Computer} {user : User}

theorem pristine_fresh : World.fresh.files.Pristine where
  pointed t := by simpa [fresh, Files.addRegistry, Files.mounts] using Pointed.nil
  wooded _ hmem := by cases hmem
  writers := rfl

theorem pristine_addComputer {config : ComputerConfig} (h : w.files.Pristine)
    (hadd : w.addComputer config = (.ok c, w')) (hcomputer : w'.computers[c]? = some computer) :
    w'.files.Pristine := by
  obtain ⟨-, -, -, files, hbuilt, hfiles⟩ := addComputer_parts hadd hcomputer
  obtain ⟨hpointed, hwooded, hwriters⟩ := h.buildFiles hbuilt
  rw [hfiles]
  cases computer.narrativeId <;> exact ⟨hpointed, hwooded, hwriters⟩

theorem narrativeId_addComputer {config : ComputerConfig} (hadd : w.addComputer config = (.ok c, w'))
    (hcomputer : w'.computers[c]? = some computer) : computer.narrativeId = config.narrativeId := by
  simp only [addComputer, onFiles, onProcesses] at hadd
  split at hadd
  · cases hadd
  · split at hadd
    · cases hadd
    · cases hadd
      rw [List.getElem?_concat_length, Option.some.injEq] at hcomputer
      exact hcomputer ▸ rfl

theorem place?_viewOf (w : World) (computer : Computer) (p : Nat) (s : Files) (path : Path) :
    s.place? (w.viewOf computer p) path = s.place? computer.fs path := by
  unfold viewOf
  cases w.process? p with
  | none => rfl
  | some process => exact Files.place?_view ..

theorem populate_parts (hcomputer : w.computers[c]? = some computer)
    (h : w.populate c = (.ok (), w')) :
    ∃ installed : Files, w.files.Grows installed ∧
      Setup.applyAll installed (w.viewOf computer computer.init)
        (Setup.systemFiles installed (w.viewOf computer computer.init) computer.hostname ++
          (computer.users.filter fun user => !user.isSuperUser).flatMap Setup.helloFor) =
        (.ok (), w'.files) ∧
      w'.computers[c]? = some { computer with programs := some .utilities } := by
  have hinstalls : w.files.Grows _ :=
    .installPrograms w.files (w.viewOf computer computer.init) "/bin"
  simp only [populate, hcomputer, onFiles] at h
  rcases hinstalled : w.files.installPrograms (w.viewOf computer computer.init) "/bin" with
    ⟨fault | _, installed⟩
  · rw [hinstalled] at h
    cases h
  · rw [hinstalled] at h hinstalls
    refine ⟨installed, hinstalls, ?_, ?_⟩
    · exact Prod.ext (Prod.mk.inj h).1 (congrArg World.files (Prod.mk.inj h).2)
    · rw [← (Prod.mk.inj h).2]
      simp [updateComputer, hcomputer]

theorem populate_grows (hcomputer : w.computers[c]? = some computer)
    (h : w.populate c = (.ok (), w')) : w.files.Grows w'.files := by
  obtain ⟨installed, hinstalled, happly, -⟩ := populate_parts hcomputer h
  exact hinstalled.trans (.of_applyAll (Setup.adds_all _ _ _ _) happly)

theorem populate_homely (hpristine : w.files.Pristine) (hcomputer : w.computers[c]? = some computer)
    (h : w.populate c = (.ok (), w')) (huser : user ∈ computer.users)
    (hstandard : user.privilege = .standard) : w'.files.Homely computer.fs user := by
  obtain ⟨installed, hinstalled, happly, -⟩ := populate_parts hcomputer h
  have hother : (!user.isSuperUser) = true := by
    simp [User.isSuperUser, User.isRoot, hstandard]
  have hwritten : (user.home ++ "/hello.sh", Change.write (Utf8.encode Setup.helloScript)) ∈
      Setup.systemFiles installed (w.viewOf computer computer.init) computer.hostname ++
        (computer.users.filter fun user => !user.isSuperUser).flatMap Setup.helloFor :=
    List.mem_append_right _ (List.mem_flatMap.2
      ⟨user, List.mem_filter.2 ⟨huser, hother⟩, List.mem_cons_self⟩)
  obtain ⟨before, after, hbefore, hwrite, hafter⟩ :=
    Files.applyAll_mem (Setup.adds_all _ _ _ _) happly hwritten
  have hthen := hpristine.grows (hinstalled.trans hbefore)
  have hrest := (Files.Grows.of_apply (Change.adds_write _) hwrite).trans hafter
  obtain ⟨id, path, hplace, hdirectory⟩ :=
    Files.home_of_hello hthen.pointed hthen.wooded (congrArg Prod.fst hwrite)
  rw [place?_viewOf] at hplace
  have hend := hthen.grows hrest
  refine ⟨hstandard, hend.pointed, hend.wooded, id, path, ?_, ?_⟩
  · rwa [hrest.standing.place?]
  · exact hrest.directories hthen.wooded hdirectory

end World

namespace Terminal

variable {config : Config} {c : Nat} {user : User} {up : World}

theorem connect_same {w : World} {n : Nat} {before computer : Computer} {network : Option Nat}
    (hbefore : w.computers[n]? = some before) (hafter : (w.updateComputer n fun computer =>
      { computer with network }).computers[n]? = some computer) :
    computer = { before with network } := by
  simp only [World.updateComputer, List.getElem?_modify_eq, hbefore, Option.map_eq_map,
    Option.map_some, Option.some.injEq] at hafter
  exact hafter.symm

theorem boot_parts (h : boot config = (.ok (c, user), up)) :
    ∃ w v added computer, World.fresh.addComputer config.computer = (.ok c, w) ∧
      w.computers[c]? = some added ∧ w.populate c = (.ok (), v) ∧ up.files = v.files ∧
      up.computers[c]? = some computer ∧ computer.id = added.id ∧ computer.fs = added.fs ∧
      computer.users = added.users ∧ loginUser up computer config.computer.login = .ok user := by
  simp only [boot] at h
  rcases hadd : World.fresh.addComputer config.computer with ⟨fault | number, w⟩
  · rw [hadd] at h
    cases h
  rcases hpopulate : w.populate number with ⟨fault | _, v⟩
  · simp only [hadd, hpopulate] at h
    cases h
  simp only [hadd, hpopulate] at h
  obtain ⟨added, -, hcomputers, hnumber, -⟩ := World.addComputer_ok hadd
  have hadded : w.computers[number]? = some added := by
    rw [hcomputers, hnumber, List.getElem?_concat_length]
  obtain ⟨-, -, -, hoffers⟩ := World.populate_parts hadded hpopulate
  generalize hconnected : ite (config.hosts = []) v _ = connected at h
  have hsame : connected.files = v.files ∧ ∀ computer, connected.computers[number]? = some computer →
      computer.id = added.id ∧ computer.fs = added.fs ∧ computer.users = added.users := by
    subst hconnected
    split
    · refine ⟨rfl, fun computer hcomputer => ?_⟩
      cases hoffers.symm.trans hcomputer
      exact ⟨rfl, rfl, rfl⟩
    · refine ⟨rfl, fun computer hcomputer => ?_⟩
      obtain rfl := connect_same (w := (v.addNetwork config.hosts).2) hoffers hcomputer
      exact ⟨rfl, rfl, rfl⟩
  split at h
  · cases h
  · rename_i computer hcomputer
    rcases hlogin : loginUser connected computer config.computer.login with fault | logged
    · rw [hlogin] at h
      cases h
    · rw [hlogin] at h
      cases h
      obtain ⟨hfiles, hkeeps⟩ := hsame
      obtain ⟨hid, hfs, husers⟩ := hkeeps computer hcomputer
      exact ⟨w, v, added, computer, rfl, hadded, hpopulate, hfiles, hcomputer, hid, hfs, husers,
        hlogin⟩

end Terminal

end ToyUnix
