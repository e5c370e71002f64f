import ToyUnix.Proofs.Files.Memory
import ToyUnix.Proofs.Files.Namespace

/-!
Changes through a mount table. All of them keep an intact namespace intact, save for one: a file
system that is mounted above other mounts must have places for them. Main statement:
`Reached.intact_iff_seated`.
-/

set_option autoImplicit false

namespace ToyUnix

namespace Files

variable {s : Files} {t r : Nat} {path : Path}

/-! What a change through the table does. -/

theorem mounts_setMounts (ht : t < s.tables.length) (mounts : List Mount) :
    (s.setMounts t mounts).mounts t = mounts := by
  simp [setMounts, Files.mounts, ht]

theorem isMountPoint_iff :
    s.isMountPoint t path = true ↔ ∃ mount ∈ s.mounts t, mount.point = path := by
  simp [isMountPoint]

theorem hasNestedMount_iff : s.hasNestedMount t path = true ↔
    ∃ mount ∈ s.mounts t, mount.point ≠ path ∧ path <+: mount.point := by
  simp [hasNestedMount, Path.isWithin, List.isPrefixOf_iff_prefix]

/-- What a change at `path` can come to, if it does not fail. -/
inductive Turn (s : Files) (t r : Nat) (path : Path) : Change → Files → Prop
  | tree {c : Change} {id : Nat} {shown : String} {tree : Tree} :
      (s.layer t r path).fs = .memory id → id < s.trees.length →
      (s.tree id).change shown (path.drop (s.layer t r path).point.length) c = .ok tree →
      (c = .deleteDirectory → ∀ mount ∈ s.mounts t, ¬ path <+: mount.point) →
      Turn s t r path c (s.setTree id tree)
  | attach (fs : FileSystem) : path ≠ [] → (∀ mount ∈ s.mounts t, mount.point ≠ path) →
      s.nodeAt t r path = some .directory →
      Turn s t r path (.mount fs) (s.setMounts t (s.mounts t ++ [⟨path, fs⟩]))
  | detach : (∀ mount ∈ s.mounts t, path <+: mount.point → mount.point = path) →
      Turn s t r path .unmount
        (s.setMounts t ((s.mounts t).eraseP fun mount => mount.point = path))

theorem Laid.apply_turn (h : s.Laid t r) (text : String) (c : Change) :
    (∃ fault, s.apply (overlay t r) text c = (.error fault, s)) ∨
      ∃ s', s.apply (overlay t r) text c = (.ok (), s') ∧ s.Turn t r (Path.ofText text) c s' := by
  obtain ⟨id, shown, hfs, hid, hroute⟩ := h.follow text (Path.ofText text)
  have hdirectory := h.isDirectory_iff text
  rw [isDirectory, route, hroute] at hdirectory
  rw [apply, route, hroute]
  generalize Path.ofText text = path at *
  have hinside : ∀ c, (c = .deleteDirectory → ∀ mount ∈ s.mounts t, ¬ path <+: mount.point) →
      ∀ outcome, outcome = rebaseOutcome (s.layer t r path).point.text
        (s.change c (.tree id shown (path.drop (s.layer t r path).point.length))) →
      (∃ fault, outcome = (.error fault, s)) ∨
        ∃ s', outcome = (.ok (), s') ∧ s.Turn t r path c s' := by
    intro c hbusy outcome houtcome
    rw [houtcome, change]
    split
    · rename_i tree hok
      exact Or.inr ⟨_, rfl, .tree hfs hid hok hbusy⟩
    · exact Or.inl ⟨_, rfl⟩
  cases c with
  | mount fs =>
    simp only [change, attach, Bool.or_eq_true, decide_eq_true_eq]
    split
    · exact Or.inl ⟨_, rfl⟩
    · rename_i hfree
      rw [not_or, isMountPoint_iff] at hfree
      split
      · exact Or.inl ⟨_, rfl⟩
      · rename_i hthere
        split
        · exact Or.inl ⟨_, rfl⟩
        · refine Or.inr ⟨_, rfl, .attach fs hfree.1 (fun mount hmount heq => ?_) ?_⟩
          · exact hfree.2 ⟨mount, hmount, heq⟩
          · exact hdirectory.1 (by simpa using hthere)
  | unmount =>
    have hunfold : ∀ point rest, s.change .unmount (.mounted t path point rest) = s.detach t path :=
      fun _ _ => rfl
    rw [hunfold, detach]
    split
    · exact Or.inl ⟨_, rfl⟩
    · split
      · exact Or.inl ⟨_, rfl⟩
      · rename_i hnested
        rw [hasNestedMount_iff] at hnested
        refine Or.inr ⟨_, rfl, .detach fun mount hmount hupper => ?_⟩
        by_contra hne
        exact hnested ⟨mount, hmount, hne, hupper⟩
  | deleteDirectory =>
    have hunfold : ∀ point rest, s.change .deleteDirectory (.mounted t path point rest) =
        if s.isMountPoint t path || s.hasNestedMount t path then (.error (.busy path.text), s)
        else rebaseOutcome point.text (s.change .deleteDirectory rest) := fun _ _ => rfl
    rw [hunfold]
    split
    · exact Or.inl ⟨_, rfl⟩
    · rename_i hfree
      rw [Bool.or_eq_true, isMountPoint_iff, hasNestedMount_iff] at hfree
      refine hinside .deleteDirectory (fun _ mount hmount hupper => hfree ?_) _ rfl
      by_cases heq : mount.point = path
      · exact Or.inl ⟨mount, hmount, heq⟩
      · exact Or.inr ⟨mount, hmount, heq, hupper⟩
  | makeDirectory => exact hinside .makeDirectory (by simp) _ rfl
  | deleteFile => exact hinside .deleteFile (by simp) _ rfl
  | write data => exact hinside (.write data) (by simp) _ rfl
  | append data => exact hinside (.append data) (by simp) _ rfl
  | setExecutable value => exact hinside (.setExecutable value) (by simp) _ rfl
  | install program => exact hinside (.install program) (by simp) _ rfl

theorem Laid.setTree (h : s.Laid t r) {tree : Tree} (hgrown : tree.Grown) (id : Nat) :
    (s.setTree id tree).Laid t r := by
  have hlength : (s.setTree id tree).trees.length = s.trees.length := List.length_set
  refine ⟨fun other hother => ?_, h.table, by rw [hlength]; exact h.root,
    by rw [hlength]; exact h.memory, h.point, h.points, h.systems⟩
  rcases List.mem_or_eq_of_mem_set hother with hother | rfl
  · exact h.grown other hother
  · exact hgrown

theorem Laid.setMounts_sublist (h : s.Laid t r) {mounts : List Mount}
    (hsub : mounts.Sublist (s.mounts t)) : (s.setMounts t mounts).Laid t r := by
  have hmounts := mounts_setMounts h.table mounts
  refine ⟨h.grown, ?_, h.root, ?_, ?_, ?_, ?_⟩
  · rw [setMounts, List.length_set]
    exact h.table
  · rw [hmounts]
    exact fun mount hmount => h.memory mount (hsub.subset hmount)
  · rw [hmounts]
    exact fun mount hmount => h.point mount (hsub.subset hmount)
  · rw [hmounts]
    exact h.points.sublist (hsub.map _)
  · rw [hmounts]
    exact h.systems.sublist (hsub.map _)

/-- Memory file system `id` is there and attached nowhere. -/
def Free (s : Files) (t r id : Nat) : Prop :=
  id < s.trees.length ∧ id ≠ r ∧ ∀ mount ∈ s.mounts t, mount.fs ≠ .memory id

theorem Laid.setMounts_snoc (h : s.Laid t r) {id : Nat} (hfree : s.Free t r id)
    (hroot : path ≠ []) (hpath : path.Canonical)
    (hpoint : ∀ mount ∈ s.mounts t, mount.point ≠ path) :
    (s.setMounts t (s.mounts t ++ [⟨path, .memory id⟩])).Laid t r := by
  have hmounts := mounts_setMounts h.table (s.mounts t ++ [⟨path, .memory id⟩])
  refine ⟨h.grown, ?_, h.root, ?_, ?_, ?_, ?_⟩
  · rw [setMounts, List.length_set]
    exact h.table
  · rw [hmounts]
    intro mount hmount
    rcases List.mem_append.1 hmount with hmount | hmount
    · exact h.memory mount hmount
    · rw [List.mem_singleton.1 hmount]
      exact ⟨id, rfl, hfree.1, hfree.2.1⟩
  · rw [hmounts]
    intro mount hmount
    rcases List.mem_append.1 hmount with hmount | hmount
    · exact h.point mount hmount
    · rw [List.mem_singleton.1 hmount]
      exact ⟨hroot, hpath⟩
  · rw [hmounts, List.map_append]
    refine List.nodup_append.2 ⟨h.points, by simp, ?_⟩
    simpa using hpoint
  · rw [hmounts, List.map_append]
    refine List.nodup_append.2 ⟨h.systems, by simp, ?_⟩
    simpa using hfree.2.2

theorem Laid.layer_of_subset {s' : Files} (h : s'.Laid t r)
    (hsub : ∀ layer ∈ s'.layers t r, layer ∈ s.layers t r)
    (hmem : s.layer t r path ∈ s'.layers t r) : s'.layer t r path = s.layer t r path :=
  h.layer_eq hmem (layer_point_above s t r path) fun other hother hupper =>
    length_le_layer (hsub other hother) hupper

theorem eq_of_drop {point a b : Path} (ha : point <+: a) (hb : point <+: b)
    (h : a.drop point.length = b.drop point.length) : a = b := by
  rw [← List.prefix_iff_eq_append.1 ha, h, List.prefix_iff_eq_append.1 hb]

theorem Laid.seated_setTree (h : s.Laid t r) (hpath : path.Canonical) {id : Nat}
    (hfs : (s.layer t r path).fs = .memory id) (hid : id < s.trees.length) {shown : String}
    {c : Change} {tree : Tree} (hchange : (s.tree id).change shown
      (path.drop (s.layer t r path).point.length) c = .ok tree)
    (hbusy : c = .deleteDirectory → ∀ mount ∈ s.mounts t, ¬ path <+: mount.point)
    {mount : Mount} (hmount : mount ∈ s.mounts t) (hseated : s.Seated t r mount) :
    (s.setTree id tree).Seated t r mount := by
  have hlayer : ∀ q, (s.setTree id tree).layer t r q = s.layer t r q := fun _ => rfl
  have hnode : ∀ q, (s.setTree id tree).nodeIn (s.layer t r mount.point.parent) q =
      if s.layer t r mount.point.parent = s.layer t r path then
        tree.node? (q.drop (s.layer t r path).point.length)
      else s.nodeIn (s.layer t r mount.point.parent) q := by
    intro q
    obtain ⟨other, hother, -⟩ := h.layer_memory (layer_mem s t r mount.point.parent)
    rw [nodeIn_memory hother, tree_setTree hid]
    by_cases heq : s.layer t r mount.point.parent = s.layer t r path
    · rw [heq, hfs, FileSystem.memory.injEq] at hother
      rw [if_pos hother, if_pos heq, heq]
    · have hne : id ≠ other := by
        rintro rfl
        exact heq (h.eq_of_fs (layer_mem s t r _) (layer_mem s t r _) (hother.trans hfs.symm))
      rw [if_neg hne, if_neg heq, nodeIn_memory hother]
  unfold Seated nodeAt at hseated ⊢
  simp only [hlayer, hnode]
  -- Only the mounts whose layer is the one of `path` look into the tree that was changed.
  split
  · rename_i heq
    simp only [heq, nodeIn_memory hfs] at hseated
    have hgrown := h.grown_tree hid
    have hinner : Path.Canonical (path.drop (s.layer t r path).point.length) := hpath.drop _
    have hup := layer_point_above s t r mount.point.parent
    rw [heq] at hup
    have hself := hup.trans (Path.parent_above mount.point)
    refine ⟨?_, fun node hat => ?_⟩
    · rcases hgrown.change_directory hinner hchange hseated.1 with hstill | ⟨hdelete, hsame⟩
      · exact hstill
      · have hdeleted := eq_of_drop hup (layer_point_above s t r path) hsame
        exact absurd (hdeleted ▸ Path.parent_above mount.point) (hbusy hdelete mount hmount)
    · by_contra hne
      rcases hgrown.change_file hinner hchange hat hne with hsame | hold
      · have hpoint := eq_of_drop hself (layer_point_above s t r path) hsame
        rw [← hpoint, h.layer_point hmount] at hup
        exact Path.not_prefix_parent (h.point mount hmount).1 hup
      · exact hne (hseated.2 node hold)
  · exact hseated

theorem Laid.seated_setMounts_sublist (h : s.Laid t r) {mounts : List Mount}
    (hsub : mounts.Sublist (s.mounts t)) {mount : Mount}
    (haround : s.layer t r mount.point.parent ∈ s.mounts t →
      s.layer t r mount.point.parent ∈ mounts) (hseated : s.Seated t r mount) :
    (s.setMounts t mounts).Seated t r mount := by
  have hlayers : ∀ layer, layer ∈ (s.setMounts t mounts).layers t r ↔
      layer = ⟨[], .memory r⟩ ∨ layer ∈ mounts := by
    intro layer
    rw [layers, mounts_setMounts h.table, List.mem_cons]
  have hlayer : (s.setMounts t mounts).layer t r mount.point.parent =
      s.layer t r mount.point.parent := by
    refine (h.setMounts_sublist hsub).layer_of_subset (fun layer hmem => ?_) ?_
    · rcases (hlayers layer).1 hmem with rfl | hmem
      · exact List.mem_cons_self
      · exact List.mem_cons_of_mem _ (hsub.subset hmem)
    · exact (hlayers _).2 ((List.mem_cons.1 (layer_mem s t r mount.point.parent)).imp_right haround)
  unfold Seated nodeAt at hseated ⊢
  rw [hlayer]
  exact hseated

theorem Laid.layer_mounted (h : s.Laid t r) {id : Nat} (hfree : s.Free t r id) (hroot : path ≠ [])
    (hpath : path.Canonical) (hpoint : ∀ mount ∈ s.mounts t, mount.point ≠ path) (below : Path) :
    (s.setMounts t (s.mounts t ++ [⟨path, .memory id⟩])).layer t r below =
      if path <+: below ∧ (s.layer t r below).point.length < path.length then ⟨path, .memory id⟩
      else s.layer t r below := by
  have hlayers : ∀ layer, layer ∈ (s.setMounts t (s.mounts t ++ [⟨path, .memory id⟩])).layers t r ↔
      layer ∈ s.layers t r ∨ layer = ⟨path, .memory id⟩ := by
    intro layer
    simp [layers, mounts_setMounts h.table, or_assoc]
  have hlaid := h.setMounts_snoc hfree hroot hpath hpoint
  split
  · rename_i hbelow
    refine hlaid.layer_eq ((hlayers _).2 (Or.inr rfl)) hbelow.1 fun other hother hupper => ?_
    rcases (hlayers other).1 hother with hother | rfl
    · exact Nat.le_trans (length_le_layer hother hupper) (Nat.le_of_lt hbelow.2)
    · exact Nat.le_refl _
  · rename_i hbelow
    refine hlaid.layer_eq ((hlayers _).2 (Or.inl (layer_mem s t r below)))
      (layer_point_above s t r below) fun other hother hupper => ?_
    rcases (hlayers other).1 hother with hother | rfl
    · exact length_le_layer hother hupper
    · exact Nat.le_of_not_lt fun hlt => hbelow ⟨hupper, hlt⟩

/-- Memory file system `id` has places for the mounts that come to be right below it at `path`: a
directory above each of their points, and no file at the point. -/
def Fits (s : Files) (t r : Nat) (path : Path) (id : Nat) : Prop :=
  ∀ mount ∈ s.mounts t, path <+: mount.point.parent →
    (s.layer t r mount.point.parent).point.length < path.length →
    (s.tree id).node? (mount.point.parent.drop path.length) = some .directory ∧
      ∀ node, (s.tree id).node? (mount.point.drop path.length) = some node → node = .directory

/-- All mounts are seated after a new one exactly when it fits in above the others. -/
theorem Laid.seated_setMounts_snoc (h : s.Laid t r)
    (hseated : ∀ mount ∈ s.mounts t, s.Seated t r mount) {id : Nat} (hfree : s.Free t r id)
    (hroot : path ≠ []) (hpath : path.Canonical)
    (hpoint : ∀ mount ∈ s.mounts t, mount.point ≠ path)
    (hdirectory : s.nodeAt t r path = some .directory) :
    (∀ mount ∈ s.mounts t ++ [⟨path, .memory id⟩],
      (s.setMounts t (s.mounts t ++ [⟨path, .memory id⟩])).Seated t r mount) ↔
      s.Fits t r path id := by
  have hlayer := h.layer_mounted hfree hroot hpath hpoint
  have hnode : ∀ layer q, (s.setMounts t (s.mounts t ++ [⟨path, .memory id⟩])).nodeIn layer q =
      s.nodeIn layer q := fun _ _ => rfl
  have hnew : (s.setMounts t (s.mounts t ++ [⟨path, .memory id⟩])).Seated t r
      ⟨path, .memory id⟩ := by
    unfold Seated nodeAt
    rw [hlayer, if_neg fun hbelow => Path.not_prefix_parent hroot hbelow.1]
    refine ⟨h.nodeAt_parent hroot hpoint hdirectory, fun node hat => ?_⟩
    rw [h.layer_parent hroot hpoint, hnode] at hat
    exact Option.some.inj (hat.symm.trans hdirectory)
  have hold : ∀ mount ∈ s.mounts t,
      ((s.setMounts t (s.mounts t ++ [⟨path, .memory id⟩])).Seated t r mount ↔
        (path <+: mount.point.parent →
          (s.layer t r mount.point.parent).point.length < path.length →
          (s.tree id).node? (mount.point.parent.drop path.length) = some .directory ∧
            ∀ node, (s.tree id).node? (mount.point.drop path.length) = some node →
              node = .directory)) := by
    intro mount hmount
    unfold Seated nodeAt
    rw [hlayer]
    split
    · rename_i hbelow
      exact ⟨fun hplaces _ _ => hplaces, fun hplaces => hplaces hbelow.1 hbelow.2⟩
    · rename_i hbelow
      exact ⟨fun _ hupper hlt => absurd ⟨hupper, hlt⟩ hbelow, fun _ => hseated mount hmount⟩
  -- The mount itself is seated in any case, since it took the place of a directory.
  constructor
  · intro hall mount hmount
    exact (hold mount hmount).1 (hall mount (List.mem_append_left _ hmount))
  · intro hfits mount hmount
    rcases List.mem_append.1 hmount with hmount | hmount
    · exact (hold mount hmount).2 (hfits mount hmount)
    · rw [List.mem_singleton.1 hmount]
      exact hnew

/-! Histories. -/

def founded : Files := (({} : Files).addMemory.2.addTable (.memory 0)).2

/-- What comes of the founded table when it is only changed through itself. Other memory file
systems are made and changed freely while they are mounted nowhere. A mount of `id` at a path text
has to be `allowed` at its time. -/
inductive Reached (allowed : Files → String → Nat → Prop) : Files → Prop
  | start : Reached allowed founded
  | create {s : Files} : Reached allowed s → Reached allowed s.addMemory.2
  | prepare {s : Files} (id : Nat) (path : String) (c : Change) : Reached allowed s →
      s.Free 0 0 id → Reached allowed (s.apply (.memory id) path c).2
  | through {s : Files} (path : String) (c : Change) : Reached allowed s → (∀ fs, c ≠ .mount fs) →
      Reached allowed (s.apply (overlay 0 0) path c).2
  | mount {s : Files} (path : String) (id : Nat) : Reached allowed s → s.Free 0 0 id →
      allowed s path id → Reached allowed (s.apply (overlay 0 0) path (.mount (.memory id))).2

theorem laid_founded : founded.Laid 0 0 :=
  ⟨by simpa [founded, addMemory, addTable] using Tree.grown_fresh, by decide, by decide,
    by simp [founded, addMemory, addTable, mounts], by simp [founded, addMemory, addTable, mounts],
    by simp [founded, addMemory, addTable, mounts], by simp [founded, addMemory, addTable, mounts]⟩

theorem Laid.addMemory (h : s.Laid t r) : s.addMemory.2.Laid t r := by
  have hlength : s.addMemory.2.trees.length = s.trees.length + 1 := by
    simp [Files.addMemory]
  refine ⟨fun tree htree => ?_, h.table, ?_, fun mount hmount => ?_, h.point, h.points, h.systems⟩
  · rcases List.mem_append.1 htree with htree | htree
    · exact h.grown tree htree
    · rw [List.mem_singleton.1 htree]
      exact Tree.grown_fresh
  · have := h.root
    omega
  · obtain ⟨id, hfs, hlt, hne⟩ := h.memory mount hmount
    exact ⟨id, hfs, by omega, hne⟩

theorem seated_congr {s' : Files} (hmounts : s'.mounts t = s.mounts t)
    (htrees : ∀ layer ∈ s.layers t r, ∀ id, layer.fs = .memory id → s'.tree id = s.tree id)
    {mount : Mount} (hseated : s.Seated t r mount) : s'.Seated t r mount := by
  have hlayer : ∀ q, s'.layer t r q = s.layer t r q := fun q => by rw [layer, layer, hmounts]
  have hnode : ∀ q p, s'.nodeIn (s.layer t r q) p = s.nodeIn (s.layer t r q) p := by
    intro q p
    unfold nodeIn
    split
    · rename_i id hfs
      rw [htrees _ (layer_mem s t r q) id hfs]
    · rfl
  unfold Seated nodeAt at hseated ⊢
  simpa only [hlayer, hnode] using hseated

theorem Laid.through (h : s.Laid t r) (text : String) {c : Change} (hmount : ∀ fs, c ≠ .mount fs) :
    (s.apply (overlay t r) text c).2.Laid t r ∧
      ((∀ mount ∈ s.mounts t, s.Seated t r mount) →
        ∀ mount ∈ (s.apply (overlay t r) text c).2.mounts t,
          (s.apply (overlay t r) text c).2.Seated t r mount) := by
  have hpath := Path.canonical_ofText text
  rcases h.apply_turn text c with ⟨fault, hfault⟩ | ⟨s', hok, hturn⟩
  · rw [hfault]
    exact ⟨h, id⟩
  · rw [hok]
    cases hturn with
    | tree hfs hid hchange hbusy =>
      exact ⟨h.setTree ((h.grown_tree hid).change (hpath.drop _) hchange) _,
        fun hseated mount hmem => h.seated_setTree hpath hfs hid hchange hbusy hmem
          (hseated mount hmem)⟩
    | attach fs => exact absurd rfl (hmount fs)
    | detach hnested =>
      have hsub : ((s.mounts t).eraseP fun mount => mount.point = Path.ofText text).Sublist
          (s.mounts t) := List.eraseP_sublist
      refine ⟨h.setMounts_sublist hsub, fun hseated mount hmem => ?_⟩
      rw [mounts_setMounts h.table] at hmem
      refine h.seated_setMounts_sublist hsub (fun haround => ?_)
        (hseated mount (hsub.subset hmem))
      -- The layer around a mount is not the one taken off, which has no mount below it.
      refine (List.mem_eraseP_of_neg fun hpoint => ?_).2 haround
      simp only [decide_eq_true_eq] at hpoint
      have hupper := layer_point_above s t r mount.point.parent
      have hbelow := hnested mount (hsub.subset hmem)
        (hpoint ▸ hupper.trans (Path.parent_above mount.point))
      rw [hpoint, ← hbelow] at hupper
      exact Path.not_prefix_parent (h.point mount (hsub.subset hmem)).1 hupper

/-- A mount that succeeds leaves all mounts seated exactly when the file system fits in. -/
theorem Laid.mount (h : s.Laid t r) (text : String) {id : Nat} (hfree : s.Free t r id) :
    (s.apply (overlay t r) text (.mount (.memory id))).2.Laid t r ∧
      ((s.apply (overlay t r) text (.mount (.memory id))).1 ≠ .ok () →
        (s.apply (overlay t r) text (.mount (.memory id))).2 = s) ∧
      ((∀ mount ∈ s.mounts t, s.Seated t r mount) →
        (s.apply (overlay t r) text (.mount (.memory id))).1 = .ok () →
        ((∀ mount ∈ (s.apply (overlay t r) text (.mount (.memory id))).2.mounts t,
            (s.apply (overlay t r) text (.mount (.memory id))).2.Seated t r mount) ↔
          s.Fits t r (Path.ofText text) id)) := by
  have hpath := Path.canonical_ofText text
  rcases h.apply_turn text (.mount (.memory id)) with ⟨fault, hfault⟩ | ⟨s', hok, hturn⟩
  · rw [hfault]
    exact ⟨h, fun _ => rfl, by simp⟩
  · rw [hok]
    cases hturn with
    | tree hfs hid hchange hbusy => cases hchange
    | attach fs hroot hpoint hdirectory =>
      refine ⟨h.setMounts_snoc hfree hroot hpath hpoint, fun hne => absurd rfl hne,
        fun hseated _ => ?_⟩
      rw [mounts_setMounts h.table]
      exact h.seated_setMounts_snoc hseated hfree hroot hpath hpoint hdirectory

theorem Reached.laid {allowed : Files → String → Nat → Prop} (h : Reached allowed s) :
    s.Laid 0 0 := by
  induction h with
  | start => exact laid_founded
  | create _ ih => exact ih.addMemory
  | prepare id path c _ hfree ih =>
    rcases apply_memory _ id path c with hsame | ⟨tree, htree, hset⟩
    · rw [hsame]
      exact ih
    · rw [hset]
      exact ih.setTree ((ih.grown_tree hfree.1).change (Path.canonical_ofText path) htree) id
  | through path c _ hmount ih => exact (ih.through path hmount).1
  | mount path id _ hfree _ ih => exact (ih.mount path hfree).1

theorem Reached.seated {allowed : Files → String → Nat → Prop} (h : Reached allowed s)
    (hfits : ∀ (s : Files) (path : String) (id : Nat), allowed s path id →
      (s.apply (overlay 0 0) path (.mount (.memory id))).1 = .ok () →
      s.Fits 0 0 (Path.ofText path) id) :
    ∀ mount ∈ s.mounts 0, s.Seated 0 0 mount := by
  induction h with
  | start => simp [founded, addMemory, addTable, mounts]
  | @create s hs ih =>
    have hmounts : s.addMemory.2.mounts 0 = s.mounts 0 := rfl
    refine fun mount hmount => seated_congr hmounts (fun layer hlayer id hfs => ?_) (ih mount hmount)
    obtain ⟨other, hother, hlt⟩ := hs.laid.layer_memory hlayer
    rw [hfs, FileSystem.memory.injEq] at hother
    subst hother
    simp [Files.addMemory, Files.tree, List.getElem?_append_left hlt]
  | @prepare s id path c hs hfree ih =>
    rcases apply_memory s id path c with hsame | ⟨tree, htree, hset⟩
    · rw [hsame]
      exact ih
    · rw [hset]
      have hmounts : (s.setTree id tree).mounts 0 = s.mounts 0 := rfl
      refine fun mount hmount => seated_congr hmounts (fun layer hlayer other hfs => ?_)
        (ih mount hmount)
      rw [tree_setTree hfree.1, if_neg]
      rintro rfl
      rcases List.mem_cons.1 hlayer with rfl | hlayer
      · exact hfree.2.1 (FileSystem.memory.inj hfs).symm
      · exact hfree.2.2 layer hlayer hfs
  | through path c hs hmount ih => exact (hs.laid.through path hmount).2 ih
  | @mount s path id hs hfree hallowed ih =>
    obtain ⟨-, hfailed, hseated⟩ := hs.laid.mount path hfree
    by_cases hok : (s.apply (overlay 0 0) path (.mount (.memory id))).1 = .ok ()
    · exact (hseated ih hok).2 (hfits s path id hallowed hok)
    · rw [hfailed hok]
      exact ih

/-- The namespace is intact exactly when each mount is seated in the layer around it. Of all changes
only a mount can break it, and a mount that succeeds does so exactly when the file system does not
fit in above the mounts that are there: a history in which every one fits is intact throughout. -/
theorem Reached.intact_iff_seated {allowed : Files → String → Nat → Prop}
    (h : Reached allowed s) :
    (s.Intact (overlay 0 0) ↔ ∀ mount ∈ s.mounts 0, s.Seated 0 0 mount) ∧
    (s.Intact (overlay 0 0) → ∀ path c, (∀ fs, c ≠ .mount fs) →
      (s.apply (overlay 0 0) path c).2.Intact (overlay 0 0)) ∧
    (s.Intact (overlay 0 0) → ∀ path id, s.Free 0 0 id →
      (s.apply (overlay 0 0) path (.mount (.memory id))).1 = .ok () →
      ((s.apply (overlay 0 0) path (.mount (.memory id))).2.Intact (overlay 0 0) ↔
        s.Fits 0 0 (Path.ofText path) id)) ∧
    ((∀ (s : Files) (path : String) (id : Nat), allowed s path id →
        (s.apply (overlay 0 0) path (.mount (.memory id))).1 = .ok () →
        s.Fits 0 0 (Path.ofText path) id) → s.Intact (overlay 0 0)) := by
  have hlaid := h.laid
  refine ⟨hlaid.intact_iff, fun hintact path c hmount => ?_, fun hintact path id hfree hok => ?_,
    fun hfits => ?_⟩
  · obtain ⟨hthen, hseated⟩ := hlaid.through path hmount
    exact hthen.intact (hseated (hlaid.intact_iff.1 hintact))
  · obtain ⟨hthen, -, hseated⟩ := hlaid.mount path hfree
    rw [hthen.intact_iff]
    exact hseated (hlaid.intact_iff.1 hintact) hok
  · exact hlaid.intact (h.seated hfits)

def deep : Files :=
  ((founded.apply (overlay 0 0) "/a/b/c" .makeDirectory).2.addMemory.2.apply (overlay 0 0) "/a/b/c"
    (.mount (.memory 1))).2.addMemory.2

def hidden : Files := (deep.apply (overlay 0 0) "/a" (.mount (.memory 2))).2

theorem deep_mounts : deep.mounts 0 = [⟨["a", "b", "c"], .memory 1⟩] := by cbv

theorem free_deep : deep.Free 0 0 2 := by
  refine ⟨by cbv, by decide, ?_⟩
  rw [deep_mounts]
  simp

theorem reached_deep {allowed : Files → String → Nat → Prop}
    (h : ∀ (s : Files) (path : String) (id : Nat), s.mounts 0 = [] → allowed s path id) :
    Reached allowed deep := by
  have hstart : Reached allowed founded := .start
  have hmade := (hstart.through "/a/b/c" .makeDirectory (by simp)).create
  have hnone : (founded.apply (overlay 0 0) "/a/b/c" .makeDirectory).2.addMemory.2.mounts 0
      = [] := by cbv
  refine (hmade.mount "/a/b/c" 1 ⟨by cbv, by decide, ?_⟩ (h _ _ _ hnone)).create
  rw [hnone]
  simp

theorem deep_intact_iff :
    Reached (fun s path id => s.Fits 0 0 (Path.ofText path) id) deep ∧ deep.Intact (overlay 0 0) ∧
      (hidden.Intact (overlay 0 0) ↔ deep.Fits 0 0 ["a"] 2) := by
  have hreached : Reached (fun s path id => s.Fits 0 0 (Path.ofText path) id) deep :=
    reached_deep fun s path id hnone => by simp [Fits, hnone]
  obtain ⟨-, -, hmount, hfits⟩ := Reached.intact_iff_seated hreached
  have hintact := hfits fun _ _ _ h _ => h
  exact ⟨hreached, hintact, hmount hintact "/a" 2 free_deep (by cbv)⟩

theorem hidden_not_intact :
    Reached (fun _ _ _ => True) hidden ∧ hidden.isDirectory (overlay 0 0) "/a/b/c" = true ∧
      hidden.isDirectory (overlay 0 0) "/a/b" = false ∧ ¬ hidden.Intact (overlay 0 0) := by
  have hreached : Reached (fun _ _ _ => True) deep := reached_deep fun _ _ _ _ => trivial
  have hpoint : hidden.isDirectory (overlay 0 0) "/a/b/c" = true := by cbv
  have habove : hidden.isDirectory (overlay 0 0) "/a/b" = false := by cbv
  refine ⟨hreached.mount "/a" 2 free_deep trivial, hpoint, habove, fun hintact => ?_⟩
  obtain ⟨hdirectory, -⟩ := hintact.placed "/a/b/c" (by decide) (by decide) (Or.inl hpoint)
  have hparent : PathText.parent "/a/b/c" = "/a/b" := by decide
  rw [hparent, habove] at hdirectory
  cases hdirectory

end Files

end ToyUnix
