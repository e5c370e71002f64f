import Mathlib.Data.List.TakeDrop
import ToyUnix.Proofs.Files.Layers

/-!
The namespace of a mount table. It is intact when every entry has a directory above it that lists it
as what it is. For a table over memory file systems that means that each mount has a directory above
its point and no file at its point in the layer around it (`Laid.intact_iff`).
-/

set_option autoImplicit false

namespace ToyUnix

namespace Files

/-- Paths and their entries in the written form, as callers see them. -/
structure Intact (s : Files) (fs : FileSystem) : Prop where
  placed : ∀ path, PathText.isCanonical path = true → path ≠ "/" →
    s.isDirectory fs path = true ∨ s.isFile fs path = true →
    s.isDirectory fs (PathText.parent path) = true ∧
    ¬ (s.isDirectory fs path = true ∧ s.isFile fs path = true) ∧
    (∃ listed, s.directories fs (PathText.parent path) = .ok listed ∧
      (path ∈ listed ↔ s.isDirectory fs path = true)) ∧
    ∃ listed, s.files fs (PathText.parent path) = .ok listed ∧
      (path ∈ listed ↔ s.isFile fs path = true)
  listed_directory : ∀ path listed, s.directories fs path = .ok listed →
    ∀ entry ∈ listed, s.isDirectory fs entry = true
  listed_file : ∀ path listed, s.files fs path = .ok listed →
    ∀ entry ∈ listed, s.isFile fs entry = true

/-- The layer around the mount has a directory above its point and no file at its point. -/
def Seated (s : Files) (t r : Nat) (mount : Mount) : Prop :=
  s.nodeAt t r mount.point.parent = some .directory ∧
    ∀ node, s.nodeIn (s.layer t r mount.point.parent) mount.point = some node → node = .directory

variable {s : Files} {t r : Nat} {path : Path}

theorem Laid.nodeAt_mount (h : s.Laid t r) {mount : Mount} (hmount : mount ∈ s.mounts t) :
    s.nodeAt t r mount.point = some .directory :=
  h.nodeAt_point (by rw [h.layer_point hmount])

theorem Laid.nodeAt_parent (h : s.Laid t r) (hroot : path ≠ [])
    (hpoint : ∀ mount ∈ s.mounts t, mount.point ≠ path) {node : Node}
    (hnode : s.nodeAt t r path = some node) : s.nodeAt t r path.parent = some .directory := by
  obtain ⟨id, hfs, hid⟩ := h.layer_memory (layer_mem s t r path)
  have hupper := layer_point_above s t r path.parent
  rw [nodeAt, h.layer_parent hroot hpoint, nodeIn_memory hfs]
  rw [h.layer_parent hroot hpoint] at hupper
  rw [nodeAt, nodeIn_memory hfs] at hnode
  have hlength : (s.layer t r path).point.length < path.length := by
    have hle := hupper.length_le
    have hpos := List.length_pos_iff.2 hroot
    simp only [Path.parent, List.length_dropLast] at hle
    omega
  have habove := (h.grown_tree hid).above _ node
    (List.ne_nil_of_length_pos (by rw [List.length_drop]; omega)) hnode
  rw [← habove, Path.parent, Path.parent, List.dropLast_drop_eq_drop_dropLast]

theorem Laid.listed_iff (h : s.Laid t r) {kind : EntryKind} {text : String} {listed : List String}
    (hlist : s.list kind (s.route (overlay t r) text) = .ok listed) (hroot : path ≠ [])
    (hpath : path.Canonical) (hparent : path.parent = Path.ofText text) :
    path.text ∈ listed ↔
      (∃ node, s.nodeIn (s.layer t r path.parent) path = some node ∧ node.kind = kind) ∨
        kind = .directory ∧ ∃ mount ∈ s.mounts t, mount.point = path := by
  rw [(h.mem_listed hlist).2, ← hparent]
  constructor
  · rintro ⟨other, -, -, hother, htext, hentry⟩
    obtain rfl := Path.text_injective hpath hother htext
    exact hentry
  · intro hentry
    exact ⟨path, hroot, rfl, hpath, rfl, hentry⟩

theorem Laid.nodeAt_listed (h : s.Laid t r) (hseated : ∀ mount ∈ s.mounts t, s.Seated t r mount)
    (hroot : path ≠ []) (kind : EntryKind) :
    (∃ node, s.nodeAt t r path = some node ∧ node.kind = kind) ↔
      (∃ node, s.nodeIn (s.layer t r path.parent) path = some node ∧ node.kind = kind) ∨
        kind = .directory ∧ ∃ mount ∈ s.mounts t, mount.point = path := by
  by_cases hmount : ∃ mount ∈ s.mounts t, mount.point = path
  · obtain ⟨mount, hmem, rfl⟩ := hmount
    rw [h.nodeAt_mount hmem]
    constructor
    · rintro ⟨node, hnode, rfl⟩
      cases hnode
      exact Or.inr ⟨rfl, mount, hmem, rfl⟩
    · rintro (⟨node, hnode, rfl⟩ | ⟨rfl, -⟩)
      · exact ⟨node, by rw [(hseated mount hmem).2 node hnode], rfl⟩
      · exact ⟨.directory, rfl, rfl⟩
  · have hpoint : ∀ mount ∈ s.mounts t, mount.point ≠ path :=
      fun mount hmem heq => hmount ⟨mount, hmem, heq⟩
    rw [h.layer_parent hroot hpoint]
    simp [nodeAt, hmount]

theorem Laid.isDirectory_text (h : s.Laid t r) (hpath : path.Canonical) :
    s.isDirectory (overlay t r) path.text = true ↔ s.nodeAt t r path = some .directory := by
  rw [h.isDirectory_iff, Path.ofText_text hpath]

theorem Laid.isFile_text (h : s.Laid t r) (hpath : path.Canonical) :
    s.isFile (overlay t r) path.text = true ↔
      ∃ node, s.nodeAt t r path = some node ∧ node ≠ .directory := by
  rw [h.isFile_iff, Path.ofText_text hpath]

theorem Laid.nodeAt_above (h : s.Laid t r) (hseated : ∀ mount ∈ s.mounts t, s.Seated t r mount)
    (hroot : path ≠ []) {node : Node} (hnode : s.nodeAt t r path = some node) :
    s.nodeAt t r path.parent = some .directory := by
  by_cases hmount : ∃ mount ∈ s.mounts t, mount.point = path
  · obtain ⟨mount, hmem, rfl⟩ := hmount
    exact (hseated mount hmem).1
  · exact h.nodeAt_parent hroot (fun mount hmem heq => hmount ⟨mount, hmem, heq⟩) hnode

theorem Laid.intact (h : s.Laid t r) (hseated : ∀ mount ∈ s.mounts t, s.Seated t r mount) :
    s.Intact (overlay t r) := by
  have hkind : ∀ {kind : EntryKind} {text : String} {listed : List String},
      s.list kind (s.route (overlay t r) text) = .ok listed → ∀ {path : Path}, path ≠ [] →
      path.Canonical → path.parent = Path.ofText text →
      (path.text ∈ listed ↔ ∃ node, s.nodeAt t r path = some node ∧ node.kind = kind) := by
    intro kind text listed hlist path hroot hpath hparent
    rw [h.listed_iff hlist hroot hpath hparent, h.nodeAt_listed hseated hroot]
  refine ⟨fun text hcanonical hroot hexists => ?_, fun text listed hlist entry hentry => ?_,
    fun text listed hlist entry hentry => ?_⟩
  · obtain ⟨path, hpath, rfl⟩ : ∃ path : Path, path.Canonical ∧ path.text = text :=
      ⟨_, Path.canonical_ofText text, Path.text_ofText hcanonical⟩
    have hne : path ≠ [] := by
      rintro rfl
      exact hroot rfl
    have hup : path.parent.Canonical := hpath.dropLast
    have hread : Path.ofText path.parent.text = path.parent := Path.ofText_text hup
    rw [h.isDirectory_text hpath, h.isFile_text hpath] at hexists
    have habove : s.nodeAt t r path.parent = some .directory := by
      rcases hexists with hnode | ⟨node, hnode, -⟩
      · exact h.nodeAt_above hseated hne hnode
      · exact h.nodeAt_above hseated hne hnode
    rw [Path.parent_text hpath, h.isDirectory_text hup, h.isDirectory_text hpath,
      h.isFile_text hpath]
    refine ⟨habove, ?_, ?_, ?_⟩
    · rintro ⟨hdirectory, node, hnode, hfile⟩
      rw [hdirectory, Option.some.injEq] at hnode
      exact hfile hnode.symm
    · obtain ⟨listed, hlist⟩ := h.exists_listed (hread.symm ▸ habove) .directory
      refine ⟨listed, hlist, ?_⟩
      simp [hkind hlist hne hpath hread.symm, Node.kind_eq_directory]
    · obtain ⟨listed, hlist⟩ := h.exists_listed (hread.symm ▸ habove) .file
      refine ⟨listed, hlist, ?_⟩
      simp [hkind hlist hne hpath hread.symm, Node.kind_eq_file]
  · obtain ⟨path, hne, hparent, hpath, rfl, -⟩ := ((h.mem_listed hlist).2 entry).1 hentry
    obtain ⟨node, hnode, hdirectory⟩ := (hkind hlist hne hpath hparent).1 hentry
    rw [h.isDirectory_text hpath, hnode, Node.kind_eq_directory.1 hdirectory]
  · obtain ⟨path, hne, hparent, hpath, rfl, -⟩ := ((h.mem_listed hlist).2 entry).1 hentry
    obtain ⟨node, hnode, hfile⟩ := (hkind hlist hne hpath hparent).1 hentry
    exact (h.isFile_text hpath).2 ⟨node, hnode, Node.kind_eq_file.1 hfile⟩

theorem Laid.seated_of_intact (h : s.Laid t r) (hintact : s.Intact (overlay t r)) {mount : Mount}
    (hmount : mount ∈ s.mounts t) : s.Seated t r mount := by
  obtain ⟨hroot, hpath⟩ := h.point mount hmount
  have hup : mount.point.parent.Canonical := hpath.dropLast
  have hread : Path.ofText mount.point.parent.text = mount.point.parent := Path.ofText_text hup
  -- A mount point is a directory of the table whatever lies under it, so its parent is one.
  have hself := h.nodeAt_mount hmount
  obtain ⟨habove, -⟩ := hintact.placed mount.point.text (Path.isCanonical_text hpath)
    (Path.text_ne_root hpath hroot) (Or.inl ((h.isDirectory_text hpath).2 hself))
  rw [Path.parent_text hpath, h.isDirectory_text hup] at habove
  refine ⟨habove, fun node hnode => ?_⟩
  by_contra hfile
  obtain ⟨listed, hlist⟩ := h.exists_listed (hread.symm ▸ habove) .file
  have hentry := (h.listed_iff hlist hroot hpath hread.symm).2
    (Or.inl ⟨node, hnode, Node.kind_eq_file.2 hfile⟩)
  obtain ⟨other, hother, hkind⟩ :=
    (h.isFile_text hpath).1 (hintact.listed_file _ listed hlist _ hentry)
  rw [hself, Option.some.injEq] at hother
  exact hkind hother.symm

theorem Laid.intact_iff (h : s.Laid t r) :
    s.Intact (overlay t r) ↔ ∀ mount ∈ s.mounts t, s.Seated t r mount :=
  ⟨fun hintact _ hmount => h.seated_of_intact hintact hmount, h.intact⟩

end Files

end ToyUnix
