import Mathlib.Data.List.Permutation
import ToyUnix.Proofs.Files.Memory

/-!
Layers. A mount table over memory file systems is a pile of layers: the root and the mounts, each
attached at its point. The layer of a path is the one with the longest point above it, and what the
table says of the path is what the tree of that layer says of the rest of it.
-/

set_option autoImplicit false

namespace ToyUnix

theorem Mount.covers_iff {mount : Mount} {path : Path} :
    mount.covers path = true ↔ mount.point ≠ [] ∧ mount.point <+: path := by
  simp [Mount.covers, Path.isWithin, List.isPrefixOf_iff_prefix]

theorem innermost?_eq_none {path : Path} {mounts : List Mount}
    (h : innermost? path mounts = none) : ∀ mount ∈ mounts, ¬ mount.covers path = true := by
  induction mounts with
  | nil => simp
  | cons first rest ih =>
    simp only [innermost?] at h
    split at h
    · rename_i hrest
      split at h
      · cases h
      · rename_i hfirst
        intro mount hmount
        rcases List.mem_cons.1 hmount with rfl | hmount
        · exact hfirst
        · exact ih hrest mount hmount
    · split at h <;> cases h

theorem innermost?_length {path : Path} {mounts : List Mount} {best : Mount}
    (h : innermost? path mounts = some best) :
    ∀ mount ∈ mounts, mount.covers path = true → mount.point.length ≤ best.point.length := by
  induction mounts generalizing best with
  | nil => simp
  | cons first rest ih =>
    intro mount hmount hcovers
    simp only [innermost?] at h
    split at h
    · rename_i hrest
      rcases List.mem_cons.1 hmount with rfl | hmount
      · rw [if_pos hcovers, Option.some.injEq] at h
        exact h ▸ Nat.le_refl _
      · exact absurd hcovers (innermost?_eq_none hrest mount hmount)
    · rename_i other hother
      split at h <;> rename_i hlonger
      · cases h
        rcases List.mem_cons.1 hmount with rfl | hmount
        · exact Nat.le_refl _
        · exact Nat.le_trans (ih hother mount hmount hcovers) (Nat.le_of_lt hlonger.2)
      · cases h
        rcases List.mem_cons.1 hmount with rfl | hmount
        · exact Nat.le_of_not_lt fun hlt => hlonger ⟨hcovers, hlt⟩
        · exact ih hother mount hmount hcovers

namespace Files

/-! Any table. -/

/-- What table `id` over `root` has around a path: its innermost mount there, or the root. -/
def owner (s : Files) (id : Nat) (root : FileSystem) (path : Path) : Mount :=
  (innermost? path (s.mounts id)).getD ⟨[], root⟩

theorem owner_mem (s : Files) (id : Nat) (root : FileSystem) (path : Path) :
    s.owner id root path = ⟨[], root⟩ ∨ s.owner id root path ∈ s.mounts id := by
  unfold owner
  cases hbest : innermost? path (s.mounts id) with
  | none => exact Or.inl rfl
  | some best => exact Or.inr (innermost?_mem hbest).1

theorem owner_above (s : Files) (id : Nat) (root : FileSystem) (path : Path) :
    (s.owner id root path).point <+: path := by
  unfold owner
  cases hbest : innermost? path (s.mounts id) with
  | none => exact List.nil_prefix
  | some best => exact (Mount.covers_iff.1 (innermost?_mem hbest).2).2

theorem length_le_owner {s : Files} {id : Nat} {path : Path} {mount : Mount}
    (hmount : mount ∈ s.mounts id) (hupper : mount.point <+: path) (root : FileSystem) :
    mount.point.length ≤ (s.owner id root path).point.length := by
  by_cases hnil : mount.point = []
  · rw [hnil]
    exact Nat.zero_le _
  · have hcovers := Mount.covers_iff.2 ⟨hnil, hupper⟩
    unfold owner
    cases hbest : innermost? path (s.mounts id) with
    | none => exact absurd hcovers (innermost?_eq_none hbest mount hmount)
    | some best => exact innermost?_length hbest mount hmount hcovers

theorem owner_append (s : Files) (id : Nat) (root : FileSystem) (path : Path) :
    (s.owner id root path).point ++ path.drop (s.owner id root path).point.length = path :=
  List.prefix_iff_eq_append.1 (s.owner_above id root path)

theorem follow_mounts (s : Files) (id : Nat) (root : FileSystem) (shown : String) (path : Path) :
    s.follow (.mounts id root) shown path =
      .mounted id path (s.owner id root path).point
        (s.follow (s.owner id root path).fs
          (Path.text (path.drop (s.owner id root path).point.length))
          (path.drop (s.owner id root path).point.length)) := by
  rw [Files.follow]
  split
  · rename_i mount hfound
    simp only [owner, hfound, Option.getD_some]
  · rename_i hnone
    simp only [owner, hnone, Option.getD_none, List.length_nil, List.drop_zero]

/-! A table over memory file systems. -/

/-- Table `t` over the memory file system `r`. -/
abbrev overlay (t r : Nat) : FileSystem := .mounts t (.memory r)

/-- The root is attached at `/`. -/
def layers (s : Files) (t r : Nat) : List Mount := ⟨[], .memory r⟩ :: s.mounts t

def layer (s : Files) (t r : Nat) (path : Path) : Mount :=
  (innermost? path (s.mounts t)).getD ⟨[], .memory r⟩

def nodeIn (s : Files) (layer : Mount) (path : Path) : Option Node :=
  match layer.fs with
  | .memory id => (s.tree id).node? (path.drop layer.point.length)
  | _ => none

def nodeAt (s : Files) (t r : Nat) (path : Path) : Option Node :=
  s.nodeIn (s.layer t r path) path

/-- Memory file systems in order, each attached once and no two at one point. -/
structure Laid (s : Files) (t r : Nat) : Prop where
  grown : ∀ tree ∈ s.trees, tree.Grown
  table : t < s.tables.length
  root : r < s.trees.length
  memory : ∀ mount ∈ s.mounts t, ∃ id, mount.fs = .memory id ∧ id < s.trees.length ∧ id ≠ r
  point : ∀ mount ∈ s.mounts t, mount.point ≠ [] ∧ mount.point.Canonical
  points : ((s.mounts t).map (·.point)).Nodup
  systems : ((s.mounts t).map (·.fs)).Nodup

variable {s : Files} {t r : Nat} {path : Path}

theorem Laid.grown_tree (h : s.Laid t r) {id : Nat} (hid : id < s.trees.length) :
    (s.tree id).Grown := by
  rw [tree, List.getElem?_eq_getElem hid]
  exact h.grown _ (List.getElem_mem hid)

theorem Laid.layer_memory (h : s.Laid t r) {layer : Mount} (hlayer : layer ∈ s.layers t r) :
    ∃ id, layer.fs = .memory id ∧ id < s.trees.length := by
  rcases List.mem_cons.1 hlayer with rfl | hlayer
  · exact ⟨r, rfl, h.root⟩
  · obtain ⟨id, hfs, hlt, -⟩ := h.memory layer hlayer
    exact ⟨id, hfs, hlt⟩

theorem Laid.eq_of_point (h : s.Laid t r) {a b : Mount} (ha : a ∈ s.layers t r)
    (hb : b ∈ s.layers t r) (heq : a.point = b.point) : a = b := by
  have hnodup : ((s.layers t r).map (·.point)).Nodup := by
    refine List.nodup_cons.2 ⟨fun hroot => ?_, h.points⟩
    obtain ⟨mount, hmount, hpoint⟩ := List.mem_map.1 hroot
    exact (h.point mount hmount).1 hpoint
  exact List.inj_on_of_nodup_map hnodup ha hb heq

theorem Laid.eq_of_fs (h : s.Laid t r) {a b : Mount} (ha : a ∈ s.layers t r)
    (hb : b ∈ s.layers t r) (heq : a.fs = b.fs) : a = b := by
  have hnodup : ((s.layers t r).map (·.fs)).Nodup := by
    refine List.nodup_cons.2 ⟨fun hroot => ?_, h.systems⟩
    obtain ⟨mount, hmount, hfs⟩ := List.mem_map.1 hroot
    obtain ⟨id, hid, -, hne⟩ := h.memory mount hmount
    rw [hid] at hfs
    exact hne (FileSystem.memory.inj hfs)
  exact List.inj_on_of_nodup_map hnodup ha hb heq

theorem layer_eq_owner (s : Files) (t r : Nat) (path : Path) :
    s.layer t r path = s.owner t (.memory r) path := rfl

theorem layer_mem (s : Files) (t r : Nat) (path : Path) :
    s.layer t r path ∈ s.layers t r :=
  List.mem_cons.2 (s.owner_mem t (.memory r) path)

theorem layer_point_above (s : Files) (t r : Nat) (path : Path) :
    (s.layer t r path).point <+: path :=
  s.owner_above t (.memory r) path

theorem length_le_layer {mount : Mount} (hmount : mount ∈ s.layers t r)
    (hupper : mount.point <+: path) :
    mount.point.length ≤ (s.layer t r path).point.length := by
  rcases List.mem_cons.1 hmount with rfl | hmount
  · exact Nat.zero_le _
  · exact length_le_owner hmount hupper (.memory r)

theorem Laid.layer_eq (h : s.Laid t r) {mount : Mount} (hmount : mount ∈ s.layers t r)
    (hupper : mount.point <+: path)
    (hlongest : ∀ other ∈ s.layers t r, other.point <+: path →
      other.point.length ≤ mount.point.length) : s.layer t r path = mount := by
  refine h.eq_of_point (layer_mem s t r path) hmount ?_
  refine (List.prefix_of_prefix_length_le (layer_point_above s t r path) hupper ?_).eq_of_length ?_
  · exact hlongest _ (layer_mem s t r path) (layer_point_above s t r path)
  · exact Nat.le_antisymm (hlongest _ (layer_mem s t r path) (layer_point_above s t r path))
      (length_le_layer hmount hupper)

theorem Laid.layer_point (h : s.Laid t r) {mount : Mount} (hmount : mount ∈ s.mounts t) :
    s.layer t r mount.point = mount :=
  h.layer_eq (List.mem_cons_of_mem _ hmount) (List.prefix_refl _)
    fun _ _ hupper => hupper.length_le

theorem Laid.layer_parent (h : s.Laid t r) (hroot : path ≠ [])
    (hpoint : ∀ mount ∈ s.mounts t, mount.point ≠ path) :
    s.layer t r path.parent = s.layer t r path := by
  have hlayer : (s.layer t r path).point ≠ path := by
    rcases List.mem_cons.1 (layer_mem s t r path) with heq | hmem
    · rw [heq]
      exact Ne.symm hroot
    · exact hpoint _ hmem
  exact h.layer_eq (layer_mem s t r path) (Path.prefix_parent (layer_point_above s t r path) hlayer)
    fun other hother hupper => length_le_layer hother (hupper.trans (Path.parent_above path))

/-! Routes and questions. -/

theorem Laid.follow (h : s.Laid t r) (shown : String) (path : Path) :
    ∃ id shown', (s.layer t r path).fs = .memory id ∧ id < s.trees.length ∧
      s.follow (overlay t r) shown path = .mounted t path (s.layer t r path).point
        (.tree id shown' (path.drop (s.layer t r path).point.length)) := by
  obtain ⟨id, hfs, hid⟩ := h.layer_memory (layer_mem s t r path)
  refine ⟨id, Path.text (path.drop (s.layer t r path).point.length), hfs, hid, ?_⟩
  rw [follow_mounts, ← layer_eq_owner, hfs, Files.follow]

theorem nodeIn_memory {layer : Mount} {id : Nat} (hfs : layer.fs = .memory id) (path : Path) :
    s.nodeIn layer path = (s.tree id).node? (path.drop layer.point.length) := by
  simp [nodeIn, hfs]

theorem Laid.nodeAt_point (h : s.Laid t r) (hpath : path = (s.layer t r path).point) :
    s.nodeAt t r path = some .directory := by
  obtain ⟨id, hfs, hid⟩ := h.layer_memory (layer_mem s t r path)
  rw [nodeAt, nodeIn_memory hfs, ← hpath, List.drop_length]
  exact (h.grown_tree hid).root

theorem Laid.isDirectory_iff (h : s.Laid t r) (text : String) :
    s.isDirectory (overlay t r) text = true ↔
      s.nodeAt t r (Path.ofText text) = some .directory := by
  obtain ⟨id, shown, hfs, hid, hroute⟩ := h.follow text (Path.ofText text)
  have hanswers : s.isDirectory (overlay t r) text = true ↔
      Path.ofText text = (s.layer t r (Path.ofText text)).point ∨
      ∃ node, s.nodeAt t r (Path.ofText text) = some node ∧ node.isDirectory = true := by
    simp [isDirectory, route, hroute, answers, Tree.answers, Node.answers, nodeAt,
      nodeIn_memory hfs, Option.any_eq_true]
  rw [hanswers]
  constructor
  · rintro (hpoint | ⟨node, hnode, hdirectory⟩)
    · exact h.nodeAt_point hpoint
    · rw [hnode, Node.isDirectory_iff.1 hdirectory]
  · intro hnode
    exact Or.inr ⟨.directory, hnode, rfl⟩

theorem Laid.isFile_iff (h : s.Laid t r) (text : String) :
    s.isFile (overlay t r) text = true ↔
      ∃ node, s.nodeAt t r (Path.ofText text) = some node ∧ node ≠ .directory := by
  obtain ⟨id, shown, hfs, hid, hroute⟩ := h.follow text (Path.ofText text)
  simp [isFile, route, hroute, answers, Tree.answers, Node.answers, nodeAt, nodeIn_memory hfs,
    Option.any_eq_true, ← Node.isDirectory_iff]

/-! Listings. -/

theorem mem_newPoints {id : Nat} {listed : List String} {text : String} :
    text ∈ listed ++ s.newPoints id path listed ↔ text ∈ listed ∨
      ∃ mount ∈ s.mounts id, mount.point ≠ [] ∧ mount.point.parent = path ∧
        text = mount.point.text := by
  unfold newPoints
  -- Only points that are not listed yet are added, from any list of texts on.
  have hfold : ∀ (mounts : List Mount) (texts : List String),
      text ∈ listed ++ mounts.foldl (fun texts mount =>
        if (listed ++ texts).contains mount.point.text then texts
        else texts ++ [mount.point.text]) texts ↔
      text ∈ listed ++ texts ∨ ∃ mount ∈ mounts, text = mount.point.text := by
    intro mounts
    induction mounts with
    | nil => simp
    | cons first rest ih =>
      intro texts
      rw [List.foldl_cons, ih]
      split
      · rename_i hcontains
        rw [List.contains_iff_mem] at hcontains
        constructor
        · rintro (hmem | ⟨mount, hmount, heq⟩)
          · exact Or.inl hmem
          · exact Or.inr ⟨mount, List.mem_cons_of_mem _ hmount, heq⟩
        · rintro (hmem | ⟨mount, hmount, heq⟩)
          · exact Or.inl hmem
          · rcases List.mem_cons.1 hmount with rfl | hmount
            · exact Or.inl (heq ▸ hcontains)
            · exact Or.inr ⟨mount, hmount, heq⟩
      · rw [← List.append_assoc, List.mem_append, List.mem_singleton]
        simp only [List.mem_cons, or_and_right, exists_or, exists_eq_left, or_assoc]
  rw [hfold]
  simp only [List.append_nil, List.mem_filter, decide_eq_true_eq]
  exact or_congr_right ⟨fun ⟨m, ⟨hm, hne, hp⟩, ht⟩ => ⟨m, hm, hne, hp, ht⟩,
    fun ⟨m, hm, hne, hp, ht⟩ => ⟨m, ⟨hm, hne, hp⟩, ht⟩⟩

theorem exists_child_iff {point : Path} (hupper : point <+: path) (p : Path → Prop) :
    (∃ other : Path, other ≠ [] ∧ other.parent = path.drop point.length ∧ p other) ↔
      ∃ other : Path, other ≠ [] ∧ other.parent = path ∧ p (other.drop point.length) := by
  obtain ⟨inner, rfl⟩ := hupper
  constructor
  · rintro ⟨other, hne, hparent, hp⟩
    rw [List.drop_left] at hparent
    refine ⟨point ++ other, by simp [hne], ?_, by rwa [List.drop_left]⟩
    rw [Path.parent, List.dropLast_append_of_ne_nil hne]
    exact congrArg _ hparent
  · rintro ⟨other, hne, hparent, hp⟩
    obtain ⟨segment, rfl⟩ : ∃ segment, other = (point ++ inner) ++ [segment] := by
      refine ⟨other.getLast hne, ?_⟩
      rw [← hparent]
      exact (List.dropLast_concat_getLast hne).symm
    rw [List.append_assoc, List.drop_left] at hp
    exact ⟨inner ++ [segment], by simp, by simp [Path.parent], hp⟩

theorem Laid.point_canonical (h : s.Laid t r) {layer : Mount} (hlayer : layer ∈ s.layers t r) :
    layer.point.Canonical := by
  rcases List.mem_cons.1 hlayer with rfl | hmount
  · exact Path.canonical_nil
  · exact (h.point layer hmount).2

theorem Laid.mem_rebaseAll (h : s.Laid t r) {layer : Mount} (hlayer : layer ∈ s.layers t r)
    (hupper : layer.point <+: path) {id : Nat} (hfs : layer.fs = .memory id) {kind : EntryKind}
    {inside : List String}
    (hinside : (s.tree id).list kind (path.drop layer.point.length) = .ok inside) {entry : String} :
    entry ∈ rebaseAll layer.point.text inside ↔
      ∃ other : Path, other ≠ [] ∧ other.parent = path ∧ other.Canonical ∧ entry = other.text ∧
        ∃ node, s.nodeIn layer other = some node ∧ node.kind = kind := by
  obtain ⟨other, hother, hid⟩ := h.layer_memory hlayer
  rw [hfs, FileSystem.memory.injEq] at hother
  subst hother
  have hgrown := h.grown_tree hid
  have hpoint := h.point_canonical hlayer
  have hchild := exists_child_iff hupper fun rest => ∃ node,
    (s.tree id).node? rest = some node ∧ node.kind = kind ∧ entry = Path.text (layer.point ++ rest)
  constructor
  · intro hmem
    obtain ⟨text, htext, rfl⟩ := List.mem_map.1 hmem
    obtain ⟨rest, node, hne, hparent, hnode, hkind, rfl⟩ := (hgrown.mem_list hinside).1 htext
    obtain ⟨other, hone, hoparent, node, honode, hokind, hoentry⟩ := hchild.1
      ⟨rest, hne, hparent, node, hnode, hkind,
        Path.rebase_text hpoint (hgrown.canonical rest node hnode)⟩
    have hbelow : layer.point <+: other :=
      hupper.trans (hoparent ▸ Path.parent_above other)
    have happend := List.prefix_iff_eq_append.1 hbelow
    rw [happend] at hoentry
    exact ⟨other, hone, hoparent, happend ▸ hpoint.append (hgrown.canonical _ node honode), hoentry,
      node, (nodeIn_memory hfs other).trans honode, hokind⟩
  · rintro ⟨other, hone, hoparent, -, rfl, node, honode, hokind⟩
    have hbelow : layer.point <+: other :=
      hupper.trans (hoparent ▸ Path.parent_above other)
    rw [nodeIn_memory hfs] at honode
    obtain ⟨rest, hne, hparent, node, hnode, hkind, hentry⟩ := hchild.2
      ⟨other, hone, hoparent, node, honode, hokind, by rw [List.prefix_iff_eq_append.1 hbelow]⟩
    refine List.mem_map.2 ⟨rest.text, (hgrown.mem_list hinside).2
      ⟨rest, node, hne, hparent, hnode, hkind, rfl⟩, ?_⟩
    rw [Path.rebase_text hpoint (hgrown.canonical rest node hnode), hentry]

theorem Laid.mem_listed (h : s.Laid t r) {kind : EntryKind} {text : String} {listed : List String}
    (hlist : s.list kind (s.route (overlay t r) text) = .ok listed) :
    s.nodeAt t r (Path.ofText text) = some .directory ∧ ∀ entry, entry ∈ listed ↔
      ∃ other : Path, other ≠ [] ∧ other.parent = Path.ofText text ∧ other.Canonical ∧
        entry = other.text ∧
        ((∃ node, s.nodeIn (s.layer t r (Path.ofText text)) other = some node ∧ node.kind = kind) ∨
          kind = .directory ∧ ∃ mount ∈ s.mounts t, mount.point = other) := by
  obtain ⟨id, shown, hfs, hid, hroute⟩ := h.follow text (Path.ofText text)
  rw [route, hroute] at hlist
  simp only [list] at hlist
  cases hinside : (s.tree id).list kind
      ((Path.ofText text).drop (s.layer t r (Path.ofText text)).point.length) with
  | error fault =>
    rw [hinside] at hlist
    cases hlist
  | ok inside =>
    rw [hinside] at hlist
    have hbelow := @Laid.mem_rebaseAll s t r _ h _ (layer_mem s t r _)
      (layer_point_above s t r (Path.ofText text)) id hfs kind inside hinside
    refine ⟨(nodeIn_memory hfs _).trans (Tree.list_directory hinside), fun entry => ?_⟩
    cases kind with
    | file =>
      cases hlist
      simpa using hbelow
    | directory =>
      cases hlist
      rw [mem_sortTexts, mem_newPoints, hbelow]
      constructor
      · rintro (⟨other, hne, hparent, hother, rfl, hnode⟩ | ⟨mount, hmount, hne, hparent, rfl⟩)
        · exact ⟨other, hne, hparent, hother, rfl, Or.inl hnode⟩
        · exact ⟨mount.point, hne, hparent, (h.point mount hmount).2, rfl,
            Or.inr ⟨rfl, mount, hmount, rfl⟩⟩
      · rintro ⟨other, hne, hparent, hother, rfl, hnode | ⟨-, mount, hmount, rfl⟩⟩
        · exact Or.inl ⟨other, hne, hparent, hother, rfl, hnode⟩
        · exact Or.inr ⟨mount, hmount, hne, hparent, rfl⟩

theorem Laid.exists_listed (h : s.Laid t r) {text : String}
    (hnode : s.nodeAt t r (Path.ofText text) = some .directory) (kind : EntryKind) :
    ∃ listed, s.list kind (s.route (overlay t r) text) = .ok listed := by
  obtain ⟨id, shown, hfs, hid, hroute⟩ := h.follow text (Path.ofText text)
  rw [nodeAt, nodeIn_memory hfs] at hnode
  obtain ⟨inside, hinside⟩ := Tree.exists_list hnode kind
  rw [route, hroute]
  simp only [list, hinside]
  exact ⟨_, rfl⟩

end Files

end ToyUnix
