import ToyUnix.Proofs.Files.Mounting
import ToyUnix.Proofs.Files.Places

/-!
Namespaces over memory file systems: one of these alone, a table of them, or a view. Each path leads
to a place of its own, so what is deleted at one path is missed at no other: see `Backed.delete`.
-/

set_option autoImplicit false

namespace ToyUnix

namespace Files

variable {s s' : Files} {fs : FileSystem} {t r m : Nat} {path : Path}

def nodeOn (s : Files) (fs : FileSystem) (path : Path) : Option Node :=
  (s.place? fs path).bind fun place => (s.tree place.1).node? place.2

theorem Laid.place? (h : s.Laid t r) (path : Path) :
    ∃ id, (s.layer t r path).fs = .memory id ∧
      s.place? (overlay t r) path = some (id, path.drop (s.layer t r path).point.length) := by
  obtain ⟨id, shown, hfs, -, hroute⟩ := h.follow path.text path
  exact ⟨id, hfs, by rw [Files.place?, hroute, Route.place?, Route.place?]⟩

theorem nodeOn_memory (s : Files) (m : Nat) (path : Path) :
    s.nodeOn (.memory m) path = (s.tree m).node? path := by
  rw [nodeOn, place?_memory, Option.bind_some]

theorem Laid.nodeOn (h : s.Laid t r) (path : Path) :
    s.nodeOn (overlay t r) path = s.nodeAt t r path := by
  obtain ⟨id, hfs, hplace⟩ := h.place? path
  rw [Files.nodeOn, hplace, Option.bind_some, nodeAt, nodeIn_memory hfs]

theorem nodeOn_view (s : Files) (handle : Nat) (fs : FileSystem) (user : User) (path : Path) :
    s.nodeOn (.view handle fs user) path = s.nodeOn fs path := by
  rw [nodeOn, place?_view, nodeOn]

theorem nodeOn_congr (hstanding : s.Standing s') (htrees : s'.trees = s.trees) (fs : FileSystem)
    (path : Path) : s'.nodeOn fs path = s.nodeOn fs path := by
  simp only [nodeOn, hstanding.place?, tree, htrees]

/-- A memory file system, memory file systems in a table, or a view of such. -/
inductive Backed (s : Files) : FileSystem → Prop
  | memory {m : Nat} (h : s.Wooded) : Backed s (.memory m)
  | overlay {t r : Nat} (h : s.Laid t r) : Backed s (overlay t r)
  | view {handle : Nat} {fs : FileSystem} {user : User} (h : Backed s fs) :
    Backed s (.view handle fs user)

namespace Backed

theorem congr (h : s.Backed fs) (hstanding : s.Standing s') (htrees : s'.trees = s.trees) :
    s'.Backed fs := by
  induction h with
  | memory h => exact .memory (by rwa [Wooded, htrees])
  | @overlay t r h =>
    refine .overlay ⟨htrees ▸ h.grown, hstanding.tables ▸ h.table, htrees ▸ h.root, ?_, ?_, ?_, ?_⟩
    · rw [hstanding.mounts, htrees]
      exact h.memory
    · rw [hstanding.mounts]
      exact h.point
    · rw [hstanding.mounts]
      exact h.points
    · rw [hstanding.mounts]
      exact h.systems
  | view h ih => exact .view ih

theorem wooded (h : s.Backed fs) : s.Wooded := by
  induction h with
  | memory h => exact h
  | overlay h => exact h.grown
  | view h ih => exact ih

theorem apart (h : s.Backed fs) {place : Nat × Path} {other : Path}
    (hpath : s.place? fs path = some place) (hother : s.place? fs other = some place) :
    path = other := by
  induction h with
  | memory h =>
    rw [place?_memory] at hpath hother
    cases hpath
    cases hother
    rfl
  | overlay h =>
    obtain ⟨id, hfs, hplace⟩ := h.place? path
    obtain ⟨id', hfs', hplace'⟩ := h.place? other
    rw [hplace] at hpath
    rw [hplace', ← hpath, Option.some.injEq, Prod.mk.injEq] at hother
    have hlayer := h.eq_of_fs (layer_mem s _ _ path) (layer_mem s _ _ other)
      (by rw [hfs, hfs', hother.1])
    refine eq_of_drop (layer_point_above s _ _ path)
      (hlayer ▸ layer_point_above s _ _ other) ?_
    rw [← hother.2, hlayer]
  | view h ih =>
    rw [place?_view] at hpath hother
    exact ih hpath hother

theorem isDirectory_iff (h : s.Backed fs) (text : String) :
    s.isDirectory fs text = true ↔ s.nodeOn fs (Path.ofText text) = some .directory := by
  induction h with
  | memory h => rw [isDirectory_memory, nodeOn_memory]
  | overlay h => rw [h.isDirectory_iff, h.nodeOn]
  | view h ih =>
    rw [nodeOn_view, ← ih]
    simp [isDirectory, route, Files.follow, answers]

theorem isFile_iff (h : s.Backed fs) (text : String) :
    s.isFile fs text = true ↔
      ∃ node, s.nodeOn fs (Path.ofText text) = some node ∧ node ≠ .directory := by
  induction h with
  | memory h =>
    rw [nodeOn_memory]
    simp [isFile, route_memory, answers, Tree.answers, Node.answers, Option.any_eq_true,
      ← Node.isDirectory_iff]
  | overlay h => rw [h.isFile_iff, h.nodeOn]
  | view h ih =>
    rw [nodeOn_view, ← ih]
    simp [isFile, route, Files.follow, answers]

theorem nodeOn_eq_none_iff (h : s.Backed fs) (text : String) :
    s.nodeOn fs (Path.ofText text) = none ↔
      s.isFile fs text = false ∧ s.isDirectory fs text = false := by
  rw [← Bool.not_eq_true, ← Bool.not_eq_true, h.isFile_iff, h.isDirectory_iff]
  cases s.nodeOn fs (Path.ofText text) with
  | none => simp
  | some node => simp

theorem listed_below (h : s.Backed fs) {kind : EntryKind} {text entry : String}
    {listed : List String} (hlist : s.list kind (s.route fs text) = .ok listed)
    (hentry : entry ∈ listed) : Path.ofText text <+: Path.ofText entry := by
  induction h with
  | memory h =>
    rw [list_memory] at hlist
    obtain ⟨other, node, -, hparent, hnode, -, rfl⟩ :=
      ((h.of_node (Tree.list_directory hlist)).mem_list hlist).1 hentry
    rw [Path.ofText_text ((h.of_node hnode).canonical other node hnode), ← hparent]
    exact other.parent_above
  | overlay h =>
    obtain ⟨other, -, hparent, hother, rfl, -⟩ := ((h.mem_listed hlist).2 entry).1 hentry
    rw [Path.ofText_text hother, ← hparent]
    exact other.parent_above
  | view h ih =>
    rw [route, Files.follow, list] at hlist
    exact ih hlist

theorem setTree (h : s.Backed fs) {tree : Tree} (htree : tree.Grown) (id : Nat) :
    (s.setTree id tree).Backed fs := by
  induction h with
  | memory h =>
    refine .memory fun other hother => ?_
    rcases List.mem_or_eq_of_mem_set hother with hmem | rfl
    · exact h other hmem
    · exact htree
  | overlay h => exact .overlay (h.setTree htree id)
  | view h ih => exact .view ih

theorem nodeOn_remove (h : s.Backed fs) {id : Nat} (hid : id < s.trees.length) {inner : Path}
    (hplace : s.place? fs path = some (id, inner)) (other : Path) :
    (s.setTree id ((s.tree id).remove inner)).nodeOn fs other =
      if other = path then none else s.nodeOn fs other := by
  have hstanding : s.Standing (s.setTree id ((s.tree id).remove inner)) := ⟨rfl, rfl⟩
  rw [nodeOn, nodeOn, hstanding.place?]
  by_cases heq : other = path
  · rw [if_pos heq, heq, hplace, Option.bind_some, tree_setTree hid, if_pos rfl,
      Tree.node?_remove, if_pos rfl]
  rw [if_neg heq]
  cases hat : s.place? fs other with
  | none => rfl
  | some place =>
    obtain ⟨id', inner'⟩ := place
    rw [Option.bind_some, Option.bind_some, tree_setTree hid]
    split
    · rename_i hsame
      subst hsame
      rw [Tree.node?_remove, if_neg]
      rintro rfl
      exact heq (h.apart hat hplace)
    · rfl

end Backed

/-- All that a change along a route to that place can come to when it is not about mounts. -/
inductive Settles (s : Files) (c : Change) (place : Option (Nat × Path)) :
    Except Fault Unit × Files → Prop
  | fail (fault : Fault) : Settles s c place (.error fault, s)
  | tree {id : Nat} {shown : String} {path : Path} {tree : Tree} : place = some (id, path) →
    (s.tree id).change shown path c = .ok tree → Settles s c place (.ok (), s.setTree id tree)

theorem Settles.rebase {c : Change} {place : Option (Nat × Path)}
    {outcome : Except Fault Unit × Files} (h : s.Settles c place outcome) (point : String) :
    s.Settles c place (rebaseOutcome point outcome) := by
  cases h with
  | fail fault => exact .fail _
  | tree hplace hchange => exact .tree hplace hchange

theorem settles_change {c : Change} (hc : (Request.change c).mounts = false) (s : Files)
    (route : Route) : s.Settles c route.place? (s.change c route) := by
  induction route with
  | tree id shown path =>
    simp only [change]
    cases hchange : (s.tree id).change shown path c with
    | error fault => exact .fail fault
    | ok tree => exact .tree rfl hchange
  | deviceList registry => exact .fail _
  | noDevice path => exact .fail _
  | device name rest ih => exact ih.rebase _
  | view user path rest ih =>
    simp only [change]
    split
    · exact ih
    · exact .fail _
  | mounted table path point rest ih =>
    generalize houtcome : s.change c (.mounted table path point rest) = outcome
    have hhandles := s.handles_change table path point rest c
    rw [houtcome] at hhandles
    cases hhandles with
    | refuse => exact .fail _
    | relay => exact ih.rebase _
    | attach => cases hc
    | detach => cases hc

theorem settles_apply {c : Change} (hc : (Request.change c).mounts = false) (s : Files)
    (fs : FileSystem) (text : String) :
    s.Settles c (s.place? fs (Path.ofText text)) (s.apply fs text c) :=
  place?_route s fs text ▸ settles_change hc s _

theorem Backed.delete (h : s.Backed fs) {c : Change} (hc : c = .deleteFile ∨ c = .deleteDirectory)
    (text : String) :
    (∃ fault, s.apply fs text c = (.error fault, s)) ∨
      ∃ s', s.apply fs text c = (.ok (), s') ∧ s.Standing s' ∧ s'.Backed fs ∧
        s'.nodeOn fs (Path.ofText text) = none ∧
        ∀ other, other ≠ Path.ofText text → s'.nodeOn fs other = s.nodeOn fs other := by
  have hsettles := settles_apply (c := c) (by rcases hc with rfl | rfl <;> rfl) s fs text
  generalize s.apply fs text c = outcome at hsettles ⊢
  cases hsettles with
  | fail fault => exact .inl ⟨fault, rfl⟩
  | @tree id shown inner tree hplace hchange =>
    have hnode : ∃ node, (s.tree id).node? inner = some node ∧ tree = (s.tree id).remove inner := by
      rcases hc with rfl | rfl
      · obtain ⟨node, -, hnode, hremoved⟩ := Tree.deleteFile_ok hchange
        exact ⟨node, hnode, hremoved⟩
      · obtain ⟨-, hnode, -, hremoved⟩ := Tree.deleteDirectory_ok hchange
        exact ⟨_, hnode, hremoved⟩
    obtain ⟨node, hnode, rfl⟩ := hnode
    have hid : id < s.trees.length := by
      refine Nat.lt_of_not_le fun hle => ?_
      rw [tree_of_le hle] at hnode
      cases hnode
    have hgrown := h.wooded.of_node hnode
    have hafter := hgrown.change (hgrown.canonical inner node hnode) hchange
    refine .inr ⟨_, rfl, ⟨rfl, rfl⟩, h.setTree hafter id, ?_, fun other hother => ?_⟩
    · rw [h.nodeOn_remove hid hplace, if_pos rfl]
    · rw [h.nodeOn_remove hid hplace, if_neg hother]

end Files

end ToyUnix
