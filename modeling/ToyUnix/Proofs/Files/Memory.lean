import ToyUnix.Files.Device
import ToyUnix.Proofs.Files.Tree

/-!
Memory file systems on their own. What one answers is read off its tree, and a change to it makes a
new tree or nothing at all. A tree that started out fresh stays grown, whatever is done to it.
-/

set_option autoImplicit false

namespace ToyUnix

theorem Node.isDirectory_iff {node : Node} : node.isDirectory = true ↔ node = .directory := by
  cases node <;> simp [Node.isDirectory]

theorem Node.kind_eq_directory {node : Node} : node.kind = .directory ↔ node = .directory := by
  cases node <;> simp [Node.kind]

theorem Node.kind_eq_file {node : Node} : node.kind = .file ↔ node ≠ .directory := by
  cases node <;> simp [Node.kind]

namespace Files

variable {s : Files} {id : Nat}

theorem tree_setTree {id : Nat} (hid : id < s.trees.length) (tree : Tree) (other : Nat) :
    (s.setTree id tree).tree other = if id = other then tree else s.tree other := by
  simp only [setTree, Files.tree, List.getElem?_set, hid, if_true]
  split <;> rfl

theorem route_memory (s : Files) (id : Nat) (text : String) :
    s.route (.memory id) text = .tree id text (Path.ofText text) := by
  rw [route, Files.follow]

theorem isDirectory_memory (s : Files) (id : Nat) (text : String) :
    s.isDirectory (.memory id) text = true ↔
      (s.tree id).node? (Path.ofText text) = some .directory := by
  simp [isDirectory, route_memory, answers, Tree.answers, Node.answers, Option.any_eq_true,
    Node.isDirectory_iff]

theorem list_memory (s : Files) (id : Nat) (text : String) (kind : EntryKind) :
    s.list kind (s.route (.memory id) text) = (s.tree id).list kind (Path.ofText text) := by
  rw [route_memory, list]

theorem apply_memory (s : Files) (id : Nat) (text : String) (c : Change) :
    (s.apply (.memory id) text c).2 = s ∨ ∃ tree,
      (s.tree id).change text (Path.ofText text) c = .ok tree ∧
      (s.apply (.memory id) text c).2 = s.setTree id tree := by
  rw [apply, route_memory]
  simp only [change]
  split
  · rename_i tree htree
    exact Or.inr ⟨tree, htree, rfl⟩
  · exact Or.inl rfl

theorem apply_memory_ok {s' : Files} {text : String} {c : Change}
    (h : s.apply (.memory id) text c = (.ok (), s')) :
    ∃ tree, (s.tree id).change text (Path.ofText text) c = .ok tree ∧ s' = s.setTree id tree := by
  rw [apply, route_memory, change] at h
  split at h
  · rename_i tree htree
    cases h
    exact ⟨tree, htree, rfl⟩
  · cases h

/-! Changes one after another. -/

def after (s : Files) (fs : FileSystem) (steps : List (String × Change)) : Files :=
  steps.foldl (fun s step => (s.apply fs step.1 step.2).2) s

theorem grown_apply (hid : id < s.trees.length) (h : (s.tree id).Grown) (text : String)
    (c : Change) :
    id < (s.apply (.memory id) text c).2.trees.length ∧
      ((s.apply (.memory id) text c).2.tree id).Grown := by
  rcases apply_memory s id text c with hsame | ⟨tree, htree, hset⟩
  · rw [hsame]
    exact ⟨hid, h⟩
  · rw [hset, tree_setTree hid, if_pos rfl]
    exact ⟨by simpa [setTree] using hid, h.change (Path.canonical_ofText text) htree⟩

theorem grown_after (hid : id < s.trees.length) (h : (s.tree id).Grown)
    (steps : List (String × Change)) :
    id < (s.after (.memory id) steps).trees.length ∧
      ((s.after (.memory id) steps).tree id).Grown := by
  induction steps generalizing s with
  | nil => exact ⟨hid, h⟩
  | cons step steps ih =>
    obtain ⟨hid, h⟩ := grown_apply hid h step.1 step.2
    exact ih hid h

def raised (s : Files) (steps : List (String × Change)) : Files :=
  s.addMemory.2.after s.addMemory.1 steps

theorem grown_raised (s : Files) (steps : List (String × Change)) :
    s.trees.length < (s.raised steps).trees.length ∧
      ((s.raised steps).tree s.trees.length).Grown := by
  refine grown_after ?_ ?_ steps
  · simp [addMemory]
  · simpa [addMemory, tree] using Tree.grown_fresh

end Files

end ToyUnix
