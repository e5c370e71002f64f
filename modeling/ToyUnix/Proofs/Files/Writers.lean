import ToyUnix.Proofs.Files.Confined
import ToyUnix.Proofs.Files.Places

/-!
Writers. What is written to one writer, or brought from it to its file, leaves the others alone; a
file that is there takes all that is pending, and nothing else happens to it. See `Writing` for a
writer and its file together.
-/

set_option autoImplicit false

namespace ToyUnix

namespace Tree

variable {t t' : Tree} {path : Path} {data : Bytes}

theorem ne_nil_of_node {node : Node} (h : t.node? path = some node) : t ≠ [] := by
  rintro rfl
  cases h

theorem node?_write (h : t.write path data = .ok t') :
    t ≠ [] ∧ ∃ executable, t'.node? path = some (.file data executable) := by
  unfold write at h
  split at h
  · cases h
  · rename_i hparent
    refine ⟨ne_nil_of_node (checkParent_ok hparent), ?_⟩
    split at h
    · cases h
    · cases h
    · rename_i executable _
      cases h
      exact ⟨executable, by rw [node?_put, if_pos rfl]⟩
    · cases h
      exact ⟨false, by rw [node?_put, if_pos rfl]⟩

theorem node?_append (h : t.append path data = .ok t') :
    t ≠ [] ∧ ∃ executable,
      t'.node? path = some (.file ((t.read path).toOption.getD [] ++ data) executable) := by
  unfold append at h
  split at h
  · rename_i before executable hnode
    cases h
    refine ⟨ne_nil_of_node hnode, executable, ?_⟩
    rw [node?_put, if_pos rfl, read, hnode]
    rfl
  · cases h
  · cases h
  · rename_i hnone
    rw [read, hnone]
    exact node?_write h

end Tree

namespace Files

variable {s : Files} {id other m : Nat} {path : Path}

theorem writer?_apply (s : Files) (fs : FileSystem) (text : String) (c : Change) (id : Nat) :
    (s.apply fs text c).2.writer? id = s.writer? id := by
  rw [writer?, writer?, (effect_apply s fs text c).writers]

theorem length_apply (s : Files) (fs : FileSystem) (text : String) (c : Change) :
    (s.apply fs text c).2.writers.length = s.writers.length := by
  rw [(effect_apply s fs text c).writers]

/-- Neither more writers nor fewer, and only that one with other bytes to write. -/
structure Pends (id : Nat) (s s' : Files) : Prop where
  length : s'.writers.length = s.writers.length
  other : ∀ other, other ≠ id → s'.writer? other = s.writer? other

namespace Pends

variable {s' s'' : Files}

theorem refl (s : Files) : Pends id s s := ⟨rfl, fun _ _ => rfl⟩

theorem trans (h : Pends id s s') (h' : Pends id s' s'') : Pends id s s'' :=
  ⟨h'.length.trans h.length, fun other hne => (h'.other other hne).trans (h.other other hne)⟩

theorem apply (s : Files) (fs : FileSystem) (text : String) (c : Change) :
    Pends id s (s.apply fs text c).2 :=
  ⟨length_apply s fs text c, fun other _ => writer?_apply s fs text c other⟩

theorem setPending (s : Files) (id : Nat) (pending : Bytes) :
    Pends id s (s.setPending id pending) := by
  unfold Files.setPending
  split
  · exact refl s
  · exact ⟨List.length_set, fun other hne => List.getElem?_set_ne (Ne.symm hne)⟩

theorem writeBytes (s : Files) (id : Nat) (data : Bytes) : Pends id s (s.writeBytes id data) := by
  unfold Files.writeBytes
  split
  · exact refl s
  · exact setPending ..

theorem flush (s : Files) (id : Nat) : Pends id s (s.flush id).2 := by
  unfold Files.flush
  split
  · exact refl s
  · rename_i writer _
    split
    · exact refl s
    · have happly : Pends id s (s.apply writer.fs writer.path (.append writer.pending)).2 :=
        apply ..
      split
      · rename_i heq
        rw [heq] at happly
        exact happly.trans (setPending ..)
      · rename_i heq
        rwa [heq] at happly

theorem closeWriter (s : Files) (id : Nat) : Pends id s (s.closeWriter id) :=
  (flush s id).trans (setPending ..)

end Pends

theorem tree_setPending (s : Files) (id : Nat) (pending : Bytes) (m : Nat) :
    (s.setPending id pending).tree m = s.tree m := by
  unfold setPending
  split <;> rfl

theorem writer?_setPending {writer : Writer} (h : s.writer? id = some writer) (pending : Bytes) :
    (s.setPending id pending).writer? id = some { writer with pending } := by
  rw [setPending, h]
  exact List.getElem?_set_self (List.getElem?_eq_some_iff.1 h).1

theorem writer?_writeBytes {writer : Writer} (h : s.writer? id = some writer) (data : Bytes) :
    (s.writeBytes id data).writer? id =
      some { writer with pending := writer.pending ++ data } := by
  rw [writeBytes, h]
  exact writer?_setPending h _

/-- A writer whose file is there: what the file holds and what is still to be appended to it. -/
structure Writing (s : Files) (id m : Nat) (path : Path) (executable : Bool)
    (data pending : Bytes) : Prop where
  writer : ∃ text, s.writer? id = some ⟨.memory m, text, pending⟩ ∧ Path.ofText text = path
  node : (s.tree m).node? path = some (.file data executable)

namespace Writing

variable {s' : Files} {executable : Bool} {data pending : Bytes}

theorem congr (h : s.Writing id m path executable data pending)
    (hwriter : s'.writer? id = s.writer? id)
    (hnode : (s'.tree m).node? path = (s.tree m).node? path) :
    s'.Writing id m path executable data pending :=
  ⟨hwriter ▸ h.writer, hnode ▸ h.node⟩

theorem lt (h : s.Writing id m path executable data pending) : m < s.trees.length := by
  refine Nat.lt_of_not_le fun hle => ?_
  have hnode := h.node
  rw [tree_of_le hle] at hnode
  cases hnode

theorem unique {data' pending' : Bytes} (h : s.Writing id m path executable data pending)
    (h' : s.Writing id m path executable data' pending') : data = data' ∧ pending = pending' := by
  obtain ⟨text, hwriter, -⟩ := h.writer
  obtain ⟨text', hwriter', -⟩ := h'.writer
  cases h.node.symm.trans h'.node
  cases hwriter.symm.trans hwriter'
  exact ⟨rfl, rfl⟩

theorem flush_nil (h : s.Writing id m path executable data []) : s.flush id = (.ok (), s) := by
  obtain ⟨text, hwriter, -⟩ := h.writer
  rw [flush, hwriter]
  rfl

theorem flush (h : s.Writing id m path executable data pending) :
    ∃ s', s.flush id = (.ok (), s') ∧ s'.Writing id m path executable (data ++ pending) [] := by
  by_cases hnil : pending = []
  · subst hnil
    rw [List.append_nil]
    exact ⟨s, h.flush_nil, h⟩
  obtain ⟨text, hwriter, rfl⟩ := h.writer
  let after := s.setTree m
    ((s.tree m).put (Path.ofText text) (.file (data ++ pending) executable))
  have happly : s.apply (.memory m) text (.append pending) = (.ok (), after) := by
    rw [apply, route_memory]
    simp only [change, Tree.change, Tree.append, h.node]
    rfl
  have hafter : after.writer? id = some ⟨.memory m, text, pending⟩ := hwriter
  refine ⟨after.setPending id [], ?_, ⟨text, writer?_setPending hafter [], rfl⟩, ?_⟩
  · rw [Files.flush, hwriter]
    simp only [hnil, if_false, happly]
  · rw [tree_setPending, tree_setTree h.lt, if_pos rfl, Tree.node?_put, if_pos rfl]

theorem closeWriter (h : s.Writing id m path executable data pending) :
    (s.closeWriter id).Writing id m path executable (data ++ pending) [] := by
  obtain ⟨after, hflush, hafter⟩ := h.flush
  obtain ⟨text, hwriter, hpath⟩ := hafter.writer
  rw [Files.closeWriter, hflush]
  refine ⟨⟨text, writer?_setPending hwriter [], hpath⟩, ?_⟩
  rw [tree_setPending]
  exact hafter.node

theorem contents {text : String} (h : s.Writing id m (Path.ofText text) executable data pending)
    (handle : Nat) (user : User) :
    s.contents (.view handle (.memory m) user) text = .ok data := by
  simp only [Files.contents, route, follow, Files.read, Tree.read, h.node]

end Writing

def held (s : Files) (fs : FileSystem) (text : String) : Bytes :=
  (s.contents fs text).toOption.getD []

theorem openWrite_ok {s' : Files} {fs : FileSystem} {text : String} {appending : Bool}
    (h : s.openWrite fs text appending = (.ok id, s')) :
    id = s.writers.length ∧ ∃ after,
      s.apply fs text (if appending then .append [] else .write []) = (.ok (), after) ∧
      s' = (after.addWriter (behindView fs) text).2 := by
  unfold openWrite at h
  split at h
  · cases h
  rename_i after happly
  cases h
  have hlength := length_apply s fs text (if appending then .append [] else .write [])
  rw [happly] at hlength
  exact ⟨hlength, after, happly, rfl⟩

theorem writing_openWrite {s' : Files} {handle : Nat} {user : User} {text : String}
    {appending : Bool} (h : s.openWrite (.view handle (.memory m) user) text appending = (.ok id, s')) :
    ∃ executable, s'.Writing id m (Path.ofText text) executable
      (if appending then s.held (.view handle (.memory m) user) text else []) [] := by
  obtain ⟨rfl, after, happly, rfl⟩ := openWrite_ok h
  have hheld : s.held (.view handle (.memory m) user) text =
      ((s.tree m).read (Path.ofText text)).toOption.getD [] := by
    simp only [held, contents, route, follow, Files.read]
  have hwrite := view_ok (congrArg Prod.fst happly)
  rw [apply_view, if_pos hwrite, apply, route_memory] at happly
  simp only [Files.change] at happly
  split at happly
  case h_2 => cases happly
  rename_i tree htree
  cases happly
  have hnode : s.tree m ≠ [] ∧ ∃ executable, tree.node? (Path.ofText text) = some (.file
      (if appending then s.held (.view handle (.memory m) user) text else []) executable) := by
    rw [hheld]
    cases appending with
    | false => exact Tree.node?_write htree
    | true => simpa using Tree.node?_append htree
  obtain ⟨hne, executable, hnode⟩ := hnode
  have hm : m < s.trees.length := Nat.lt_of_not_le fun hle => hne (tree_of_le hle)
  refine ⟨executable, ⟨_, List.getElem?_concat_length .., ofText_normalize text⟩, ?_⟩
  rw [show (addWriter _ _ _).2.tree m = (s.setTree m tree).tree m from rfl, tree_setTree hm,
    if_pos rfl, hnode]

end Files

end ToyUnix
