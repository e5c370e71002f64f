import Mathlib.Data.List.Induction
import Mathlib.Data.List.Permutation
import ToyUnix.Files.Tree
import ToyUnix.Proofs.Path
import ToyUnix.Proofs.Text.Order

/-!
Trees of memory file systems. A tree that started out fresh keeps its root directory, has each path
once and a directory above every other path. Its listings are then the entries right below a
directory.
-/

set_option autoImplicit false

namespace ToyUnix

namespace Assoc

variable {α β : Type} [DecidableEq α]

theorem mem_iff_get? {d : Assoc α β} (h : d.keys.Nodup) {key : α} {value : β} :
    (key, value) ∈ d ↔ d.get? key = some value := by
  induction d with
  | nil => simp [get?]
  | cons entry rest ih =>
    obtain ⟨k, v⟩ := entry
    obtain ⟨hfresh, hrest⟩ : k ∉ keys rest ∧ (keys rest).Nodup := List.nodup_cons.1 h
    by_cases hk : k = key
    · subst hk
      have hnone : (k, value) ∉ rest := fun hmem => hfresh (List.mem_map_of_mem hmem)
      simp [get?, hnone, eq_comm]
    · simp [get?, hk, Ne.symm hk, ih hrest]

theorem mem_keys_set {d : Assoc α β} {key other : α} {value : β}
    (h : other ∈ (d.set key value).keys) : other = key ∨ other ∈ d.keys := by
  induction d with
  | nil => exact Or.inl (List.mem_singleton.1 h)
  | cons entry rest ih =>
    obtain ⟨k, v⟩ := entry
    simp only [set] at h
    split at h
    · rename_i hk
      exact Or.inr h
    · rcases List.mem_cons.1 h with rfl | h
      · exact Or.inr List.mem_cons_self
      · exact (ih h).imp_right (List.mem_cons_of_mem _)

theorem nodup_keys_set {d : Assoc α β} (h : d.keys.Nodup) (key : α) (value : β) :
    (d.set key value).keys.Nodup := by
  induction d with
  | nil => simp [set, keys]
  | cons entry rest ih =>
    obtain ⟨k, v⟩ := entry
    obtain ⟨hfresh, hrest⟩ : k ∉ keys rest ∧ (keys rest).Nodup := List.nodup_cons.1 h
    simp only [set]
    split
    · exact h
    · rename_i hk
      refine List.nodup_cons.2 ⟨fun hmem => ?_, ih hrest⟩
      rcases mem_keys_set hmem with heq | hmem
      · exact hk heq
      · exact hfresh hmem

theorem keys_erase_sublist (d : Assoc α β) (key : α) : (d.erase key).keys.Sublist d.keys :=
  List.filter_sublist.map _

end Assoc

theorem mem_sortTexts {texts : List String} {text : String} :
    text ∈ sortTexts texts ↔ text ∈ texts :=
  (List.mergeSort_perm _ _).mem_iff

theorem pairwise_sortTexts (texts : List String) : (sortTexts texts).Pairwise (· ≤ ·) := by
  have hsorted : (sortTexts texts).Pairwise fun a b => decide (a ≤ b) = true := by
    refine List.pairwise_mergeSort (fun a b c hab hbc => ?_) (fun a b => ?_) texts
    · simp only [decide_eq_true_eq] at hab hbc ⊢
      exact le_trans hab hbc
    · simpa using le_total a b
  exact hsorted.imp fun hle => by simpa using hle

theorem sortTexts_eq {texts sorted : List String} (hperm : texts.Perm sorted)
    (h : sorted.Pairwise (· ≤ ·)) : sortTexts texts = sorted :=
  ((List.mergeSort_perm _ _).trans hperm).eq_of_pairwise
    (fun _ _ _ _ hab hba => le_antisymm hab hba) (pairwise_sortTexts texts) h

namespace Tree

structure Grown (t : Tree) : Prop where
  root : t.node? [] = some .directory
  canonical : ∀ (path : Path) (node : Node), t.node? path = some node → path.Canonical
  nodup : t.keys.Nodup
  above : ∀ (path : Path) (node : Node), path ≠ [] → t.node? path = some node →
    t.node? path.parent = some .directory

variable {t t' : Tree} {path : Path}

theorem grown_fresh : fresh.Grown := by
  have hnode : ∀ (path : Path) (node : Node), fresh.node? path = some node → path = [] := by
    intro path node h
    by_contra hne
    simp [fresh, node?, Assoc.get?, Ne.symm hne] at h
  refine ⟨rfl, fun path node h => ?_, by simp [fresh, Assoc.keys], fun path node hne h => ?_⟩
  · rw [hnode path node h]
    exact Path.canonical_nil
  · exact absurd (hnode path node h) hne

theorem Grown.put (h : t.Grown) (hpath : path.Canonical) {node : Node}
    (hparent : path ≠ [] → t.node? path.parent = some .directory)
    (hkind : t.node? path = some .directory → node = .directory) : (t.put path node).Grown := by
  have hdirectory : ∀ other, t.node? other = some .directory →
      (t.put path node).node? other = some .directory := by
    intro other hother
    rw [node?_put]
    split
    · rename_i heq
      rw [hkind (heq ▸ hother)]
    · exact hother
  refine ⟨hdirectory [] h.root, fun other found hfound => ?_,
    Assoc.nodup_keys_set h.nodup _ _, fun other found hne hfound => hdirectory _ ?_⟩
  · rw [node?_put] at hfound
    split at hfound
    · rename_i heq
      exact heq ▸ hpath
    · exact h.canonical other found hfound
  · rw [node?_put] at hfound
    split at hfound
    · rename_i heq
      subst heq
      exact hparent hne
    · exact h.above other found hne hfound

theorem Grown.remove (h : t.Grown) (hne : path ≠ [])
    (hleaf : ∀ (other : Path) (node : Node), other ≠ [] → other.parent = path →
      t.node? other ≠ some node) :
    (t.remove path).Grown := by
  have hback : ∀ {other : Path} {node : Node}, (t.remove path).node? other = some node →
      other ≠ path ∧ t.node? other = some node := by
    intro other node hother
    rw [node?_remove] at hother
    split at hother
    · cases hother
    · rename_i heq
      exact ⟨Ne.symm heq, hother⟩
  refine ⟨?_, fun other node hother => h.canonical other node (hback hother).2,
    h.nodup.sublist (Assoc.keys_erase_sublist t path), fun other node hother hfound => ?_⟩
  · rw [node?_remove, if_neg hne, h.root]
  · have hold := (hback hfound).2
    have hparent : path ≠ other.parent := fun heq => hleaf other node hother heq.symm hold
    rw [node?_remove, if_neg hparent]
    exact h.above other node hother hold

theorem Grown.makeDirectory (h : t.Grown) (hpath : path.Canonical)
    (hmade : t.makeDirectory path = .ok t') :
    t'.Grown ∧ t'.node? path = some .directory ∧
      ∀ other, t'.node? other = t.node? other ∨
        other <+: path ∧ t.node? other = none ∧ t'.node? other = some .directory := by
  induction path using List.reverseRecOn generalizing t' with
  | nil =>
    unfold Tree.makeDirectory at hmade
    rw [h.root] at hmade
    cases hmade
    exact ⟨h, h.root, fun other => Or.inl rfl⟩
  | append_singleton init segment ih =>
    unfold Tree.makeDirectory at hmade
    split at hmade
    · rename_i hfound
      cases hmade
      exact ⟨h, hfound, fun other => Or.inl rfl⟩
    · cases hmade
    · rename_i hnone
      rw [dif_neg (by simp), List.dropLast_concat] at hmade
      split at hmade
      · rename_i made hinit
        cases hmade
        have hcanonical : Path.Canonical init := by
          simpa using hpath.dropLast
        obtain ⟨hgrown, hparent, hsame⟩ := ih hcanonical hinit
        refine ⟨hgrown.put hpath (fun _ => ?_) (fun _ => rfl), ?_, fun other => ?_⟩
        · rw [Path.parent, List.dropLast_concat, hparent]
        · rw [node?_put, if_pos rfl]
        · rw [node?_put]
          split
          · rename_i heq
            exact Or.inr ⟨heq ▸ List.prefix_refl _, heq ▸ hnone, rfl⟩
          · exact (hsame other).imp_right fun hnew =>
              ⟨hnew.1.trans (List.prefix_append _ _), hnew.2⟩
      · cases hmade

/-! Listings. The entries below a path are one stretch of the entries in order. -/

theorem mem_ordered {entry : Path × Node} : entry ∈ t.ordered ↔ entry ∈ t :=
  (List.mergeSort_perm _ _).mem_iff

theorem ordered_pairwise (t : Tree) :
    t.ordered.Pairwise fun a b => ¬ b.1.text.toList < a.1.text.toList := by
  have hsorted : t.ordered.Pairwise fun a b => decide (a.1.text ≤ b.1.text) = true := by
    refine List.pairwise_mergeSort (fun a b c hab hbc => ?_) (fun a b => ?_) t
    · simp only [decide_eq_true_eq] at hab hbc ⊢
      exact le_trans hab hbc
    · simpa using le_total a.1.text b.1.text
  refine hsorted.imp fun {a b} hle => ?_
  rw [← String.lt_iff_toList_lt, not_lt]
  simpa using hle

theorem mem_range {entry : Path × Node} :
    entry ∈ t.range path ↔ entry ∈ t ∧ path.stem <+: entry.1.text.toList := by
  rw [range, mem_scan t.ordered_pairwise, mem_ordered]

theorem mem_childrenOf (h : t.Grown) (hpath : path.Canonical) {other : Path} {node : Node} :
    (other, node) ∈ t.childrenOf path ↔
      other ≠ [] ∧ other.parent = path ∧ t.node? other = some node := by
  have hnode : (other, node) ∈ t ↔ t.node? other = some node := Assoc.mem_iff_get? h.nodup
  simp only [childrenOf, List.mem_filter, mem_range, decide_eq_true_eq, hnode]
  constructor
  · rintro ⟨⟨hfound, rest, hrest⟩, hname⟩
    rw [← hrest, List.drop_left] at hname
    obtain ⟨hne, hparent⟩ := (Path.text_below_iff hpath (h.canonical other node hfound)).1
      ⟨rest, hname, hrest.symm⟩
    exact ⟨hne, hparent, hfound⟩
  · rintro ⟨hne, hparent, hfound⟩
    obtain ⟨rest, hname, hrest⟩ := (Path.text_below_iff hpath (h.canonical other node hfound)).2
      ⟨hne, hparent⟩
    rw [hrest, List.drop_left]
    exact ⟨⟨hfound, List.prefix_append _ _⟩, hname⟩

theorem checkParent_ok (h : t.checkParent path = .ok ()) :
    t.node? path.parent = some .directory := by
  unfold checkParent at h
  split at h
  · assumption
  · cases h
  · cases h

def Filed (t : Tree) (path : Path) (t' : Tree) : Prop :=
  ∃ node, node ≠ .directory ∧ t.node? path ≠ some .directory ∧
    t.node? path.parent = some .directory ∧ t' = t.put path node

theorem Grown.ne_nil_of_file (h : t.Grown) {node : Node} (hnode : t.node? path = some node)
    (hfile : node ≠ .directory) : path ≠ [] := by
  rintro rfl
  rw [h.root] at hnode
  cases hnode
  exact hfile rfl

theorem Grown.filed (h : t.Grown) {before after : Node} (hbefore : t.node? path = some before)
    (hfile : before ≠ .directory) (hafter : after ≠ .directory) :
    t.Filed path (t.put path after) :=
  ⟨after, hafter, by simp [hbefore, hfile],
    h.above path before (h.ne_nil_of_file hbefore hfile) hbefore, rfl⟩

theorem filed_write {data : Bytes} (h : t.write path data = .ok t') : t.Filed path t' := by
  unfold write at h
  split at h
  · cases h
  · rename_i hparent
    split at h
    · cases h
    · cases h
    · rename_i hfile
      cases h
      exact ⟨_, by simp, by simp [hfile], checkParent_ok hparent, rfl⟩
    · rename_i hnone
      cases h
      exact ⟨_, by simp, by simp [hnone], checkParent_ok hparent, rfl⟩

theorem Grown.filed_append (h : t.Grown) {data : Bytes} (happend : t.append path data = .ok t') :
    t.Filed path t' := by
  unfold append at happend
  split at happend
  · rename_i hnode
    cases happend
    exact h.filed hnode (by simp) (by simp)
  · cases happend
  · cases happend
  · exact filed_write happend

theorem Grown.filed_setExecutable (h : t.Grown) {value : Bool}
    (hset : t.setExecutable path value = .ok t') : t' = t ∨ t.Filed path t' := by
  unfold setExecutable at hset
  split at hset
  · rename_i hnode
    cases hset
    exact Or.inr (h.filed hnode (by simp) (by simp))
  · split at hset
    · cases hset
      exact Or.inl rfl
    · cases hset
  · cases hset
  · cases hset

theorem filed_install {program : Program} (h : t.install path program = .ok t') :
    t.Filed path t' := by
  unfold install at h
  split at h
  · cases h
  · rename_i hparent
    split at h
    · cases h
    · rename_i hnode
      cases h
      exact ⟨_, by simp, hnode, checkParent_ok hparent, rfl⟩

theorem deleteFile_ok (h : t.deleteFile path = .ok t') :
    ∃ node, node ≠ .directory ∧ t.node? path = some node ∧ t' = t.remove path := by
  unfold deleteFile at h
  split at h
  · cases h
  · rename_i node hfile hnode
    cases h
    exact ⟨node, hfile, hnode, rfl⟩
  · cases h

theorem deleteDirectory_ok (h : t.deleteDirectory path = .ok t') :
    path ≠ [] ∧ t.node? path = some .directory ∧ t.childrenOf path = [] ∧ t' = t.remove path := by
  unfold deleteDirectory at h
  split at h
  · cases h
  · rename_i hroot
    split at h
    · rename_i hnode
      split at h
      · rename_i hempty
        cases h
        exact ⟨hroot, hnode, hempty, rfl⟩
      · cases h
    · cases h
    · cases h

/-- All that a change can do to a tree: nothing, directories along its path, a file at its path that
was no directory, or the removal of a file or of an empty directory. -/
theorem Grown.change_cases (h : t.Grown) {shown : String} {c : Change}
    (hchange : t.change shown path c = .ok t') :
    t' = t ∨ t.makeDirectory path = .ok t' ∨ t.Filed path t' ∨
    (∃ node, path ≠ [] ∧ t.node? path = some node ∧
      (node = .directory → c = .deleteDirectory ∧ t.childrenOf path = []) ∧ t' = t.remove path) := by
  cases c with
  | makeDirectory => exact Or.inr (Or.inl hchange)
  | deleteFile =>
    obtain ⟨node, hfile, hnode, hremoved⟩ := deleteFile_ok hchange
    exact Or.inr (Or.inr (Or.inr ⟨node, h.ne_nil_of_file hnode hfile, hnode,
      fun heq => absurd heq hfile, hremoved⟩))
  | deleteDirectory =>
    obtain ⟨hroot, hnode, hempty, hremoved⟩ := deleteDirectory_ok hchange
    exact Or.inr (Or.inr (Or.inr ⟨_, hroot, hnode, fun _ => ⟨rfl, hempty⟩, hremoved⟩))
  | write data => exact Or.inr (Or.inr (Or.inl (filed_write hchange)))
  | append data => exact Or.inr (Or.inr (Or.inl (h.filed_append hchange)))
  | setExecutable value =>
    exact (h.filed_setExecutable hchange).imp_right fun hfiled => Or.inr (Or.inl hfiled)
  | install program => exact Or.inr (Or.inr (Or.inl (filed_install hchange)))
  | mount fs => cases hchange
  | unmount => cases hchange

theorem Grown.change (h : t.Grown) (hpath : path.Canonical) {shown : String} {c : Change}
    (hchange : t.change shown path c = .ok t') : t'.Grown := by
  rcases h.change_cases hchange with rfl | hmade | ⟨node, -, hfile, hparent, rfl⟩ |
    ⟨node, hne, hnode, hempty, rfl⟩
  · exact h
  · exact (h.makeDirectory hpath hmade).1
  · exact h.put hpath (fun _ => hparent) fun hdirectory => absurd hdirectory hfile
  · refine h.remove hne fun other found hother hparent hfound => ?_
    have hdirectory := h.above other found hother hfound
    rw [hparent, hnode, Option.some.injEq] at hdirectory
    have hmem : (other, found) ∈ t.childrenOf path :=
      (mem_childrenOf h hpath).2 ⟨hother, hparent, hfound⟩
    rw [(hempty hdirectory).2] at hmem
    cases hmem

theorem Grown.change_directory (h : t.Grown) (hpath : path.Canonical) {shown : String} {c : Change}
    (hchange : t.change shown path c = .ok t') {other : Path}
    (hother : t.node? other = some .directory) :
    t'.node? other = some .directory ∨ c = .deleteDirectory ∧ other = path := by
  rcases h.change_cases hchange with rfl | hmade | ⟨node, -, hfile, -, rfl⟩ |
    ⟨node, -, hnode, hempty, rfl⟩
  · exact Or.inl hother
  · rcases (h.makeDirectory hpath hmade).2.2 other with hsame | ⟨-, -, hnew⟩
    · exact Or.inl (hsame.trans hother)
    · exact Or.inl hnew
  · rw [node?_put]
    split
    · rename_i heq
      exact absurd (heq ▸ hother) hfile
    · exact Or.inl hother
  · rw [node?_remove]
    split
    · rename_i heq
      subst heq
      rw [hnode, Option.some.injEq] at hother
      exact Or.inr ⟨(hempty hother).1, rfl⟩
    · exact Or.inl hother

theorem Grown.change_file (h : t.Grown) (hpath : path.Canonical) {shown : String} {c : Change}
    (hchange : t.change shown path c = .ok t') {other : Path} {node : Node}
    (hother : t'.node? other = some node) (hfile : node ≠ .directory) :
    other = path ∨ t.node? other = some node := by
  rcases h.change_cases hchange with rfl | hmade | ⟨new, -, -, -, rfl⟩ | ⟨old, -, -, -, rfl⟩
  · exact Or.inr hother
  · rcases (h.makeDirectory hpath hmade).2.2 other with hsame | ⟨-, -, hnew⟩
    · exact Or.inr (hsame.symm.trans hother)
    · exact absurd (Option.some.inj (hother.symm.trans hnew)) hfile
  · rw [node?_put] at hother
    split at hother
    · rename_i heq
      exact Or.inl heq.symm
    · exact Or.inr hother
  · rw [node?_remove] at hother
    split at hother
    · cases hother
    · exact Or.inr hother

/-- Nothing else changes than what is at the path that was asked for, and what is missing above. -/
theorem Grown.change_node (h : t.Grown) (hpath : path.Canonical) {shown : String} {c : Change}
    (hchange : t.change shown path c = .ok t') {other : Path} (hother : other ≠ path) :
    t'.node? other = t.node? other ∨
      other <+: path ∧ t.node? other = none ∧ t'.node? other = some .directory := by
  rcases h.change_cases hchange with rfl | hmade | ⟨new, -, -, -, rfl⟩ | ⟨old, -, -, -, rfl⟩
  · exact Or.inl rfl
  · exact (h.makeDirectory hpath hmade).2.2 other
  · exact Or.inl (by rw [node?_put, if_neg hother.symm])
  · exact Or.inl (by rw [node?_remove, if_neg hother.symm])

theorem Grown.directory_above (h : t.Grown) {other : Path} {node : Node}
    (hnode : t.node? path = some node) (hother : other <+: path) (hne : other ≠ path) :
    t.node? other = some .directory := by
  induction path using List.reverseRecOn generalizing node with
  | nil => exact absurd (List.prefix_nil.1 hother) hne
  | append_singleton init segment ih =>
    have hparent : t.node? init = some .directory := by
      simpa [Path.parent] using h.above _ node (by simp) hnode
    have hinit := (List.prefix_concat_iff.1 hother).resolve_left hne
    by_cases heq : other = init
    · rw [heq, hparent]
    · exact ih hparent hinit heq

theorem makeDirectory_ok (hroot : t.node? [] = some .directory)
    (hfile : ∀ (other : Path) (node : Node), other <+: path → t.node? other = some node →
      node = .directory) : ∃ t', t.makeDirectory path = .ok t' := by
  induction path using List.reverseRecOn with
  | nil => exact ⟨t, by rw [Tree.makeDirectory, hroot]⟩
  | append_singleton init segment ih =>
    unfold Tree.makeDirectory
    split
    · exact ⟨t, rfl⟩
    · rename_i node hnode hfound
      exact absurd (hfile _ _ (List.prefix_refl _) hfound) hnode
    · obtain ⟨made, hmade⟩ := ih fun other node hother =>
        hfile other node (hother.trans (List.prefix_append _ _))
      rw [dif_neg (by simp), List.dropLast_concat, hmade]
      exact ⟨_, rfl⟩

theorem list_directory {kind : EntryKind} {listed : List String}
    (h : t.list kind path = .ok listed) : t.node? path = some .directory := by
  unfold list at h
  split at h
  · assumption
  · cases h
  · cases h

theorem exists_list (h : t.node? path = some .directory) (kind : EntryKind) :
    ∃ listed, t.list kind path = .ok listed := by
  simp [list, h]

theorem Grown.mem_list (h : t.Grown) {kind : EntryKind} {listed : List String}
    (hlist : t.list kind path = .ok listed) {text : String} :
    text ∈ listed ↔ ∃ (other : Path) (node : Node), other ≠ [] ∧ other.parent = path ∧
      t.node? other = some node ∧ node.kind = kind ∧ text = other.text := by
  have hpath := h.canonical path .directory (list_directory hlist)
  simp only [list, list_directory hlist, Except.ok.injEq] at hlist
  rw [← hlist]
  simp only [List.mem_map, List.mem_filter, decide_eq_true_eq]
  constructor
  · rintro ⟨⟨other, node⟩, ⟨hmem, hkind⟩, rfl⟩
    obtain ⟨hne, hparent, hnode⟩ := (mem_childrenOf h hpath).1 hmem
    exact ⟨other, node, hne, hparent, hnode, hkind, rfl⟩
  · rintro ⟨other, node, hne, hparent, hnode, hkind, rfl⟩
    exact ⟨(other, node), ⟨(mem_childrenOf h hpath).2 ⟨hne, hparent, hnode⟩, hkind⟩, rfl⟩

theorem Grown.list_pairwise (h : t.Grown) {kind : EntryKind} {listed : List String}
    (hlist : t.list kind path = .ok listed) : listed.Pairwise (· < ·) := by
  simp only [list, list_directory hlist, Except.ok.injEq] at hlist
  have hkeys : (Assoc.keys t.ordered).Nodup := ((List.mergeSort_perm t _).map _).nodup_iff.2 h.nodup
  have hdistinct : t.ordered.Pairwise fun a b => a.1.text < b.1.text := by
    refine (List.Pairwise.and t.ordered_pairwise (List.pairwise_map.1 hkeys)).imp_of_mem ?_
    intro a b ha hb ⟨hle, hne⟩
    rw [← String.lt_iff_toList_lt, not_lt] at hle
    have hcanonical : ∀ entry ∈ t.ordered, entry.1.Canonical := fun entry hentry =>
      h.canonical entry.1 entry.2 ((Assoc.mem_iff_get? h.nodup).1 (mem_ordered.1 hentry))
    exact lt_of_le_of_ne hle fun htext =>
      hne (Path.text_injective (hcanonical a ha) (hcanonical b hb) htext)
  have hsublist : ((t.childrenOf path).filter fun entry => entry.2.kind = kind).Sublist t.ordered :=
    List.filter_sublist.trans (List.filter_sublist.trans
      ((List.takeWhile_sublist _).trans (List.dropWhile_sublist _)))
  rw [← hlist]
  exact List.pairwise_map.2 (hdistinct.sublist hsublist)

end Tree

end ToyUnix
