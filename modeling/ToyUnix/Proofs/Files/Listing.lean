import Mathlib.Data.List.Nodup
import ToyUnix.Proofs.Files.Memory

/-!
Listings of a memory file system. Its nodes are kept in one flat table; whatever is done to it, the
table stays a tree, and a directory lists what is stored right below it. Main statement:
`exact_raised`.
-/

set_option autoImplicit false

namespace ToyUnix

namespace Tree

variable {t : Tree} {path : Path} {kind : EntryKind} {listed : List String}

/-- A flat table of nodes that is a tree. The root is its own parent. -/
structure Rooted (t : Tree) : Prop where
  root : t.node? [] = some .directory
  canonical : ∀ entry ∈ t,
    PathText.isCanonical entry.1.text = true ∧ Path.ofText entry.1.text = entry.1
  distinct : ((Assoc.keys t).map Path.text).Nodup
  above : ∀ entry ∈ t, t.node? entry.1.parent = some .directory

/-- All that is stored right below `path` of one kind, from the least bytes to the greatest. Nothing
has the root right below it. -/
structure Shows (t : Tree) (path : Path) (kind : EntryKind) (listed : List String) : Prop where
  ascending : listed.Pairwise fun a b => Utf8.encode a < Utf8.encode b
  distinct : listed.Nodup
  exact : ∀ text, text ∈ listed ↔
    ∃ entry ∈ t, (∃ name, entry.1 = path ++ [name]) ∧ entry.2.kind = kind ∧ entry.1.text = text

theorem Grown.mem_node (h : t.Grown) {entry : Path × Node} (hentry : entry ∈ t) :
    t.node? entry.1 = some entry.2 :=
  (Assoc.mem_iff_get? h.nodup).1 hentry

theorem Grown.rooted (h : t.Grown) : t.Rooted := by
  have hcanonical : ∀ entry ∈ t, entry.1.Canonical := fun entry hentry =>
    h.canonical _ _ (h.mem_node hentry)
  refine ⟨h.root, fun entry hentry => ?_, ?_, fun entry hentry => ?_⟩
  · exact ⟨Path.isCanonical_text (hcanonical entry hentry),
      Path.ofText_text (hcanonical entry hentry)⟩
  · refine List.Nodup.map_on (fun a ha b hb htext => ?_) h.nodup
    obtain ⟨x, hx, rfl⟩ := List.mem_map.1 ha
    obtain ⟨y, hy, rfl⟩ := List.mem_map.1 hb
    exact Path.text_injective (hcanonical x hx) (hcanonical y hy) htext
  · by_cases hroot : entry.1 = []
    · rw [hroot]
      exact h.root
    · exact h.above entry.1 entry.2 hroot (h.mem_node hentry)

theorem below_iff {other : Path} :
    (∃ name, other = path ++ [name]) ↔ other ≠ [] ∧ other.parent = path := by
  constructor
  · rintro ⟨name, rfl⟩
    exact ⟨by simp, List.dropLast_concat⟩
  · rintro ⟨hne, rfl⟩
    exact ⟨other.getLast hne, (List.dropLast_concat_getLast hne).symm⟩

theorem Grown.shows (h : t.Grown) (hlist : t.list kind path = .ok listed) :
    t.Shows path kind listed := by
  have hascending := h.list_pairwise hlist
  refine ⟨hascending.imp Utf8.encode_lt, hascending.imp ne_of_lt, fun text => ?_⟩
  rw [h.mem_list hlist]
  constructor
  · rintro ⟨other, node, hne, hparent, hnode, hkind, rfl⟩
    exact ⟨(other, node), (Assoc.mem_iff_get? h.nodup).2 hnode, below_iff.2 ⟨hne, hparent⟩, hkind,
      rfl⟩
  · rintro ⟨entry, hentry, hbelow, hkind, rfl⟩
    obtain ⟨hne, hparent⟩ := below_iff.1 hbelow
    exact ⟨entry.1, entry.2, hne, hparent, h.mem_node hentry, hkind, rfl⟩

end Tree

namespace Files

/-- In every state of a new memory file system its nodes are a tree, and each path text that is a
directory has listings of both kinds that show what is stored right below it. -/
theorem exact_raised (s : Files) (steps : List (String × Change)) :
    ((s.raised steps).tree s.trees.length).Rooted ∧
    ∀ path, (s.raised steps).isDirectory s.addMemory.1 path = true →
      (∃ listed, (s.raised steps).directories s.addMemory.1 path = .ok listed ∧
        ((s.raised steps).tree s.trees.length).Shows (Path.ofText path) .directory listed) ∧
      ∃ listed, (s.raised steps).files s.addMemory.1 path = .ok listed ∧
        ((s.raised steps).tree s.trees.length).Shows (Path.ofText path) .file listed := by
  obtain ⟨-, hgrown⟩ := grown_raised s steps
  refine ⟨hgrown.rooted, fun path hpath => ?_⟩
  have hshows : ∀ kind, ∃ listed,
      (s.raised steps).list kind ((s.raised steps).route (.memory s.trees.length) path)
        = .ok listed ∧
      ((s.raised steps).tree s.trees.length).Shows (Path.ofText path) kind listed := by
    intro kind
    obtain ⟨listed, hlist⟩ := Tree.exists_list ((isDirectory_memory _ _ path).1 hpath) kind
    exact ⟨listed, (list_memory _ _ path kind).trans hlist, hgrown.shows hlist⟩
  exact ⟨hshows .directory, hshows .file⟩

/-- A name that goes on with a character before the slash sorts between a directory and what is in
it. -/
def dashed : List (String × Change) :=
  [("a//b", .makeDirectory), ("/a-b", .makeDirectory), ("/a/b/../c", .write [])]

theorem exact_dashed :
    (Files.raised {} dashed).isDirectory (.memory 0) "/a" = true ∧
    ∃ listed, (Files.raised {} dashed).directories (.memory 0) "/a" = .ok listed ∧
      ((Files.raised {} dashed).tree 0).Shows ["a"] .directory listed := by
  have hpath : (Files.raised {} dashed).isDirectory (.memory 0) "/a" = true := by cbv
  exact ⟨hpath, ((exact_raised {} dashed).2 "/a" hpath).1⟩

end Files

end ToyUnix
