import ToyUnix.Proofs.Files.Custody

/-!
Taking a tree apart. A directory goes with everything below it when the files of each directory are
deleted on the way down, and then the directories in the opposite order. `Walk` is what holds
between the visits of two directories; at the end of it every directory is empty when its turn comes.
See `Walk.without_visited`.
-/

set_option autoImplicit false

namespace ToyUnix

theorem Assoc.get?_filter_key {α β : Type} [DecidableEq α] (d : Assoc α β) (keep : α → Bool)
    (key : α) : Assoc.get? (d.filter fun entry => keep entry.1) key =
      if keep key then d.get? key else none := by
  induction d with
  | nil => simp [Assoc.get?]
  | cons entry rest ih =>
    obtain ⟨k, v⟩ := entry
    by_cases hk : k = key
    · subst hk
      cases hkeep : keep k with
      | true => simp [hkeep, Assoc.get?]
      | false => simpa [hkeep] using ih
    · cases hkeep : keep k with
      | true => simp only [List.filter_cons, hkeep, if_true, Assoc.get?, if_neg hk, ih]
      | false => simp [hkeep, Assoc.get?, hk, ih]

namespace Path

theorem exists_step {top path : Path} (h : top <+: path) (hne : top ≠ path) :
    ∃ next : Path, next <+: path ∧ next ≠ [] ∧ next.parent = top := by
  obtain ⟨rest, rfl⟩ := h
  obtain _ | ⟨segment, rest⟩ := rest
  · exact absurd (List.append_nil top).symm hne
  · refine ⟨top ++ [segment], ?_, by simp, by simp [parent]⟩
    exact (List.prefix_append_right_inj top).2 ((List.prefix_cons_inj segment).2 List.nil_prefix)

theorem length_of_parent {path top : Path} (hne : path ≠ []) (h : path.parent = top) :
    path.length = top.length + 1 := by
  have := List.length_pos_iff.2 hne
  rw [← h, parent, List.length_dropLast]
  omega

theorem prefix_of_parent {path top other : Path} (h : path.parent = top) (hother : other <+: path) :
    other = path ∨ other <+: top := by
  by_cases heq : other = path
  · exact .inl heq
  · exact .inr (h ▸ prefix_parent hother heq)

end Path

namespace User

theorem canWrite_below {user : User} {path lower : Path} (hlower : lower.Canonical)
    (hbelow : path <+: lower) (h : user.canWrite path = true) : user.canWrite lower = true := by
  have hpath := hlower.above hbelow
  have htmp : Path.text ["tmp"] = "/tmp" := by decide
  simp only [canWrite, Bool.or_eq_true, ← htmp] at h ⊢
  rcases h with (hroot | hhome) | hin
  · exact .inl (.inl hroot)
  · rcases Path.isWithin_cases hpath hhome with hempty | ⟨upper, hupper, hhome⟩
    · rw [hempty]
      exact .inl (.inr (Path.isWithin_empty lower))
    · rw [hhome]
      exact .inl (.inr ((Path.isWithin_text hlower (hpath.above hupper)).2 (hupper.trans hbelow)))
  · rw [Path.isWithin_text hpath Path.canonical_tmp] at hin
    exact .inr ((Path.isWithin_text hlower Path.canonical_tmp).2 (hin.trans hbelow))

end User

namespace Tree

variable {t : Tree} {path top : Path}

def without (t : Tree) (paths : List Path) : Tree := t.filter fun entry => decide (entry.1 ∉ paths)

/-- Without what is at `top` or below it. -/
def prune (t : Tree) (top : Path) : Tree := t.filter fun entry => !entry.1.isWithin top

def directoriesWithin (t : Tree) (top : Path) : Nat :=
  (t.filter fun entry => entry.1.isWithin top && entry.2.isDirectory).length

theorem node?_prune (t : Tree) (top other : Path) :
    (t.prune top).node? other = if top <+: other then none else t.node? other := by
  refine (Assoc.get?_filter_key t (fun path => !path.isWithin top) other).trans ?_
  by_cases h : top <+: other <;> simp [Path.isWithin, node?, h]

theorem node?_without (t : Tree) (paths : List Path) (other : Path) :
    (t.without paths).node? other = if other ∈ paths then none else t.node? other := by
  refine (Assoc.get?_filter_key t (fun path => decide (path ∉ paths)) other).trans ?_
  by_cases h : other ∈ paths <;> simp [node?, h]

@[simp] theorem without_nil (t : Tree) : t.without [] = t := by
  simp [without]

theorem without_without (t : Tree) (first next : List Path) :
    (t.without first).without next = t.without (first ++ next) := by
  simp only [without, List.filter_filter]
  refine List.filter_congr fun entry _ => ?_
  by_cases h : entry.1 ∈ first <;> simp [h]

theorem remove_eq_without (t : Tree) (path : Path) : t.remove path = t.without [path] := by
  refine List.filter_congr fun entry _ => ?_
  simp

theorem Grown.without (h : t.Grown) {paths : List Path} (hroot : [] ∉ paths)
    (hbelow : ∀ (other : Path) node, other ≠ [] → t.node? other = some node → other.parent ∈ paths →
      other ∈ paths) : (t.without paths).Grown := by
  have hback {other : Path} {node : Node} (hother : (t.without paths).node? other = some node) :
      other ∉ paths ∧ t.node? other = some node := by
    rw [node?_without] at hother
    split at hother
    · cases hother
    · exact ⟨‹_›, hother⟩
  refine ⟨?_, fun other node hother => h.canonical other node (hback hother).2,
    h.nodup.sublist (List.filter_sublist.map _), fun other node hne hother => ?_⟩
  · rw [node?_without, if_neg hroot, h.root]
  · obtain ⟨hnot, hnode⟩ := hback hother
    rw [node?_without, if_neg fun hparent => hnot (hbelow other node hne hnode hparent)]
    exact h.above other node hne hnode

section Files

variable {paths : List Path}
  (hfiles : ∀ path ∈ paths, ∃ node, node ≠ .directory ∧ t.node? path = some node)

include hfiles

theorem node?_without_files {other : Path} :
    (t.without paths).node? other = some .directory ↔ t.node? other = some .directory := by
  rw [node?_without]
  split
  · obtain ⟨node, hfile, hnode⟩ := hfiles other ‹_›
    simpa [hnode] using hfile
  · rfl

theorem Grown.without_files (h : t.Grown) : (t.without paths).Grown := by
  refine h.without (fun hroot => ?_) fun other node hne hother hparent => ?_
  · obtain ⟨node, hfile, hnode⟩ := hfiles [] hroot
    exact h.ne_nil_of_file hnode hfile rfl
  · obtain ⟨file, hfile, hnode⟩ := hfiles _ hparent
    rw [h.above other node hne hother] at hnode
    exact absurd (Option.some.inj hnode).symm hfile

end Files

theorem Grown.mem_listed (h : t.Grown) {kind : EntryKind} {listed : List String}
    (hlist : t.list kind path = .ok listed) {other : Path} :
    other ∈ listed.map Path.ofText ↔
      ∃ node, node.kind = kind ∧ t.node? other = some node ∧ other ≠ [] ∧ other.parent = path := by
  rw [List.mem_map]
  constructor
  · rintro ⟨text, hmem, rfl⟩
    obtain ⟨other, node, hne, hparent, hnode, hkind, rfl⟩ := (h.mem_list hlist).1 hmem
    rw [Path.ofText_text (h.canonical other node hnode)]
    exact ⟨node, hkind, hnode, hne, hparent⟩
  · rintro ⟨node, hkind, hnode, hne, hparent⟩
    exact ⟨other.text, (h.mem_list hlist).2 ⟨other, node, hne, hparent, hnode, hkind, rfl⟩,
      Path.ofText_text (h.canonical other node hnode)⟩

theorem Grown.nodup_listed (h : t.Grown) {kind : EntryKind} {listed : List String}
    (hlist : t.list kind path = .ok listed) : (listed.map Path.ofText).Nodup := by
  refine List.pairwise_map.2 ((h.list_pairwise hlist).imp_of_mem fun {a b} ha hb hlt heq => ?_)
  obtain ⟨first, node, -, -, hnode, -, rfl⟩ := (h.mem_list hlist).1 ha
  obtain ⟨second, node', -, -, hnode', -, rfl⟩ := (h.mem_list hlist).1 hb
  rw [Path.ofText_text (h.canonical first node hnode),
    Path.ofText_text (h.canonical second node' hnode')] at heq
  exact absurd (heq ▸ hlt) (lt_irrefl _)

theorem Grown.mem_subdirectories (h : t.Grown) {gone : List Path}
    (hgone : ∀ path ∈ gone, ∃ node, node ≠ .directory ∧ t.node? path = some node)
    {listed : List String} (hlist : (t.without gone).list .directory path = .ok listed)
    {other : Path} : other ∈ listed.map Path.ofText ↔
      other ≠ [] ∧ other.parent = path ∧ t.node? other = some .directory := by
  rw [(h.without_files hgone).mem_listed hlist]
  constructor
  · rintro ⟨node, hkind, hnode, hne, hparent⟩
    rw [Node.kind_eq_directory.1 hkind] at hnode
    exact ⟨hne, hparent, (node?_without_files hgone).1 hnode⟩
  · rintro ⟨hne, hparent, hnode⟩
    exact ⟨_, rfl, (node?_without_files hgone).2 hnode, hne, hparent⟩

theorem deleteFile_of_node {node : Node} (h : t.node? path = some node)
    (hfile : node ≠ .directory) : t.deleteFile path = .ok (t.remove path) := by
  cases node with
  | directory => exact absurd rfl hfile
  | _ => simp [deleteFile, h]

theorem Grown.deleteDirectory_of_empty (h : t.Grown) (hne : path ≠ [])
    (hnode : t.node? path = some .directory)
    (hempty : ∀ other : Path, other ≠ [] → other.parent = path → t.node? other = none) :
    t.deleteDirectory path = .ok (t.remove path) := by
  have hchildren : t.childrenOf path = [] := by
    refine List.eq_nil_iff_forall_not_mem.2 fun entry hmem => ?_
    obtain ⟨hother, hparent, hfound⟩ := (mem_childrenOf h (h.canonical path _ hnode)).1 hmem
    rw [hempty _ hother hparent] at hfound
    cases hfound
  simp [deleteDirectory, hne, hnode, hchildren]

/-- What is right below a directory: the files, and the subdirectories. -/
structure Listed (t : Tree) (dir : Path) (files dirs : List Path) : Prop where
  mem_files : ∀ path : Path, path ∈ files ↔
    ∃ node, node ≠ .directory ∧ t.node? path = some node ∧ path.parent = dir
  mem_dirs : ∀ path : Path, path ∈ dirs ↔
    path ≠ [] ∧ path.parent = dir ∧ t.node? path = some .directory
  nodup : dirs.Nodup

namespace Listed

variable {dir : Path} {files dirs : List Path}

theorem above (h : t.Listed dir files dirs) (hpath : path ∈ dirs) : dir <+: path := by
  rw [← ((h.mem_dirs path).1 hpath).2.1]
  exact path.parent_above

theorem length (h : t.Listed dir files dirs) (hpath : path ∈ dirs) :
    path.length = dir.length + 1 :=
  Path.length_of_parent ((h.mem_dirs path).1 hpath).1 ((h.mem_dirs path).1 hpath).2.1

theorem apart (h : t.Listed dir files dirs) :
    dirs.Pairwise fun a b => ¬ a <+: b ∧ ¬ b <+: a := by
  refine h.nodup.imp_of_mem fun {a b} ha hb hne => ?_
  have hlength : a.length = b.length := (h.length ha).trans (h.length hb).symm
  exact ⟨fun hab => hne (hab.eq_of_length hlength),
    fun hba => hne (hba.eq_of_length hlength.symm).symm⟩

end Listed

/-- Between two visits. `pending` are the directories to visit, `visited` those that have been, the
last one first, and `gone` the files of these, which are all that has been deleted so far. -/
structure Walk (t : Tree) (top : Path) (pending visited gone : List Path) : Prop where
  mem_pending : ∀ dir ∈ pending, top <+: dir ∧ t.node? dir = some .directory
  mem_visited : ∀ dir ∈ visited, top <+: dir ∧ t.node? dir = some .directory
  mem_gone : ∀ path : Path, path ∈ gone ↔
    ∃ node, node ≠ .directory ∧ t.node? path = some node ∧ path.parent ∈ visited
  covered : ∀ dir, top <+: dir → t.node? dir = some .directory →
    dir ∈ visited ∨ ∃ first ∈ pending, first <+: dir
  apart : ∀ dir ∈ visited, ∀ first ∈ pending, ¬ first <+: dir
  order : visited.Pairwise fun newer older => ¬ newer <+: older
  distinct : pending.Pairwise fun a b => ¬ a <+: b ∧ ¬ b <+: a

namespace Walk

variable {dir : Path} {pending visited gone files dirs : List Path}

theorem start (htop : t.node? top = some .directory) : t.Walk top [top] [] [] where
  mem_pending := by simp [htop]
  mem_visited := by simp
  mem_gone := by simp
  covered dir hdir _ := .inr ⟨top, List.mem_singleton.2 rfl, hdir⟩
  apart := by simp
  order := .nil
  distinct := List.pairwise_singleton ..

theorem of_gone (h : t.Walk top pending visited gone) :
    ∀ path ∈ gone, ∃ node, node ≠ .directory ∧ t.node? path = some node := by
  intro path hpath
  obtain ⟨node, hfile, hnode, -⟩ := (h.mem_gone path).1 hpath
  exact ⟨node, hfile, hnode⟩

theorem node?_below (h : t.Walk top (dir :: pending) visited gone) {other : Path}
    (hparent : other.parent = dir) : (t.without gone).node? other = t.node? other := by
  rw [node?_without, if_neg]
  intro hgone
  obtain ⟨node, -, -, hvisited⟩ := (h.mem_gone other).1 hgone
  rw [hparent] at hvisited
  exact h.apart dir hvisited dir List.mem_cons_self (List.prefix_refl _)

theorem mem_files (h : t.Walk top (dir :: pending) visited gone) (hgrown : t.Grown)
    {listed : List String} (hlist : (t.without gone).list .file dir = .ok listed) {other : Path} :
    other ∈ listed.map Path.ofText ↔
      ∃ node, node ≠ .directory ∧ t.node? other = some node ∧ other.parent = dir := by
  rw [(hgrown.without_files h.of_gone).mem_listed hlist]
  constructor
  · rintro ⟨node, hkind, hnode, -, hparent⟩
    rw [h.node?_below hparent] at hnode
    exact ⟨node, Node.kind_eq_file.1 hkind, hnode, hparent⟩
  · rintro ⟨node, hfile, hnode, hparent⟩
    refine ⟨node, Node.kind_eq_file.2 hfile, ?_, hgrown.ne_nil_of_file hnode hfile, hparent⟩
    rw [h.node?_below hparent, hnode]

theorem covered_visit (h : t.Walk top (dir :: pending) visited gone) (hgrown : t.Grown)
    (hlisted : t.Listed dir files dirs) {path : Path} (hpath : top <+: path)
    (hnode : t.node? path = some .directory) :
    path ∈ dir :: visited ∨ ∃ first ∈ dirs ++ pending, first <+: path := by
  rcases h.covered path hpath hnode with hvisited | ⟨first, hmem, habove⟩
  · exact .inl (List.mem_cons_of_mem _ hvisited)
  rcases List.mem_cons.1 hmem with rfl | hmem
  · by_cases heq : first = path
    · exact .inl (heq ▸ List.mem_cons_self)
    obtain ⟨next, hnext, hne, hparent⟩ := Path.exists_step habove heq
    have hnextnode : t.node? next = some .directory := by
      by_cases hsame : next = path
      · rw [hsame, hnode]
      · exact hgrown.directory_above hnode hnext hsame
    have hdirs : next ∈ dirs := (hlisted.mem_dirs next).2 ⟨hne, hparent, hnextnode⟩
    exact .inr ⟨next, List.mem_append_left _ hdirs, hnext⟩
  · exact .inr ⟨first, List.mem_append_right _ hmem, habove⟩

theorem apart_visit (h : t.Walk top (dir :: pending) visited gone)
    (hlisted : t.Listed dir files dirs) {seen first : Path} (hseen : seen ∈ dir :: visited)
    (hmem : first ∈ dirs ++ pending) : ¬ first <+: seen := by
  intro habove
  rcases List.mem_append.1 hmem with hnew | hold <;> rcases List.mem_cons.1 hseen with rfl | hseen
  · have hlength := habove.length_le
    rw [hlisted.length hnew] at hlength
    omega
  · exact h.apart seen hseen dir List.mem_cons_self ((hlisted.above hnew).trans habove)
  · exact ((List.pairwise_cons.1 h.distinct).1 first hold).2 habove
  · exact h.apart seen hseen first (List.mem_cons_of_mem _ hold) habove

theorem distinct_visit (h : t.Walk top (dir :: pending) visited gone)
    (hlisted : t.Listed dir files dirs) :
    (dirs ++ pending).Pairwise fun a b => ¬ a <+: b ∧ ¬ b <+: a := by
  obtain ⟨hfirst, hrest⟩ := List.pairwise_cons.1 h.distinct
  refine List.pairwise_append.2 ⟨hlisted.apart, hrest, fun a ha b hb => ?_⟩
  refine ⟨fun hab => (hfirst b hb).1 ((hlisted.above ha).trans hab), fun hba => ?_⟩
  rcases Path.prefix_of_parent ((hlisted.mem_dirs a).1 ha).2.1 hba with rfl | hup
  · exact (hfirst b hb).1 (hlisted.above ha)
  · exact (hfirst b hb).2 hup

theorem visit (h : t.Walk top (dir :: pending) visited gone) (hgrown : t.Grown)
    (hlisted : t.Listed dir files dirs) :
    t.Walk top (dirs ++ pending) (dir :: visited) (gone ++ files) where
  mem_pending path hpath := by
    obtain ⟨htop, -⟩ := h.mem_pending dir List.mem_cons_self
    rcases List.mem_append.1 hpath with hnew | hold
    · exact ⟨htop.trans (hlisted.above hnew), ((hlisted.mem_dirs path).1 hnew).2.2⟩
    · exact h.mem_pending path (List.mem_cons_of_mem _ hold)
  mem_visited :=
    List.forall_mem_cons.2 ⟨h.mem_pending dir List.mem_cons_self, h.mem_visited⟩
  mem_gone path := by
    simp only [List.mem_append, h.mem_gone, hlisted.mem_files, List.mem_cons]
    constructor
    · rintro (⟨node, hfile, hnode, hvisited⟩ | ⟨node, hfile, hnode, hparent⟩)
      · exact ⟨node, hfile, hnode, .inr hvisited⟩
      · exact ⟨node, hfile, hnode, .inl hparent⟩
    · rintro ⟨node, hfile, hnode, hparent | hvisited⟩
      · exact .inr ⟨node, hfile, hnode, hparent⟩
      · exact .inl ⟨node, hfile, hnode, hvisited⟩
  covered _ hpath hnode := h.covered_visit hgrown hlisted hpath hnode
  apart _ hseen _ hmem := h.apart_visit hlisted hseen hmem
  order := List.pairwise_cons.2
    ⟨fun older holder => h.apart older holder dir List.mem_cons_self, h.order⟩
  distinct := h.distinct_visit hlisted

/-- There are always fewer visited directories than directories, until none is left to visit. -/
theorem length_lt (h : t.Walk top (dir :: pending) visited gone) (hgrown : t.Grown) :
    visited.length < t.directoriesWithin top := by
  have hnodup : (dir :: visited).Nodup := by
    refine List.nodup_cons.2 ⟨fun hdir => ?_, h.order.imp ?_⟩
    · exact h.apart dir hdir dir List.mem_cons_self (List.prefix_refl dir)
    · rintro seen _ hnot rfl
      exact hnot (List.prefix_refl seen)
  have hall : ∀ seen ∈ dir :: visited, top <+: seen ∧ t.node? seen = some .directory :=
    List.forall_mem_cons.2 ⟨h.mem_pending dir List.mem_cons_self, h.mem_visited⟩
  have hsub : dir :: visited ⊆
      (t.filter fun entry => entry.1.isWithin top && entry.2.isDirectory).map Prod.fst := by
    intro seen hseen
    obtain ⟨htop, hnode⟩ := hall seen hseen
    refine List.mem_map.2 ⟨(seen, .directory), List.mem_filter.2
      ⟨(Assoc.mem_iff_get? hgrown.nodup).2 hnode, ?_⟩, rfl⟩
    simp [Path.isWithin, htop, Node.isDirectory]
  have hlength := (List.subperm_of_subset hnodup hsub).length_le
  rwa [List.length_map] at hlength

/-- When a directory's turn comes there is nothing left below it. -/
theorem empty (h : t.Walk top [] visited gone) {done rest : List Path}
    (hvisited : visited = done ++ dir :: rest) {other : Path} (hne : other ≠ [])
    (hparent : other.parent = dir) : ((t.without gone).without done).node? other = none := by
  rw [without_without, node?_without]
  split
  · rfl
  rename_i hmem
  rw [List.mem_append, not_or] at hmem
  have hdir : dir ∈ visited := hvisited ▸ by simp
  cases hnode : t.node? other with
  | none => rfl
  | some node =>
    by_cases hkind : node = .directory
    · subst hkind
      have hbelow : dir <+: other := hparent ▸ other.parent_above
      have hseen : other ∈ visited :=
        (h.covered other ((h.mem_visited dir hdir).1.trans hbelow) hnode).resolve_right (by simp)
      have horder := h.order
      rw [hvisited] at horder
      obtain ⟨-, hordered, -⟩ := List.pairwise_append.1 horder
      rw [hvisited, List.mem_append, List.mem_cons] at hseen
      rcases hseen with hdone | rfl | hrest
      · exact absurd hdone hmem.2
      · have := Path.length_of_parent hne hparent
        omega
      · exact absurd hbelow ((List.pairwise_cons.1 hordered).1 other hrest)
    · exact absurd ((h.mem_gone other).2 ⟨node, hkind, hnode, hparent ▸ hdir⟩) hmem.1

theorem grown (h : t.Walk top [] visited gone) (hgrown : t.Grown) (htop : top ≠ [])
    {done rest : List Path} (hvisited : visited = done ++ rest) :
    ((t.without gone).without done).Grown := by
  refine (hgrown.without_files h.of_gone).without (fun hroot => ?_) fun other node hne hother hmem => ?_
  · obtain ⟨habove, -⟩ := h.mem_visited [] (hvisited ▸ List.mem_append_left rest hroot)
    exact htop (List.prefix_nil.1 habove)
  · obtain ⟨before, between, hdone⟩ := List.append_of_mem hmem
    have hsplit : visited = before ++ other.parent :: (between ++ rest) := by
      rw [hvisited, hdone, List.append_assoc, List.cons_append]
    have hempty := h.empty hsplit hne rfl
    rw [node?_without] at hempty
    split at hempty
    · exact hdone ▸ List.mem_append_left _ ‹_›
    · rw [hother] at hempty
      cases hempty

theorem standing (h : t.Walk top [] visited gone) {done rest : List Path}
    (hvisited : visited = done ++ dir :: rest) :
    ((t.without gone).without done).node? dir = some .directory := by
  have horder := h.order
  rw [hvisited] at horder
  obtain ⟨-, -, hnewer⟩ := List.pairwise_append.1 horder
  obtain ⟨-, hnode⟩ := h.mem_visited dir (hvisited ▸ by simp)
  rw [node?_without, if_neg fun hdone => hnewer dir hdone dir List.mem_cons_self (List.prefix_refl _)]
  exact (node?_without_files h.of_gone).2 hnode

theorem without_visited (h : t.Walk top [] visited gone) (hgrown : t.Grown)
    (htop : t.node? top = some .directory) : (t.without gone).without visited = t.prune top := by
  rw [without_without]
  refine List.filter_congr fun entry hentry => ?_
  obtain ⟨path, node⟩ := entry
  have hnode : t.node? path = some node := (Assoc.mem_iff_get? hgrown.nodup).1 hentry
  have hgoes : path ∈ gone ++ visited ↔ top <+: path := by
    rw [List.mem_append, h.mem_gone]
    constructor
    · rintro (⟨-, -, -, hparent⟩ | hvisited)
      · exact (h.mem_visited _ hparent).1.trans path.parent_above
      · exact (h.mem_visited _ hvisited).1
    · intro hbelow
      have hall {dir : Path} (hdir : top <+: dir) (hdirectory : t.node? dir = some .directory) :
          dir ∈ visited := (h.covered dir hdir hdirectory).resolve_right (by simp)
      by_cases hkind : node = .directory
      · exact .inr (hall hbelow (hkind ▸ hnode))
      · have hne : top ≠ path := by
          rintro rfl
          exact hkind (Option.some.inj (hnode.symm.trans htop))
        refine .inl ⟨node, hkind, hnode, hall (Path.prefix_parent hbelow hne) ?_⟩
        exact hgrown.above path node (hgrown.ne_nil_of_file hnode hkind) hnode
  rw [Bool.eq_iff_iff, decide_eq_true_eq, hgoes, Bool.not_eq_true', Path.isWithin,
    ← Bool.not_eq_true, List.isPrefixOf_iff_prefix]

end Walk

end Tree

end ToyUnix
