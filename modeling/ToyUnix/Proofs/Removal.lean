import ToyUnix.Proofs.Files.Editing
import ToyUnix.Proofs.Files.Pruning
import ToyUnix.Proofs.Shell.Calls
import ToyUnix.Utility.Change

/-!
Removing a whole tree. `removeTree` goes through the directories by a list of those that it has still
to visit, and nobody else being about it takes away the directory and what is below it, and nothing
else: see `removeTree_prunes`.
-/

set_option autoImplicit false

namespace ToyUnix

def World.withTree (w : World) (m : Nat) (t : Tree) : World :=
  { w with files := w.files.setTree m t }

namespace World

variable {w : World} {m : Nat}

theorem withTree_tree (w : World) (m : Nat) : w.withTree m (w.files.tree m) = w := by
  rw [withTree, Files.setTree_tree]

@[simp] theorem trees_withTree (w : World) (m : Nat) (t : Tree) :
    (w.withTree m t).files.trees.length = w.files.trees.length :=
  List.length_set

theorem tree_withTree (hm : m < w.files.trees.length) (t : Tree) :
    (w.withTree m t).files.tree m = t := by
  rw [withTree, Files.tree_setTree hm, if_pos rfl]

@[simp] theorem withTree_withTree (w : World) (m : Nat) (t t' : Tree) :
    (w.withTree m t).withTree m t' = w.withTree m t' := by
  simp [withTree, Files.setTree]

end World

theorem Job.ask_bind {α β : Type} {ask : World → Except Fault α} {w : World} {a : α}
    (h : ask w = .ok a) (f : α → Job β) : (Job.step (fun w => (ask w, w)) >>= f) w = f a w :=
  Job.step_bind (u := fun w => (ask w, w)) (Prod.ext h rfl) f

namespace Utility

variable {w : World} {m handle limit : Nat} {user : User} {t : Tree} {c : Change}

theorem finish_deleteEach_cons (fs : FileSystem) (c : Change) (path : String) (paths : List String)
    (w : World) :
    (deleteEach fs c (path :: paths) w).finish =
      match w.files.apply fs path c with
      | (.ok (), files) => (deleteEach fs c paths { w with files }).finish
      | (.error fault, files) => some ({ w with files }, .error fault) := by
  have hchange : (change fs path c w).finish =
      some ({ w with files := (w.files.apply fs path c).2 }, (w.files.apply fs path c).1) := rfl
  rw [deleteEach, Job.finish_bind, hchange, Option.bind_some]
  rcases w.files.apply fs path c with ⟨_ | ⟨⟩, files⟩ <;> rfl

theorem apply_tree {text : String} (hwrite : user.canWrite (Path.ofText text) = true)
    (h : (w.files.tree m).change text (Path.ofText text) c = .ok t) :
    w.files.apply (.view handle (.memory m) user) text c = (.ok (), (w.withTree m t).files) := by
  rw [Files.apply_view, if_pos hwrite, Files.apply, Files.route_memory]
  simp only [Files.change, h]
  rfl

theorem finish_deleteEach (hm : m < w.files.trees.length) (htree : w.files.tree m = t)
    {texts : List String} (hstep : ∀ done text rest, texts = done ++ text :: rest →
      user.canWrite (Path.ofText text) = true ∧
      (t.without (done.map Path.ofText)).change text (Path.ofText text) c =
        .ok ((t.without (done.map Path.ofText)).remove (Path.ofText text))) :
    (deleteEach (.view handle (.memory m) user) c texts w).finish =
      some (w.withTree m (t.without (texts.map Path.ofText)), .ok ()) := by
  induction texts generalizing w t with
  | nil =>
    rw [List.map_nil, Tree.without_nil, ← htree, World.withTree_tree]
    rfl
  | cons text texts ih =>
    subst htree
    obtain ⟨hwrite, hchange⟩ := hstep [] text texts rfl
    rw [List.map_nil, Tree.without_nil, Tree.remove_eq_without] at hchange
    have hrest := ih (w := w.withTree m ((w.files.tree m).without [Path.ofText text]))
      ((World.trees_withTree ..).symm ▸ hm) (World.tree_withTree hm _) fun done next rest hsplit => by
        have hnext := hstep (text :: done) next rest (by rw [hsplit, List.cons_append])
        rwa [List.map_cons, ← List.singleton_append, ← Tree.without_without] at hnext
    rw [World.withTree_withTree, Tree.without_without] at hrest
    rw [finish_deleteEach_cons, apply_tree hwrite hchange]
    exact hrest

theorem list_view (s : Files) (text : String) (kind : EntryKind) :
    s.list kind (s.route (.view handle (.memory m) user) text) =
      (s.tree m).list kind (Path.ofText text) := by
  rw [Files.route, Files.follow, Files.list]
  exact Files.list_memory s m text kind

theorem finish_deleteFiles (hm : m < w.files.trees.length) (hgrown : (w.files.tree m).Grown)
    {dir : Path} (hwrite : user.canWrite dir = true) {files : List String}
    (hlist : (w.files.tree m).list .file dir = .ok files) :
    (deleteEach (.view handle (.memory m) user) .deleteFile files w).finish =
      some (w.withTree m ((w.files.tree m).without (files.map Path.ofText)), .ok ()) := by
  refine finish_deleteEach hm rfl fun done text rest hsplit => ?_
  have hmem : Path.ofText text ∈ files.map Path.ofText :=
    List.mem_map_of_mem (hsplit ▸ by simp)
  obtain ⟨node, hkind, hnode, -, hparent⟩ := (hgrown.mem_listed hlist).1 hmem
  have hfresh : Path.ofText text ∉ done.map Path.ofText := by
    have hnodup := hgrown.nodup_listed hlist
    rw [hsplit, List.map_append, List.map_cons, List.nodup_append] at hnodup
    exact fun hdone => hnodup.2.2 _ hdone _ List.mem_cons_self rfl
  have hleft : ((w.files.tree m).without (done.map Path.ofText)).node? (Path.ofText text) =
      some node := by
    rw [Tree.node?_without, if_neg hfresh, hnode]
  refine ⟨user.canWrite_below (Path.canonical_ofText text) ?_ hwrite,
    Tree.deleteFile_of_node hleft ?_⟩
  · rw [← hparent]
    exact Path.parent_above _
  · rintro rfl
    cases hkind

theorem finish_removeFiles_cons (hm : m < w.files.trees.length) (hgrown : (w.files.tree m).Grown)
    {dir : String} (hwrite : user.canWrite (Path.ofText dir) = true) {files dirs : List String}
    (hfiles : (w.files.tree m).list .file (Path.ofText dir) = .ok files)
    (hdirs : ((w.files.tree m).without (files.map Path.ofText)).list .directory (Path.ofText dir) =
      .ok dirs) (pending visited : List String) :
    (removeFiles (.view handle (.memory m) user) (limit + 1) (dir :: pending) visited w).finish =
      (removeFiles (.view handle (.memory m) user) limit (dirs.reverse ++ pending) (dir :: visited)
        (w.withTree m ((w.files.tree m).without (files.map Path.ofText)))).finish := by
  have hbefore : w.files.files (.view handle (.memory m) user) dir = .ok files := by
    rw [Files.files, list_view, hfiles]
  have hafter : (w.withTree m ((w.files.tree m).without (files.map Path.ofText))).files.directories
      (.view handle (.memory m) user) dir = .ok dirs := by
    rw [Files.directories, list_view, World.tree_withTree hm, hdirs]
  rw [removeFiles, Job.ask_bind hbefore, Job.finish_bind, finish_deleteFiles hm hgrown hwrite hfiles]
  exact congrArg Course.finish (Job.ask_bind hafter _)

theorem finish_visit (handle limit : Nat) {top : Path} (hgrown : t.Grown)
    (hwrite : user.canWrite top = true) {dir : String} {pending visited : List String}
    {gone : List Path} (hm : m < w.files.trees.length) (htree : w.files.tree m = t.without gone)
    (hwalk : t.Walk top ((dir :: pending).map Path.ofText) (visited.map Path.ofText) gone) :
    ∃ dirs gone',
      t.Walk top ((dirs ++ pending).map Path.ofText) ((dir :: visited).map Path.ofText) gone' ∧
      (removeFiles (.view handle (.memory m) user) (limit + 1) (dir :: pending) visited w).finish =
        (removeFiles (.view handle (.memory m) user) limit (dirs ++ pending) (dir :: visited)
          (w.withTree m (t.without gone'))).finish := by
  obtain ⟨htop, hdir⟩ := hwalk.mem_pending (Path.ofText dir) List.mem_cons_self
  obtain ⟨files, hfiles⟩ :=
    Tree.exists_list ((Tree.node?_without_files hwalk.of_gone).2 hdir) .file
  have hgone : ∀ path ∈ gone ++ files.map Path.ofText,
      ∃ node, node ≠ .directory ∧ t.node? path = some node := by
    intro path hpath
    rcases List.mem_append.1 hpath with hold | hnew
    · exact hwalk.of_gone path hold
    · obtain ⟨node, hfile, hnode, -⟩ := (hwalk.mem_files hgrown hfiles).1 hnew
      exact ⟨node, hfile, hnode⟩
  obtain ⟨dirs, hdirs⟩ := Tree.exists_list ((Tree.node?_without_files hgone).2 hdir) .directory
  have hlisted : t.Listed (Path.ofText dir) (files.map Path.ofText)
      (dirs.map Path.ofText).reverse :=
    { mem_files := fun _ => hwalk.mem_files hgrown hfiles
      mem_dirs := fun _ => List.mem_reverse.trans (hgrown.mem_subdirectories hgone hdirs)
      nodup := List.nodup_reverse.2 ((hgrown.without_files hgone).nodup_listed hdirs) }
  have hnext := hwalk.visit hgrown hlisted
  rw [← List.map_reverse, ← List.map_append, ← List.map_cons] at hnext
  refine ⟨dirs.reverse, _, hnext, ?_⟩
  have hnow : (w.files.tree m).Grown := htree ▸ hgrown.without_files hwalk.of_gone
  have hcan := user.canWrite_below (Path.canonical_ofText dir) htop hwrite
  rw [← Tree.without_without, ← htree] at hdirs ⊢
  exact finish_removeFiles_cons hm hnow hcan (htree ▸ hfiles) hdirs pending visited

/-- The walk comes to its end when it may take as many steps as there are directories. -/
theorem finish_removeFiles (handle : Nat) {top : Path} (hgrown : t.Grown)
    (hwrite : user.canWrite top = true) {pending visited : List String} {gone : List Path}
    (hm : m < w.files.trees.length) (htree : w.files.tree m = t.without gone)
    (hwalk : t.Walk top (pending.map Path.ofText) (visited.map Path.ofText) gone)
    (hlimit : t.directoriesWithin top ≤ limit + visited.length) :
    ∃ visited' gone', t.Walk top [] (visited'.map Path.ofText) gone' ∧
      (removeFiles (.view handle (.memory m) user) limit pending visited w).finish =
        some (w.withTree m (t.without gone'), .ok visited') := by
  induction limit generalizing w pending visited gone with
  | zero =>
    cases pending with
    | nil =>
      refine ⟨visited, gone, hwalk, ?_⟩
      rw [← htree, World.withTree_tree]
      rfl
    | cons dir pending =>
      have hlength := hwalk.length_lt hgrown
      rw [List.length_map] at hlength
      omega
  | succ limit ih =>
    cases pending with
    | nil =>
      refine ⟨visited, gone, hwalk, ?_⟩
      rw [← htree, World.withTree_tree]
      rfl
    | cons dir pending =>
      obtain ⟨found, gone', hwalk', hvisit⟩ :=
        finish_visit handle limit hgrown hwrite hm htree hwalk
      obtain ⟨visited', last, hend, hfinish⟩ := ih
        ((World.trees_withTree ..).symm ▸ hm) (World.tree_withTree hm _) hwalk'
        (by rw [List.length_cons]; omega)
      rw [World.withTree_withTree] at hfinish
      exact ⟨visited', last, hend, hvisit.trans hfinish⟩

theorem finish_removeTree {dir : String} (hm : m < w.files.trees.length)
    (hgrown : (w.files.tree m).Grown) (hroot : Path.ofText dir ≠ [])
    (hdir : (w.files.tree m).node? (Path.ofText dir) = some .directory)
    (hwrite : user.canWrite (Path.ofText dir) = true)
    (hlimit : (w.files.tree m).directoriesWithin (Path.ofText dir) ≤ limit) :
    (removeTree limit (.view handle (.memory m) user) dir w).finish =
      some (w.withTree m ((w.files.tree m).prune (Path.ofText dir)), .ok ()) := by
  have hstart : (w.files.tree m).Walk (Path.ofText dir) ([dir].map Path.ofText)
      (([] : List String).map Path.ofText) [] := .start hdir
  obtain ⟨visited, gone, hwalk, hfinish⟩ := finish_removeFiles handle hgrown hwrite hm
    (Tree.without_nil _).symm hstart hlimit
  suffices hdelete : (deleteEach (.view handle (.memory m) user) .deleteDirectory visited
      (w.withTree m ((w.files.tree m).without gone))).finish =
      some ((w.withTree m ((w.files.tree m).without gone)).withTree m
        (((w.files.tree m).without gone).without (visited.map Path.ofText)), .ok ()) by
    rw [World.withTree_withTree, hwalk.without_visited hgrown hdir] at hdelete
    rw [removeTree, Job.finish_bind, hfinish]
    exact hdelete
  refine finish_deleteEach ((World.trees_withTree ..).symm ▸ hm) (World.tree_withTree hm _) ?_
  intro done text rest hsplit
  have hsplit' : visited.map Path.ofText =
      done.map Path.ofText ++ Path.ofText text :: rest.map Path.ofText := by
    rw [hsplit, List.map_append, List.map_cons]
  obtain ⟨htop, -⟩ := hwalk.mem_visited (Path.ofText text) (hsplit' ▸ by simp)
  have hne : Path.ofText text ≠ [] := fun hnil => hroot (List.prefix_nil.1 (hnil ▸ htop))
  exact ⟨user.canWrite_below (Path.canonical_ofText text) htop hwrite,
    (hwalk.grown hgrown hroot hsplit').deleteDirectory_of_empty hne (hwalk.standing hsplit')
      fun other hother hparent => hwalk.empty hsplit' hother hparent⟩

/-- Removing a directory that its user may change succeeds, and then the nodes at and below it are
gone and all others are as they were. It needs no more steps than there are directories to remove.
Whatever is done to a memory file system leaves it `Grown`: see `Files.grown_raised`. -/
theorem removeTree_prunes (handle : Nat) {dir : String} (hm : m < w.files.trees.length)
    (hgrown : (w.files.tree m).Grown) (hroot : Path.ofText dir ≠ [])
    (hdir : (w.files.tree m).node? (Path.ofText dir) = some .directory)
    (hwrite : user.canWrite (Path.ofText dir) = true)
    (hlimit : (w.files.tree m).directoriesWithin (Path.ofText dir) ≤ limit) :
    ∃ pruned, (removeTree limit (.view handle (.memory m) user) dir w).finish =
        some (w.withTree m pruned, .ok ()) ∧
      ∀ path, pruned.node? path =
        if Path.ofText dir <+: path then none else (w.files.tree m).node? path :=
  ⟨_, finish_removeTree hm hgrown hroot hdir hwrite hlimit,
    Tree.node?_prune (w.files.tree m) (Path.ofText dir)⟩

def nested : List (String × Change) :=
  [("/a/b/c", .makeDirectory), ("/a/x", .write []), ("/a/b/y", .write [1]), ("/ab", .write [])]

def nester : User := ⟨1000, "kim", .standard, 0, "/a"⟩

/-- All that is in `/a` goes, and what only begins like it stays. -/
theorem removeTree_nested :
    ∃ pruned, (removeTree 3 (.view 0 (.memory 0) nester) "/a"
        { files := Files.raised {} nested }).finish =
        some (World.withTree { files := Files.raised {} nested } 0 pruned, .ok ()) ∧
      pruned.node? ["a", "b", "y"] = none ∧ pruned.node? ["ab"] = some (.file [] false) := by
  obtain ⟨hm, hgrown⟩ := Files.grown_raised {} nested
  have hdir : ((Files.raised {} nested).tree 0).node? (Path.ofText "/a") = some .directory := by cbv
  have hlimit : ((Files.raised {} nested).tree 0).directoriesWithin (Path.ofText "/a") ≤ 3 := by cbv
  have hwrite : nester.canWrite (Path.ofText "/a") = true := by decide
  obtain ⟨pruned, hrun, hnode⟩ := removeTree_prunes (w := { files := Files.raised {} nested }) 0
    hm hgrown (by decide) hdir hwrite hlimit
  refine ⟨pruned, hrun, hnode _, (hnode _).trans ?_⟩
  cbv

end Utility

end ToyUnix
