import ToyUnix.Proofs.Files.Confined
import ToyUnix.Proofs.Files.Routing
import ToyUnix.Proofs.Files.Standing

/-!
Places. A path leads to a place in some tree, or to none among the devices. Devices may lead back to
where a path began, so that several paths lead to one place. A change of trees shows at the place of
its path, and above that place where directories were missing.
-/

set_option autoImplicit false

namespace ToyUnix

def Route.place? : Route → Option (Nat × Path)
  | .tree id _ path => some (id, path)
  | .deviceList _ => none
  | .noDevice _ => none
  | .device _ rest => rest.place?
  | .view _ _ rest => rest.place?
  | .mounted _ _ _ rest => rest.place?

theorem Route.Tracks.place_suffix {shown : String} {path : Path} {route : Route}
    (h : Route.Tracks shown path route) {id : Nat} {inner : Path}
    (hplace : route.place? = some (id, inner)) : inner <:+ path := by
  induction h with
  | tree => exact (Prod.mk.inj (Option.some.inj hplace)).2 ▸ List.suffix_refl _
  | deviceList registry => cases hplace
  | noDevice hne => cases hplace
  | device name _ ih => exact (ih hplace).trans (List.suffix_cons _ _)
  | view user _ ih => exact ih hplace
  | mounted id _ ih => exact (ih hplace).trans (List.suffix_append _ _)

namespace Files

variable {s s' : Files} {fs : FileSystem} {id : Nat} {path inner : Path}

def place? (s : Files) (fs : FileSystem) (path : Path) : Option (Nat × Path) :=
  (s.follow fs path.text path).place?

theorem place?_memory (s : Files) (id : Nat) (path : Path) :
    s.place? (.memory id) path = some (id, path) := by
  simp only [place?, follow, Route.place?]

theorem place?_follow (s : Files) (fs : FileSystem) (shown : String) (path : Path) :
    (s.follow fs shown path).place? = s.place? fs path := by
  unfold place?
  induction fs generalizing shown with
  | memory id => simp only [follow, Route.place?]
  | mounts id root ih => simp only [follow_mounts]
  | devices handle registry => cases path <;> simp only [follow]
  | view handle target user ih =>
    simp only [follow, Route.place?]
    exact (ih shown).trans (ih path.text).symm

theorem place?_route (s : Files) (fs : FileSystem) (text : String) :
    (s.route fs text).place? = s.place? fs (Path.ofText text) :=
  place?_follow s fs text _

theorem place?_view (s : Files) (handle : Nat) (user : User) (path : Path) :
    s.place? (.view handle fs user) path = s.place? fs path := by
  simp only [place?, follow, Route.place?]

theorem place?_mounts (s : Files) (t : Nat) (root : FileSystem) (path : Path) :
    s.place? (.mounts t root) path = s.place? (s.owner t root path).fs
      (path.drop (s.owner t root path).point.length) := by
  rw [place?, follow_mounts, Route.place?, place?_follow]

theorem place?_device {registry : Nat} {name : String} (handle : Nat) (rest : Path)
    (h : s.lookup? registry name = some fs) :
    s.place? (.devices handle registry) (name :: rest) = s.place? fs rest := by
  simp only [place?, follow, h, Route.place?]

theorem Standing.place? (h : Standing s s') (fs : FileSystem) (path : Path) :
    s'.place? fs path = s.place? fs path := by
  rw [Files.place?, Files.place?, h.follow]

theorem canonical_place (hpath : path.Canonical) (h : s.place? fs path = some (id, inner)) :
    inner.Canonical := by
  obtain ⟨above, rfl⟩ := (tracks_follow s fs path.text path).place_suffix h
  exact fun segment hsegment => hpath segment (List.mem_append_right _ hsegment)

theorem owner_between {t : Nat} {root : FileSystem} {upper : Path} (h : Pointed (s.mounts t))
    (hpoint : (s.owner t root path).point <+: upper) (hupper : upper <+: path) :
    s.owner t root upper = s.owner t root path := by
  rcases s.owner_mem t root path with hroot | hmem
  · rw [hroot]
    refine (s.owner_mem t root upper).resolve_right fun hmem => ?_
    exact not_above_of_owner h hroot hmem ((s.owner_above t root upper).trans hupper)
  · exact owner_eq h hmem hpoint
      (fun other hother habove => length_le_owner hother (habove.trans hupper) root) root

/-- Below the point of the mount that owns a path, what leads above the path there is owned by it too. -/
theorem place_above_owned {t : Nat} {root : FileSystem} {above rest : Path} {mount : Mount}
    (h : Pointed (s.mounts t)) (howner : s.owner t root path = mount)
    (hpath : mount.point ++ rest = path) (hrest : rest = above ++ inner)
    (habove : ∀ upper, upper <+: inner → s.place? mount.fs (above ++ upper) = some (id, upper))
    {upper : Path} (hupper : upper <+: inner) :
    s.place? (.mounts t root) (mount.point ++ above ++ upper) = some (id, upper) := by
  have hbetween : s.owner t root (mount.point ++ (above ++ upper)) = mount := by
    refine (owner_between h ?_ ?_).trans howner
    · exact howner ▸ List.prefix_append _ _
    · rw [← hpath, List.prefix_append_right_inj, hrest, List.prefix_append_right_inj]
      exact hupper
  rw [List.append_assoc, place?_mounts, hbetween, List.drop_left]
  exact habove upper hupper

/-- By induction on the way: up from the place to the root of its tree, each path leads to the part of
the tree that is left of it. -/
theorem place_above (h : ∀ t, Pointed (s.mounts t)) (hplace : s.place? fs path = some (id, inner)) :
    ∃ above, path = above ++ inner ∧
      ∀ upper, upper <+: inner → s.place? fs (above ++ upper) = some (id, upper) := by
  rw [← place?_follow s fs ""] at hplace
  generalize "" = shown at hplace
  fun_induction Files.follow s fs shown path with
  | case1 shown path other =>
    cases hplace
    exact ⟨[], rfl, fun upper _ => by rw [place?, follow]; rfl⟩
  | case2 shown path handle target user ih =>
    obtain ⟨above, hpath, habove⟩ := ih hplace
    exact ⟨above, hpath, fun upper hupper => (place?_view ..).trans (habove upper hupper)⟩
  | case3 shown path t root mount hfound rest ih =>
    obtain ⟨above, hrest, habove⟩ := ih hplace
    have howner : s.owner t root path = mount := by rw [owner, hfound, Option.getD_some]
    have hpath : mount.point ++ rest = path :=
      List.prefix_iff_eq_append.1 (Mount.covers_iff.1 (innermost?_mem hfound).2).2
    refine ⟨mount.point ++ above, by rw [List.append_assoc, ← hrest, hpath], fun upper hupper => ?_⟩
    exact place_above_owned (h t) howner hpath hrest habove hupper
  | case4 shown path t root hnone ih =>
    obtain ⟨above, hpath, habove⟩ := ih hplace
    have howner : s.owner t root path = ⟨[], root⟩ := by rw [owner, hnone, Option.getD_none]
    exact ⟨above, hpath, fun upper hupper => place_above_owned (h t) howner rfl hpath habove hupper⟩
  | case5 => cases hplace
  | case6 shown handle registry name rest target hlookup ih =>
    obtain ⟨above, hrest, habove⟩ := ih hplace
    refine ⟨name :: above, by rw [hrest, List.cons_append], fun upper hupper => ?_⟩
    rw [List.cons_append, place?_device handle _ hlookup]
    exact habove upper hupper
  | case7 => cases hplace

/-! What a change does. -/

/-- What is left of files after a change along a route that leads to that place. -/
inductive Effect (s : Files) (c : Change) (place : Option (Nat × Path)) : Files → Prop
  | nothing : Effect s c place s
  | tree {id : Nat} {shown : String} {path : Path} {tree : Tree} : place = some (id, path) →
      (s.tree id).change shown path c = .ok tree → Effect s c place (s.setTree id tree)
  | mounts (id : Nat) (mounts : List Mount) : (Request.change c).mounts = true →
      Effect s c place (s.setMounts id mounts)

theorem effect_change (s : Files) (c : Change) (route : Route) :
    s.Effect c route.place? (s.change c route).2 := by
  induction route with
  | tree id shown path =>
    simp only [Files.change]
    split
    · rename_i tree htree
      exact .tree rfl htree
    · exact .nothing
  | deviceList registry => exact .nothing
  | noDevice path => exact .nothing
  | device name rest ih => exact ih
  | view user path rest ih =>
    simp only [Files.change]
    split
    · exact ih
    · exact .nothing
  | mounted id path point rest ih =>
    generalize houtcome : s.change c (.mounted id path point rest) = outcome
    have hhandles := s.handles_change id path point rest c
    rw [houtcome] at hhandles
    cases hhandles with
    | refuse => exact .nothing
    | relay => exact ih
    | attach fs hbelow hfree => exact .mounts id _ rfl
    | detach => exact .mounts id _ rfl

theorem effect_apply (s : Files) (fs : FileSystem) (text : String) (c : Change) :
    s.Effect c (s.place? fs (Path.ofText text)) (s.apply fs text c).2 :=
  place?_route s fs text ▸ effect_change s c _

theorem setTree_of_le (h : s.trees.length ≤ id) (tree : Tree) : s.setTree id tree = s := by
  rw [setTree, List.set_eq_of_length_le h]

theorem tree_of_le (h : s.trees.length ≤ id) : s.tree id = [] := by
  rw [tree, List.getElem?_eq_none h]
  rfl

/-- Every tree is as it grew from a fresh one. -/
def Wooded (s : Files) : Prop := ∀ tree ∈ s.trees, tree.Grown

theorem Wooded.tree (h : s.Wooded) (hid : id < s.trees.length) : (s.tree id).Grown := by
  rw [Files.tree, List.getElem?_eq_getElem hid]
  exact h _ (List.getElem_mem hid)

theorem Wooded.of_node (h : s.Wooded) {node : Node} (hnode : (s.tree id).node? path = some node) :
    (s.tree id).Grown := by
  refine h.tree (Nat.lt_of_not_le fun hle => ?_)
  rw [tree_of_le hle] at hnode
  cases hnode

variable {c : Change} {place : Option (Nat × Path)}

theorem Effect.writers (h : s.Effect c place s') : s'.writers = s.writers := by
  cases h <;> rfl

theorem Effect.wooded (h : s.Effect c place s') (hwooded : s.Wooded)
    (hplace : ∀ id path, place = some (id, path) → path.Canonical) : s'.Wooded := by
  cases h with
  | nothing => exact hwooded
  | @tree id shown path after hat hchange =>
    by_cases hid : id < s.trees.length
    · intro tree hmem
      rcases List.mem_or_eq_of_mem_set hmem with hmem | rfl
      · exact hwooded tree hmem
      · exact (hwooded.tree hid).change (hplace id path hat) hchange
    · rwa [setTree_of_le (Nat.le_of_not_lt hid)]
  | mounts => exact hwooded

theorem Effect.standing (h : s.Effect c place s') (hmounts : (Request.change c).mounts = false) :
    s.Standing s' := by
  cases h with
  | nothing => exact .refl s
  | tree => exact ⟨rfl, rfl⟩
  | mounts id mounts hthere => exact absurd (hthere.symm.trans hmounts) (by decide)

/-- Nothing becomes different anywhere but at the place itself, and where there was nothing above it. -/
theorem Effect.node (h : s.Effect c (some (id, path)) s') (hwooded : s.Wooded)
    (hpath : path.Canonical) {other : Nat} {at_ : Path} (hne : (other, at_) ≠ (id, path)) :
    (s'.tree other).node? at_ = (s.tree other).node? at_ ∨
      other = id ∧ at_ <+: path ∧ (s.tree id).Grown ∧ (s.tree id).node? at_ = none := by
  cases h with
  | nothing => exact .inl rfl
  | @tree _ shown _ after hat hchange =>
    cases hat
    by_cases hid : id < s.trees.length
    · have hgrown := hwooded.tree hid
      rw [tree_setTree hid]
      split
      case isFalse => exact .inl rfl
      case isTrue heq =>
        subst heq
        rcases hgrown.change_node hpath hchange
            (fun heq : at_ = path => hne (by rw [heq])) with hsame | hnew
        · exact .inl hsame
        · exact .inr ⟨rfl, hnew.1, hgrown, hnew.2.1⟩
    · rw [setTree_of_le (Nat.le_of_not_lt hid)]
      exact .inl rfl
  | mounts => exact .inl rfl

theorem Effect.directory (h : s.Effect c place s') (hwooded : s.Wooded)
    (hplace : ∀ id path, place = some (id, path) → path.Canonical) (hc : c ≠ .deleteDirectory)
    (hnode : (s.tree id).node? path = some .directory) :
    (s'.tree id).node? path = some .directory := by
  cases h with
  | nothing => exact hnode
  | @tree other shown at_ after hat hchange =>
    by_cases hid : other < s.trees.length
    · rw [tree_setTree hid]
      split
      case isFalse => exact hnode
      case isTrue heq =>
        subst heq
        refine ((hwooded.tree hid).change_directory (hplace _ _ hat) hchange hnode).resolve_right ?_
        exact fun hdeletes => hc hdeletes.1
    · rwa [setTree_of_le (Nat.le_of_not_lt hid)]
  | mounts => exact hnode

/-! What is read at a place. -/

theorem answers_place {route : Route} (h : ∀ id path, route.place? = some (id, path) →
      (s'.tree id).node? path = (s.tree id).node? path) (question : Question) :
    s'.answers question route = s.answers question route := by
  induction route with
  | tree id shown path => simp only [answers, Tree.answers, h id path rfl]
  | deviceList registry => rfl
  | noDevice path => rfl
  | device name rest ih => exact ih h
  | view user path rest ih => rw [answers, answers, ih h]
  | mounted id path point rest ih => rw [answers, answers, ih h]

theorem read_place {route : Route} (h : ∀ id path, route.place? = some (id, path) →
      (s'.tree id).node? path = (s.tree id).node? path) : s'.read route = s.read route := by
  induction route with
  | tree id shown path => simp only [Files.read, Tree.read, h id path rfl]
  | deviceList registry => rfl
  | noDevice path => rfl
  | device name rest ih => rw [Files.read, Files.read, ih h]
  | view user path rest ih => exact ih h
  | mounted id path point rest ih => rw [Files.read, Files.read, ih h]

theorem alike_of_place (hstanding : s.Standing s') {text : String}
    (h : ∀ id path, s.place? fs (Path.ofText text) = some (id, path) →
      (s'.tree id).node? path = (s.tree id).node? path) : Alike s s' fs text := by
  rw [← place?_route s fs text] at h
  constructor <;> simp only [isDirectory, isFile, isExecutable, contents, hstanding.route]
  · exact answers_place h _
  · exact answers_place h _
  · exact answers_place h _
  · exact read_place h

end Files

end ToyUnix
