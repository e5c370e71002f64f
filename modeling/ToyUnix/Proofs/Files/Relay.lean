import ToyUnix.Proofs.Files.Faults
import ToyUnix.Proofs.Files.Routing

/-!
Requests that go on to another namespace, through a devices file system that a table has mounted.
What comes back has been placed twice, under the device and under the mount, and sorted again, which
together is to place it once under the path of the device (`serve_relay`). What a request changes is
something that the other namespace holds.
-/

set_option autoImplicit false

namespace ToyUnix

/-! Placing twice. -/

theorem PathText.rebase_rebase {outer inner : String} (houter : outer ≠ "/")
    (hinner : 1 < inner.length) (text : String) :
    rebase outer (rebase inner text) = rebase (outer ++ inner) text := by
  have hne : inner ≠ "/" := by
    rintro rfl
    exact absurd hinner (by decide)
  rw [rebase_assoc, rebase_eq_append houter hne]

theorem rebaseReply_rebaseReply {outer inner : String} (houter : outer ≠ "/")
    (hinner : 1 < inner.length) (reply : Except Fault Reply) :
    rebaseReply outer (rebaseReply inner reply) = rebaseReply (outer ++ inner) reply := by
  have hplace := PathText.rebase_rebase houter hinner
  cases reply with
  | error fault =>
    refine congrArg Except.error ?_
    cases fault with
    | path cause place => exact congrArg (Fault.path cause) (hplace place)
    | _ => rfl
  | ok reply =>
    refine congrArg Except.ok ?_
    cases reply with
    | paths listed =>
      refine congrArg Reply.paths ?_
      simp only [rebaseAll, List.map_map]
      exact List.map_congr_left fun text _ => hplace text
    | _ => rfl

theorem length_devicePoint {name : String} (h : Path.IsName name) :
    1 < (devicePoint name).length := by
  have hne : name.toList ≠ [] := by
    intro hnil
    have hsegment := h.1
    rw [hnil] at hsegment
    cases hsegment
  have hpos := List.length_pos_iff.2 hne
  rw [String.length_toList] at hpos
  rw [devicePoint, String.length_append]
  exact Nat.lt_add_of_pos_right hpos

theorem text_devicePoint {point : Path} (h : point ≠ []) (name : String) :
    point.text ++ devicePoint name = Path.text (point ++ [name]) := by
  rw [Files.devicePoint_eq, Path.text_append h]
  rfl

/-! Order. Whatever is listed has a slash in front, so to place it keeps it in order. -/

def Slashed (text : String) : Prop := ∃ rest, text.toList = '/' :: rest

theorem slashed_text (path : Path) : Slashed path.text := by
  cases path with
  | nil => exact ⟨[], rfl⟩
  | cons segment rest => exact ⟨_, by rw [Path.toList_text (by simp)]; rfl⟩

theorem Slashed.rebase {point text : String} (hpoint : Slashed point) (htext : Slashed text) :
    Slashed (PathText.rebase point text) := by
  unfold PathText.rebase
  split
  · exact htext
  · split
    · exact hpoint
    · obtain ⟨rest, hrest⟩ := hpoint
      exact ⟨rest ++ text.toList, by rw [String.toList_append, hrest]; rfl⟩

theorem append_le_append {a b : String} (h : a ≤ b) (before : String) :
    before ++ a ≤ before ++ b := by
  rcases h.eq_or_lt with rfl | hlt
  · exact le_refl _
  · refine le_of_lt (String.lt_iff_toList_lt.2 ?_)
    rw [String.toList_append, String.toList_append]
    exact List.append_left_lt (String.lt_iff_toList_lt.1 hlt)

theorem le_append (before after : String) : before ≤ before ++ after := by
  have hempty : "" ≤ after := not_lt.1 fun hlt => List.not_lt_nil _ (String.lt_iff_toList_lt.1 hlt)
  simpa using append_le_append hempty before

theorem Slashed.root_le {text : String} (h : Slashed text) : "/" ≤ text := by
  obtain ⟨rest, hrest⟩ := h
  have htext : text = "/" ++ String.ofList rest := String.toList_inj.1 (by simp [hrest])
  rw [htext]
  exact le_append "/" _

theorem Slashed.rebase_le {a b : String} (ha : Slashed a) (hle : a ≤ b) (point : String) :
    PathText.rebase point a ≤ PathText.rebase point b := by
  unfold PathText.rebase
  split
  · exact hle
  · split
    · split
      · exact le_refl _
      · exact le_append point b
    · rename_i hroot
      split
      · rename_i hb
        exact absurd (le_antisymm (hb ▸ hle) ha.root_le) hroot
      · exact append_le_append hle point

namespace Files

variable {s : Files} {id : Nat} {root fs : FileSystem} {path point : Path} {rest route : Route}
  {kind : EntryKind} {listed : List String} {name : String} {registry : Nat}

theorem slashed_rebaseAll {place : String} (hplace : Slashed place)
    (h : ∀ text ∈ listed, Slashed text) : ∀ text ∈ rebaseAll place listed, Slashed text := by
  intro text htext
  obtain ⟨inner, hinner, rfl⟩ := List.mem_map.1 htext
  exact hplace.rebase (h inner hinner)

theorem list_behind {place : String} {result : Except Fault (List String)}
    (h : rebaseFault place (result.map (rebaseAll place)) = .ok listed) :
    ∃ inside, result = .ok inside ∧ listed = rebaseAll place inside := by
  cases result with
  | error fault => cases h
  | ok inside => cases h; exact ⟨inside, rfl, rfl⟩

theorem slashed_list (h : s.list kind route = .ok listed) : ∀ text ∈ listed, Slashed text := by
  induction route generalizing listed with
  | tree id shown path =>
    have hdirectory := Tree.list_directory h
    simp only [Files.list, Tree.list, hdirectory, Except.ok.injEq] at h
    intro text htext
    rw [← h] at htext
    obtain ⟨entry, -, rfl⟩ := List.mem_map.1 htext
    exact slashed_text entry.1
  | deviceList registry =>
    cases kind with
    | file => cases h; simp
    | directory =>
      cases h
      intro text htext
      obtain ⟨name, -, rfl⟩ := List.mem_map.1 htext
      rw [devicePoint_eq]
      exact slashed_text [name]
  | noDevice path => cases h
  | device name rest ih =>
    obtain ⟨inside, hinside, rfl⟩ := list_behind h
    rw [devicePoint_eq]
    exact slashed_rebaseAll (slashed_text [name]) (ih hinside)
  | view user path rest ih => exact ih h
  | mounted id path point rest ih =>
    simp only [Files.list] at h
    cases hbehind : rebaseFault point.text ((s.list kind rest).map (rebaseAll point.text)) with
    | error fault => rw [hbehind] at h; cases h
    | ok behind =>
      rw [hbehind] at h
      obtain ⟨inside, hinside, rfl⟩ := list_behind hbehind
      have hslashed := slashed_rebaseAll (slashed_text point) (ih hinside)
      cases kind with
      | file => cases h; exact hslashed
      | directory =>
        cases h
        intro text htext
        rcases mem_newPoints.1 (mem_sortTexts.1 htext) with hmem | ⟨mount, -, -, -, rfl⟩
        · exact hslashed text hmem
        · exact slashed_text mount.point

/-! A table with nothing more mounted from `path` on adds to a request only the place of its mount.
-/

theorem newPoints_free (hfree : ∀ mount ∈ s.mounts id, ¬ path <+: mount.point)
    (listed : List String) : s.newPoints id path listed = [] := by
  unfold newPoints
  rw [List.filter_eq_nil_iff.2]
  · rfl
  · intro mount hmount hparent
    rw [decide_eq_true_eq] at hparent
    exact hfree mount hmount (hparent.2 ▸ Path.parent_above mount.point)

theorem list_mounted (hfree : ∀ mount ∈ s.mounts id, ¬ path <+: mount.point)
    (hsorted : ∀ listed, s.list .directory rest = .ok listed →
      (rebaseAll point.text listed).Pairwise (· ≤ ·)) (kind : EntryKind) :
    s.list kind (.mounted id path point rest) =
      rebaseFault point.text ((s.list kind rest).map (rebaseAll point.text)) := by
  simp only [Files.list]
  cases hinside : s.list kind rest with
  | error fault => rfl
  | ok inside =>
    cases kind with
    | file => rfl
    | directory =>
      refine congrArg Except.ok ?_
      simp only [newPoints_free hfree, List.append_nil]
      exact sortTexts_eq (.refl _) (hsorted inside hinside)

theorem serveAlong_mounted {request : Request}
    (hfree : ∀ mount ∈ s.mounts id, ¬ path <+: mount.point) (hbelow : path ≠ point)
    (hsorted : ∀ listed, s.list .directory rest = .ok listed →
      (rebaseAll point.text listed).Pairwise (· ≤ ·)) (hmounts : request.mounts = false) :
    s.serveAlong request (.mounted id path point rest) =
      (rebaseReply point.text (s.serveAlong request rest).1, (s.serveAlong request rest).2) := by
  cases request with
  | ask question =>
    simp only [serveAlong, answers, hbelow, decide_false, Bool.and_false, Bool.false_or]
    rfl
  | read =>
    simp only [serveAlong, Files.read]
    cases s.read rest <;> rfl
  | executable =>
    simp only [serveAlong, Files.executable]
    cases s.executable rest <;> rfl
  | list kind =>
    simp only [serveAlong, list_mounted hfree hsorted]
    cases s.list kind rest <;> rfl
  | change c =>
    have hclear : (s.isMountPoint id path || s.hasNestedMount id path) = false := by
      rw [Bool.or_eq_false_iff, ← Bool.not_eq_true, ← Bool.not_eq_true, isMountPoint_iff,
        hasNestedMount_iff]
      constructor
      · rintro ⟨mount, hmount, rfl⟩
        exact hfree mount hmount (List.prefix_refl _)
      · rintro ⟨mount, hmount, -, hupper⟩
        exact hfree mount hmount hupper
    have hrelay : s.change c (.mounted id path point rest) =
        rebaseOutcome point.text (s.change c rest) := s.change_mounted rest hmounts fun _ => hclear
    simp only [serveAlong, hrelay, rebaseOutcome]
    cases (s.change c rest).1 <;> rfl

/-! What is listed through the device of another table is in order already. -/

theorem sorted_rebaseAll (hslashed : ∀ text ∈ listed, Slashed text)
    (h : listed.Pairwise (· ≤ ·)) (place : String) :
    (rebaseAll place listed).Pairwise (· ≤ ·) :=
  List.pairwise_map.2 (h.imp_of_mem fun ha _ hle => (hslashed _ ha).rebase_le hle place)

theorem sorted_list (h : s.list .directory (.mounted id path point rest) = .ok listed) :
    listed.Pairwise (· ≤ ·) := by
  simp only [Files.list] at h
  cases hbehind : rebaseFault point.text
      ((s.list .directory rest).map (rebaseAll point.text)) with
  | error fault => rw [hbehind] at h; cases h
  | ok behind =>
    rw [hbehind] at h
    cases h
    exact pairwise_sortTexts _

theorem sorted_device {inner : Route} (hinner : inner = .mounted id path point rest)
    (h : s.list .directory (.device name inner) = .ok listed) (place : String) :
    (rebaseAll place listed).Pairwise (· ≤ ·) := by
  obtain ⟨inside, hinside, rfl⟩ := list_behind h
  have hslashed := slashed_list hinside
  rw [hinner] at hinside
  have hdevice : Slashed (devicePoint name) := devicePoint_eq name ▸ slashed_text [name]
  exact sorted_rebaseAll (slashed_rebaseAll hdevice hslashed)
    (sorted_rebaseAll hslashed (sorted_list hinside) _) place

/-- The way through a mounted device leads to the file system behind it, with what is left of the
path. -/
theorem route_device (h : Pointed (s.mounts id)) {handle : Nat}
    (hdevices : ⟨point, .devices handle registry⟩ ∈ s.mounts id)
    (hfurther : ∀ mount ∈ s.mounts id, ¬ point ++ [name] <+: mount.point)
    (hlookup : s.lookup? registry name = some fs) (hpath : Path.Canonical (point ++ name :: path))
    (root : FileSystem) :
    s.route (.mounts id root) (Path.text (point ++ name :: path)) =
      .mounted id (point ++ name :: path) point (.device name (s.follow fs path.text path)) := by
  have howner : s.owner id root (point ++ name :: path) = ⟨point, .devices handle registry⟩ := by
    refine owner_eq h hdevices (List.prefix_append _ _) (fun other hother hupper => ?_) root
    -- A mount around the path that is longer would be at the device or below it.
    refine Nat.le_of_not_lt fun hlt => hfurther other hother ?_
    have hname : point ++ [name] <+: point ++ name :: path := ⟨path, by simp⟩
    refine List.prefix_of_prefix_length_le hname hupper ?_
    rw [List.length_append]
    exact hlt
  rw [route, Path.ofText_text hpath, follow_mounts, howner]
  simp only [List.drop_left, Files.follow, hlookup]

/-- What a table makes of a request for a path on the other side of a device is what the table there
makes of the rest of the path, placed under the device. -/
theorem serve_relay (h : Pointed (s.mounts id)) {handle other : Nat} {inner : FileSystem}
    (hdevices : ⟨point, .devices handle registry⟩ ∈ s.mounts id)
    (hfurther : ∀ mount ∈ s.mounts id, ¬ point ++ [name] <+: mount.point)
    (hlookup : s.lookup? registry name = some (.mounts other inner)) (hname : Path.IsName name)
    (hpath : path.Canonical) {request : Request} (hmounts : request.mounts = false)
    (root : FileSystem) :
    s.serve (.mounts id root) (Path.text (point ++ name :: path)) request =
      (rebaseReply (Path.text (point ++ [name]))
          (s.serve (.mounts other inner) path.text request).1,
        (s.serve (.mounts other inner) path.text request).2) := by
  have hpoint : point.Canonical := h.canonical _ hdevices
  have hbelow : point ≠ [] := h.below _ hdevices
  have hwhole : Path.Canonical (point ++ name :: path) :=
    hpoint.append (List.forall_mem_cons.2 ⟨hname, hpath⟩)
  have hrest : s.route (.mounts other inner) path.text =
      s.follow (.mounts other inner) path.text path := by rw [route, Path.ofText_text hpath]
  have hfree : ∀ mount ∈ s.mounts id, ¬ point ++ name :: path <+: mount.point := by
    intro mount hmount hupper
    exact hfurther mount hmount (List.IsPrefix.trans ⟨path, by simp⟩ hupper)
  -- The table there has sorted its listing, so there is nothing left to sort here.
  have hsorted : ∀ listed, s.list .directory
      (.device name (s.follow (.mounts other inner) path.text path)) = .ok listed →
      (rebaseAll point.text listed).Pairwise (· ≤ ·) := fun listed hlisted =>
    sorted_device (s.follow_mounts other inner path.text path) hlisted point.text
  rw [serve, route_device h hdevices hfurther hlookup hwhole root,
    serveAlong_mounted hfree (by simp) hsorted hmounts, serveAlong_device,
    rebaseReply_rebaseReply (Path.text_ne_root hpoint hbelow) (length_devicePoint hname),
    text_devicePoint hbelow, serve, hrest]

/-! What a request changes. -/

/-- Memory file system `n` belongs to a namespace: it is the namespace, or it is behind a mount, a
device or a view of it. -/
inductive Holds (s : Files) (n : Nat) : FileSystem → Prop
  | memory : Holds s n (.memory n)
  | root {root : FileSystem} (id : Nat) : Holds s n root → Holds s n (.mounts id root)
  | mount {id : Nat} {mount : Mount} (root : FileSystem) : mount ∈ s.mounts id →
      Holds s n mount.fs → Holds s n (.mounts id root)
  | device {registry : Nat} {name : String} {fs : FileSystem} (handle : Nat) :
      s.lookup? registry name = some fs → Holds s n fs → Holds s n (.devices handle registry)
  | view {target : FileSystem} (handle : Nat) (user : User) : Holds s n target →
      Holds s n (.view handle target user)

/-- Nothing has happened, or one memory file system that belongs to the namespace has other nodes.
-/
def Within (s : Files) (fs : FileSystem) (after : Files) : Prop :=
  after = s ∨ ∃ n tree, s.Holds n fs ∧ after = s.setTree n tree

theorem Within.imp {outer : FileSystem} {after : Files} (h : s.Within fs after)
    (houter : ∀ n, s.Holds n fs → s.Holds n outer) : s.Within outer after := by
  rcases h with hsame | ⟨n, tree, hholds, hset⟩
  · exact Or.inl hsame
  · exact Or.inr ⟨n, tree, houter n hholds, hset⟩

theorem within_mounted {c : Change} (hmounts : (Request.change c).mounts = false)
    (h : s.Within fs (s.change c rest).2) :
    s.Within fs (s.change c (.mounted id path point rest)).2 := by
  generalize houtcome : s.change c (.mounted id path point rest) = outcome
  have hhandles := s.handles_change id path point rest c
  rw [houtcome] at hhandles
  cases hhandles with
  | refuse => exact Or.inl rfl
  | relay => exact h
  | attach => cases hmounts
  | detach => cases hmounts

/-- By recursion over the way that the path takes: at each step the rest of it stays within what is
attached there. -/
theorem within_change {c : Change} (hmounts : (Request.change c).mounts = false)
    (fs : FileSystem) (shown : String) (path : Path) :
    s.Within fs (s.change c (s.follow fs shown path)).2 := by
  fun_induction Files.follow s fs shown path with
  | case1 shown path id =>
    simp only [Files.change]
    split
    · exact Or.inr ⟨id, _, .memory, rfl⟩
    · exact Or.inl rfl
  | case2 shown path handle target user ih =>
    simp only [Files.change]
    split
    · exact ih.imp fun n hn => .view handle user hn
    · exact Or.inl rfl
  | case3 shown path id root mount hfound inner ih =>
    exact (within_mounted hmounts ih).imp fun n hn => .mount root (innermost?_mem hfound).1 hn
  | case4 shown path id root hnone ih =>
    exact (within_mounted hmounts ih).imp fun n hn => .root id hn
  | case5 => exact Or.inl rfl
  | case6 shown handle registry name rest fs hfound ih =>
    exact ih.imp fun n hn => .device handle hfound hn
  | case7 => exact Or.inl rfl

theorem within_serve {request : Request} (hmounts : request.mounts = false) (fs : FileSystem)
    (path : String) : s.Within fs (s.serve fs path request).2 := by
  cases request with
  | change c => exact within_change hmounts fs path (Path.ofText path)
  | _ => exact Or.inl rfl

end Files

end ToyUnix
