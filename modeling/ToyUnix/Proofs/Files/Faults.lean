import ToyUnix.Proofs.Files.Requests

/-!
Faults. A request through a mount table fails with the path that was asked for, or with one above
it, as the table itself writes them: however deep the namespace is in which the fault comes up, each
mount and device on the way back places its path under the point where it is attached. Main
statement: `fault_above`.
-/

set_option autoImplicit false

namespace ToyUnix

variable {path : Path} {fault : Fault}

/-- The fault is about `path` or about a directory above it. -/
def Fault.Names (path : Path) (fault : Fault) : Prop :=
  ∃ (cause : PathCause) (place : Path), fault = .path cause place.text ∧ place <+: path

namespace Fault.Names

theorem here (cause : PathCause) : Fault.Names path (.path cause path.text) :=
  ⟨cause, path, rfl, List.prefix_refl _⟩

theorem mono {other : Path} (h : Fault.Names other fault) (hother : other <+: path) :
    fault.Names path := by
  obtain ⟨cause, place, rfl, hplace⟩ := h
  exact ⟨cause, place, rfl, hplace.trans hother⟩

theorem rebase {point inner : Path} (h : Fault.Names inner fault)
    (hpath : Path.Canonical (point ++ inner)) :
    (fault.rebase point.text).Names (point ++ inner) := by
  obtain ⟨cause, place, rfl, hplace⟩ := h
  have hpoint : point.Canonical := hpath.above (List.prefix_append _ _)
  have hall : point ++ place <+: point ++ inner := (List.prefix_append_right_inj point).2 hplace
  have hinner : place.Canonical :=
    fun segment hsegment => hpath.above hall segment (List.mem_append_right _ hsegment)
  exact ⟨cause, point ++ place, by rw [← Path.rebase_text hpoint hinner]; rfl, hall⟩

end Fault.Names

namespace Tree

variable {t : Tree}

theorem read_names (h : t.read path = .error fault) : fault.Names path := by
  unfold read at h
  split at h <;> cases h <;> exact .here _

theorem executable_names (h : t.executable path = .error fault) : fault.Names path := by
  unfold executable at h
  split at h <;> cases h <;> exact .here _

theorem list_names {kind : EntryKind} (h : t.list kind path = .error fault) :
    fault.Names path := by
  unfold list at h
  split at h <;> cases h <;> exact .here _

theorem checkParent_names (h : t.checkParent path = .error fault) : fault.Names path := by
  unfold checkParent at h
  split at h <;> cases h <;> exact (Fault.Names.here _).mono (Path.parent_above path)

theorem makeDirectory_names (h : t.makeDirectory path = .error fault) : fault.Names path := by
  fun_induction Tree.makeDirectory t path with
  | case1 => cases h
  | case2 => cases h; exact .here _
  | case3 => cases h
  | case4 => cases h
  | case5 path hnone hbelow other hother ih =>
    cases h
    exact (ih hother).mono (Path.parent_above path)

theorem write_names {data : Bytes} (h : t.write path data = .error fault) : fault.Names path := by
  unfold write at h
  split at h
  · rename_i hparent
    cases h
    exact checkParent_names hparent
  · split at h <;> cases h <;> exact .here _

theorem append_names {data : Bytes} (h : t.append path data = .error fault) :
    fault.Names path := by
  unfold append at h
  split at h
  · cases h
  · cases h
    exact .here _
  · cases h
    exact .here _
  · exact write_names h

theorem setExecutable_names {value : Bool} (h : t.setExecutable path value = .error fault) :
    fault.Names path := by
  unfold setExecutable at h
  split at h
  · cases h
  · split at h <;> cases h
    exact .here _
  · cases h
    exact .here _
  · cases h
    exact .here _

theorem install_names {program : Program} (h : t.install path program = .error fault) :
    fault.Names path := by
  unfold install at h
  split at h
  · rename_i hparent
    cases h
    exact checkParent_names hparent
  · split at h <;> cases h
    exact .here _

theorem deleteFile_names (h : t.deleteFile path = .error fault) : fault.Names path := by
  unfold deleteFile at h
  split at h <;> cases h <;> exact .here _

theorem deleteDirectory_names (h : t.deleteDirectory path = .error fault) :
    fault.Names path := by
  unfold deleteDirectory at h
  split at h
  · cases h
    exact .here _
  · split at h
    · split at h <;> cases h
      exact .here _
    · cases h
      exact .here _
    · cases h
      exact .here _

theorem change_names {c : Change} (h : t.change path.text path c = .error fault) :
    fault.Names path := by
  cases c with
  | makeDirectory => exact makeDirectory_names h
  | deleteFile => exact deleteFile_names h
  | deleteDirectory => exact deleteDirectory_names h
  | write data => exact write_names h
  | append data => exact append_names h
  | setExecutable value => exact setExecutable_names h
  | install program => exact install_names h
  | mount fs => cases h; exact .here _
  | unmount => cases h; exact .here _

end Tree

namespace Files

variable {s : Files} {request : Request}

theorem tree_names {id : Nat}
    (h : (s.serveAlong request (.tree id path.text path)).1 = .error fault) :
    fault.Names path := by
  cases request with
  | ask question => cases h
  | read => exact Tree.read_names (error_of_map h)
  | executable => exact Tree.executable_names (error_of_map h)
  | list kind => exact Tree.list_names (error_of_map h)
  | change c =>
    have hchange := error_of_map h
    simp only [Files.change] at hchange
    split at hchange
    · cases hchange
    · rename_i other hother
      cases hchange
      exact Tree.change_names hother

theorem deviceList_names {registry : Nat}
    (h : (s.serveAlong request (.deviceList registry)).1 = .error fault) :
    fault.Names [] := by
  cases request with
  | ask question => cases h
  | read => cases h; exact .here _
  | executable => cases h; exact .here _
  | list kind => cases h
  | change c => cases c <;> cases h <;> exact .here _

theorem noDevice_names (h : (s.serveAlong request (.noDevice path)).1 = .error fault) :
    fault.Names path := by
  cases request with
  | ask question => cases h
  | read => cases h; exact .here _
  | executable => cases h; exact .here _
  | list kind => cases h; exact (Fault.Names.here _).mono (List.take_prefix 1 path)
  | change c =>
    cases h
    cases c with
    | deleteDirectory =>
      simp only [withoutDevice]
      split <;> exact .here _
    | _ => exact .here _

theorem view_names {user : User} {rest : Route}
    (hrest : (s.serveAlong request rest).1 = .error fault → fault.Names path)
    (h : (s.serveAlong request (.view user path rest)).1 = .error fault) : fault.Names path := by
  cases request with
  | ask question => cases h
  | read => exact hrest h
  | executable => exact hrest h
  | list kind => exact hrest h
  | change c =>
    simp only [serveAlong, Files.change] at h
    split at h
    · exact hrest h
    · cases h
      exact .here _

theorem fault_mounted {id : Nat} {point : Path} {rest : Route}
    (h : (s.serveAlong request (.mounted id path point rest)).1 = .error fault) :
    fault.Names path ∨
      ∃ inner, (s.serveAlong request rest).1 = .error inner ∧ fault = inner.rebase point.text := by
  cases request with
  | ask question => cases h
  | read =>
    obtain ⟨inner, hinner, rfl⟩ := error_of_rebase (error_of_map h)
    exact Or.inr ⟨inner, by simp only [serveAlong, hinner]; rfl, rfl⟩
  | executable =>
    obtain ⟨inner, hinner, rfl⟩ := error_of_rebase (error_of_map h)
    exact Or.inr ⟨inner, by simp only [serveAlong, hinner]; rfl, rfl⟩
  | list kind =>
    obtain ⟨inner, hinner, rfl⟩ := error_of_rebase (error_of_map (error_of_map h))
    have hlist := error_of_map hinner
    exact Or.inr ⟨inner, by simp only [serveAlong, hlist]; rfl, rfl⟩
  | change c =>
    have hchange := error_of_map h
    generalize houtcome : s.change c (.mounted id path point rest) = outcome at hchange
    have hhandles := s.handles_change id path point rest c
    rw [houtcome] at hhandles
    cases hhandles with
    | refuse cause =>
      cases hchange
      exact Or.inl (.here _)
    | relay =>
      obtain ⟨inner, hinner, rfl⟩ := error_of_rebase hchange
      exact Or.inr ⟨inner, by simp only [serveAlong, hinner]; rfl, rfl⟩
    | attach => cases hchange
    | detach => cases hchange

theorem devicePoint_eq (name : String) : devicePoint name = Path.text [name] := by
  refine String.toList_inj.1 ?_
  simp [devicePoint, Path.text, Path.chars]

/-- By induction on the route: what comes back from behind a mount or a device is placed where the
path goes in. -/
theorem tracks_names {shown : String} {route : Route} (h : Route.Tracks shown path route)
    (hshown : shown = path.text) (hpath : path.Canonical)
    (hfault : (s.serveAlong request route).1 = .error fault) : fault.Names path := by
  induction h generalizing fault with
  | tree id =>
    subst hshown
    exact tree_names hfault
  | deviceList registry => exact deviceList_names hfault
  | noDevice hne => exact noDevice_names hfault
  | @device shown path rest name _ ih =>
    rw [serveAlong_device] at hfault
    obtain ⟨inner, hinner, rfl⟩ := error_of_rebase hfault
    rw [devicePoint_eq]
    exact (ih rfl (hpath.drop 1) (error_of_map hinner)).rebase hpath
  | view user _ ih => exact view_names (ih hshown hpath) hfault
  | @mounted shown point inner rest id _ ih =>
    rcases fault_mounted hfault with hhere | ⟨other, hother, rfl⟩
    · exact hhere
    · have hinner : inner.Canonical := fun segment hsegment =>
        hpath segment (List.mem_append_right _ hsegment)
      exact (ih rfl hinner hother).rebase hpath

/-- Whatever a mount table fails with carries a path, and this is the one that was asked for in
normal form, or one above it. What the namespace is built from and what state it is in play no
part. -/
theorem fault_above (s : Files) (id : Nat) (root : FileSystem) (path : String) (request : Request)
    (fault : Fault) (h : (s.serve (.mounts id root) path request).1 = .error fault) :
    ∃ cause place, fault = .path cause place ∧ PathText.isCanonical place = true ∧
      PathText.isWithin (PathText.normalize path) place = true := by
  have hpath : (Path.ofText path).Canonical := Path.canonical_ofText path
  have hnames : fault.Names (Path.ofText path) := by
    -- The table goes on with texts of its own, so how the path was written does not matter.
    rw [serve, route_mounts] at h
    exact tracks_names (tracks_follow s _ _ _) rfl hpath h
  obtain ⟨cause, place, hfault, hplace⟩ := hnames
  refine ⟨cause, place.text, hfault, Path.isCanonical_text (hpath.above hplace), ?_⟩
  rw [PathText.normalize_eq]
  exact (Path.isWithin_text hpath (hpath.above hplace)).2 hplace

/-- A table whose `/net` leads to another table, by the name of `b`. -/
def relayed : Files :=
  let s := (({} : Files).addMemory.2.apply (.memory 0) "/net" .makeDirectory).2
  let s := (s.addTable (.memory 0)).2.addRegistry.2
  let s := (s.apply (overlay 0 0) "/net" (.mount (.devices 1 0))).2
  let s := (s.addMemory.2.addTable (.memory 1)).2
  s.register 0 "b" (overlay 1 1)

theorem fault_above_relayed :
    (relayed.serve (overlay 0 0) "//net/b/./x/y" (.change (.write []))).1 =
      .error (.notFound "/net/b/x") ∧
    ∃ cause place, Fault.notFound "/net/b/x" = .path cause place ∧
      PathText.isCanonical place = true ∧
      PathText.isWithin (PathText.normalize "//net/b/./x/y") place = true := by
  have hfails : (relayed.serve (overlay 0 0) "//net/b/./x/y" (.change (.write []))).1 =
      .error (.notFound "/net/b/x") := by cbv
  exact ⟨hfails, fault_above relayed 0 (.memory 0) _ _ _ hfails⟩

end Files

end ToyUnix
