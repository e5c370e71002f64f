import ToyUnix.Files.Stream
import ToyUnix.Proofs.Files.Faults

/-!
Failures. A memory file system is edited in place: a directory is put into the table of nodes as
soon as it is made, and nothing takes it out again when a later step fails. `Tree.Edit` is the
language of such edits, and what they come to is what `Tree.change` says, a failed one having put
nothing in (`outcome_change`). From there on no namespace adds anything of its own to a failure.
Main statement: `failed_unchanged`.
-/

set_option autoImplicit false

namespace ToyUnix

namespace Tree

/-- A program that works on the nodes of a memory file system. What it did before it fails stays. -/
abbrev Edit := ExceptT Fault (StateM Tree)

namespace Edit

variable {path : Path} {t : Tree}

def outcome (edit : Edit Unit) (t : Tree) : Except Fault Unit × Tree := edit.run.run t

/-- Each missing directory is put in when those above it are. -/
def makeDirectory (path : Path) : Edit Unit := do
  match (← get).node? path with
  | some .directory => pure ()
  | some _ => throw (.alreadyExists path.text)
  | none =>
    if _below : path ≠ [] then makeDirectory path.dropLast
    modify (·.put path .directory)
termination_by path.length
decreasing_by
  have := List.length_pos_iff.2 _below
  simp only [List.length_dropLast]
  omega

def checkParent (path : Path) : Edit Unit := do
  match (← get).node? path.parent with
  | some .directory => pure ()
  | some _ => throw (.notADirectory path.parent.text)
  | none => throw (.notFound path.parent.text)

def deleteFile (path : Path) : Edit Unit := do
  match (← get).node? path with
  | some .directory => throw (.isADirectory path.text)
  | some _ => modify (·.remove path)
  | none => throw (.notFound path.text)

def deleteDirectory (path : Path) : Edit Unit := do
  if path = [] then throw (.permissionDenied path.text)
  else
    match (← get).node? path with
    | some .directory =>
      if (← get).childrenOf path = [] then modify (·.remove path)
      else throw (.directoryNotEmpty path.text)
    | some _ => throw (.notADirectory path.text)
    | none => throw (.notFound path.text)

def write (path : Path) (data : Bytes) : Edit Unit := do
  checkParent path
  match (← get).node? path with
  | some .directory => throw (.isADirectory path.text)
  | some (.program _) => throw (.permissionDenied path.text)
  | some (.file _ executable) => modify (·.put path (.file data executable))
  | none => modify (·.put path (.file data false))

def append (path : Path) (data : Bytes) : Edit Unit := do
  match (← get).node? path with
  | some (.file before executable) => modify (·.put path (.file (before ++ data) executable))
  | some .directory => throw (.isADirectory path.text)
  | some (.program _) => throw (.permissionDenied path.text)
  | none => write path data

def setExecutable (path : Path) (value : Bool) : Edit Unit := do
  match (← get).node? path with
  | some (.file data _) => modify (·.put path (.file data value))
  | some (.program _) => if value then pure () else throw (.permissionDenied path.text)
  | some .directory => throw (.isADirectory path.text)
  | none => throw (.notFound path.text)

def install (path : Path) (program : Program) : Edit Unit := do
  checkParent path
  match (← get).node? path with
  | some .directory => throw (.isADirectory path.text)
  | _ => modify (·.put path (.program program))

def change (shown : String) (path : Path) : Change → Edit Unit
  | .makeDirectory => makeDirectory path
  | .deleteFile => deleteFile path
  | .deleteDirectory => deleteDirectory path
  | .write data => write path data
  | .append data => append path data
  | .setExecutable value => setExecutable path value
  | .install program => install path program
  | .mount _ | .unmount => throw (.readOnly shown)

def settled (t : Tree) : Except Fault Tree → Except Fault Unit × Tree
  | .ok after => (.ok (), after)
  | .error fault => (.error fault, t)

theorem outcome_get (next : Tree → Edit Unit) (t : Tree) :
    (get >>= next).outcome t = (next t).outcome t := rfl

theorem outcome_bind (edit : Edit Unit) (next : Unit → Edit Unit) (t : Tree) :
    (edit >>= next).outcome t =
      match edit.outcome t with
      | (.ok (), after) => (next ()).outcome after
      | (.error fault, after) => (.error fault, after) := by
  change ExceptT.bindCont next (edit.outcome t).1 (edit.outcome t).2 = _
  rcases edit.outcome t with ⟨_ | _, after⟩ <;> rfl

/-- By induction on what is missing above: the step that can fail is the first of all, and only then
do the directories go in. -/
theorem outcome_makeDirectory (path : Path) (t : Tree) :
    (makeDirectory path).outcome t = settled t (t.makeDirectory path) := by
  fun_induction Tree.makeDirectory t path with
  | case1 path hnode =>
    rw [makeDirectory, outcome_get]
    simp only [hnode]
    rfl
  | case2 path node hfile hnode =>
    rw [makeDirectory, outcome_get]
    simp only [hnode]
    rfl
  | case3 hnone =>
    rw [makeDirectory, outcome_get]
    simp only [hnone]
    rfl
  | case4 path hnone hbelow after hafter ih =>
    rw [makeDirectory, outcome_get]
    simp only [hnone, hbelow, ne_eq, not_false_eq_true, dif_pos, outcome_bind, ih, hafter]
    rfl
  | case5 path hnone hbelow fault hfault ih =>
    rw [makeDirectory, outcome_get]
    simp only [hnone, hbelow, ne_eq, not_false_eq_true, dif_pos, outcome_bind, ih, hfault]
    rfl

theorem outcome_checkParent (path : Path) (t : Tree) :
    (checkParent path).outcome t = (t.checkParent path, t) := by
  rw [checkParent, outcome_get, Tree.checkParent]
  rcases t.node? path.parent with _ | _ | _ | _ <;> rfl

theorem outcome_deleteFile (path : Path) (t : Tree) :
    (deleteFile path).outcome t = settled t (t.deleteFile path) := by
  rw [deleteFile, outcome_get, Tree.deleteFile]
  rcases t.node? path with _ | _ | _ | _ <;> rfl

theorem outcome_deleteDirectory (path : Path) (t : Tree) :
    (deleteDirectory path).outcome t = settled t (t.deleteDirectory path) := by
  rw [deleteDirectory, Tree.deleteDirectory]
  split
  · rfl
  · rw [outcome_get]
    rcases t.node? path with _ | _ | _ | _
    · rfl
    · rfl
    · simp only [outcome_get]
      split <;> rfl
    · rfl

theorem outcome_write (path : Path) (data : Bytes) (t : Tree) :
    (write path data).outcome t = settled t (t.write path data) := by
  rw [write, outcome_bind, outcome_checkParent, Tree.write]
  cases t.checkParent path with
  | error fault => rfl
  | ok _ =>
    simp only [outcome_get]
    rcases t.node? path with _ | _ | _ | _ <;> rfl

theorem outcome_append (path : Path) (data : Bytes) (t : Tree) :
    (append path data).outcome t = settled t (t.append path data) := by
  rw [append, outcome_get, Tree.append]
  rcases t.node? path with _ | _ | _ | _
  · exact outcome_write path data t
  · rfl
  · rfl
  · rfl

theorem outcome_setExecutable (path : Path) (value : Bool) (t : Tree) :
    (setExecutable path value).outcome t = settled t (t.setExecutable path value) := by
  rw [setExecutable, outcome_get, Tree.setExecutable]
  rcases t.node? path with _ | _ | _ | _
  · rfl
  · rfl
  · rfl
  · cases value <;> rfl

theorem outcome_install (path : Path) (program : Program) (t : Tree) :
    (install path program).outcome t = settled t (t.install path program) := by
  rw [install, outcome_bind, outcome_checkParent, Tree.install]
  cases t.checkParent path with
  | error fault => rfl
  | ok _ =>
    simp only [outcome_get]
    rcases t.node? path with _ | _ | _ | _ <;> rfl

/-- What is done in place comes to the change as a whole, or to nothing. -/
theorem outcome_change (shown : String) (path : Path) (c : Change) (t : Tree) :
    (change shown path c).outcome t = settled t (t.change shown path c) := by
  cases c with
  | makeDirectory => exact outcome_makeDirectory path t
  | deleteFile => exact outcome_deleteFile path t
  | deleteDirectory => exact outcome_deleteDirectory path t
  | write data => exact outcome_write path data t
  | append data => exact outcome_append path data t
  | setExecutable value => exact outcome_setExecutable path value t
  | install program => exact outcome_install path program t
  | mount fs => rfl
  | unmount => rfl

end Edit

end Tree

namespace Files

variable {s : Files} {fault : Fault}

theorem setTree_tree (s : Files) (id : Nat) : s.setTree id (s.tree id) = s := by
  cases s with
  | mk trees tables registries writers nextHandle =>
    simp only [setTree, tree, Files.mk.injEq, and_true]
    refine List.ext_getElem? fun n => ?_
    rw [List.getElem?_set]
    split
    · rename_i heq
      subst heq
      split
      · rename_i hlt
        simp [hlt]
      · rename_i hlt
        simp [List.getElem?_eq_none (Nat.le_of_not_lt hlt)]
    · rfl

theorem change_tree (s : Files) (c : Change) (id : Nat) (shown : String) (path : Path) :
    s.change c (.tree id shown path) =
      (((Tree.Edit.change shown path c).outcome (s.tree id)).1,
        s.setTree id ((Tree.Edit.change shown path c).outcome (s.tree id)).2) := by
  rw [Tree.Edit.outcome_change, Files.change]
  cases (s.tree id).change shown path c with
  | ok tree => rfl
  | error fault => exact congrArg (Prod.mk _) (s.setTree_tree id).symm

/-- By induction on the route: what a table, a device or a view adds to a failure is no change. -/
theorem change_error {c : Change} {route : Route} (h : (s.change c route).1 = .error fault) :
    (s.change c route).2 = s := by
  induction route generalizing fault with
  | tree id shown path =>
    simp only [Files.change] at h ⊢
    split at h
    · cases h
    · rfl
  | deviceList registry => rfl
  | noDevice path => rfl
  | device name rest ih =>
    obtain ⟨inner, hinner, -⟩ := error_of_rebase h
    exact ih hinner
  | view user path rest ih =>
    simp only [Files.change] at h ⊢
    split
    · rename_i hwrite
      rw [if_pos hwrite] at h
      exact ih h
    · rfl
  | mounted id path point rest ih =>
    generalize houtcome : s.change c (.mounted id path point rest) = outcome at h
    have hhandles := s.handles_change id path point rest c
    rw [houtcome] at hhandles
    cases hhandles with
    | refuse => rfl
    | relay =>
      obtain ⟨inner, hinner, -⟩ := error_of_rebase h
      exact ih hinner
    | attach => cases h
    | detach => cases h

theorem serve_error {fs : FileSystem} {path : String} {request : Request}
    (h : (s.serve fs path request).1 = .error fault) : (s.serve fs path request).2 = s := by
  cases request with
  | change c => exact change_error (error_of_map h)
  | _ => rfl

theorem openWrite_error {fs : FileSystem} {path : String} {appending : Bool}
    (h : (s.openWrite fs path appending).1 = .error fault) :
    (s.openWrite fs path appending).2 = s := by
  unfold openWrite at h ⊢
  generalize (if appending then Change.append [] else .write []) = c at h ⊢
  cases houtcome : s.apply fs path c with
  | mk result after =>
    rw [houtcome] at h
    cases result with
    | ok _ => cases h
    | error other =>
      have hsame := change_error (congrArg Prod.fst houtcome)
      exact (congrArg Prod.snd houtcome).symm.trans hsame

/-- A request that fails leaves all trees, mounts and devices as they were, and so does a writer
that cannot be opened. At the bottom of every route the nodes are edited in place, so this includes
what a failed edit has done by then. -/
theorem failed_unchanged (s : Files) (fs : FileSystem) (path : String) :
    (∀ request fault, (s.serve fs path request).1 = .error fault →
      (s.serve fs path request).2 = s) ∧
    (∀ appending fault, (s.openWrite fs path appending).1 = .error fault →
      (s.openWrite fs path appending).2 = s) ∧
    ∀ c id shown inner, s.change c (.tree id shown inner) =
      (((Tree.Edit.change shown inner c).outcome (s.tree id)).1,
        s.setTree id ((Tree.Edit.change shown inner c).outcome (s.tree id)).2) :=
  ⟨fun _ _ => serve_error, fun _ _ => openWrite_error, s.change_tree⟩

def logging : Files :=
  let s := (({} : Files).addMemory.2.apply (.memory 0) "/srv" .makeDirectory).2
  ((s.apply (.memory 0) "/srv/log" (.write [])).2.addTable (.memory 0)).2

theorem failed_unchanged_logging :
    (logging.serve (overlay 0 0) "/srv/log/old/may" (.change .makeDirectory)).1 =
      .error (.alreadyExists "/srv/log") ∧
    (logging.serve (overlay 0 0) "/srv/log/old/may" (.change .makeDirectory)).2 = logging := by
  have hfails : (logging.serve (overlay 0 0) "/srv/log/old/may" (.change .makeDirectory)).1 =
      .error (.alreadyExists "/srv/log") := by cbv
  exact ⟨hfails, (failed_unchanged logging (overlay 0 0) "/srv/log/old/may").1 _ _ hfails⟩

end Files

end ToyUnix
