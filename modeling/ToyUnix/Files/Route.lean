import ToyUnix.Files.Tree

/-!
Routes. The innermost mount above a path owns it, and a devices file system hands a path to the
device that its first segment names. A route lists these steps from the namespace that was asked
down to the tree, or the list of devices, that answers. Following a path ends because every step
into a mount or a device shortens it and every other step goes to a smaller file system.
-/

set_option autoImplicit false

namespace ToyUnix

inductive Route
  /-- The tree of a memory file system; `shown` is the path as the caller wrote it. -/
  | tree (id : Nat) (shown : String) (path : Path)
  /-- The list of devices itself. -/
  | deviceList (registry : Nat)
  | noDevice (path : Path)
  | device (name : String) (rest : Route)
  | view (user : User) (path : Path) (rest : Route)
  /-- Table `id` resolves `path` to what is attached at `point`, the root being attached at `/`. -/
  | mounted (id : Nat) (path point : Path) (rest : Route)
  deriving Repr

def Mount.covers (mount : Mount) (path : Path) : Bool :=
  mount.point ≠ [] && path.isWithin mount.point

/-- The covering mount with the longest point. -/
def innermost? (path : Path) : List Mount → Option Mount
  | [] => none
  | mount :: mounts =>
    match innermost? path mounts with
    | none => if mount.covers path then some mount else none
    | some best =>
      if mount.covers path ∧ best.point.length < mount.point.length then some mount else some best

theorem innermost?_mem {path : Path} {mounts : List Mount} {mount : Mount}
    (h : innermost? path mounts = some mount) : mount ∈ mounts ∧ mount.covers path = true := by
  induction mounts with
  | nil => cases h
  | cons first rest ih =>
    simp only [innermost?] at h
    split at h
    · split at h
      · cases h
        exact ⟨List.mem_cons_self, by assumption⟩
      · cases h
    · rename_i best hbest
      split at h
      · rename_i hc
        cases h
        exact ⟨List.mem_cons_self, hc.1⟩
      · cases h
        exact ⟨List.mem_cons_of_mem _ (ih hbest).1, (ih hbest).2⟩

theorem Mount.length_inner {mount : Mount} {path : Path} (h : mount.covers path = true) :
    (path.drop mount.point.length).length < path.length := by
  simp only [covers, Bool.and_eq_true, decide_eq_true_eq, ne_eq] at h
  have hlen := (List.isPrefixOf_iff_prefix.1 h.2).length_le
  have hpos := List.length_pos_iff.2 h.1
  simp only [List.length_drop]
  omega

namespace Files

/-- The file system behind a device that is present. -/
def lookup? (s : Files) (registry : Nat) (name : String) : Option FileSystem :=
  ((s.devices registry).find? fun device => device.name = name ∧ device.present).map (·.fs)

def follow (s : Files) (fs : FileSystem) (shown : String) (path : Path) : Route :=
  match fs with
  | .memory id => .tree id shown path
  | .view _ target user => .view user path (follow s target shown path)
  | .mounts id root =>
    match _found : innermost? path (s.mounts id) with
    | some mount =>
      let inner := path.drop mount.point.length
      .mounted id path mount.point (follow s mount.fs (Path.text inner) inner)
    | none => .mounted id path [] (follow s root (Path.text path) path)
  | .devices _ registry =>
    match path with
    | [] => .deviceList registry
    | name :: rest =>
      match s.lookup? registry name with
      | some fs => .device name (follow s fs (Path.text rest) rest)
      | none => .noDevice (name :: rest)
termination_by (path.length, sizeOf fs)
decreasing_by
  · apply Prod.Lex.right
    simp only [FileSystem.view.sizeOf_spec]
    omega
  · apply Prod.Lex.left
    exact Mount.length_inner (innermost?_mem _found).2
  · apply Prod.Lex.right
    simp only [FileSystem.mounts.sizeOf_spec]
    omega
  · apply Prod.Lex.left
    simp only [List.length_cons]
    omega

def route (s : Files) (fs : FileSystem) (text : String) : Route :=
  s.follow fs text (Path.ofText text)

end Files

end ToyUnix
