import ToyUnix.Files.Route

/-!
What a file system answers and what it lets happen. Questions, readings, listings and changes are
recursions over the route of a path. Whatever comes back from an inner file system, listed paths and
faults alike, is restated in the paths of the file system that was asked.
-/

set_option autoImplicit false

namespace ToyUnix

def rebaseFault {α : Type} (point : String) : Except Fault α → Except Fault α :=
  Except.mapError (Fault.rebase point)

def rebaseAll (point : String) (paths : List String) : List String :=
  paths.map (PathText.rebase point)

def devicePoint (name : String) : String := "/" ++ name

namespace Files

def deviceNames (s : Files) (registry : Nat) : List String :=
  ((s.devices registry).filter (·.present)).map (·.name)

def isMountPoint (s : Files) (id : Nat) (path : Path) : Bool :=
  (s.mounts id).any fun mount => mount.point = path

def hasNestedMount (s : Files) (id : Nat) (path : Path) : Bool :=
  (s.mounts id).any fun mount => mount.point ≠ path && mount.point.isWithin path

def answers (s : Files) (question : Question) : Route → Bool
  | .tree id _ path => (s.tree id).answers question path
  | .deviceList _ => question = .isDirectory || question = .isReadOnly
  | .noDevice _ => question = .isReadOnly
  | .device _ rest => s.answers question rest
  | .view user path rest =>
    (question = .isReadOnly && !user.canWrite path) || s.answers question rest
  | .mounted _ path point rest =>
    (question = .isDirectory && path = point) || s.answers question rest

def read (s : Files) : Route → Except Fault Bytes
  | .tree id _ path => (s.tree id).read path
  | .deviceList _ => .error (.notFound "/")
  | .noDevice path => .error (.notFound path.text)
  | .device name rest => rebaseFault (devicePoint name) (s.read rest)
  | .view _ _ rest => s.read rest
  | .mounted _ _ point rest => rebaseFault point.text (s.read rest)

def executable (s : Files) : Route → Except Fault Executable
  | .tree id _ path => (s.tree id).executable path
  | .deviceList _ => .error (.notFound "/")
  | .noDevice path => .error (.notFound path.text)
  | .device name rest => rebaseFault (devicePoint name) (s.executable rest)
  | .view _ _ rest => s.executable rest
  | .mounted _ _ point rest => rebaseFault point.text (s.executable rest)

/-- The mount points right below `path` that `listed` does not have yet. -/
def newPoints (s : Files) (id : Nat) (path : Path) (listed : List String) : List String :=
  ((s.mounts id).filter fun mount => mount.point ≠ [] ∧ mount.point.parent = path).foldl
    (fun texts mount =>
      if (listed ++ texts).contains mount.point.text then texts else texts ++ [mount.point.text]) []

/-- A mount table lists its mount points among the directories around them. -/
def list (s : Files) (kind : EntryKind) : Route → Except Fault (List String)
  | .tree id _ path => (s.tree id).list kind path
  | .deviceList registry =>
    .ok (match kind with
      | .directory => (s.deviceNames registry).map devicePoint
      | .file => [])
  | .noDevice path => .error (.notFound (Path.text (path.take 1)))
  | .device name rest =>
    rebaseFault (devicePoint name) ((s.list kind rest).map (rebaseAll (devicePoint name)))
  | .view _ _ rest => s.list kind rest
  | .mounted id path point rest =>
    (rebaseFault point.text ((s.list kind rest).map (rebaseAll point.text))).map fun listed =>
      match kind with
      | .file => listed
      | .directory => sortTexts (listed ++ s.newPoints id path listed)

/-- What a change meets where no device is: a file cannot be deleted because there is none, and
nothing can be made. The list of devices cannot be deleted either. -/
def withoutDevice (path : Path) : Change → Fault
  | .deleteFile => .notFound path.text
  | .deleteDirectory => if path = [] then .readOnly path.text else .notFound path.text
  | _ => .readOnly path.text

def attach (s : Files) (id : Nat) (path point : Path) (rest : Route) (fs : FileSystem) :
    Except Fault Unit × Files :=
  if path = [] || s.isMountPoint id path then (.error (.busy path.text), s)
  else if !s.answers .isDirectory (.mounted id path point rest) then
    (.error (.notFound path.text), s)
  else if s.answers .isReadOnly (.mounted id path point rest) then (.error (.readOnly path.text), s)
  else (.ok (), s.setMounts id (s.mounts id ++ [⟨path, fs⟩]))

/-- Only a mount with no other mount below it can be taken off. -/
def detach (s : Files) (id : Nat) (path : Path) : Except Fault Unit × Files :=
  if !s.isMountPoint id path then (.error (.notFound path.text), s)
  else if s.hasNestedMount id path then (.error (.busy path.text), s)
  else (.ok (), s.setMounts id ((s.mounts id).eraseP fun mount => mount.point = path))

def rebaseOutcome (point : String) (outcome : Except Fault Unit × Files) :
    Except Fault Unit × Files :=
  (rebaseFault point outcome.1, outcome.2)

def change (s : Files) (c : Change) : Route → Except Fault Unit × Files
  | .tree id shown path =>
    match (s.tree id).change shown path c with
    | .ok tree => (.ok (), s.setTree id tree)
    | .error fault => (.error fault, s)
  | .deviceList _ => (.error (withoutDevice [] c), s)
  | .noDevice path => (.error (withoutDevice path c), s)
  | .device name rest => rebaseOutcome (devicePoint name) (s.change c rest)
  | .view user path rest =>
    if user.canWrite path then s.change c rest else (.error (.permissionDenied path.text), s)
  | .mounted id path point rest =>
    match c with
    | .mount fs => s.attach id path point rest fs
    | .unmount => s.detach id path
    | .deleteDirectory =>
      if s.isMountPoint id path || s.hasNestedMount id path then (.error (.busy path.text), s)
      else rebaseOutcome point.text (s.change c rest)
    | _ => rebaseOutcome point.text (s.change c rest)

/-! The same by path text. -/

def isDirectory (s : Files) (fs : FileSystem) (path : String) : Bool :=
  s.answers .isDirectory (s.route fs path)

def isFile (s : Files) (fs : FileSystem) (path : String) : Bool :=
  s.answers .isFile (s.route fs path)

def isExecutable (s : Files) (fs : FileSystem) (path : String) : Bool :=
  s.answers .isExecutable (s.route fs path)

def isReadOnly (s : Files) (fs : FileSystem) (path : String) : Bool :=
  s.answers .isReadOnly (s.route fs path)

def contents (s : Files) (fs : FileSystem) (path : String) : Except Fault Bytes :=
  s.read (s.route fs path)

def readText (s : Files) (fs : FileSystem) (path : String) : Except Fault String :=
  match s.contents fs path with
  | .error fault => .error fault
  | .ok data =>
    match Utf8.decode data with
    | .ok text => .ok text
    | .error fault => .error (.stream ⟨.other, fault.message⟩)

def directories (s : Files) (fs : FileSystem) (path : String) : Except Fault (List String) :=
  s.list .directory (s.route fs path)

def files (s : Files) (fs : FileSystem) (path : String) : Except Fault (List String) :=
  s.list .file (s.route fs path)

def executableAt (s : Files) (fs : FileSystem) (path : String) : Except Fault Executable :=
  s.executable (s.route fs path)

def apply (s : Files) (fs : FileSystem) (path : String) (c : Change) : Except Fault Unit × Files :=
  s.change c (s.route fs path)

end Files

end ToyUnix
