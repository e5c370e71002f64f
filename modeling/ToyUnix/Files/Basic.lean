import ToyUnix.Assoc
import ToyUnix.Fault
import ToyUnix.Program
import ToyUnix.Text.Utf8
import ToyUnix.User

/-!
File systems. A `FileSystem` says how a namespace is put together; what can change in it lives in
`Files`: the trees of the memory file systems, the mounts of each mount table, the devices of each
registry and the open writers. `Files.route` follows a path through a namespace down to the tree, or
the list of devices, that answers for it. Every question and every change is then a recursion over
the route.
-/

set_option autoImplicit false

namespace ToyUnix

/-- How a namespace is built. The numbers of memory file systems, mount tables and registries index
`Files`; the number of a devices file system or a view tells it from others of the same build. -/
inductive FileSystem
  | memory (id : Nat)
  | mounts (id : Nat) (root : FileSystem)
  | devices (id : Nat) (registry : Nat)
  | view (id : Nat) (target : FileSystem) (user : User)
  deriving DecidableEq, Repr

/-- What can be asked of any path and has a plain answer. -/
inductive Question
  | isDirectory
  | isFile
  | isExecutable
  | isReadOnly
  deriving DecidableEq, Repr

inductive EntryKind
  | directory
  | file
  deriving DecidableEq, Repr

/-- What can be done at a path. -/
inductive Change
  | makeDirectory
  | deleteFile
  | deleteDirectory
  | write (data : Bytes)
  | append (data : Bytes)
  | setExecutable (value : Bool)
  | install (program : Program)
  | mount (fs : FileSystem)
  | unmount
  deriving DecidableEq, Repr

inductive Node
  | file (data : Bytes) (executable : Bool)
  | directory
  | program (program : Program)
  deriving DecidableEq, Repr

/-- The nodes of one memory file system, by canonical path. -/
abbrev Tree := Assoc Path Node

structure Mount where
  point : Path
  fs : FileSystem
  deriving DecidableEq, Repr

/-- A registration keeps its place when the file system behind it is gone, but shows no more. -/
structure Device where
  name : String
  fs : FileSystem
  present : Bool
  deriving DecidableEq, Repr

/-- A buffered writer: `path` is where `fs` appends the pending bytes. -/
structure Writer where
  fs : FileSystem
  path : String
  pending : Bytes
  deriving DecidableEq, Repr

structure Files where
  trees : List Tree := []
  tables : List (List Mount) := []
  registries : List (List Device) := []
  writers : List Writer := []
  /-- The next number for a devices file system or a view; 0 is for those nobody else holds. -/
  nextHandle : Nat := 1
  deriving Repr

namespace Files

def tree (s : Files) (id : Nat) : Tree := s.trees[id]?.getD []

def mounts (s : Files) (id : Nat) : List Mount := s.tables[id]?.getD []

def devices (s : Files) (registry : Nat) : List Device := s.registries[registry]?.getD []

def setTree (s : Files) (id : Nat) (tree : Tree) : Files := { s with trees := s.trees.set id tree }

def setMounts (s : Files) (id : Nat) (mounts : List Mount) : Files :=
  { s with tables := s.tables.set id mounts }

def setDevices (s : Files) (registry : Nat) (devices : List Device) : Files :=
  { s with registries := s.registries.set registry devices }

end Files

end ToyUnix
