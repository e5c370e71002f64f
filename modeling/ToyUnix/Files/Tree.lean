import ToyUnix.Files.Basic

/-!
One memory file system: what can be asked of its tree and how a change makes a new one. A change
that fails gives no new tree.
-/

set_option autoImplicit false

namespace ToyUnix

namespace Node

def isDirectory : Node → Bool
  | .directory => true
  | _ => false

def kind : Node → EntryKind
  | .directory => .directory
  | _ => .file

def answers : Question → Node → Bool
  | .isDirectory, node => node.isDirectory
  | .isFile, node => !node.isDirectory
  | .isExecutable, .program _ => true
  | .isExecutable, .file _ executable => executable
  | .isExecutable, .directory => false
  | .isReadOnly, _ => false

end Node

namespace Tree

def fresh : Tree := [([], .directory)]

def node? (t : Tree) (path : Path) : Option Node := Assoc.get? t path

def put (t : Tree) (path : Path) (node : Node) : Tree := Assoc.set t path node

def remove (t : Tree) (path : Path) : Tree := Assoc.erase t path

theorem node?_put (t : Tree) (path other : Path) (node : Node) :
    (t.put path node).node? other = if path = other then some node else t.node? other :=
  Assoc.get?_set t path other node

theorem node?_remove (t : Tree) (path other : Path) :
    (t.remove path).node? other = if path = other then none else t.node? other :=
  Assoc.get?_erase t path other

def answers (t : Tree) (question : Question) (path : Path) : Bool :=
  (t.node? path).any (Node.answers question)

def ordered (t : Tree) : List (Path × Node) := t.mergeSort fun a b => decide (a.1.text ≤ b.1.text)

/-- The entries that begin with the stem of `path`. In order they follow each other, so the scan
goes from the first text that is not before the stem to the first that does not begin with it. -/
def range (t : Tree) (path : Path) : List (Path × Node) :=
  (t.ordered.dropWhile fun entry => decide (entry.1.text.toList < path.stem)).takeWhile
    fun entry => path.stem.isPrefixOf entry.1.text.toList

/-- The entries right below `path`: those with a name and nothing more after the stem. -/
def childrenOf (t : Tree) (path : Path) : List (Path × Node) :=
  (t.range path).filter fun entry =>
    let rest := entry.1.text.toList.drop path.stem.length
    rest ≠ [] ∧ '/' ∉ rest

def list (t : Tree) (kind : EntryKind) (path : Path) : Except Fault (List String) :=
  match t.node? path with
  | some .directory =>
    let entries := (t.childrenOf path).filter fun entry => entry.2.kind = kind
    .ok (entries.map fun entry => entry.1.text)
  | some _ => .error (.notADirectory path.text)
  | none => .error (.notFound path.text)

/-- A native program reads as a line that names it. -/
def read (t : Tree) (path : Path) : Except Fault Bytes :=
  match t.node? path with
  | some (.file data _) => .ok data
  | some (.program program) => .ok (Utf8.encode ("<native program: " ++ program.name ++ ">\n"))
  | some .directory => .error (.isADirectory path.text)
  | none => .error (.notFound path.text)

def executable (t : Tree) (path : Path) : Except Fault Executable :=
  match t.node? path with
  | some (.program program) => .ok (.native program)
  | some (.file data true) => .ok (.script (Utf8.decodeLossy data))
  | some (.file _ false) => .error (.notExecutable path.text)
  | some .directory => .error (.isADirectory path.text)
  | none => .error (.notFound path.text)

def checkParent (t : Tree) (path : Path) : Except Fault Unit :=
  match t.node? path.parent with
  | some .directory => .ok ()
  | some _ => .error (.notADirectory path.parent.text)
  | none => .error (.notFound path.parent.text)

/-- Missing parents are made first. -/
def makeDirectory (t : Tree) (path : Path) : Except Fault Tree :=
  match t.node? path with
  | some .directory => .ok t
  | some _ => .error (.alreadyExists path.text)
  | none =>
    if _below : path = [] then .ok (t.put path .directory)
    else
      match makeDirectory t path.dropLast with
      | .ok t => .ok (t.put path .directory)
      | .error fault => .error fault
termination_by path.length
decreasing_by
  have := List.length_pos_iff.2 _below
  simp only [List.length_dropLast]
  omega

def deleteFile (t : Tree) (path : Path) : Except Fault Tree :=
  match t.node? path with
  | some .directory => .error (.isADirectory path.text)
  | some _ => .ok (t.remove path)
  | none => .error (.notFound path.text)

/-- Only an empty directory goes, and never the root. -/
def deleteDirectory (t : Tree) (path : Path) : Except Fault Tree :=
  if path = [] then .error (.permissionDenied path.text)
  else
    match t.node? path with
    | some .directory =>
      if t.childrenOf path = [] then .ok (t.remove path) else .error (.directoryNotEmpty path.text)
    | some _ => .error (.notADirectory path.text)
    | none => .error (.notFound path.text)

/-- A file that is there already stays executable or not as it was. -/
def write (t : Tree) (path : Path) (data : Bytes) : Except Fault Tree :=
  match t.checkParent path with
  | .error fault => .error fault
  | .ok () =>
    match t.node? path with
    | some .directory => .error (.isADirectory path.text)
    | some (.program _) => .error (.permissionDenied path.text)
    | some (.file _ executable) => .ok (t.put path (.file data executable))
    | none => .ok (t.put path (.file data false))

def append (t : Tree) (path : Path) (data : Bytes) : Except Fault Tree :=
  match t.node? path with
  | some (.file before executable) => .ok (t.put path (.file (before ++ data) executable))
  | some .directory => .error (.isADirectory path.text)
  | some (.program _) => .error (.permissionDenied path.text)
  | none => t.write path data

/-- A native program cannot lose the right to run. -/
def setExecutable (t : Tree) (path : Path) (value : Bool) : Except Fault Tree :=
  match t.node? path with
  | some (.file data _) => .ok (t.put path (.file data value))
  | some (.program _) => if value then .ok t else .error (.permissionDenied path.text)
  | some .directory => .error (.isADirectory path.text)
  | none => .error (.notFound path.text)

def install (t : Tree) (path : Path) (program : Program) : Except Fault Tree :=
  match t.checkParent path with
  | .error fault => .error fault
  | .ok () =>
    match t.node? path with
    | some .directory => .error (.isADirectory path.text)
    | _ => .ok (t.put path (.program program))

/-- A memory file system takes no mounts; `shown` is the path as its caller wrote it. -/
def change (t : Tree) (shown : String) (path : Path) : Change → Except Fault Tree
  | .makeDirectory => t.makeDirectory path
  | .deleteFile => t.deleteFile path
  | .deleteDirectory => t.deleteDirectory path
  | .write data => t.write path data
  | .append data => t.append path data
  | .setExecutable value => t.setExecutable path value
  | .install program => t.install path program
  | .mount _ | .unmount => .error (.readOnly shown)

end Tree

end ToyUnix
