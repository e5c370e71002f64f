import ToyUnix.Files.Operations

/-!
Making file systems, and the registries through which devices file systems find others. A registry
does not keep a file system in existence: when nothing else holds it any more, its device is present
no longer.
-/

set_option autoImplicit false

namespace ToyUnix

namespace Files

def addMemory (s : Files) : FileSystem × Files :=
  (.memory s.trees.length, { s with trees := s.trees ++ [Tree.fresh] })

def addTable (s : Files) (root : FileSystem) : FileSystem × Files :=
  (.mounts s.tables.length root, { s with tables := s.tables ++ [[]] })

def addRegistry (s : Files) : Nat × Files :=
  (s.registries.length, { s with registries := s.registries ++ [[]] })

def addDevices (s : Files) (registry : Nat) : FileSystem × Files :=
  (.devices s.nextHandle registry, { s with nextHandle := s.nextHandle + 1 })

def addView (s : Files) (target : FileSystem) (user : User) : FileSystem × Files :=
  (.view s.nextHandle target user, { s with nextHandle := s.nextHandle + 1 })

def mountPoints (s : Files) (id : Nat) : List String :=
  (s.mounts id).map fun mount => mount.point.text

/-- A new registration under a name takes the place of the old one. -/
def insertDevice (device : Device) : List Device → List Device
  | [] => [device]
  | first :: rest =>
    if device.name = first.name then device :: rest
    else if device.name < first.name then device :: first :: rest
    else first :: insertDevice device rest

def register (s : Files) (registry : Nat) (name : String) (fs : FileSystem) : Files :=
  s.setDevices registry (insertDevice ⟨name, fs, true⟩ (s.devices registry))

/-- Whether there was a registration, present or not. -/
def unregister (s : Files) (registry : Nat) (name : String) : Bool × Files :=
  ((s.devices registry).any fun device => device.name = name,
    s.setDevices registry ((s.devices registry).filter fun device => device.name ≠ name))

def heldBy (s : Files) : FileSystem → List FileSystem
  | .memory _ | .devices _ _ => []
  | .view _ target _ => [target]
  | .mounts id root => root :: (s.mounts id).map (·.fs)

def parts : FileSystem → List FileSystem
  | .memory id => [.memory id]
  | .devices id registry => [.devices id registry]
  | .view id target user => .view id target user :: parts target
  | .mounts id root => .mounts id root :: parts root

/-- Takes away, as often as possible, what neither `roots` nor anything left in `known` holds. -/
def stillHeld (s : Files) (roots : List FileSystem) : Nat → List FileSystem → List FileSystem
  | 0, known => known
  | n + 1, known =>
    let holders := roots ++ known.flatMap s.heldBy
    stillHeld s roots n (known.filter holders.contains)

/-- Everything that could be held: what `roots`, mounts and registrations mention. -/
def mentioned (s : Files) (roots : List FileSystem) : List FileSystem :=
  let mounted := s.tables.flatMap fun mounts => mounts.map (·.fs)
  let registered := s.registries.flatMap fun devices => devices.map (·.fs)
  ((roots ++ mounted ++ registered).flatMap parts).eraseDups

/-- The devices whose file system is held by nothing but registries are present no longer; `roots`
are the file systems that are held from outside. -/
def expire (s : Files) (roots : List FileSystem) : Files :=
  let known := s.mentioned roots
  let held := s.stillHeld roots known.length known
  { s with registries := s.registries.map fun devices =>
      devices.map fun device =>
        { device with present := device.present && held.contains device.fs } }

end Files

end ToyUnix
