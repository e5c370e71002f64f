/-!
The configuration of a world: the shell's manners, one computer with its users, directories and
mounts, and the hosts of the network. Every value has a default; together the defaults describe a
computer with a root account and one standard user.
-/

set_option autoImplicit false

namespace ToyUnix

structure ShellConfig where
  /-- Shown when the surroundings of the shell have no prompt of their own. -/
  prompt : String := "$ "
  /-- Shown while a quote or an escape is still open. -/
  continuationPrompt : String := " --> "
  /-- The window title a session starts with. -/
  defaultTitle : String := "Terminal"
  /-- Report a fault and go on, instead of ending the session. -/
  gracefulErrors : Bool := true
  deriving DecidableEq, Repr

inductive Privilege
  | root
  | standard
  deriving DecidableEq, Repr

structure UserConfig where
  id : Nat
  name : String
  privilege : Privilege := .standard
  home : Option String := none
  deriving DecidableEq, Repr

/-- The configured home, or one derived from the privilege and the name. -/
def UserConfig.homeDirectory (config : UserConfig) : String :=
  match config.home, config.privilege with
  | some home, _ => home
  | none, .root => "/root"
  | none, .standard => "/home/" ++ config.name

/-- What backs a configured mount: an empty memory file system, or the devices of the world. -/
inductive MountKind
  | memory
  | devices
  deriving DecidableEq, Repr

structure MountConfig where
  path : String
  kind : MountKind
  deriving DecidableEq, Repr

structure ComputerConfig where
  hostname : String := "localhost"
  /-- The name under which other computers find this one below a devices mount. -/
  narrativeId : Option String := none
  /-- The user a terminal logs in; the first standard user if not given. -/
  login : Option String := none
  searchPath : String := "/bin:/usr/bin"
  users : List UserConfig := [⟨0, "root", .root, none⟩, ⟨1000, "user", .standard, none⟩]
  directories : List String := ["/bin", "/usr/bin", "/etc", "/tmp", "/home"]
  mounts : List MountConfig := []
  deriving DecidableEq, Repr

structure HostEntry where
  name : String
  address : String
  ports : List Nat := []
  deriving DecidableEq, Repr

structure Config where
  shell : ShellConfig := {}
  computer : ComputerConfig := {}
  hosts : List HostEntry := []
  deriving DecidableEq, Repr

end ToyUnix
