import ToyUnix.Job

/-!
Computers: how one is put together and booted, who may log in, and which program a name stands for.
-/

set_option autoImplicit false

namespace ToyUnix

namespace Computer

/-- The files as a user may see and change them. -/
def view (computer : Computer) (user : User) : FileSystem := .view 0 computer.fs user

def userById? (computer : Computer) (id : Nat) : Option User :=
  computer.users.find? fun user => user.id = id

def userByName? (computer : Computer) (name : String) : Option User :=
  computer.users.find? fun user => user.name = name

end Computer

namespace World

def makeDirectories (s : Files) (fs : FileSystem) : List String → Except Fault Unit × Files
  | [] => (.ok (), s)
  | path :: paths =>
    match s.apply fs path .makeDirectory with
    | (.ok (), s) => makeDirectories s fs paths
    | (.error fault, s) => (.error fault, s)

def mountAll (s : Files) (registry : Nat) (table : FileSystem) :
    List MountConfig → Except Fault Unit × Files
  | [] => (.ok (), s)
  | mount :: mounts =>
    let (fs, s) := match mount.kind with
      | .memory => s.addMemory
      | .devices => s.addDevices registry
    match s.apply table mount.path (.mount fs) with
    | (.ok (), s) => mountAll s registry table mounts
    | (.error fault, s) => (.error fault, s)

/-- A mount table over a memory file system that has the configured directories, the homes of the
users, and a directory for each mount. -/
def buildFiles (s : Files) (registry : Nat) (config : ComputerConfig) :
    Except Fault FileSystem × Files :=
  let (root, s) := s.addMemory
  let homes := config.users.map UserConfig.homeDirectory
  let points := config.mounts.map (·.path)
  match makeDirectories s root (config.directories ++ homes ++ points) with
  | (.error fault, s) => (.error fault, s)
  | (.ok (), s) =>
    let (table, s) := s.addTable root
    match mountAll s registry table config.mounts with
    | (.error fault, s) => (.error fault, s)
    | (.ok (), s) => (.ok table, s)

def bootProcesses (s : Processes) (id : Nat) (users : List User) :
    Except Fault (Nat × Nat × Nat) × Processes :=
  match s.boot id users with
  | (.error fault, s) => (.error fault, s)
  | (.ok table, s) =>
    let init := (s.tables[table]?.map (·.init)).getD 0
    match s.fork init with
    | (.error fault, s) => (.error fault, s)
    | (.ok systemd, s) => (.ok (table, init, systemd), s.setName systemd "systemd")

/-- Adds a computer to the world. Its number is used up even if that fails. -/
def addComputer (w : World) (config : ComputerConfig) : Except Fault Nat × World :=
  let id := w.nextComputer
  let w := { w with nextComputer := id + 1 }
  match w.onFiles (buildFiles · w.registry config) with
  | (.error fault, w) => (.error fault, w)
  | (.ok fs, w) =>
    let users := config.users.map (User.ofConfig · id)
    match w.onProcesses (bootProcesses · id users) with
    | (.error fault, w) => (.error fault, w)
    | (.ok (table, init, systemd), w) =>
      let computer : Computer :=
        { id, hostname := config.hostname, narrativeId := config.narrativeId
          searchPath := config.searchPath, users, fs, table, init, systemd }
      let files := match config.narrativeId with
        | none => w.files
        | some name => w.files.register w.registry name fs
      (.ok w.computers.length, { w with files, computers := w.computers ++ [computer] })

def updateComputer (w : World) (c : Nat) (f : Computer → Computer) : World :=
  { w with computers := w.computers.modify c f }

def narrativeComputer? (w : World) (name : String) : Option Computer :=
  w.computers.find? fun computer => computer.narrativeId = some name

/-- Devices whose file system nobody holds any more disappear; computers hold theirs. -/
def expireDevices (w : World) (held : List FileSystem) : World :=
  { w with files := w.files.expire (held ++ w.computers.map (·.fs)) }

def startDaemon (w : World) (computer : Computer) (name : String) : Except Fault Nat × World :=
  match w.onProcesses (·.fork computer.systemd) with
  | (.error fault, w) => (.error fault, w)
  | (.ok daemon, w) => (.ok daemon, w.updateProcesses (·.setName daemon name))

def startLogin (w : World) (computer : Computer) (user : User) : Except Fault Nat × World :=
  match w.onProcesses (·.forkAs computer.init user) with
  | (.error fault, w) => (.error fault, w)
  | (.ok login, w) =>
    (.ok login, w.updateProcesses fun s =>
      ((((s.setName login "login").setCwd login user.home).setEnv login "USER" user.name).setEnv
        login "HOME" user.home).setEnv login "PATH" computer.searchPath)

def process? (w : World) (p : Nat) : Option Process := w.processes.all[p]?

/-- The files of a computer as a process may see and change them. -/
def viewOf (w : World) (computer : Computer) (p : Nat) : FileSystem :=
  match w.process? p with
  | some process => computer.view process.user
  | none => computer.fs

/-- The directories of `PATH`, or of the computer's own search path where that is not set. -/
def searchDirectories (w : World) (computer : Computer) (p : Nat) : List String :=
  let path := (w.processes.envValue? p "PATH").getD computer.searchPath
  ((cut ':' path.toList).filter (· ≠ [])).map String.ofList

/-- The first place on the path that holds something executable of that name. -/
def searchProgram (w : World) (fs : FileSystem) (name : String) : List String → Option String
  | [] => none
  | dir :: dirs =>
    let candidate := PathText.combine dir name
    if w.files.isExecutable fs candidate then some candidate else searchProgram w fs name dirs

/-- What a name would run: a path if it has a slash, else what the search path finds, else a program
that the computer offers. -/
def resolveProgram (w : World) (computer : Computer) (p : Nat) (name : String) :
    Option (String × Executable) :=
  let fs := w.viewOf computer p
  let runnable (path : String) : Option (String × Executable) :=
    (w.files.executableAt fs path).toOption.map (path, ·)
  if name.toList.contains '/' then
    match w.process? p with
    | none => none
    | some process => runnable (PathText.makeAbsolute process.cwd name process.user.home)
  else
    match w.searchProgram fs name (w.searchDirectories computer p) with
    | some path => runnable path
    | none =>
      (computer.programs.bind (·.resolve? name)).map fun program => (name, .native program)

def commandNames (w : World) (computer : Computer) (p : Nat) : List String :=
  let fs := w.viewOf computer p
  let found := (w.searchDirectories computer p).flatMap fun dir =>
    match w.files.files fs dir with
    | .error _ => []
    | .ok paths => (paths.filter (w.files.isExecutable fs)).map PathText.fileName
  let offered := (computer.programs.map Catalog.names).getD []
  (sortTexts (found ++ offered)).eraseReps

end World

namespace Files

def installEach (s : Files) (fs : FileSystem) (dir : String) :
    List Program → Except Fault Unit × Files
  | [] => (.ok (), s)
  | program :: programs =>
    match s.apply fs (PathText.combine dir program.name) (.install program) with
    | (.ok (), s) => installEach s fs dir programs
    | (.error fault, s) => (.error fault, s)

def installPrograms (s : Files) (fs : FileSystem) (dir : String) : Except Fault Unit × Files :=
  let (made, s) :=
    if s.isDirectory fs dir then (.ok (), s) else s.apply fs dir .makeDirectory
  match made with
  | .error fault => (.error fault, s)
  | .ok () => s.installEach fs dir Program.all

end Files

end ToyUnix
