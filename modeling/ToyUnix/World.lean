import ToyUnix.Files.Device
import ToyUnix.Files.Stream
import ToyUnix.Network
import ToyUnix.Process.Kill
import ToyUnix.Shell.Scope

/-!
The state of a world: its files and processes, its computers, and whatever running scripts keep.
Things are numbered by their place in the list that holds them.
-/

set_option autoImplicit false

namespace ToyUnix

structure Computer where
  id : Nat
  hostname : String
  narrativeId : Option String
  searchPath : String
  users : List User
  /-- All its files. -/
  fs : FileSystem
  /-- The process table, and in it the parent of all daemons. -/
  table : Nat
  init : Nat
  systemd : Nat
  network : Option Nat := none
  /-- The programs that are found by their names even if no directory on the path has them. -/
  programs : Option Catalog := none
  deriving Repr

/-- A console whose input is a list of lines and whose output is kept. -/
structure BufferState where
  input : List String := []
  output : String := ""
  title : String := ""
  clears : Nat := 0
  deriving DecidableEq, Repr

/-- The console of a terminal: bytes come in, text with control sequences goes out. -/
structure TerminalState where
  input : Bytes := []
  output : String := ""
  title : String := ""
  deriving DecidableEq, Repr

inductive ShellMode
  | idle
  | executing
  deriving DecidableEq, Repr

structure ShellState where
  title : String
  /-- Instructions read but not run yet. -/
  pending : List Instruction := []
  mode : ShellMode := .idle
  deriving Repr

structure World where
  files : Files := {}
  processes : Processes := {}
  computers : List Computer := []
  /-- The number of the next computer, and the registry of narrative devices. -/
  nextComputer : Nat := 0
  registry : Nat := 0
  networks : List Network := []
  scopes : List Scope := []
  shells : List ShellState := []
  /-- The working directories of contexts without a process. -/
  directories : List String := []
  buffers : List BufferState := []
  terminals : List TerminalState := []
  pipes : List String := []
  inputs : List (List String) := []
  deriving Repr

namespace World

def fresh : World :=
  let (registry, files) := Files.addRegistry {}
  { files, registry }

def addScope (w : World) : Nat × World :=
  (w.scopes.length, { w with scopes := w.scopes ++ [{}] })

def scope (w : World) (id : Nat) : Scope := w.scopes[id]?.getD {}

def updateScope (w : World) (id : Nat) (f : Scope → Scope) : World :=
  { w with scopes := w.scopes.modify id f }

def updateShell (w : World) (id : Nat) (f : ShellState → ShellState) : World :=
  { w with shells := w.shells.modify id f }

def addNetwork (w : World) (hosts : List HostEntry) : Nat × World :=
  (w.networks.length, { w with networks := w.networks ++ [{ hosts }] })

def updateFiles (w : World) (f : Files → Files) : World := { w with files := f w.files }

def updateProcesses (w : World) (f : Processes → Processes) : World :=
  { w with processes := f w.processes }

def onFiles {α : Type} (w : World) (f : Files → α × Files) : α × World :=
  let (a, files) := f w.files
  (a, { w with files })

def onProcesses {α : Type} (w : World) (f : Processes → α × Processes) : α × World :=
  let (a, processes) := f w.processes
  (a, { w with processes })

end World

end ToyUnix
