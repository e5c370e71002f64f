import ToyUnix.Assoc
import ToyUnix.Fault
import ToyUnix.User

/-!
Processes. Every process ever started keeps its place in `Processes.all`; a process table says which
of them are alive under which process id, and hands out the lowest id that is free. A process may
have reactions to its own death, which run once.
-/

set_option autoImplicit false

namespace ToyUnix

/-- What is done when a process has died, step after step. Processes are named by their place in
`Processes.all`. -/
inductive Reaction
  | done
  /-- Enters the death into the list of deaths. -/
  | note (tag : String) (next : Reaction)
  | fork (parent : Nat) (next : Reaction)
  | forkAs (parent : Nat) (user : User) (next : Reaction)
  | kill (target : Nat) (code : Int) (next : Reaction)
  /-- Has `reaction` run when `target` dies, or at once if it is dead. -/
  | listen (target : Nat) (reaction next : Reaction)
  deriving DecidableEq, Repr

structure Process where
  pid : Nat
  name : String
  user : User
  parent : Option Nat
  /-- The table that the process was started in. -/
  table : Nat
  cwd : String
  env : Assoc String String
  alive : Bool
  exitCode : Int
  reactions : List Reaction
  deriving DecidableEq, Repr

structure ProcessTable where
  computer : Nat
  /-- The place of each live process, in the order of the ids. -/
  live : List (Nat × Nat)
  /-- Ids below `next` that are free, in order. -/
  free : List Nat
  next : Nat
  init : Nat
  /-- A table that has been given up lists nothing and starts nothing. -/
  present : Bool
  deriving DecidableEq, Repr

/-- A death as it was when it was noted. -/
structure DeathNote where
  tag : String
  pid : Nat
  code : Int
  alive : Bool
  children : List Nat
  deriving DecidableEq, Repr

structure Processes where
  all : List Process := []
  tables : List ProcessTable := []
  deaths : List DeathNote := []
  deriving Repr

namespace ProcessTable

def insertFree (pid : Nat) : List Nat → List Nat
  | [] => [pid]
  | first :: rest =>
    if pid < first then pid :: first :: rest
    else if pid = first then first :: rest
    else first :: insertFree pid rest

def insertLive (pid place : Nat) : List (Nat × Nat) → List (Nat × Nat)
  | [] => [(pid, place)]
  | first :: rest =>
    if pid < first.1 then (pid, place) :: first :: rest
    else if pid = first.1 then (pid, place) :: rest
    else first :: insertLive pid place rest

def allocate (table : ProcessTable) : Nat × ProcessTable :=
  match table.free with
  | pid :: free => (pid, { table with free })
  | [] => (table.next, { table with next := table.next + 1 })

def register (table : ProcessTable) (pid place : Nat) : ProcessTable :=
  { table with live := insertLive pid place table.live }

def release (table : ProcessTable) (pid : Nat) : ProcessTable :=
  { table with
    live := table.live.filter fun entry => entry.1 ≠ pid
    free := insertFree pid table.free }

def find? (table : ProcessTable) (pid : Nat) : Option Nat :=
  (table.live.find? fun entry => entry.1 = pid).map (·.2)

end ProcessTable

namespace Processes

def update (s : Processes) (p : Nat) (f : Process → Process) : Processes :=
  match s.all[p]? with
  | none => s
  | some process => { s with all := s.all.set p (f process) }

theorem length_update (s : Processes) (p : Nat) (f : Process → Process) :
    (s.update p f).all.length = s.all.length := by
  unfold update
  split <;> simp

def updateTable (s : Processes) (t : Nat) (f : ProcessTable → ProcessTable) : Processes :=
  match s.tables[t]? with
  | none => s
  | some table => { s with tables := s.tables.set t (f table) }

def isAlive (s : Processes) (p : Nat) : Bool := s.all[p]?.any (·.alive)

def tableOf? (s : Processes) (process : Process) : Option ProcessTable :=
  (s.tables[process.table]?).filter (·.present)

/-- The places of the live processes of a table, in the order of their ids. -/
def live (s : Processes) (t : Nat) : List Nat :=
  match s.tables[t]? with
  | some table => if table.present then table.live.map (·.2) else []
  | none => []

def isListed (s : Processes) (p : Nat) : Bool :=
  match s.all[p]? with
  | none => false
  | some process => (s.tableOf? process).any fun table => table.find? process.pid = some p

def pidOf (s : Processes) (p : Nat) : Nat := (s.all[p]?.map (·.pid)).getD 0

/-- The live children of a process in the order of their ids. A child comes after its parent in
`Processes.all`. -/
def children (s : Processes) (p : Nat) : List Nat :=
  let found := s.all.zipIdx.filter fun entry =>
    p < entry.2 && entry.1.parent = some p && s.isListed entry.2
  (found.map (·.2)).mergeSort fun a b => decide (s.pidOf a ≤ s.pidOf b)

def descendsFrom (s : Processes) (p ancestor : Nat) : Bool :=
  match s.all[p]?.bind (·.parent) with
  | none => false
  | some q => if q = ancestor then true else if q < p then descendsFrom s q ancestor else false
termination_by p

def strangerMessage : String :=
  "An invalid attempt was made to execute a process on one computer by the user of another " ++
  "computer."

/-- The environment of a child; another user gets their own name and home in it. -/
def inheritedEnv (process : Process) (user : User) : Assoc String String :=
  if user.id = process.user.id then process.env
  else (process.env.set "USER" user.name).set "HOME" user.home

def forkAs (s : Processes) (p : Nat) (user : User) : Except Fault Nat × Processes :=
  match s.all[p]? with
  | none => (.error (.processDead 0), s)
  | some process =>
    if !process.alive then (.error (.processDead process.pid), s)
    else
      match s.tableOf? process with
      | none => (.error (.processDead process.pid), s)
      | some table =>
        if user.computer ≠ process.user.computer ∨ user.computer ≠ table.computer then
          (.error (.unauthorized strangerMessage), s)
        else
          let (pid, table) := table.allocate
          let place := s.all.length
          let child : Process :=
            { pid, name := process.name, user, parent := some p, table := process.table
              cwd := process.cwd, env := inheritedEnv process user
              alive := true, exitCode := 0, reactions := [] }
          (.ok place,
            { s with
              all := s.all ++ [child]
              tables := s.tables.set process.table (table.register pid place) })

def fork (s : Processes) (p : Nat) : Except Fault Nat × Processes :=
  match s.all[p]? with
  | none => (.error (.processDead 0), s)
  | some process => s.forkAs p process.user

/-- A new table with its first process, owned by the account that `users` must have for it. -/
def boot (s : Processes) (computer : Nat) (users : List User) : Except Fault Nat × Processes :=
  match users.find? User.isSuperUser with
  | none => (.error (.config "no user with id 0 and root privilege exists"), s)
  | some root =>
    let place := s.all.length
    let t := s.tables.length
    let init : Process :=
      { pid := 1, name := "init", user := root, parent := none, table := t, cwd := "/", env := []
        alive := true, exitCode := 0, reactions := [] }
    let table : ProcessTable :=
      { computer, live := [(1, place)], free := [], next := 2, init := place, present := true }
    (.ok t, { s with all := s.all ++ [init], tables := s.tables ++ [table] })

def dropTable (s : Processes) (t : Nat) : Processes :=
  s.updateTable t fun table => { table with present := false }

def find? (s : Processes) (t pid : Nat) : Option Nat :=
  ((s.tables[t]?).filter (·.present)).bind fun table => table.find? pid

def tasksOf (s : Processes) (t userId : Nat) : List Nat :=
  (s.live t).filter fun p => s.all[p]?.any fun process => process.user.id = userId

def envValue? (s : Processes) (p : Nat) (name : String) : Option String :=
  s.all[p]?.bind fun process => process.env.get? name

def setEnv (s : Processes) (p : Nat) (name value : String) : Processes :=
  s.update p fun process => { process with env := process.env.set name value }

def unsetEnv (s : Processes) (p : Nat) (name : String) : Processes :=
  s.update p fun process => { process with env := process.env.erase name }

def setName (s : Processes) (p : Nat) (name : String) : Processes :=
  s.update p fun process => { process with name }

def setCwd (s : Processes) (p : Nat) (cwd : String) : Processes :=
  s.update p fun process => { process with cwd }

end Processes

end ToyUnix
