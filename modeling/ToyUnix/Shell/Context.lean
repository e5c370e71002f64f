import ToyUnix.Computer
import ToyUnix.Console
import ToyUnix.Shell.Token

/-!
Contexts. A script runs in a chain of contexts: scopes within scopes, perhaps an interactive shell,
and at the outside a host, which is a process or nothing but a title. A name is looked up from the
inside to the outside.
-/

set_option autoImplicit false

namespace ToyUnix

structure ShellSettings where
  config : ShellConfig
  options : ParseOptions
  /-- Faults are reported instead of passed on. -/
  graceful : Bool
  console : Console
  deriving DecidableEq, Repr

inductive Context
  | standalone (title : String) (directory scope : Nat)
  | process (process computer : Nat) (config : ShellConfig) (scope : Nat)
  | shell (id scope : Nat) (settings : ShellSettings) (host : Context)
  | nested (scope : Nat) (parent : Context)
  deriving DecidableEq, Repr

/-- What a command name stands for. -/
inductive Resolution
  /-- A function, and the context that declares it. -/
  | function (owner : Context) (body : Instruction)
  /-- A built-in of that shell. -/
  | builtin (id scope : Nat) (settings : ShellSettings) (host : Context)
  deriving DecidableEq, Repr

/-- The names of built-ins that are offered for completion. -/
def builtinNames : List String := ["cd", "clear", "echo", "exit", "return", "test", "title"]

def isBuiltin (name : String) : Bool := (builtinNames ++ ["[", "[["]).contains name

namespace Context

def addStandalone (w : World) (title : String) : Context × World :=
  let (scope, w) := w.addScope
  (.standalone title w.directories.length scope, { w with directories := w.directories ++ ["/"] })

def ownScope : Context → Nat
  | .standalone _ _ scope | .process _ _ _ scope | .shell _ scope _ _ | .nested scope _ => scope

def userOf (w : World) (p : Nat) : Option User := (w.process? p).map (·.user)

def hostnameOf (w : World) (c : Nat) : String := (w.computers[c]?.map (·.hostname)).getD ""

def title (w : World) : Context → String
  | .standalone title _ _ => title
  | .process p c _ _ => ((userOf w p).map (·.name)).getD "" ++ "@" ++ hostnameOf w c
  | .shell _ _ _ host => title w host
  | .nested _ parent => title w parent

/-- `$$` is the process id; an environment variable is seen where no scope has the name. -/
def get? (w : World) (name : String) : Context → Option String
  | .standalone _ _ scope => (w.scope scope).get? name
  | .process p _ _ scope =>
    if name = "$" then some (toString (w.processes.pidOf p))
    else ((w.scope scope).get? name).or (w.processes.envValue? p name)
  | .shell _ scope _ host => ((w.scope scope).get? name).or (get? w name host)
  | .nested scope parent => ((w.scope scope).get? name).or (get? w name parent)

/-- A shell hands variables to its host. A process has them in its environment if they are there
already. -/
def set (w : World) (name value : String) : Context → World
  | .standalone _ _ scope => w.updateScope scope (·.set name value)
  | .process p _ _ scope =>
    if (w.processes.envValue? p name).isSome then w.updateProcesses (·.setEnv p name value)
    else w.updateScope scope (·.set name value)
  | .shell _ _ _ host => set w name value host
  | .nested scope _ => w.updateScope scope (·.set name value)

def declare (w : World) (name : String) (body : Instruction) (ctx : Context) : World :=
  w.updateScope ctx.ownScope (·.declare name body)

/-- The innermost function of that name, else a built-in of the outermost shell. -/
def resolve? (w : World) (name : String) : Context → Option Resolution
  | .standalone title directory scope =>
    ((w.scope scope).function? name).map (.function (.standalone title directory scope))
  | .process p c config scope =>
    ((w.scope scope).function? name).map (.function (.process p c config scope))
  | .shell id scope settings host =>
    match (w.scope scope).function? name with
    | some body => some (.function (.shell id scope settings host) body)
    | none =>
      match resolve? w name host with
      | some found => some found
      | none => if isBuiltin name then some (.builtin id scope settings host) else none
  | .nested scope parent =>
    match (w.scope scope).function? name with
    | some body => some (.function (.nested scope parent) body)
    | none => resolve? w name parent

def cwd (w : World) : Context → String
  | .standalone _ directory _ => w.directories[directory]?.getD "/"
  | .process p _ _ _ => ((w.process? p).map (·.cwd)).getD "/"
  | .shell _ _ _ host => cwd w host
  | .nested _ parent => cwd w parent

def setCwd (w : World) (path : String) : Context → World
  | .standalone _ directory _ => { w with directories := w.directories.set directory path }
  | .process p _ _ _ => w.updateProcesses (·.setCwd p path)
  | .shell _ _ _ host => setCwd w path host
  | .nested _ parent => setCwd w path parent

def home (w : World) : Context → String
  | .standalone _ _ scope => ((w.scope scope).get? "HOME").getD "/"
  | .process p _ _ _ =>
    (w.processes.envValue? p "HOME").getD (((userOf w p).map (·.home)).getD "/")
  | .shell _ _ _ host => home w host
  | .nested _ parent => home w parent

def fileSystem? (w : World) : Context → Option FileSystem
  | .standalone _ _ _ => none
  | .process p c _ _ => (w.computers[c]?).map fun computer => w.viewOf computer p
  | .shell _ _ _ host => fileSystem? w host
  | .nested _ parent => fileSystem? w parent

/-- A directory with the home at its front shown as `~`; a home at the root is not. -/
def showDirectory (cwd home : String) : String :=
  match PathText.below? cwd home with
  | none => cwd
  | some rest =>
    if home = "/" then cwd else if rest = "/" then "~" else "~" ++ rest

def prompt? (w : World) : Context → Option String
  | .standalone _ _ _ => none
  | .process p c config scope =>
    (userOf w p).map fun user =>
      let ctx := Context.process p c config scope
      let sign := if user.isSuperUser then "#" else "$"
      let directory := showDirectory (ctx.cwd w) (ctx.home w)
      user.name ++ "@" ++ hostnameOf w c ++ ":" ++ directory ++ sign ++ " "
  | .shell _ _ _ host => prompt? w host
  | .nested _ parent => prompt? w parent

/-- The names of commands, those of inner contexts first. -/
def commandNames (w : World) : Context → List String
  | .standalone _ _ scope => (w.scope scope).functionNames
  | .process p c _ scope =>
    (w.scope scope).functionNames ++
      match w.computers[c]? with
      | some computer => w.commandNames computer p
      | none => []
  | .shell _ scope _ host => (w.scope scope).functionNames ++ commandNames w host
  | .nested scope parent => (w.scope scope).functionNames ++ commandNames w parent

def absolute (w : World) (ctx : Context) (path : String) : String :=
  PathText.makeAbsolute (ctx.cwd w) path (ctx.home w)

def openConsole (w : World) (ctx : Context) (console : Console) (path : String)
    (mode : RedirectMode) : Except Fault Console × World :=
  match ctx.fileSystem? w with
  | none => (.error (.notFound path), w)
  | some fs =>
    let path := ctx.absolute w path
    let openWriter (appending : Bool) : Except Fault Console × World :=
      match w.onFiles (·.openWrite fs path appending) with
      | (.error fault, w) => (.error fault, w)
      | (.ok writer, w) => (.ok (.file writer console), w)
    match mode with
    | .overwrite => openWriter false
    | .append => openWriter true
    | .input =>
      match w.files.readText fs path with
      | .error fault => (.error fault, w)
      | .ok text =>
        let (input, w) := Console.addInput w text console
        (.ok input, w)

end Context

end ToyUnix
