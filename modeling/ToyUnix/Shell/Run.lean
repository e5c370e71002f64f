import ToyUnix.Shell.Builtin
import ToyUnix.Shell.Parser
import ToyUnix.Utility

/-!
Running scripts. `Instruction.run` follows the tree; where a command calls a function or a script
file, it hands the body to `call`. `execute` ties the knot: its first argument bounds how deep such
calls may nest, and a run that would go deeper is exhausted.
-/

set_option autoImplicit false

namespace ToyUnix

/-- How the body of a function or a script is run. -/
abbrev Caller := Context → Console → Instruction → Job Int

/-- A call ends with its own `return`. -/
def catchReturn : Except Fault Int → Except Fault Int
  | .error (.ended code .callee) => .ok code
  | result => result

/-- Any early end is an ordinary status. -/
def catchEnd : Except Fault Int → Except Fault Int
  | .error (.ended code _) => .ok code
  | result => result

def callFunction (call : Caller) (owner : Context) (body : Instruction) (console : Console)
    (name : String) (args : List String) : Job Int := do
  let frame ← Job.update fun w =>
    let (id, scope) := (w.scope owner.ownScope).push name args
    (id, w.updateScope owner.ownScope fun _ => scope)
  let result ← Job.attempt (call owner console body)
  Job.modify (·.updateScope owner.ownScope (·.pop frame))
  Job.ofExcept (catchReturn result)

def tryCommand (call : Caller) (ctx : Context) (console : Console) (name : String)
    (args : List String) : Job (Option Int) := do
  let w ← Job.get
  match ctx.resolve? w name with
  | none => return none
  | some (.function owner body) => some <$> callFunction call owner body console name args
  | some (.builtin id scope settings host) =>
    some <$> Job.step (runBuiltin id scope settings host console name args)

def addShell (w : World) (title : String) : (Nat × Nat) × World :=
  let (scope, w) := w.addScope
  ((w.shells.length, scope), { w with shells := w.shells ++ [{ title }] })

def setMode (ctx : Context) (mode : ShellMode) (w : World) : World :=
  match ctx with
  | .shell id _ _ _ => w.updateShell id fun shell => { shell with mode }
  | _ => w

/-- A fault is reported on the shell's own console in graceful mode and passed on otherwise. -/
def reportFault (settings : ShellSettings) (fault : Fault) : Job Unit :=
  if settings.graceful then
    Job.modify fun w => settings.console.writeLine w ("-sh: " ++ fault.message)
  else Job.throw fault

/-- Runs the text of a script in a scope of its own within a shell. An early end gives its code. -/
def runScript (call : Caller) (shell : Context) (settings : ShellSettings) (text : String) :
    Job Int := do
  match parseScript settings.options text true with
  | .error fault =>
    reportFault settings fault
    return 2
  | .ok tree =>
    Job.modify (setMode shell .executing)
    let result ← Job.attempt (call shell settings.console tree)
    Job.modify (setMode shell .idle)
    match catchEnd result with
    | .ok code => return code
    | .error fault =>
      reportFault settings fault
      return 1

/-- A script file runs in a shell of its own that passes on every fault. -/
def runScriptFile (call : Caller) (config : ShellConfig) (process computer : Nat)
    (console : Console) (path source : String) (args : List String) : Job Int := do
  let settings : ShellSettings := ⟨config, {}, false, console⟩
  let hostScope ← Job.update fun w =>
    let (scope, w) := w.addScope
    (scope, w.updateScope scope (·.setArguments path args))
  let (id, scope) ← Job.update (addShell · config.defaultTitle)
  let shell := Context.shell id scope settings (.process process computer config hostScope)
  runScript call shell settings source

def runExecutable (call : Caller) (limit : Nat) (scripts : Option ShellConfig) (process c : Nat)
    (computer : Computer) (console : Console) (path : String) (args : List String) :
    Executable → Job Int
  | .native program => program.run limit ⟨process, computer, console, args⟩
  | .script source =>
    match scripts with
    | some config => runScriptFile call config process c console path source args
    | none => Job.throw (.notExecutable path)

/-- Runs what a name stands for in a child process, which dies with the exit code; nothing if the
name stands for nothing. -/
def executeProgram (call : Caller) (limit : Nat) (scripts : Option ShellConfig) (parent c : Nat)
    (console : Console) (name : String) (args : List String) : Job (Option Int) := do
  let w ← Job.get
  match w.computers[c]? with
  | none => return none
  | some computer =>
    match w.resolveProgram computer parent name with
    | none => return none
    | some (path, executable) =>
      let child ← Job.step (World.onProcesses · (·.fork parent))
      Job.modify (·.updateProcesses (·.setName child (PathText.fileName path)))
      let result ← Job.attempt
        (runExecutable call limit scripts child c computer console path args executable)
      match catchEnd result with
      | .ok code =>
        Job.modify (·.updateProcesses (·.kill child code))
        return some code
      | .error fault =>
        Job.modify (·.updateProcesses (·.kill child 1))
        Job.throw fault

def notFoundMessage (name : String) : String := "sh: " ++ name ++ ": command not found"

def reportNotFound (console : Console) (name : String) : Job Int := do
  Job.modify fun w => console.writeLine w (notFoundMessage name)
  return 127

/-- What becomes of a name that no context knows: the host may have a program for it. -/
def runUnknown (call : Caller) (limit : Nat) (console : Console) (name : String)
    (args : List String) : Context → Job Int
  | .standalone _ _ _ => reportNotFound console name
  | .process p c config _ => do
    match ← executeProgram call limit (some config) p c console name args with
    | some code => return code
    | none => reportNotFound console name
  | .shell _ _ _ host => runUnknown call limit console name args host
  | .nested _ parent => runUnknown call limit console name args parent

def runCommand (call : Caller) (limit : Nat) (ctx : Context) (console : Console) (name : String)
    (args : List String) : Job Int := do
  match ← tryCommand call ctx console name args with
  | some code => return code
  | none => runUnknown call limit console name args ctx

def expandAll (w : World) (ctx : Context) (words : List Word) : List String :=
  expandWords (ctx.home w) (fun name => ctx.get? w name) words

def expandOne (w : World) (ctx : Context) (word : Word) : String :=
  word.expand (ctx.home w) (fun name => ctx.get? w name)

/-- Assignments happen in order; a later one sees the earlier ones. -/
def assign (ctx : Context) : List (String × Word) → World → World
  | [], w => w
  | (name, word) :: rest, w => assign ctx rest (ctx.set w name (expandOne w ctx word))

def setStatus (ctx : Context) (code : Int) (w : World) : World := ctx.set w "?" (toString code)

/-- The words are expanded before the assignments happen. -/
def runSimple (call : Caller) (limit : Nat) (ctx : Context) (console : Console)
    (assignments : List (String × Word)) (words : List Word) : Job Int := do
  let argv ← Job.update fun w => (expandAll w ctx words, assign ctx assignments w)
  match argv with
  | [] =>
    Job.modify (setStatus ctx 0)
    return 0
  | name :: args =>
    let code ← runCommand call limit ctx console name args
    Job.modify (setStatus ctx code)
    return code

/-- Both sides always run; a fault of the left one wins, and the status is that of the right one. -/
def joinResults : Except Fault Int × Except Fault Int → Except Fault Int
  | (.error fault, _) => .error fault
  | (.ok _, result) => result

/-- The file gets what is still to be written when its console is given up. -/
def closeConsole (w : World) : Console → World
  | .file writer _ => { w with files := w.files.closeWriter writer }
  | _ => w

/-- A fault of what ran wins over one of the last flush. -/
def joinFlush (result : Except Fault Int) (flushed : Except Fault Unit) : Except Fault Int :=
  match result, flushed with
  | .error fault, _ => .error fault
  | .ok _, .error fault => .error fault
  | .ok code, .ok () => .ok code

/-- Whether the right side of a condition runs after that status of the left one. -/
def Logic.goesOn : Logic → Int → Bool
  | .and, code => code = 0
  | .or, code => code ≠ 0

namespace Instruction

def run (call : Caller) (limit : Nat) : Instruction → Context → Console → Job Int
  | .empty, _, _ => return 0
  | .command assignments words, ctx, console => runSimple call limit ctx console assignments words
  | .pipe left right, ctx, console => do
    let pipe ← Job.update (Console.addPipe · console)
    let _ ← left.run call limit ctx pipe
    let input ← Job.update fun w =>
      let (text, w) := pipe.drain w
      Console.addInput w text console
    right.run call limit ctx input
  | .sequential first next, ctx, console => do
    let _ ← first.run call limit ctx console
    next.run call limit ctx console
  | .parallel first next, ctx, console => do
    let results ← Job.both (first.run call limit ctx console) (next.run call limit ctx console)
    Job.ofExcept (joinResults results)
  | .conditional logic left right, ctx, console => do
    let code ← left.run call limit ctx console
    if logic.goesOn code then right.run call limit ctx console else return code
  | .redirect mode target inner, ctx, console => do
    let redirected ← Job.step fun w =>
      ctx.openConsole w console (expandOne w ctx target) mode
    let result ← Job.attempt (inner.run call limit ctx redirected)
    let flushed ← Job.attempt (Job.step fun w => redirected.flush w)
    Job.modify (closeConsole · redirected)
    Job.ofExcept (joinFlush result flushed)
  | .function name body, ctx, _ => do
    Job.modify (ctx.declare · name body)
    return 0
  | .scoped inner, ctx, console => do
    let scope ← Job.update World.addScope
    inner.run call limit (.nested scope ctx) console

end Instruction

/-- Runs a tree with calls nested at most `depth` deep; the same number bounds each removal. -/
def execute : Nat → Caller
  | 0 => fun _ _ _ => Job.exhausted
  | depth + 1 => fun ctx console tree => tree.run (execute depth) depth ctx console

end ToyUnix
