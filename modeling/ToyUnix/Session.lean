import ToyUnix.Shell.Interactive

/-!
Terminal sessions: a login process, a shell process below it, and prompt cycles until the shell is
dead.
-/

set_option autoImplicit false

namespace ToyUnix

namespace Session

/-- What the end of a prompt cycle means for the shell process. -/
def settle (console : Console) (process : Nat) (result : Except Fault Unit) (w : World) : World :=
  match result with
  | .ok () => w
  | .error (.ended code _) => w.updateProcesses (·.kill process code)
  | .error fault =>
    (console.writeLine w ("-sh: " ++ fault.message)).updateProcesses (·.kill process 1)

/-- Prompt cycles while the shell process lives. -/
def cycles (call : Caller) (id scope : Nat) (settings : ShellSettings) (host : Context)
    (process : Nat) : Nat → Job Unit
  | 0 => Job.exhausted
  | limit + 1 => do
    let w ← Job.get
    if w.processes.isAlive process then
      let result ← Job.attempt (Shell.cycle call id scope settings host)
      Job.modify (settle settings.console process result)
      cycles call id scope settings host process limit
    else return ()

/-- Logs a user in and gives the exit code of the shell. Each cycle reads a line or ends the shell,
so there are at most as many as lines, and one more. -/
def run (call : Caller) (c : Nat) (console : Console) (config : ShellConfig) (user : User) :
    Job Int := do
  let w ← Job.get
  match w.computers[c]? with
  | none => Job.throw (.config "no such computer")
  | some computer =>
    let login ← Job.step (World.startLogin · computer user)
    let process ← Job.step (World.onProcesses · (·.fork login))
    Job.modify (·.updateProcesses (·.setName process "sh"))
    Job.modify fun w => console.setTitle w config.defaultTitle
    let settings : ShellSettings := ⟨config, {}, config.gracefulErrors, console⟩
    let hostScope ← Job.update World.addScope
    let host := Context.process process c config hostScope
    let (id, scope) ← Job.update (addShell · config.defaultTitle)
    cycles call id scope settings host process (console.linesLeft w + 2)
    let w ← Job.get
    let code := ((w.process? process).map (·.exitCode)).getD 0
    Job.modify (·.updateProcesses (·.kill login code))
    return code

end Session

end ToyUnix
