import ToyUnix.Text.Column
import ToyUnix.Utility.Basic

/-!
Utilities that only show things: `cat`, `ls`, `ps`, `pwd` and `whoami`.
-/

set_option autoImplicit false

namespace ToyUnix

namespace Utility

/-- The lines of input go to the output until there are no more; `limit` is no less than their
number. -/
def copyLines (run : Invocation) : Nat → World → World
  | 0, w => w
  | limit + 1, w =>
    match run.console.readLine w with
    | (none, w) => w
    | (some line, w) => copyLines run limit (run.writeLine w line)

def catFiles (run : Invocation) (code : Int) : List String → World → Int × World
  | [], w => (code, w)
  | arg :: args, w =>
    match w.files.readText (run.fs w) (run.target w arg) with
    | .ok text => catFiles run code args (run.write w text)
    | .error fault => catFiles run 1 args (run.writeLine w ("cat: " ++ fault.message))

def cat (run : Invocation) (w : World) : Int × World :=
  if run.args = [] then (0, copyLines run (run.console.linesLeft w + 1) w)
  else catFiles run 0 run.args w

def entries (s : Files) (fs : FileSystem) (dir : String) : Except Fault (List String) :=
  match s.directories fs dir with
  | .error fault => .error fault
  | .ok dirs =>
    match s.files fs dir with
    | .error fault => .error fault
    | .ok files =>
      .ok (sortTexts
        (dirs.map (fun d => PathText.fileName d ++ "/") ++ files.map PathText.fileName))

def writeLines (run : Invocation) (w : World) (lines : List String) : World :=
  lines.foldl run.writeLine w

/-- With several targets each directory has its name above it, and a blank line before that except
for the first target. -/
def heading (run : Invocation) (w : World) (many first : Bool) (arg : String) : World :=
  if !many then w
  else run.writeLine (if first then w else run.write w "\n") (arg ++ ":")

def lsTargets (run : Invocation) (many first : Bool) (code : Int) :
    List String → World → Except Fault Int × World
  | [], w => (.ok code, w)
  | arg :: args, w =>
    let fs := run.fs w
    let target := run.target w arg
    if w.files.isFile fs target then lsTargets run many false code args (run.writeLine w arg)
    else if !w.files.isDirectory fs target then
      lsTargets run many false 2 args
        (run.writeLine w ("ls: cannot access '" ++ arg ++ "': No such file or directory"))
    else
      let w := heading run w many first arg
      match entries w.files fs target with
      | .error fault => (.error fault, w)
      | .ok names => lsTargets run many false code args (writeLines run w names)

/-- The working directory is listed when no target is named. -/
def ls (run : Invocation) (w : World) : Except Fault Int × World :=
  let targets := if run.args = [] then ["."] else run.args
  lsTargets run (1 < targets.length) true 0 targets w

def psLine (pid parent user name : String) : String :=
  alignRight 5 pid ++ " " ++ alignRight 5 parent ++ " " ++ alignLeft 10 user ++ " " ++ name

/-- A process without a parent is shown with parent 0. -/
def psProcess (s : Processes) (p : Nat) : String :=
  match s.all[p]? with
  | none => ""
  | some process =>
    psLine (toString process.pid) (toString ((process.parent.map s.pidOf).getD 0))
      process.user.name process.name

def ps (run : Invocation) (w : World) : Int × World :=
  let rows := (w.processes.live run.computer.table).map (psProcess w.processes)
  (0, writeLines run w (psLine "PID" "PPID" "USER" "CMD" :: rows))

def pwd (run : Invocation) (w : World) : Int × World := (0, run.writeLine w (run.cwd w))

def whoami (run : Invocation) (w : World) : Int × World :=
  (0, run.writeLine w (((w.process? run.process).map (·.user.name)).getD ""))

end Utility

end ToyUnix
