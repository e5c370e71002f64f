import ToyUnix.Utility.Basic

/-!
Utilities that change files: `chmod`, `mkdir` and `rm`. Removing a whole tree pauses after each
deletion.
-/

set_option autoImplicit false

namespace ToyUnix

namespace Utility

def chmodFiles (run : Invocation) (value : Bool) (code : Int) : List String → World → Int × World
  | [], w => (code, w)
  | arg :: args, w =>
    match w.onFiles (·.apply (run.fs w) (run.target w arg) (.setExecutable value)) with
    | (.ok (), w) => chmodFiles run value code args w
    | (.error fault, w) =>
      chmodFiles run value 1 args (run.writeLine w ("chmod: " ++ fault.message))

def chmod (run : Invocation) (w : World) : Except Fault Int × World :=
  match run.args with
  | [] => (.error (.command "usage: chmod +x|-x <file>..."), w)
  | mode :: files =>
    let go (value : Bool) : Except Fault Int × World :=
      let (code, w) := chmodFiles run value 0 files w
      (.ok code, w)
    if mode = "+x" then go true
    else if mode = "-x" then go false
    else (.error (.command ("chmod: invalid mode: '" ++ mode ++ "'")), w)

/-- What exists already is an error unless parents may be there. -/
def mkdirTargets (run : Invocation) (parents : Bool) (code : Int) :
    List String → World → Int × World
  | [], w => (code, w)
  | arg :: args, w =>
    let fs := run.fs w
    let target := run.target w arg
    if w.files.isDirectory fs target || w.files.isFile fs target then
      if parents then mkdirTargets run parents code args w
      else
        mkdirTargets run parents 1 args
          (run.writeLine w ("mkdir: cannot create directory '" ++ arg ++ "': File exists"))
    else
      match w.onFiles (·.apply fs target .makeDirectory) with
      | (.ok (), w) => mkdirTargets run parents code args w
      | (.error fault, w) =>
        mkdirTargets run parents 1 args (run.writeLine w ("mkdir: " ++ fault.message))

def mkdir (run : Invocation) (w : World) : Except Fault Int × World :=
  match splitFlags run.args with
  | (_, []) => (.error (.command "usage: mkdir [-p] <dir>..."), w)
  | (flags, operands) =>
    let (code, w) := mkdirTargets run (flags.contains 'p') 0 operands w
    (.ok code, w)

def change (fs : FileSystem) (path : String) (c : Change) : Job Unit :=
  Job.step fun w => w.onFiles (·.apply fs path c)

def deleteEach (fs : FileSystem) (c : Change) : List String → Job Unit
  | [] => return ()
  | path :: paths => do
    change fs path c
    Job.pause
    deleteEach fs c paths

/-- Deletes the files of all directories from the top down and gives the directories, the last one
found first. The directory whose subdirectories were found last comes next. -/
def removeFiles (fs : FileSystem) : Nat → List String → List String → Job (List String)
  | _, [], visited => return visited
  | 0, _ :: _, _ => Job.exhausted
  | limit + 1, dir :: pending, visited => do
    let files ← Job.step fun w => (w.files.files fs dir, w)
    deleteEach fs .deleteFile files
    let dirs ← Job.step fun w => (w.files.directories fs dir, w)
    removeFiles fs limit (dirs.reverse ++ pending) (dir :: visited)

/-- Removes a directory with everything below it; `limit` bounds the number of directories. -/
def removeTree (limit : Nat) (fs : FileSystem) (dir : String) : Job Unit := do
  let visited ← removeFiles fs limit [dir] []
  deleteEach fs .deleteDirectory visited

/-- What became of one operand; nothing at all when a missing one was to be ignored. -/
def rmTarget (limit : Nat) (fs : FileSystem) (recursive force : Bool) (arg target : String) :
    Job Unit := do
  let w ← Job.get
  if w.files.isFile fs target then change fs target .deleteFile
  else if !w.files.isDirectory fs target then
    if force then return () else Job.throw (.notFound arg)
  else if recursive then removeTree limit fs target
  else Job.throw (.isADirectory arg)

def rmTargets (run : Invocation) (limit : Nat) (recursive force : Bool) (code : Int) :
    List String → Job Int
  | [] => return code
  | arg :: args => do
    let w ← Job.get
    match ← Job.attempt (rmTarget limit (run.fs w) recursive force arg (run.target w arg)) with
    | .ok () => rmTargets run limit recursive force code args
    | .error fault =>
      Job.modify fun w =>
        run.writeLine w ("rm: cannot remove '" ++ arg ++ "': " ++ fault.message)
      rmTargets run limit recursive force 1 args

def rm (run : Invocation) (limit : Nat) : Job Int :=
  match splitFlags run.args with
  | (_, []) => Job.throw (.command "usage: rm [-rf] <path>...")
  | (flags, operands) =>
    rmTargets run limit (flags.contains 'r' || flags.contains 'R') (flags.contains 'f') 0 operands

end Utility

end ToyUnix
