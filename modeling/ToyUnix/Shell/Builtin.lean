import ToyUnix.Shell.Condition

/-!
The built-ins of a shell. They run within the shell and never pause.
-/

set_option autoImplicit false

namespace ToyUnix

def showTitle (w : World) (id : Nat) (host : Context) (console : Console) : World :=
  let own := (w.shells[id]?.map (·.title)).getD ""
  console.setTitle w (own ++ " (" ++ host.title w ++ ")")

namespace Builtin

def returnMessage : String := "-sh: return: can only \x60return' from a function or sourced script"

/-- A blank title is the default one. -/
def title (w : World) (id : Nat) (settings : ShellSettings) (host : Context) (console : Console)
    (args : List String) : World :=
  let text := " ".intercalate args
  let text := if isBlankText text then settings.config.defaultTitle else text
  showTitle (w.updateShell id fun shell => { shell with title := text }) id host console

def exitCode (name : String) (args : List String) : Int × Option String :=
  match args with
  | [] => (0, none)
  | arg :: _ =>
    match readExitCode? arg with
    | some code => (code, none)
    | none => (2, some ("sh: " ++ name ++ ": " ++ arg ++ ": numeric argument required"))

def complain (w : World) (console : Console) : Option String → World
  | none => w
  | some message => console.writeLine w message

def echoText (args : List String) : String :=
  match args with
  | "-n" :: words => " ".intercalate words
  | words => " ".intercalate words ++ "\n"

/-- Goes home without an argument. Where there are no files, every directory exists. -/
def changeDirectory (w : World) (host : Context) (console : Console) (args : List String) :
    Int × World :=
  let target := match args with
    | [] => host.home w
    | dir :: _ => host.absolute w dir
  let found := match host.fileSystem? w with
    | none => true
    | some fs => w.files.isDirectory fs target
  if found then (0, host.setCwd w target)
  else (1, console.writeLine w ("sh: cd: " ++ target ++ ": Directory not found."))

end Builtin

def runBuiltin (id scope : Nat) (settings : ShellSettings) (host : Context) (console : Console)
    (name : String) (args : List String) (w : World) : Except Fault Int × World :=
  match name with
  | "title" => (.ok 0, Builtin.title w id settings host console args)
  | "exit" =>
    let (code, message) := Builtin.exitCode name args
    (.error (.exit code), Builtin.complain w console message)
  | "return" =>
    let (code, message) := Builtin.exitCode name args
    (.error (.returned code), Builtin.complain w console message)
  | "clear" => (.ok 0, console.clear w)
  | "echo" => (.ok 0, console.write w (Builtin.echoText args))
  | "cd" =>
    let (code, w) := Builtin.changeDirectory w host console args
    (.ok code, w)
  | _ =>
    let tests := Condition.fileTests w (.shell id scope settings host)
    let (code, message) := Condition.status tests name args
    (.ok code, Builtin.complain w console message)

end ToyUnix
