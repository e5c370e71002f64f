import ToyUnix.Session

/-!
What a terminal's computer starts with: the utilities, a greeting, and a script to try in every
home.
-/

set_option autoImplicit false

namespace ToyUnix

namespace Setup

def greeting : String :=
  "Welcome to VOS.\n" ++
  "Try \x60ls /bin\x60, \x60ps\x60, or \x60./hello.sh world\x60 from your home directory.\n"

def helloScript : String :=
  "# Greets its first argument.\n" ++
  "greet() \x7b\n" ++
  "echo \"Hello, $1!\"\n" ++
  "\x7d\n" ++
  "if_missing() \x7b test -z \"$1\"; \x7d\n" ++
  "if_missing \"$1\" && greet stranger || greet \"$1\"\n"

def applyAll (s : Files) (fs : FileSystem) : List (String × Change) → Except Fault Unit × Files
  | [] => (.ok (), s)
  | (path, c) :: changes =>
    match s.apply fs path c with
    | (.ok (), s) => applyAll s fs changes
    | (.error fault, s) => (.error fault, s)

def helloFor (user : User) : List (String × Change) :=
  let path := user.home ++ "/hello.sh"
  [(path, .write (Utf8.encode helloScript)), (path, .setExecutable true)]

def systemFiles (s : Files) (fs : FileSystem) (hostname : String) : List (String × Change) :=
  let made := if s.isDirectory fs "/etc" then [] else [("/etc", .makeDirectory)]
  made ++
    [("/etc/motd", .write (Utf8.encode greeting)),
     ("/etc/hostname", .write (Utf8.encode (hostname ++ "\n")))]

def superUser? (w : World) (computer : Computer) : Option User :=
  (w.process? computer.init).map (·.user)

end Setup

namespace World

/-- Installs the utilities, which the computer also offers from then on, and the starting files. -/
def populate (w : World) (c : Nat) : Except Fault Unit × World :=
  match w.computers[c]? with
  | none => (.ok (), w)
  | some computer =>
    let fs := w.viewOf computer computer.init
    match w.onFiles (·.installPrograms fs "/bin") with
    | (.error fault, w) => (.error fault, w)
    | (.ok (), w) =>
      let w := w.updateComputer c fun computer => { computer with programs := some .utilities }
      let others := computer.users.filter fun user => !user.isSuperUser
      w.onFiles fun s => Setup.applyAll s fs
        (Setup.systemFiles s fs computer.hostname ++ others.flatMap Setup.helloFor)

end World

end ToyUnix
