import ToyUnix.Config.OfToml
import ToyUnix.Setup

/-!
The whole program: a world with one computer, and one session on a terminal.
-/

set_option autoImplicit false

namespace ToyUnix

namespace Terminal

def depth : Nat := 1000000

/-- The configured user, else the first but the one the computer boots with, else that one. -/
def loginUser (w : World) (computer : Computer) (login : Option String) : Except Fault User :=
  match login with
  | some name =>
    match computer.userByName? name with
    | some user => .ok user
    | none => .error (.config ("login user " ++ name ++ " is not configured"))
  | none =>
    match (computer.users.find? fun user => !user.isSuperUser).or (Setup.superUser? w computer) with
    | some user => .ok user
    | none => .error (.config "there is no user")

/-- A new world with the configured computer, ready for use, and the user to log in. -/
def boot (config : Config) : Except Fault (Nat × User) × World :=
  match World.fresh.addComputer config.computer with
  | (.error fault, w) => (.error fault, w)
  | (.ok c, w) =>
    match w.populate c with
    | (.error fault, w) => (.error fault, w)
    | (.ok (), w) =>
      let w :=
        if config.hosts = [] then w
        else
          let (network, w) := w.addNetwork config.hosts
          w.updateComputer c fun computer => { computer with network }
      match w.computers[c]? with
      | none => (.error (.config "there is no computer"), w)
      | some computer =>
        ((loginUser w computer config.computer.login).map (c, ·), w)

def greet (c : Nat) (user : User) (console : Console) (w : World) : World :=
  match w.computers[c]? with
  | none => w
  | some computer =>
    match w.files.readText (computer.view user) "/etc/motd" with
    | .ok text => console.write w text
    | .error _ => w

/-- The exit code and the output; a fault before or during the session gives code 1. -/
structure Outcome where
  code : Int
  output : String
  deriving DecidableEq, Repr

/-- Codes are seen by their low eight bits. -/
def Outcome.hostCode (outcome : Outcome) : Nat := (outcome.code % 256).toNat

def run (config : Config) (input : Bytes) : Outcome :=
  match boot config with
  | (.error _, _) => ⟨1, ""⟩
  | (.ok (c, user), w) =>
    let (console, w) := Console.addTerminal w input
    let w := greet c user console w
    match (Session.run (execute depth) c console config.shell user w).finish with
    | some (w, .ok code) => ⟨code, console.output w⟩
    | some (w, .error _) => ⟨1, console.output w⟩
    | none => ⟨1, ""⟩

/-- A run under a configuration text; nothing runs if that cannot be read. -/
def runText (config : String) (input : Bytes) : Outcome :=
  match Config.ofText config with
  | .ok config => run config input
  | .error _ => ⟨1, ""⟩

end Terminal

end ToyUnix
