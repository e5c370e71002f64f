import ToyUnix.Config
import ToyUnix.Fault

/-!
The network as one computer sees it: a fixed table of hosts, and the local ports that are listened
on.
-/

set_option autoImplicit false

namespace ToyUnix

structure Network where
  hosts : List HostEntry := []
  /-- In order. -/
  listening : List Nat := []
  deriving DecidableEq, Repr

namespace Network

def hostAt? (network : Network) (address : String) : Option HostEntry :=
  network.hosts.find? fun host => host.address = address

/-- A name stands for its address and an address for itself. -/
def resolve? (network : Network) (host : String) : Option String :=
  (network.hosts.find? fun entry => entry.name = host ∨ entry.address = host).map (·.address)

def replies (network : Network) (address : String) : Bool := (network.hostAt? address).isSome

def connect (network : Network) (address : String) (port : Nat) : Except Fault Unit :=
  match network.hostAt? address with
  | none => .error (.command ("connect to " ++ address ++ ": No route to host"))
  | some host =>
    if host.ports.contains port then .ok ()
    else
      .error (.command
        ("connect to " ++ address ++ " port " ++ toString port ++ ": Connection refused"))

def insertPort (port : Nat) : List Nat → List Nat
  | [] => [port]
  | first :: rest => if port < first then port :: first :: rest else first :: insertPort port rest

/-- A port can be listened on once. -/
def listen (network : Network) (port : Nat) : Except Fault Network :=
  if network.listening.contains port then
    .error (.command ("listen on port " ++ toString port ++ ": Address already in use"))
  else .ok { network with listening := insertPort port network.listening }

end Network

end ToyUnix
