import ToyUnix.Utility.Basic

/-!
The utility `ping`, which pauses after each reply.
-/

set_option autoImplicit false

namespace ToyUnix

namespace Utility

def pingCount : Nat := 3

def pingLine (reached : Bool) (address : String) (sequence : Nat) : String :=
  if reached then "reply from " ++ address ++ ": icmp_seq=" ++ toString sequence
  else "from " ++ address ++ ": icmp_seq=" ++ toString sequence ++ " Destination Host Unreachable"

def pingFrom (run : Invocation) (network : Nat) (address : String) (sequence : Nat) :
    Nat → Job Nat
  | 0 => return 0
  | left + 1 => do
    let w ← Job.get
    let reached := (w.networks[network]?).any (·.replies address)
    Job.modify fun w => run.writeLine w (pingLine reached address sequence)
    Job.pause
    let others ← pingFrom run network address (sequence + 1) left
    return others + if reached then 1 else 0

def ping (run : Invocation) : Job Int :=
  match run.args with
  | [] => Job.throw (.command "usage: ping <host>")
  | host :: _ => do
    let w ← Job.get
    match run.computer.network with
    | none =>
      Job.modify (run.writeLine · "ping: connect: Network is unreachable")
      return 2
    | some network =>
      match (w.networks[network]?).bind (·.resolve? host) with
      | none =>
        Job.modify (run.writeLine · ("ping: " ++ host ++ ": Name or service not known"))
        return 2
      | some address =>
        Job.modify (run.writeLine · ("PING " ++ host ++ " (" ++ address ++ ")"))
        let received ← pingFrom run network address 1 pingCount
        Job.modify (run.writeLine · (toString pingCount ++ " packets transmitted, "
          ++ toString received ++ " received"))
        return if 0 < received then 0 else 1

end Utility

end ToyUnix
