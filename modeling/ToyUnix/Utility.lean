import ToyUnix.Utility.Change
import ToyUnix.Utility.Ping
import ToyUnix.Utility.Show

/-!
Running a utility.
-/

set_option autoImplicit false

namespace ToyUnix

/-- `limit` bounds the directories that a removal goes through. -/
def Program.run (program : Program) (limit : Nat) (run : Invocation) : Job Int :=
  match program with
  | .cat => Job.update (Utility.cat run)
  | .chmod => Job.step (Utility.chmod run)
  | .ls => Job.step (Utility.ls run)
  | .mkdir => Job.step (Utility.mkdir run)
  | .ping => Utility.ping run
  | .ps => Job.update (Utility.ps run)
  | .pwd => Job.update (Utility.pwd run)
  | .rm => Utility.rm run limit
  | .whoami => Job.update (Utility.whoami run)

end ToyUnix
