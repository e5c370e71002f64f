import ToyUnix.Config
import ToyUnix.Path

/-!
User accounts, and where each of them may change files.
-/

set_option autoImplicit false

namespace ToyUnix

/-- A user account on the computer with number `computer`. -/
structure User where
  id : Nat
  name : String
  privilege : Privilege
  computer : Nat
  home : String
  deriving DecidableEq, Repr

namespace User

def ofConfig (config : UserConfig) (computer : Nat) : User :=
  ⟨config.id, config.name, config.privilege, computer, config.homeDirectory⟩

def isRoot (user : User) : Bool := user.privilege = .root

/-- The account a computer boots with. -/
def isSuperUser (user : User) : Bool := user.id = 0 && user.isRoot

/-- Root may change anything, others what is in their home directory or in `/tmp`. -/
def canWrite (user : User) (path : Path) : Bool :=
  user.isRoot || PathText.isWithin path.text user.home || PathText.isWithin path.text "/tmp"

end User

end ToyUnix
