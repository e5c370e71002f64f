import ToyUnix.Path

/-!
What can go wrong. A fault about a file names the path it happened at, so that a namespace built
from others can restate it in its own paths (`Fault.mapPath`). Leaving a script early is not a
mistake, but it unwinds like one: `Fault.ended` carries the exit code and how far it unwinds.
-/

set_option autoImplicit false

namespace ToyUnix

inductive PathCause
  | notFound
  | readOnly
  | notADirectory
  | isADirectory
  | directoryNotEmpty
  | alreadyExists
  | busy
  | permissionDenied
  | notExecutable
  deriving DecidableEq, Repr

def PathCause.message : PathCause → String
  | .notFound => "No such file or directory"
  | .readOnly => "Read-only file system"
  | .notADirectory => "Not a directory"
  | .isADirectory => "Is a directory"
  | .directoryNotEmpty => "Directory not empty"
  | .alreadyExists => "File exists"
  | .busy => "Device or resource busy"
  | .permissionDenied => "Permission denied"
  | .notExecutable => "Not executable"

/-- How far an early end unwinds: a function or script only, or the whole process. -/
inductive Extent
  | callee
  | process
  deriving DecidableEq, Repr

/-- The coarse classes of stream failures. -/
inductive StreamCause
  | notFound
  | permissionDenied
  | other
  deriving DecidableEq, Repr

/-- Why a stream could not be read or flushed. -/
structure StreamFault where
  cause : StreamCause
  text : String
  deriving DecidableEq, Repr

inductive Fault
  | config (detail : String)
  | unauthorized (detail : String)
  | path (cause : PathCause) (place : String)
  | processDead (pid : Nat)
  | badSyntax (detail : String)
  | command (text : String)
  | ended (code : Int) (extent : Extent)
  | stream (fault : StreamFault)
  deriving DecidableEq, Repr

namespace Fault

def notFound (place : String) : Fault := .path .notFound place

def readOnly (place : String) : Fault := .path .readOnly place

def notADirectory (place : String) : Fault := .path .notADirectory place

def isADirectory (place : String) : Fault := .path .isADirectory place

def directoryNotEmpty (place : String) : Fault := .path .directoryNotEmpty place

def alreadyExists (place : String) : Fault := .path .alreadyExists place

def busy (place : String) : Fault := .path .busy place

def permissionDenied (place : String) : Fault := .path .permissionDenied place

def notExecutable (place : String) : Fault := .path .notExecutable place

/-- What `exit` raises. -/
def exit (code : Int) : Fault := .ended code .process

/-- What `return` raises. -/
def returned (code : Int) : Fault := .ended code .callee

def message : Fault → String
  | .config detail => "config error: " ++ detail
  | .unauthorized detail => "unauthorized: " ++ detail
  | .path cause place => place ++ ": " ++ cause.message
  | .processDead pid => "process " ++ toString pid ++ " is not alive"
  | .badSyntax detail => "syntax error: " ++ detail
  | .command text => text
  | .ended code _ => "script ended with exit code " ++ toString code
  | .stream fault => "I/O error: " ++ fault.text

/-- Restates the path of a fault; a fault without one stays as it is. -/
def mapPath (f : String → String) : Fault → Fault
  | .path cause place => .path cause (f place)
  | fault => fault

/-- Places a fault of an inner file system under the point where that is attached. -/
def rebase (base : String) : Fault → Fault := mapPath (PathText.rebase base)

/-- The form a fault takes behind a byte stream. -/
def toStream (fault : Fault) : StreamFault :=
  match fault with
  | .stream inner => inner
  | .path .notFound _ => ⟨.notFound, fault.message⟩
  | .path .permissionDenied _ | .path .readOnly _ => ⟨.permissionDenied, fault.message⟩
  | _ => ⟨.other, fault.message⟩

end Fault

end ToyUnix
