import ToyUnix.Files.Operations

/-!
Byte streams on files. A reader holds what the file held when it was opened. A writer collects bytes
and appends them to the file when it is flushed; it is opened through a view, which checks the
user's rights, but appends to the file system behind the view.
-/

set_option autoImplicit false

namespace ToyUnix

structure Reader where
  rest : Bytes
  deriving DecidableEq, Repr

namespace Reader

def read (reader : Reader) (n : Nat) : Bytes × Reader := (reader.rest.take n, ⟨reader.rest.drop n⟩)

def takeLine : Bytes → Bytes × Bytes
  | [] => ([], [])
  | byte :: bytes =>
    if byte = 10 then ([byte], bytes)
    else
      let (line, rest) := takeLine bytes
      (byte :: line, rest)

def readLine (reader : Reader) : Bytes × Reader :=
  let (line, rest) := takeLine reader.rest
  (line, ⟨rest⟩)

def readAll (reader : Reader) : Bytes × Reader := (reader.rest, ⟨[]⟩)

end Reader

namespace Files

def openRead (s : Files) (fs : FileSystem) (path : String) : Except Fault Reader :=
  (s.contents fs path).map Reader.mk

def addWriter (s : Files) (fs : FileSystem) (path : String) : Nat × Files :=
  (s.writers.length, { s with writers := s.writers ++ [⟨fs, PathText.normalize path, []⟩] })

/-- The file system that keeps the bytes behind a view. -/
def behindView : FileSystem → FileSystem
  | .view _ target _ => target
  | fs => fs

/-- Creates or empties the file now; with `appending` it is only created. -/
def openWrite (s : Files) (view : FileSystem) (path : String) (appending : Bool) :
    Except Fault Nat × Files :=
  match s.apply view path (if appending then .append [] else .write []) with
  | (.error fault, s) => (.error fault, s)
  | (.ok (), s) =>
    let (id, s) := s.addWriter (behindView view) path
    (.ok id, s)

def writer? (s : Files) (id : Nat) : Option Writer := s.writers[id]?

def setPending (s : Files) (id : Nat) (pending : Bytes) : Files :=
  match s.writer? id with
  | none => s
  | some writer => { s with writers := s.writers.set id { writer with pending } }

def writeBytes (s : Files) (id : Nat) (data : Bytes) : Files :=
  match s.writer? id with
  | none => s
  | some writer => s.setPending id (writer.pending ++ data)

/-- Appends the pending bytes to the file; they stay pending when that fails. -/
def flush (s : Files) (id : Nat) : Except StreamFault Unit × Files :=
  match s.writer? id with
  | none => (.ok (), s)
  | some writer =>
    if writer.pending = [] then (.ok (), s)
    else
      match s.apply writer.fs writer.path (.append writer.pending) with
      | (.ok (), s) => (.ok (), s.setPending id [])
      | (.error fault, s) => (.error fault.toStream, s)

/-- Closing flushes once more and forgets what cannot be written. -/
def closeWriter (s : Files) (id : Nat) : Files := ((s.flush id).2).setPending id []

end Files

end ToyUnix
