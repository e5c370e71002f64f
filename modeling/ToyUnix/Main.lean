import ToyUnix.Terminal

/-!
The command line: the configuration is the file named by the first argument, or else by the
environment variable `VOS_CONFIG`, or else the default one. A file that cannot be read ends the
program with code 1.
-/

set_option autoImplicit false

namespace ToyUnix

def configPath? (args : List String) : IO (Option String) :=
  match args with
  | path :: _ => return some path
  | [] => IO.getEnv "VOS_CONFIG"

partial def readRest (input : IO.FS.Stream) (before : ByteArray) : IO ByteArray := do
  let block ← input.read 65536
  if block.isEmpty then return before else readRest input (before ++ block)

def runFile (path : String) (input : Bytes) : IO Terminal.Outcome := do
  let data ← IO.FS.readBinFile path
  match Utf8.decode data.toList with
  | .ok text => return Terminal.runText text input
  | .error _ => return ⟨1, ""⟩

end ToyUnix

def main (args : List String) : IO UInt32 := do
  let path ← ToyUnix.configPath? args
  let input := (← ToyUnix.readRest (← IO.getStdin) ByteArray.empty).toList
  let outcome ← match path with
    | some path => ToyUnix.runFile path input
    | none => pure (ToyUnix.Terminal.run {} input)
  (← IO.getStdout).putStr outcome.output
  return outcome.hostCode.toUInt32
