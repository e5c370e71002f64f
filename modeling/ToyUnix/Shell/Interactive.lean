import ToyUnix.Shell.Run
import ToyUnix.Text.Alphanumeric

/-!
The interactive shell: one prompt cycle reads a line, or several while a quote is open, and runs it.
Completion offers the names that a word at the cursor could become.
-/

set_option autoImplicit false

namespace ToyUnix

namespace Shell

/-- Reads lines, with a prompt between them, until what was read has no open quote; nothing when the
input ends before that. `limit` is more than the number of lines there are. -/
def readLogical (settings : ShellSettings) : Nat → String → World → Option String × World
  | 0, _, w => (none, w)
  | limit + 1, before, w =>
    match settings.console.readLine w with
    | (none, w) => (none, w)
    | (some line, w) =>
      let text := before ++ line
      if (resolveQuoting text).isSome then (some text, w)
      else
        readLogical settings limit (text ++ "\n")
          (settings.console.write w settings.config.continuationPrompt)

def readCommand (settings : ShellSettings) (w : World) : Option String × World :=
  readLogical settings (settings.console.linesLeft w + 1) "" w

def takePending (id : Nat) (w : World) : Option Instruction × World :=
  match w.shells[id]?.map (·.pending) with
  | some (next :: rest) => (some next, w.updateShell id fun shell => { shell with pending := rest })
  | _ => (none, w)

def clearPending (id : Nat) (w : World) : World :=
  w.updateShell id fun shell => { shell with pending := [] }

/-- Runs what is pending. A `return` out of nowhere is only complained about; `exit` goes on to the
caller, and so does any other fault unless the shell is graceful. -/
def drain (call : Caller) (id : Nat) (shell : Context) (settings : ShellSettings) :
    Nat → Job Unit
  | 0 => return ()
  | limit + 1 => do
    match ← Job.update (takePending id) with
    | none => return ()
    | some tree =>
      match ← Job.attempt (call shell settings.console tree) with
      | .ok _ => drain call id shell settings limit
      | .error (.ended _ .callee) =>
        Job.modify fun w => settings.console.writeLine w Builtin.returnMessage
        drain call id shell settings limit
      | .error (.ended code .process) =>
        Job.modify (clearPending id)
        Job.throw (.ended code .process)
      | .error fault =>
        Job.modify (clearPending id)
        reportFault settings fault
        drain call id shell settings limit

def showPrompt (id : Nat) (settings : ShellSettings) (host : Context) (w : World) : World :=
  let w := showTitle w id host settings.console
  settings.console.write w ((host.prompt? w).getD settings.config.prompt)

/-- One prompt cycle. The end of input is an `exit`. -/
def cycle (call : Caller) (id scope : Nat) (settings : ShellSettings) (host : Context) :
    Job Unit := do
  let shell := Context.shell id scope settings host
  Job.modify (showPrompt id settings host)
  match ← Job.update (readCommand settings) with
  | none => Job.throw (.exit 0)
  | some line =>
    if isBlankText line then return ()
    else
      match parseScript settings.options line false with
      | .error fault => reportFault settings fault
      | .ok tree =>
        Job.modify (·.updateShell id fun shell =>
          { shell with pending := shell.pending ++ [tree], mode := .executing })
        let w ← Job.get
        let waiting := (w.shells[id]?.map (·.pending.length)).getD 0
        let result ← Job.attempt (drain call id shell settings (waiting + 1))
        Job.modify (setMode shell .idle)
        Job.ofExcept result

/-- The part of a text that a cut at a byte offset leaves, if the cut is between characters. -/
def takeBytes? : Nat → List Char → Option (List Char)
  | 0, _ => some []
  | _ + 1, [] => none
  | n + 1, c :: cs =>
    if c.utf8Size ≤ n + 1 then (takeBytes? (n + 1 - c.utf8Size) cs).map (c :: ·) else none
termination_by _ cs => cs.length

def isCompletable (c : Char) : Bool := isAlphanumeric c || c = '_'

/-- Where the word at the cursor begins, in bytes, and the names that begin with it. A cursor off
the line or within a character counts as one at the end. -/
def completions (w : World) (shell : Context) (line : String) (cursor : Nat) : Nat × List String :=
  let before := (takeBytes? cursor line.toList).getD line.toList
  let word := (before.reverse.takeWhile isCompletable).reverse
  let start := (String.ofList (before.take (before.length - word.length))).utf8ByteSize
  if word = [] then (start, [])
  else
    let names := (builtinNames ++ shell.commandNames w).filter fun name =>
      word.isPrefixOf name.toList
    (start, (sortTexts names).eraseReps)

end Shell

end ToyUnix
