import ToyUnix.Text.Lines
import ToyUnix.World

/-!
Consoles: where a script writes and reads. A pipe, an input or a file stands in front of another
console and passes on what it does not handle itself.
-/

set_option autoImplicit false

namespace ToyUnix

inductive Console
  | buffer (id : Nat)
  | terminal (id : Nat)
  /-- Keeps the output for the next command of a pipeline. -/
  | pipe (id : Nat) (parent : Console)
  /-- Has lines of its own to read. -/
  | input (id : Nat) (parent : Console)
  /-- Sends the output to a file. -/
  | file (writer : Nat) (parent : Console)
  deriving DecidableEq, Repr

namespace Console

def clearSequence : String := "\x1b[2J\x1b[H"

def titleSequence (title : String) : String := "\x1b]0;" ++ title ++ "\x07"

def updateBuffer (w : World) (id : Nat) (f : BufferState → BufferState) : World :=
  { w with buffers := w.buffers.modify id f }

def updateTerminal (w : World) (id : Nat) (f : TerminalState → TerminalState) : World :=
  { w with terminals := w.terminals.modify id f }

def emit (w : World) (id : Nat) (text : String) : World :=
  updateTerminal w id fun state => { state with output := state.output ++ text }

def write (w : World) (text : String) : Console → World
  | .buffer id => updateBuffer w id fun state => { state with output := state.output ++ text }
  | .terminal id => emit w id text
  | .pipe id _ => { w with pipes := w.pipes.modify id (· ++ text) }
  | .input _ parent => write w text parent
  | .file writer _ => { w with files := w.files.writeBytes writer (Utf8.encode text) }

def writeLine (w : World) (text : String) (console : Console) : World :=
  write (write w text console) "\n" console

/-- A buffer forgets its output when it is cleared; pipes and files are not cleared. -/
def clear (w : World) : Console → World
  | .buffer id =>
    updateBuffer w id fun state => { state with output := "", clears := state.clears + 1 }
  | .terminal id => emit w id clearSequence
  | .pipe _ _ | .file _ _ => w
  | .input _ parent => clear w parent

def title (w : World) : Console → String
  | .buffer id => (w.buffers[id]?.map (·.title)).getD ""
  | .terminal id => (w.terminals[id]?.map (·.title)).getD ""
  | .pipe _ parent | .input _ parent | .file _ parent => title w parent

def setTitle (w : World) (text : String) : Console → World
  | .buffer id => updateBuffer w id fun state => { state with title := text }
  | .terminal id =>
    emit (updateTerminal w id fun state => { state with title := text }) id
      (titleSequence text)
  | .pipe _ parent | .input _ parent | .file _ parent => setTitle w text parent

def isLineEnd (c : Char) : Bool := c = '\n' || c = '\r'

/-- A line without its ending, which is any run of newlines and carriage returns. -/
def trimLineEnd (line : String) : String :=
  String.ofList ((line.toList.reverse.dropWhile isLineEnd).reverse)

/-- The next line of a byte input. A line that is no text is used up but not given. -/
def takeTerminalLine (input : Bytes) : Option String × Bytes :=
  match Reader.takeLine input with
  | ([], rest) => (none, rest)
  | (line, rest) =>
    match Utf8.decode line with
    | .ok text => (some (trimLineEnd text), rest)
    | .error _ => (none, rest)

def readLine (w : World) : Console → Option String × World
  | .buffer id =>
    match w.buffers[id]?.map (·.input) with
    | some (line :: rest) =>
      (some line, updateBuffer w id fun state => { state with input := rest })
    | _ => (none, w)
  | .terminal id =>
    match w.terminals[id]? with
    | none => (none, w)
    | some state =>
      let (line, rest) := takeTerminalLine state.input
      (line, updateTerminal w id fun state => { state with input := rest })
  | .input id _ =>
    match w.inputs[id]? with
    | some (line :: rest) => (some line, { w with inputs := w.inputs.set id rest })
    | _ => (none, w)
  | .pipe _ parent | .file _ parent => readLine w parent

/-- No more lines than this can still be read. -/
def linesLeft (w : World) : Console → Nat
  | .buffer id => (w.buffers[id]?.map (·.input.length)).getD 0
  | .terminal id => (w.terminals[id]?.map (·.input.length)).getD 0
  | .input id _ => (w.inputs[id]?.map (·.length)).getD 0
  | .pipe _ parent | .file _ parent => linesLeft w parent

def flush (w : World) : Console → Except Fault Unit × World
  | .buffer _ | .terminal _ | .pipe _ _ => (.ok (), w)
  | .input _ parent => flush w parent
  | .file writer _ =>
    match w.files.flush writer with
    | (.ok (), files) => (.ok (), { w with files })
    | (.error fault, files) => (.error (.stream fault), { w with files })

def addBuffer (w : World) (lines : List String) : Console × World :=
  (.buffer w.buffers.length, { w with buffers := w.buffers ++ [{ input := lines }] })

def addTerminal (w : World) (input : Bytes) : Console × World :=
  (.terminal w.terminals.length, { w with terminals := w.terminals ++ [{ input }] })

def addPipe (w : World) (parent : Console) : Console × World :=
  (.pipe w.pipes.length parent, { w with pipes := w.pipes ++ [""] })

def addInput (w : World) (text : String) (parent : Console) : Console × World :=
  (.input w.inputs.length parent, { w with inputs := w.inputs ++ [textLines text] })

def output (w : World) : Console → String
  | .buffer id => (w.buffers[id]?.map (·.output)).getD ""
  | .terminal id => (w.terminals[id]?.map (·.output)).getD ""
  | .pipe id _ => w.pipes[id]?.getD ""
  | .input _ _ | .file _ _ => ""

def drain (w : World) (console : Console) : String × World :=
  (output w console,
    match console with
    | .buffer id => updateBuffer w id fun state => { state with output := "" }
    | .terminal id => updateTerminal w id fun state => { state with output := "" }
    | .pipe id _ => { w with pipes := w.pipes.set id "" }
    | .input _ _ | .file _ _ => w)

/-- The writers that a console holds, in the order in which they are closed with it. -/
def writers : Console → List Nat
  | .buffer _ | .terminal _ => []
  | .pipe _ parent | .input _ parent => writers parent
  | .file writer parent => writers parent ++ [writer]

end Console

end ToyUnix
