/-!
Quoting. A text is cut into segments that are quoted alike. A text that ends inside a quote, or
right after a backslash that still waits for its character, has no segments: it goes on in the next
line.
-/

set_option autoImplicit false

namespace ToyUnix

inductive Quoting
  | none
  /-- One character after a backslash. -/
  | escaped
  | single
  /-- Backslashes are kept for later. -/
  | double
  deriving DecidableEq, Repr

structure Segment where
  quoting : Quoting
  text : String
  position : Nat
  deriving DecidableEq, Repr

namespace Segment

/-- Where a scan stands. The characters collected so far are in order, and `start` is the place of
the first character of the segment. -/
inductive Scan
  | plain (text : List Char) (start : Nat)
  | escape (start : Nat)
  | single (text : List Char) (start : Nat)
  | double (text : List Char) (start : Nat)
  | doubleEscape (text : List Char) (start : Nat)
  deriving DecidableEq, Repr

def plain (text : List Char) (start : Nat) : List Segment :=
  if text = [] then [] else [⟨.none, String.ofList text, start⟩]

/-- What one character completes, and how the scan goes on. A backslash before a newline disappears
together with it. -/
def step (scan : Scan) (position : Nat) (c : Char) : List Segment × Scan :=
  match scan with
  | .plain text start =>
    if c = '\\' then (plain text start, .escape position)
    else if c = '\'' then (plain text start, .single [] position)
    else if c = '"' then (plain text start, .double [] position)
    else ([], .plain (text ++ [c]) (if text = [] then position else start))
  | .escape start =>
    if c = '\n' then ([], .plain [] 0)
    else ([⟨.escaped, String.ofList [c], start⟩], .plain [] 0)
  | .single text start =>
    if c = '\'' then ([⟨.single, String.ofList text, start⟩], .plain [] 0)
    else ([], .single (text ++ [c]) start)
  | .double text start =>
    if c = '"' then ([⟨.double, String.ofList text, start⟩], .plain [] 0)
    else if c = '\\' then ([], .doubleEscape text start)
    else ([], .double (text ++ [c]) start)
  | .doubleEscape text start => ([], .double (text ++ ['\\', c]) start)

def finish : Scan → Option (List Segment)
  | .plain text start => some (plain text start)
  | _ => none

def scanFrom (scan : Scan) (position : Nat) : List Char → Option (List Segment)
  | [] => finish scan
  | c :: cs =>
    let (done, next) := step scan position c
    (scanFrom next (position + 1) cs).map (done ++ ·)

end Segment

/-- The segments of a text, or nothing when the text is not complete. -/
def resolveQuoting (text : String) : Option (List Segment) :=
  Segment.scanFrom (.plain [] 0) 0 text.toList

end ToyUnix
