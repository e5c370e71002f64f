import ToyUnix.Shell.Context
import ToyUnix.Text.Blank

/-!
The `test` built-in and its bracketed forms: status 0 for a condition that holds, 1 for one that
does not, and 2 with a diagnostic for one that makes no sense.
-/

set_option autoImplicit false

namespace ToyUnix

namespace Condition

/-- What conditions can ask about files, by path text as typed. -/
structure FileTests where
  isFile : String → Bool
  isDirectory : String → Bool

def fileTests (w : World) (ctx : Context) : FileTests :=
  let ask (question : Question) (path : String) : Bool :=
    match ctx.fileSystem? w with
    | none => false
    | some fs => w.files.answers question (w.files.route fs (ctx.absolute w path))
  ⟨ask .isFile, ask .isDirectory⟩

inductive Comparison
  | eq
  | ne
  | lt
  | le
  | gt
  | ge
  deriving DecidableEq, Repr

def Comparison.ofName? : String → Option Comparison
  | "-eq" => some .eq
  | "-ne" => some .ne
  | "-lt" => some .lt
  | "-le" => some .le
  | "-gt" => some .gt
  | "-ge" => some .ge
  | _ => none

def Comparison.holds : Comparison → Int → Int → Bool
  | .eq, a, b => a = b
  | .ne, a, b => a ≠ b
  | .lt, a, b => a < b
  | .le, a, b => a ≤ b
  | .gt, a, b => b < a
  | .ge, a, b => b ≤ a

inductive Binary
  | same
  | different
  | compare (comparison : Comparison)
  deriving DecidableEq, Repr

def Binary.ofName? : String → Option Binary
  | "=" | "==" => some .same
  | "!=" => some .different
  | name => (Comparison.ofName? name).map .compare

/-- Numbers have 64 bits and may have blanks around them. -/
def integer (text : String) : Except String Int :=
  match readSigned? Int64.minValue.toInt Int64.maxValue.toInt (trimBlanks text) with
  | some n => .ok n
  | none => .error (text ++ ": integer expression expected")

def Binary.holds (op : Binary) (left right : String) : Except String Bool :=
  match op with
  | .same => .ok (left = right)
  | .different => .ok (left ≠ right)
  | .compare comparison =>
    match integer left with
    | .error message => .error message
    | .ok a =>
      match integer right with
      | .error message => .error message
      | .ok b => .ok (comparison.holds a b)

def unary (tests : FileTests) (op operand : String) : Except String Bool :=
  match op with
  | "-n" => .ok (operand ≠ "")
  | "-z" => .ok (operand = "")
  | "-e" => .ok (tests.isFile operand || tests.isDirectory operand)
  | "-f" => .ok (tests.isFile operand)
  | "-d" => .ok (tests.isDirectory operand)
  | _ => .error (op ++ ": unary operator expected")

/-- A negation applies to everything behind it, unless a binary operator comes second. -/
def evaluate (tests : FileTests) : List String → Except String Bool
  | [] => .ok false
  | [single] => .ok (single ≠ "")
  | [op, operand] => if op = "!" then .ok (operand = "") else unary tests op operand
  | [left, op, right] =>
    match Binary.ofName? op with
    | some binary => binary.holds left right
    | none =>
      if left = "!" then (evaluate tests [op, right]).map (!·)
      else .error (op ++ ": binary operator expected")
  | first :: second :: third :: fourth :: rest =>
    if first = "!" then (evaluate tests (second :: third :: fourth :: rest)).map (!·)
    else .error "too many arguments"

def closing? : String → Option String
  | "[" => some "]"
  | "[[" => some "]]"
  | _ => none

def arguments (command : String) (args : List String) : Except String (List String) :=
  match closing? command with
  | none => .ok args
  | some close =>
    if args.getLast? = some close then .ok args.dropLast
    else .error ("missing \x60" ++ close ++ "'")

def status (tests : FileTests) (command : String) (args : List String) : Int × Option String :=
  match (arguments command args).bind (evaluate tests) with
  | .ok true => (0, none)
  | .ok false => (1, none)
  | .error message => (2, some ("sh: " ++ command ++ ": " ++ message))

end Condition

end ToyUnix
