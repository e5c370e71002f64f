import ToyUnix.Fault

/-!
A position in a list of items. The cursor may stand on any item or behind the last one.
-/

set_option autoImplicit false

namespace ToyUnix

structure Cursor (α : Type) where
  items : List α
  index : Nat := 0
  deriving Repr

namespace Cursor

variable {α : Type}

def atEnd (cursor : Cursor α) : Bool := cursor.items.length ≤ cursor.index

def current? (cursor : Cursor α) : Option α := cursor.items[cursor.index]?

def next? (cursor : Cursor α) : Option α := cursor.items[cursor.index + 1]?

def previous? (cursor : Cursor α) : Option α :=
  match cursor.index with
  | 0 => none
  | i + 1 => cursor.items[i]?

def rest (cursor : Cursor α) : List α := cursor.items.drop cursor.index

def advance (cursor : Cursor α) : Except Fault (Cursor α) :=
  if cursor.atEnd then .error (.badSyntax "unexpected end of input")
  else .ok { cursor with index := cursor.index + 1 }

def back (cursor : Cursor α) : Except Fault (Cursor α) :=
  match cursor.index with
  | 0 => .error (.badSyntax "cursor is at the start of input")
  | i + 1 => .ok { cursor with index := i }

def take (cursor : Cursor α) : Option α × Cursor α :=
  match cursor.current? with
  | some item => (some item, { cursor with index := cursor.index + 1 })
  | none => (none, cursor)

end Cursor

end ToyUnix
