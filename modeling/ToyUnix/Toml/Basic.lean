/-!
TOML documents as trees, and how a document grows statement by statement. A table remembers how it
came about, because that decides what may be added to it later.
-/

set_option autoImplicit false

namespace ToyUnix

inductive TableKind
  /-- Written out in braces, and complete. -/
  | inline
  /-- Only mentioned on the way to a deeper table. -/
  | implicit
  /-- Made by a key with dots. -/
  | dotted
  /-- Opened by a header. -/
  | header
  deriving DecidableEq, Repr

inductive Toml
  | string (text : String)
  | integer (value : Int)
  | boolean (value : Bool)
  /-- A number with a fraction or an exponent. -/
  | fraction
  /-- A date, a time of day, or both. -/
  | moment
  | array (items : List Toml)
  | table (kind : TableKind) (entries : List (String × Toml))
  /-- An array of tables, one for each header in double brackets. -/
  | tables (items : List (List (String × Toml)))
  deriving Repr

namespace Toml

abbrev Entries := List (String × Toml)

def find? : Entries → String → Option Toml
  | [], _ => none
  | (k, v) :: rest, key => if k = key then some v else find? rest key

def put : Entries → String → Toml → Entries
  | [], key, value => [(key, value)]
  | (k, v) :: rest, key, value =>
    if k = key then (k, value) :: rest else (k, v) :: put rest key value

/-- Changes the table at a path below a table of kind `kind`; tables that are missing are made. Keys
with dots do not lead into tables that have a header. -/
def descend (dotted : Bool) (change : TableKind → Entries → Option Entries) :
    List String → TableKind → Entries → Option Entries
  | [], kind, entries => change kind entries
  | key :: keys, _, entries =>
    match find? entries key with
    | none => do
      let kind := if dotted then .dotted else .implicit
      let inner ← descend dotted change keys kind []
      return put entries key (.table kind inner)
    | some (.table kind inner) =>
      if kind = .inline ∨ (dotted ∧ kind = .header) then none
      else do
        let inner ← descend dotted change keys kind inner
        return put entries key (.table kind inner)
    | some (.tables items) =>
      match items.getLast? with
      | none => none
      | some last => do
        let last ← descend dotted change keys .header last
        return put entries key (.tables (items.dropLast ++ [last]))
    | some _ => none

/-- Adds `key = value` to a table; a key may be there only once. A dotted path ends in a table that
was made by dots. -/
def assign (path : List String) (key : String) (value : Toml) :
    TableKind → Entries → Option Entries :=
  descend true
    (fun kind entries =>
      if path ≠ [] ∧ kind ≠ .dotted then none
      else if (find? entries key).isSome then none
      else some (put entries key value))
    path

/-- Opens the table of a header. One that was only mentioned so far may be opened. -/
def openTable (path : List String) (key : String) (entries : Entries) : Option Entries :=
  descend false
    (fun _ entries =>
      match find? entries key with
      | none => some (put entries key (.table .header []))
      | some (.table .implicit inner) => some (put entries key (.table .header inner))
      | some _ => none)
    path .header entries

/-- Opens the next table of an array of tables. -/
def openItem (path : List String) (key : String) (entries : Entries) : Option Entries :=
  descend false
    (fun _ entries =>
      match find? entries key with
      | none => some (put entries key (.tables [[]]))
      | some (.tables items) => some (put entries key (.tables (items ++ [[]])))
      | some _ => none)
    path .header entries

end Toml

end ToyUnix
