/-!
Paths. A canonical path is the list of its segments from the root down; a path text is whatever a
caller wrote. `Path.ofText` reads any text as a canonical path and `Path.text` writes one out. The
namespace `PathText` holds the operations that work on the written form itself, where nothing is
assumed about the texts.
-/

set_option autoImplicit false

namespace ToyUnix

/-- The pieces of a text between its separators: `n` separators give `n + 1` pieces. -/
def cut (sep : Char) : List Char → List (List Char)
  | [] => [[]]
  | c :: cs =>
    if c = sep then [] :: cut sep cs
    else match cut sep cs with
      | [] => [[c]]
      | piece :: pieces => (c :: piece) :: pieces

theorem cut_ne_nil (sep : Char) (cs : List Char) : cut sep cs ≠ [] := by
  cases cs with
  | nil => simp [cut]
  | cons c cs =>
    simp only [cut]
    split
    · simp
    · split <;> simp

/-- The segments of a canonical absolute path, from the root down; the root has none. -/
abbrev Path := List String

namespace Path

def root : Path := []

/-- One step down a path text: an empty piece and `.` stay, `..` leaves (but never the root). -/
def descend (path : Path) (piece : List Char) : Path :=
  if piece = [] ∨ piece = ['.'] then path
  else if piece = ['.', '.'] then path.dropLast
  else path ++ [String.ofList piece]

def ofPieces (pieces : List (List Char)) : Path := pieces.foldl descend []

def ofText (text : String) : Path := ofPieces (cut '/' text.toList)

def chars (path : Path) : List Char := path.flatMap fun segment => '/' :: segment.toList

/-- The root is written `/`; any other path has one slash before each segment. -/
def text (path : Path) : String :=
  match path with
  | [] => "/"
  | _ => String.ofList path.chars

/-- What the texts of all paths below `path` begin with. -/
def stem (path : Path) : List Char := path.chars ++ ['/']

/-- The root is its own parent. -/
def parent (path : Path) : Path := path.dropLast

def isWithin (path ancestor : Path) : Bool := ancestor.isPrefixOf path

def below? (path ancestor : Path) : Option Path :=
  if isWithin path ancestor then some (path.drop ancestor.length) else none

end Path

namespace PathText

def isSegment (piece : List Char) : Bool :=
  piece ≠ [] && piece ≠ ['.'] && piece ≠ ['.', '.']

/-- Canonical already: the root, or slash-led segments with nothing after the last. -/
def isCanonical (text : String) : Bool :=
  match text.toList with
  | ['/'] => true
  | '/' :: rest => (cut '/' rest).all isSegment
  | _ => false

def rebuild (text : String) : String := (Path.ofText text).text

/-- A canonical text is kept as it stands and any other one is rebuilt. -/
def normalize (text : String) : String :=
  if isCanonical text then text else rebuild text

def parent (text : String) : String :=
  match text.toList.reverse.dropWhile (· ≠ '/') with
  | [] | ['/'] => "/"
  | _ :: before => String.ofList before.reverse

def fileName (text : String) : String :=
  String.ofList (text.toList.reverse.takeWhile (· ≠ '/')).reverse

/-- An absolute `rel` does not depend on `base`. -/
def combine (base rel : String) : String :=
  match rel.toList with
  | '/' :: _ => normalize rel
  | _ => normalize (base ++ "/" ++ rel)

/-- Resolves what a user typed: `~` alone or before a slash stands for the home directory. -/
def makeAbsolute (cwd input home : String) : String :=
  match input.toList with
  | ['~'] => normalize home
  | '~' :: '/' :: rest => combine home (String.ofList rest)
  | _ => combine cwd input

/-- Compares the texts as written: `path` is `ancestor`, or continues it with a slash. -/
def isWithin (path ancestor : String) : Bool :=
  ancestor = "/" || path = ancestor
    || (ancestor.toList.isPrefixOf path.toList
        && (path.toList.drop ancestor.length).head? = some '/')

/-- The rest of `path` after `ancestor`, as a path of its own. -/
def below? (path ancestor : String) : Option String :=
  if !isWithin path ancestor then none
  else if ancestor = "/" then some path
  else
    let rest := path.toList.drop ancestor.length
    some (if rest = [] then "/" else String.ofList rest)

/-- Puts the absolute path `inner` under `base`; the opposite of `below?`. -/
def rebase (base inner : String) : String :=
  if base = "/" then inner else if inner = "/" then base else base ++ inner

end PathText

end ToyUnix
