/-!
UTF-8. `Utf8.pieces` cuts any byte sequence into characters and ill-formed stretches, each stretch
as long as it can be while it still begins some character. Reading strictly refuses the first such
stretch; reading leniently puts one replacement character for each.
-/

set_option autoImplicit false

namespace ToyUnix

abbrev Bytes := List UInt8

namespace Utf8

def encode (text : String) : Bytes := text.toList.flatMap String.utf8EncodeChar

/-- Allowed values of one continuation byte. -/
structure Span where
  lo : UInt8
  hi : UInt8
  deriving DecidableEq, Repr

def Span.contains (span : Span) (byte : UInt8) : Bool := span.lo ≤ byte && byte ≤ span.hi

def anyTail : Span := ⟨0x80, 0xBF⟩

/-- A character begun: the bytes still due, the bits so far, and the bytes so far. -/
structure Begun where
  due : List Span
  value : Nat
  size : Nat
  deriving DecidableEq, Repr

inductive Piece
  | char (c : Char) (size : Nat)
  | broken (size : Nat)
  | unfinished (size : Nat)
  deriving DecidableEq, Repr

/-- What a first byte begins. Overlong forms, surrogates and values past U+10FFFF are ruled out by
the span of the second byte. -/
def first (byte : UInt8) : Option Begun :=
  if byte ≤ 0x7F then some ⟨[], byte.toNat, 1⟩
  else if 0xC2 ≤ byte ∧ byte ≤ 0xDF then some ⟨[anyTail], byte.toNat % 32, 1⟩
  else if byte = 0xE0 then some ⟨[⟨0xA0, 0xBF⟩, anyTail], 0, 1⟩
  else if byte = 0xED then some ⟨[⟨0x80, 0x9F⟩, anyTail], 13, 1⟩
  else if 0xE1 ≤ byte ∧ byte ≤ 0xEF then some ⟨[anyTail, anyTail], byte.toNat % 16, 1⟩
  else if byte = 0xF0 then some ⟨[⟨0x90, 0xBF⟩, anyTail, anyTail], 0, 1⟩
  else if 0xF1 ≤ byte ∧ byte ≤ 0xF3 then some ⟨[anyTail, anyTail, anyTail], byte.toNat % 8, 1⟩
  else if byte = 0xF4 then some ⟨[⟨0x80, 0x8F⟩, anyTail, anyTail], 4, 1⟩
  else none

def start (byte : UInt8) : List Piece × Option Begun :=
  match first byte with
  | none => ([.broken 1], none)
  | some begun =>
    match begun.due with
    | [] => ([.char (Char.ofNat begun.value) 1], none)
    | _ => ([], some begun)

def feed (state : Option Begun) (byte : UInt8) : List Piece × Option Begun :=
  match state with
  | none => start byte
  | some begun =>
    match begun.due with
    | [] => start byte
    | span :: due =>
      if span.contains byte then
        let next : Begun := ⟨due, begun.value * 64 + byte.toNat % 64, begun.size + 1⟩
        if due = [] then ([.char (Char.ofNat next.value) next.size], none) else ([], some next)
      else
        let (pieces, state) := start byte
        (.broken begun.size :: pieces, state)

def piecesFrom (state : Option Begun) : Bytes → List Piece
  | [] => match state with
    | none => []
    | some begun => [.unfinished begun.size]
  | byte :: bytes =>
    let (pieces, state) := feed state byte
    pieces ++ piecesFrom state bytes

def pieces (bytes : Bytes) : List Piece := piecesFrom none bytes

def replacement : Char := Char.ofNat 0xFFFD

def decodeLossy (bytes : Bytes) : String :=
  String.ofList ((pieces bytes).map fun
    | .char c _ => c
    | .broken _ | .unfinished _ => replacement)

/-- Where and how a byte sequence stops being text. -/
inductive Malformed
  | invalid (size index : Nat)
  | incomplete (index : Nat)
  deriving DecidableEq, Repr

def Malformed.message : Malformed → String
  | .invalid size index =>
    "invalid utf-8 sequence of " ++ toString size ++ " bytes from index " ++ toString index
  | .incomplete index => "incomplete utf-8 byte sequence from index " ++ toString index

def readPieces (index : Nat) : List Piece → Except Malformed (List Char)
  | [] => .ok []
  | .char c size :: pieces =>
    match readPieces (index + size) pieces with
    | .ok chars => .ok (c :: chars)
    | .error fault => .error fault
  | .broken size :: _ => .error (.invalid size index)
  | .unfinished _ :: _ => .error (.incomplete index)

def decode (bytes : Bytes) : Except Malformed String :=
  (readPieces 0 (pieces bytes)).map String.ofList

end Utf8

end ToyUnix
