/-! # UTF-8

Bytes of files read as text. Decoding stops at the first bytes that are no character and says which
they are and why. -/

namespace Analizador.Text.Utf8

/-- Why some bytes are no character. -/
inductive Reason where
  | start
  | continuation
  | truncated
  deriving DecidableEq, Repr, Inhabited

/-- The wording of a reason. -/
def Reason.message : Reason → String
  | start => "invalid start byte"
  | continuation => "invalid continuation byte"
  | truncated => "unexpected end of data"

/-- What the next bytes are: a character with its length, or bytes that are none, with their number.
-/
inductive Piece where
  | char (c : Char) (length : Nat)
  | bad (reason : Reason) (length : Nat)
  deriving DecidableEq, Repr, Inhabited

/-- The continuation bytes. -/
def continues (b : UInt8) : Bool := 0x80 ≤ b && b ≤ 0xbf

/-- Whether a second byte may follow the first byte of a longer character: overlong forms,
surrogates and code points beyond the last one are excluded. -/
def second (first b : UInt8) : Bool :=
  continues b && !(first == 0xe0 && b < 0xa0) && !(first == 0xed && 0xa0 ≤ b) &&
    !(first == 0xf0 && b < 0x90) && !(first == 0xf4 && 0x90 ≤ b)

/-- The number of bytes that a first byte announces. -/
def announced? (first : UInt8) : Option Nat :=
  if first < 0x80 then some 1
  else if first < 0xc2 then none
  else if first < 0xe0 then some 2
  else if first < 0xf0 then some 3
  else if first < 0xf5 then some 4
  else none

/-- The bits that a first byte contributes. -/
def leadingBits (first : UInt8) (length : Nat) : Nat :=
  match length with
  | 1 => first.toNat
  | 2 => first.toNat % 32
  | 3 => first.toNat % 16
  | _ => first.toNat % 8

/-- Reads the bytes that are still missing. `taken` counts the bytes before them. -/
def following (first : UInt8) (bits taken : Nat) : Nat → List UInt8 → Piece
  | 0, _ => .char (Char.ofNat bits) taken
  | _ + 1, [] => .bad .truncated taken
  | missing + 1, b :: rest =>
    if (if taken = 1 then second first b else continues b) then
      following first (bits * 64 + b.toNat % 64) (taken + 1) missing rest
    else .bad .continuation taken

/-- The first piece of some bytes. -/
def piece (first : UInt8) (rest : List UInt8) : Piece :=
  match announced? first with
  | none => .bad .start 1
  | some length => following first (leadingBits first length) 1 (length - 1) rest

/-- Bytes that are no text: where, how many and why. -/
structure Fault where
  position : Nat
  bytes : List UInt8
  reason : Reason
  deriving DecidableEq, Repr, Inhabited

/-- A byte in two hexadecimal digits. -/
def hexByte (b : UInt8) : String :=
  String.ofList [Nat.digitChar (b.toNat / 16), Nat.digitChar (b.toNat % 16)]

/-- The wording of a fault. -/
def Fault.message (f : Fault) : String :=
  match f.bytes with
  | [b] =>
    s!"'utf-8' codec can't decode byte 0x{hexByte b} in position {f.position}: {f.reason.message}"
  | bs =>
    s!"'utf-8' codec can't decode bytes in position {f.position}-{f.position + bs.length - 1}: " ++
      f.reason.message

/-- Decodes bytes from a position on. `skip` counts the bytes that belong to the character before.
-/
def decodeFrom (position skip : Nat) : List UInt8 → Except Fault (List Char)
  | [] => .ok []
  | b :: rest =>
    match skip with
    | skip + 1 => decodeFrom (position + 1) skip rest
    | 0 =>
      match piece b rest with
      | .char c length => do return c :: (← decodeFrom (position + 1) (length - 1) rest)
      | .bad reason length => .error ⟨position, (b :: rest).take length, reason⟩

/-- Decodes bytes. -/
def decode (bytes : List UInt8) : Except Fault String := do
  return String.ofList (← decodeFrom 0 0 bytes)

/-- Decodes bytes, writing those that are no text by their numbers. `skip` counts bytes already
written. -/
def showFrom (skip : Nat) : List UInt8 → List Char
  | [] => []
  | b :: rest =>
    match skip with
    | skip + 1 => showFrom skip rest
    | 0 =>
      match piece b rest with
      | .char c length => c :: showFrom (length - 1) rest
      | .bad _ length =>
        ((b :: rest).take length).flatMap (fun b => ("\\x" ++ hexByte b).toList) ++
          showFrom (length - 1) rest

/-- The text of bytes of any kind. -/
def shown (bytes : List UInt8) : String := String.ofList (showFrom 0 bytes)

/-- The bytes of a text. -/
def encode (s : String) : List UInt8 := s.toUTF8.toList

/-- Line ends of every convention as single line feeds. -/
def unifyLineEnds : List Char → List Char
  | [] => []
  | '\r' :: '\n' :: rest => '\n' :: unifyLineEnds rest
  | '\r' :: rest => '\n' :: unifyLineEnds rest
  | c :: rest => c :: unifyLineEnds rest

end Analizador.Text.Utf8
