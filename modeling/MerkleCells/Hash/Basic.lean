import MerkleCells.Hash.Blake3

/-!
Content addresses. A `Hash` is 32 bytes long; `Hash.digest` addresses a byte string by its BLAKE3
digest. Hashes are ordered as their bytes are, and written in hexadecimal.
-/
namespace MerkleCells

/-- A content address of 32 bytes. -/
structure Hash where
  bytes : Bytes
  length_eq : bytes.length = 32
  deriving DecidableEq

/-- Why a text names no hash. -/
inductive HexFault where
  | oddLength
  | badDigit (byte : UInt8) (position : Nat)
  | badLength
  deriving DecidableEq

namespace Hash

def size : Nat := 32

def zero : Hash := ⟨List.replicate 32 0, by decide⟩

instance : Inhabited Hash := ⟨zero⟩

instance : ToString Hash := ⟨fun h => h.bytes.hex⟩

/-- The hash with exactly these bytes. -/
def ofBytes? (bytes : Bytes) : Option Hash :=
  if h : bytes.length = 32 then some ⟨bytes, h⟩ else none

/-- The address of a byte string. -/
def digest (data : Bytes) : Hash := ⟨Blake3.digest data, Blake3.length_digest data⟩

/-- All 64 digits. -/
def hex (h : Hash) : String := h.bytes.hex

/-- The first eight digits, enough to recognise a hash by. -/
def short (h : Hash) : String := Bytes.hex (h.bytes.take 4)

/-- True of `zero` alone. -/
def isZero (h : Hash) : Bool := h == zero

/-- Byte strings in lexicographic order, a proper beginning first. -/
def compareBytes : Bytes → Bytes → Ordering
  | [], [] => .eq
  | [], _ :: _ => .lt
  | _ :: _, [] => .gt
  | a :: as, b :: bs => (compare a b).then (compareBytes as bs)

instance : Ord Hash := ⟨fun a b => compareBytes a.bytes b.bytes⟩

/-- The value of a hexadecimal digit of either case. -/
def hexValue? (b : UInt8) : Option Nat :=
  let n := b.toNat
  if 48 ≤ n ∧ n ≤ 57 then some (n - 48)
  else if 65 ≤ n ∧ n ≤ 70 then some (n - 55)
  else if 97 ≤ n ∧ n ≤ 102 then some (n - 87)
  else none

/-- Reads pairs of digits, the first of them at `position`. -/
def readHex (position : Nat) : Bytes → Except HexFault Bytes
  | high :: low :: rest =>
    match hexValue? high, hexValue? low with
    | none, _ => .error (.badDigit high position)
    | some _, none => .error (.badDigit low (position + 1))
    | some h, some l => do
      let bytes ← readHex (position + 2) rest
      return UInt8.ofNat (16 * h + l) :: bytes
  | _ => .ok []

/-- The hash written by a text. The text's length in bytes is looked at first, then its digits
from left to right, and the number of bytes last. -/
def ofHex (text : String) : Except HexFault Hash := do
  let digits := Bytes.ofText text
  if digits.length % 2 = 1 then throw .oddLength
  let bytes ← readHex 0 digits
  match ofBytes? bytes with
  | some h => return h
  | none => throw .badLength

end Hash

namespace HexFault

/-- A byte between quotes: named escapes for the common controls, `\u` and braces for whatever
else has no glyph, and otherwise the character of that number. -/
def quoted (b : UInt8) : String :=
  let n := b.toNat
  let escape : String :=
    if n = 0 then "\\0"
    else if n = 9 then "\\t"
    else if n = 10 then "\\n"
    else if n = 13 then "\\r"
    else if n = 39 then "\\'"
    else if n = 92 then "\\\\"
    else if n < 32 ∨ (127 ≤ n ∧ n ≤ 160) ∨ n = 173 then
      "\\u\x7b" ++ String.ofList (Nat.toDigits 16 n) ++ "\x7d"
    else String.singleton (Char.ofNat n)
  "'" ++ escape ++ "'"

def message : HexFault → String
  | .oddLength => "Odd number of digits"
  | .badDigit b position => "Invalid character " ++ quoted b ++ " at position " ++ toString position
  | .badLength => "Invalid string length"

end HexFault

end MerkleCells
