import MerkleCells.Bytes

/-!
Bit strings. Headers are read from their first bit on. Streams are read from their last bit back,
most significant bits first: `close` marks their end with a one, and `open?` turns them round.
-/
namespace MerkleCells.Frame

/-- Two to the power of `n`: how many values `n` bits have. -/
def twoPow (n : Nat) : Nat := 1 <<< n

def sum (ns : List Nat) : Nat := ns.foldr (· + ·) 0

/-- A bit string. -/
abbrev Bits := List Bool

namespace Bits

/-- The `width` low bits of a number, least significant first. -/
def ofNat : (width n : Nat) → Bits
  | 0, _ => []
  | width + 1, n => (n % 2 == 1) :: ofNat width (n / 2)

/-- The number that bits write, least significant first. -/
def toNat : Bits → Nat
  | [] => 0
  | b :: rest => b.toNat + 2 * toNat rest

/-- The bits of bytes, each from its least significant bit on. -/
def ofBytes (bytes : Bytes) : Bits := bytes.flatMap fun b => ofNat 8 b.toNat

/-- The bytes of bits. The last byte is filled up with zeros. -/
def toBytes : Bits → Bytes
  | b₀ :: b₁ :: b₂ :: b₃ :: b₄ :: b₅ :: b₆ :: b₇ :: rest =>
    UInt8.ofNat (toNat [b₀, b₁, b₂, b₃, b₄, b₅, b₆, b₇]) :: toBytes rest
  | [] => []
  | rest => [UInt8.ofNat (toNat rest)]

/-- The number in the first `width` bits, and the bits after them. -/
def take? (width : Nat) (bits : Bits) : Option (Nat × Bits) :=
  let front := bits.take width
  if front.length = width then some (toNat front, bits.drop width) else none

/-- The bytes of a stream: its bits and the mark of its end. -/
def close (bits : Bits) : Bytes := toBytes (bits ++ [true])

/-- The bits of a stream from its end back. The last byte holds the mark. -/
def open? (stream : Bytes) : Option Bits :=
  if stream.getLastD 0 = 0 then none
  else some (((ofBytes stream).reverse.dropWhile (! ·)).drop 1)

/-- The number in the first `width` bits, most significant first, where zeros follow the last bit. -/
def peek : (width : Nat) → Bits → Nat
  | 0, _ => 0
  | _ + 1, [] => 0
  | width + 1, b :: rest => b.toNat * twoPow width + peek width rest

/-- The number in the first `width` bits, most significant first, and the bits after them. -/
def pull? (width : Nat) (bits : Bits) : Option (Nat × Bits) :=
  let front := bits.take width
  if front.length = width then some (peek width front, bits.drop width) else none

end Bits

end MerkleCells.Frame
