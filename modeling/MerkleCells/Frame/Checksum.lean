import MerkleCells.Bytes

/-!
Checksums of frames: a mix of all bytes in four lanes of 64-bit words, of which a frame holds the low
half.
-/
namespace MerkleCells.Frame.Checksum

def prime₁ : UInt64 := 0x9E3779B185EBCA87
def prime₂ : UInt64 := 0xC2B2AE3D27D4EB4F
def prime₃ : UInt64 := 0x165667B19E3779F9
def prime₄ : UInt64 := 0x85EBCA77C2B2AE63
def prime₅ : UInt64 := 0x27D4EB2F165667C5

/-- Moves bits to the left, and those that fall out to the right end. -/
def rotate (w n : UInt64) : UInt64 := (w <<< n) ||| (w >>> (64 - n))

/-- Mixes a word into a lane. -/
def round (lane w : UInt64) : UInt64 := rotate (lane + w * prime₂) 31 * prime₁

/-- The word in the first `width` bytes. -/
def word (width : Nat) (bytes : Bytes) : UInt64 := UInt64.ofNat (Bytes.ofLittleEndian (bytes.take width))

structure Lanes where
  a : UInt64
  b : UInt64
  c : UInt64
  d : UInt64

namespace Lanes

def start : Lanes := ⟨prime₁ + prime₂, prime₂, 0, 0 - prime₁⟩

/-- Mixes 32 bytes in. -/
def step (l : Lanes) (bytes : Bytes) : Lanes :=
  ⟨round l.a (word 8 bytes), round l.b (word 8 (bytes.drop 8)), round l.c (word 8 (bytes.drop 16)),
    round l.d (word 8 (bytes.drop 24))⟩

/-- Mixes all whole stripes of 32 bytes in, `fuel` at most: the lanes, and the bytes after them. -/
def run : (fuel : Nat) → Lanes → Bytes → Lanes × Bytes
  | 0, l, bytes => (l, bytes)
  | fuel + 1, l, bytes => if bytes.length < 32 then (l, bytes) else run fuel (l.step bytes) (bytes.drop 32)

def join (l : Lanes) : UInt64 :=
  [l.a, l.b, l.c, l.d].foldl (fun h lane => (h ^^^ round 0 lane) * prime₁ + prime₄)
    (rotate l.a 1 + rotate l.b 7 + rotate l.c 12 + rotate l.d 18)

end Lanes

/-- Mixes single bytes in. -/
def mixBytes (h : UInt64) (bytes : Bytes) : UInt64 :=
  bytes.foldl (fun h b => rotate (h ^^^ b.toUInt64 * prime₅) 11 * prime₁) h

/-- Mixes half a word in, if there is one, and then single bytes. -/
def mixHalf (h : UInt64) (bytes : Bytes) : UInt64 :=
  if bytes.length < 4 then mixBytes h bytes
  else mixBytes (rotate (h ^^^ word 4 bytes * prime₁) 23 * prime₂ + prime₃) (bytes.drop 4)

/-- Mixes words in, `fuel` at most, and then what is left. -/
def mixWords : (fuel : Nat) → (h : UInt64) → Bytes → UInt64
  | 0, h, bytes => mixHalf h bytes
  | fuel + 1, h, bytes =>
    if bytes.length < 8 then mixHalf h bytes
    else mixWords fuel (rotate (h ^^^ round 0 (word 8 bytes)) 27 * prime₁ + prime₄) (bytes.drop 8)

/-- Spreads every bit over the word. -/
def finish (h : UInt64) : UInt64 :=
  let h := (h ^^^ (h >>> 33)) * prime₂
  let h := (h ^^^ (h >>> 29)) * prime₃
  h ^^^ (h >>> 32)

def digest (bytes : Bytes) : UInt64 :=
  let (h, rest) :=
    if bytes.length < 32 then (prime₅, bytes)
    else
      let (lanes, rest) := Lanes.run bytes.length .start bytes
      (lanes.join, rest)
  finish (mixWords rest.length (h + UInt64.ofNat bytes.length) rest)

end MerkleCells.Frame.Checksum
