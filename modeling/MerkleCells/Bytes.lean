/-!
Byte strings: their hexadecimal and UTF-8 texts, and the words written in them. Encodings use
big-endian words, store files little-endian ones.
-/
namespace MerkleCells

/-- A byte string. -/
abbrev Bytes := List UInt8

namespace Bytes

/-- The `width` low bytes of `n`, least significant first. -/
def littleEndian : (width n : Nat) → Bytes
  | 0, _ => []
  | width + 1, n => UInt8.ofNat n :: littleEndian width (n / 256)

/-- The `width` low bytes of `n`, most significant first. -/
def bigEndian (width n : Nat) : Bytes := (littleEndian width n).reverse

/-- The number that a byte string writes, least significant byte first. -/
def ofLittleEndian : Bytes → Nat
  | [] => 0
  | b :: rest => b.toNat + 256 * ofLittleEndian rest

/-- The number that a byte string writes, most significant byte first. -/
def ofBigEndian (bytes : Bytes) : Nat := ofLittleEndian bytes.reverse

theorem length_littleEndian (width n : Nat) : (littleEndian width n).length = width := by
  induction width generalizing n with
  | zero => rfl
  | succ width ih => simp [littleEndian, ih]

theorem length_bigEndian (width n : Nat) : (bigEndian width n).length = width := by
  simp [bigEndian, length_littleEndian]

/-- A word holds every number of no more bits than it has. -/
theorem ofLittleEndian_littleEndian {width n : Nat} (h : n < 1 <<< (8 * width)) :
    ofLittleEndian (littleEndian width n) = n := by
  induction width generalizing n with
  | zero => simp only [Nat.mul_zero, Nat.shiftLeft_zero] at h; simp [littleEndian, ofLittleEndian]; omega
  | succ width ih =>
    have small : n / 256 < 1 <<< (8 * width) := by
      rw [Nat.one_shiftLeft] at h ⊢
      apply (Nat.div_lt_iff_lt_mul (by decide)).mpr
      rw [Nat.mul_succ, Nat.pow_add] at h
      exact h
    simp only [littleEndian, ofLittleEndian, ih small, UInt8.toNat_ofNat']
    omega

theorem ofBigEndian_bigEndian {width n : Nat} (h : n < 1 <<< (8 * width)) :
    ofBigEndian (bigEndian width n) = n := by
  simp [ofBigEndian, bigEndian, ofLittleEndian_littleEndian h]

theorem littleEndian_ofLittleEndian (bytes : Bytes) : littleEndian bytes.length (ofLittleEndian bytes) = bytes := by
  induction bytes with
  | nil => rfl
  | cons b rest ih =>
    have fits := b.toNat_lt
    have low : UInt8.ofNat (b.toNat + 256 * ofLittleEndian rest) = b := by
      apply UInt8.toNat_inj.mp
      rw [UInt8.toNat_ofNat']
      omega
    have high : (b.toNat + 256 * ofLittleEndian rest) / 256 = ofLittleEndian rest := by omega
    rw [List.length_cons, ofLittleEndian, littleEndian, low, high, ih]

theorem ofLittleEndian_lt (bytes : Bytes) : ofLittleEndian bytes < 1 <<< (8 * bytes.length) := by
  induction bytes with
  | nil => exact Nat.one_pos
  | cons b rest ih =>
    have fits := b.toNat_lt
    rw [Nat.one_shiftLeft] at ih ⊢
    rw [ofLittleEndian, List.length_cons, Nat.mul_succ, Nat.pow_add]
    omega

theorem bigEndian_ofBigEndian {bytes : Bytes} {width : Nat} (length : bytes.length = width) :
    bigEndian width (ofBigEndian bytes) = bytes := by
  have reversed := littleEndian_ofLittleEndian bytes.reverse
  rw [List.length_reverse, length] at reversed
  rw [bigEndian, ofBigEndian, reversed, List.reverse_reverse]

theorem ofBigEndian_lt {bytes : Bytes} {width : Nat} (length : bytes.length = width) :
    ofBigEndian bytes < 1 <<< (8 * width) := by
  have lt := ofLittleEndian_lt bytes.reverse
  rwa [List.length_reverse, length] at lt

/-- The lower-case digit of a number below sixteen. -/
def hexDigit (n : Nat) : Char :=
  if n < 10 then Char.ofNat ('0'.toNat + n) else Char.ofNat ('a'.toNat + (n - 10))

/-- Two lower-case digits for each byte. -/
def hex (bytes : Bytes) : String :=
  String.ofList (bytes.flatMap fun b => [hexDigit (b.toNat / 16), hexDigit (b.toNat % 16)])

/-- The bytes of a text in UTF-8. -/
def ofText (text : String) : Bytes := text.toUTF8.data.toList

/-- The text whose UTF-8 bytes these are, if there is one. -/
def toText? (bytes : Bytes) : Option String := String.fromUTF8? ⟨bytes.toArray⟩

/-- The bytes from `start` on, at most `count` of them. -/
def slice (bytes : Bytes) (start count : Nat) : Bytes := (bytes.drop start).take count

end Bytes

end MerkleCells
