import MerkleCells.Hash.Basic

/-!
The digits of a key: two for each byte, the high half before the low one. `Digits.ofKey` is the
sequence itself; the other functions compare and cut keys by it without building it.
-/
namespace MerkleCells

/-- A hexadecimal digit. -/
abbrev Digit := Fin 16

namespace Digits

/-- The high half of a byte. -/
def high (b : UInt8) : Digit := ⟨b.toNat / 16, by have := b.toNat_lt; omega⟩

/-- The low half of a byte. -/
def low (b : UInt8) : Digit := ⟨b.toNat % 16, Nat.mod_lt _ (by decide)⟩

/-- The digits of a key, in order. -/
def ofKey (key : Bytes) : List Digit := key.flatMap fun b => [high b, low b]

/-- Number of digits of a key. -/
def count (key : Bytes) : Nat := 2 * key.length

/-- The digit of a key at a place below `count key`. -/
def digit? (key : Bytes) (i : Nat) : Option Digit :=
  key[i / 2]?.map fun b => if i % 2 = 0 then high b else low b

/-- How many digits the whole bytes make that two keys share in front, as far as both digits of a
byte are within `limit`. -/
def commonBytes : Bytes → Bytes → (limit : Nat) → Nat
  | a :: as, b :: bs, limit + 2 => if a = b then commonBytes as bs limit + 2 else 0
  | _, _, _ => 0

/-- Where two keys part from place `i` on, digit by digit and at most `left` digits further. -/
def partFrom (a b : Bytes) (i : Nat) : (left : Nat) → Nat
  | 0 => i
  | left + 1 => if digit? a i = digit? b i then partFrom a b (i + 1) left else i

/-- How many leading digits two keys share, at most `limit`. Whole bytes are compared first, then
single digits from where these differ or would not fit. -/
def common (a b : Bytes) (limit : Nat) : Nat :=
  let limit := min limit (min (count a) (count b))
  let whole := commonBytes a b limit
  partFrom a b whole (limit - whole)

/-- How many leading digits two keys share. -/
def shared (a b : Bytes) : Nat := common a b (min (count a) (count b))

/-- The first `depth` digits of a key, filled up to whole bytes with a zero digit. A key that has
fewer digits has no such beginning. -/
def leading? (key : Bytes) (depth : Nat) : Option Bytes :=
  match key, depth with
  | _, 0 => some []
  | b :: _, 1 => some [UInt8.ofNat (16 * (high b).val)]
  | b :: rest, depth + 2 => (leading? rest depth).map (b :: ·)
  | [], _ + 1 => none

/-- Whether a key begins with the first `depth` digits of `path`. -/
def beginsWith (key path : Bytes) (depth : Nat) : Bool :=
  decide (depth ≤ count key) && common key path depth == depth

theorem length_ofKey (key : Bytes) : (ofKey key).length = count key := by
  induction key with
  | nil => rfl
  | cons b rest ih =>
    simp only [ofKey, List.flatMap_cons, List.length_append, List.length_cons, List.length_nil] at ih ⊢
    rw [ih, count, count, List.length_cons]
    omega

/-- The sequence has the digits that `digit?` tells one by one. -/
theorem getElem?_ofKey (key : Bytes) (i : Nat) : (ofKey key)[i]? = digit? key i := by
  induction key generalizing i with
  | nil => simp [ofKey, digit?]
  | cons b rest ih =>
    match i with
    | 0 => rfl
    | 1 => rfl
    | i + 2 =>
      have half : (i + 2) / 2 = i / 2 + 1 := by omega
      have parity : (i + 2) % 2 = i % 2 := by omega
      have step : (ofKey (b :: rest))[i + 2]? = (ofKey rest)[i]? := rfl
      rw [step, ih i, digit?, digit?, half, parity, List.getElem?_cons_succ]

end Digits

/-- The digit of a hash at a place below 64. -/
def Hash.digit? (h : Hash) (i : Nat) : Option Digit := Digits.digit? h.bytes i

end MerkleCells
