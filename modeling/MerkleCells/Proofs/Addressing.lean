import Mathlib.Data.List.Induction
import Mathlib.Data.Nat.Basic
import Mathlib.Order.Basic
import Mathlib.Tactic.Tauto
import MerkleCells.Proofs.Digits

/-!
Keys as sequences of digits. What the functions on keys tell without building the sequences is what the
sequences say: a scan of two keys stops at the end of the longest beginning that both sequences have, a cut key is
the only way to write its digits in whole bytes with a zero digit behind them, and the sequences are ordered as the
keys are. `Digits.addressing_exact` puts this together.
-/
namespace MerkleCells.Digits

variable {a b key path : Bytes} {n depth : Nat}

/-! ### Beginnings of two sequences -/

theorem shares_iff_take :
    Shares a b n ↔ n ≤ (ofKey a).length ∧ n ≤ (ofKey b).length ∧ (ofKey a).take n = (ofKey b).take n := by
  rw [length_ofKey, length_ofKey]
  refine and_congr_right fun _ => and_congr_right fun _ => ?_
  constructor
  · intro same
    apply List.ext_getElem?
    intro i
    rw [List.getElem?_take, List.getElem?_take, getElem?_ofKey, getElem?_ofKey]
    by_cases lt : i < n
    · rw [if_pos lt, if_pos lt, same i lt]
    · rw [if_neg lt, if_neg lt]
  · intro same i lt
    have here := congrArg (·[i]?) same
    simpa only [List.getElem?_take, if_pos lt, getElem?_ofKey] using here

/-- The longest sequence that two others begin with. -/
structure LongestCommon (x y p : List Digit) : Prop where
  left : p <+: x
  right : p <+: y
  longest : ∀ q, q <+: x → q <+: y → q.length ≤ p.length

theorem shares_of_prefix {q : List Digit} (left : q <+: ofKey a) (right : q <+: ofKey b) : Shares a b q.length :=
  shares_iff_take.mpr ⟨left.length_le, right.length_le,
    (List.prefix_iff_eq_take.mp left).symm.trans (List.prefix_iff_eq_take.mp right)⟩

theorem longestCommon (a b : Bytes) :
    LongestCommon (ofKey a) (ofKey b) ((ofKey a).take (shared a b)) ∧
      ((ofKey a).take (shared a b)).length = shared a b := by
  have shares : Shares a b (shared a b) := (le_shared_iff a b _).mp (Nat.le_refl _)
  obtain ⟨inside, -, same⟩ := shares_iff_take.mp shares
  have length := List.length_take_of_le inside
  refine ⟨⟨List.take_prefix _ _, same ▸ List.take_prefix _ _, ?_⟩, length⟩
  intro q left right
  rw [length, le_shared_iff]
  exact shares_of_prefix left right

/-- A limit cuts off what keys share, wherever it lies. -/
theorem common_eq_min (a b : Bytes) (limit : Nat) : common a b limit = min limit (shared a b) := by
  apply eq_of_forall_le_iff
  intro n
  rw [le_common_iff, Nat.le_min, le_shared_iff]

/-! ### The first digits in whole bytes -/

/-- A byte string that writes the first `depth` digits of a key in no more bytes than they need, with a zero digit
in the half byte that may be left. -/
structure Leading (key : Bytes) (depth : Nat) (path : Bytes) : Prop where
  length : path.length = (depth + 1) / 2
  first : (ofKey path).take depth = (ofKey key).take depth
  padding : depth % 2 = 1 → (ofKey path)[depth]? = some 0

/-- The digit behind an odd number of digits is the second one of the last byte. -/
theorem getElem?_ofKey_last (length : path.length = (depth + 1) / 2) (odd : depth % 2 = 1) :
    (ofKey path)[depth]? = some (low (path.getLastD 0)) := by
  obtain ⟨init, last, rfl⟩ : ∃ init last, path = init ++ [last] := by
    refine (List.eq_nil_or_concat' path).resolve_left ?_
    rintro rfl
    rw [List.length_nil] at length
    omega
  have half : depth / 2 = init.length := by
    rw [List.length_append, List.length_singleton] at length
    omega
  rw [getElem?_ofKey, digit?, half, List.getElem?_concat_length, List.getLastD_concat, Option.map_some,
    if_neg (by omega)]

theorem leading?_eq_some_iff :
    leading? key depth = some path ↔ depth ≤ (ofKey key).length ∧ Leading key depth path := by
  constructor
  · intro found
    obtain ⟨shares, length, -⟩ := leading?_spec found
    obtain ⟨inside, -, same⟩ := shares_iff_take.mp shares
    refine ⟨inside, length, same.symm, ?_⟩
    intro odd
    rw [getElem?_ofKey_last length odd]
    exact congrArg some (Fin.ext (leading?_padding found odd))
  · rintro ⟨inside, length, first, padding⟩
    have full : depth ≤ (ofKey path).length := by
      rw [length_ofKey, count, length]
      omega
    have shares : Shares key path depth := shares_iff_take.mpr ⟨inside, full, first.symm⟩
    -- the key may be exchanged for `path`, which is its own beginning
    rw [leading?_eq_of_shares shares]
    refine leading?_self length fun odd => ?_
    have zero := padding odd
    rw [getElem?_ofKey_last length odd, Option.some.injEq] at zero
    exact congrArg Fin.val zero

/-! ### Order -/

/-- Bytes are ordered by their digits. -/
theorem lt_iff_halves (x y : UInt8) : x < y ↔ high x < high y ∨ high x = high y ∧ low x < low y := by
  constructor
  · intro lt
    by_cases part : high x = high y
    · exact .inr ⟨part, low_lt_of_lt lt part⟩
    · exact .inl (high_lt_of_lt lt part)
  · rintro (lt | ⟨same, lt⟩)
    · exact lt_of_high_lt lt
    · exact lt_of_low_lt same lt

theorem eq_iff_halves (x y : UInt8) : x = y ↔ high x = high y ∧ low x = low y :=
  ⟨fun same => ⟨congrArg high same, congrArg low same⟩, fun same => high_low_injective same.1 same.2⟩

theorem ofKey_cons (x : UInt8) (rest : Bytes) : ofKey (x :: rest) = high x :: low x :: ofKey rest := rfl

theorem ofKey_lt_iff : ofKey a < ofKey b ↔ a < b := by
  induction a generalizing b with
  | nil =>
    cases b with
    | nil => exact ⟨fun lt => absurd lt (List.lt_irrefl _), fun lt => absurd lt (List.lt_irrefl _)⟩
    | cons y b => exact ⟨fun _ => List.nil_lt_cons y b, fun _ => List.nil_lt_cons _ _⟩
  | cons x a ih =>
    cases b with
    | nil => exact ⟨fun lt => absurd lt (List.not_lt_nil _), fun lt => absurd lt (List.not_lt_nil _)⟩
    | cons y b =>
      rw [ofKey_cons, ofKey_cons, List.cons_lt_cons_iff, List.cons_lt_cons_iff, List.cons_lt_cons_iff, ih,
        lt_iff_halves, eq_iff_halves]
      tauto

theorem ofKey_inj : ofKey a = ofKey b ↔ a = b := by
  constructor
  · intro same
    apply eq_of_digits
    intro i
    rw [← getElem?_ofKey, same, getElem?_ofKey]
  · exact congrArg ofKey

/-! ### What is told of keys -/

/-- The functions on keys tell of two keys what their sequences of digits say: which digit stands at a place, how
long the longest common beginning is within a limit, the one form that a beginning has in whole bytes, whether both
begin with the same digits, and which key is the lesser one. -/
theorem addressing_exact (a b : Bytes) :
    (count a = (ofKey a).length ∧ ∀ i, digit? a i = (ofKey a)[i]?) ∧
    (∃ p, LongestCommon (ofKey a) (ofKey b) p ∧ shared a b = p.length ∧
      ∀ limit, common a b limit = min limit p.length) ∧
    (∀ depth ≤ (ofKey a).length, ∃ path, leading? a depth = some path ∧
      ∀ other, Leading a depth other ↔ other = path) ∧
    (∀ depth, beginsWith a b depth = true ↔
      depth ≤ (ofKey a).length ∧ depth ≤ (ofKey b).length ∧ (ofKey a).take depth = (ofKey b).take depth) ∧
    (ofKey a < ofKey b ↔ a < b) ∧ (ofKey a = ofKey b ↔ a = b) := by
  refine ⟨⟨(length_ofKey a).symm, fun i => (getElem?_ofKey a i).symm⟩, ?_, ?_, ?_, ofKey_lt_iff, ofKey_inj⟩
  · obtain ⟨longest, length⟩ := longestCommon a b
    refine ⟨_, longest, length.symm, fun limit => ?_⟩
    rw [length, common_eq_min]
  · intro depth inside
    obtain ⟨path, found⟩ := leading?_isSome (length_ofKey a ▸ inside)
    refine ⟨path, found, fun other => ?_⟩
    calc Leading a depth other
      _ ↔ leading? a depth = some other := by rw [leading?_eq_some_iff, and_iff_right inside]
      _ ↔ other = path := by rw [found, Option.some.injEq, eq_comm]
  · intro depth
    rw [beginsWith_iff, shares_iff_take]

/-- Three digits end inside the second byte, which is filled up with a zero. -/
theorem addressing_half :
    3 ≤ (ofKey [0x12, 0x34]).length ∧ leading? [0x12, 0x34] 3 = some [0x12, 0x30] ∧
      ∀ other, Leading [0x12, 0x34] 3 other ↔ other = [0x12, 0x30] := by
  obtain ⟨path, found, only⟩ := (addressing_exact [0x12, 0x34] [0x12, 0x35]).2.2.1 3 (by decide)
  obtain rfl : path = [0x12, 0x30] := (Option.some.inj found).symm
  exact ⟨by decide, found, only⟩

end MerkleCells.Digits
