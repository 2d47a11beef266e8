import Mathlib.Tactic.Linarith
import Mathlib.Tactic.Ring
import MerkleCells.Quantity

/-!
Quantities are read as they are written, whatever follows them. A writer emits just enough groups for a
value to be what its groups say, so the groups read are the value again and their number is its length. The
other way round, groups that are read are those of their value, and a reader takes no more of them than its
writer emits.
-/
namespace MerkleCells.Quantity

theorem group_lt (value : Int) (i : Nat) : group value i < 128 := by
  have := Int.emod_lt_of_pos (value >>> (7 * i)) (by decide : (0 : Int) < 128)
  have := Int.emod_nonneg (value >>> (7 * i)) (by decide : (128 : Int) ≠ 0)
  unfold group
  omega

theorem group_eq (value : Int) (i : Nat) : (group value i : Int) = value / 128 ^ i % 128 := by
  have nonneg := Int.emod_nonneg (value / 128 ^ i) (by decide : (128 : Int) ≠ 0)
  have cut : value >>> (7 * i) = value / 128 ^ i := by
    rw [Int.shiftRight_eq_div_pow, pow_mul]
    norm_cast
  rw [group, cut, Int.toNat_of_nonneg nonneg]

theorem mod_pow_succ (value : Int) (n : Nat) :
    value % 128 ^ (n + 1) = group value n * 128 ^ n + value % 128 ^ n := by
  have pos : (0 : Int) ≤ 128 ^ n := Int.pow_nonneg (by decide)
  have whole := Int.emod_add_mul_ediv value (128 ^ (n + 1))
  have high := Int.emod_add_mul_ediv (value / 128 ^ n) 128
  have low := Int.emod_add_mul_ediv value (128 ^ n)
  rw [Int.ediv_ediv_of_nonneg pos, ← pow_succ] at high
  rw [group_eq]
  generalize value / 128 ^ (n + 1) = q at whole high
  rw [← high] at low
  rw [pow_succ] at whole ⊢
  linarith

theorem readGroups_writeGroups (high value : Int) (rest : Bytes) (n room : Nat) (pos : 0 < n) (le : n ≤ room) :
    readGroups high room (writeGroups value n ++ rest) = .ok (high * 128 ^ n + value % 128 ^ n, n, rest) := by
  induction n generalizing high room with
  | zero => cases pos
  | succ n ih =>
    obtain ⟨room, rfl⟩ : ∃ r, room = r + 1 := ⟨room - 1, by omega⟩
    have lt := group_lt value n
    cases n with
    | zero =>
      have byte : (UInt8.ofNat (group value 0)).toNat = group value 0 := by
        rw [UInt8.toNat_ofNat']
        exact Nat.mod_eq_of_lt (by omega)
      have first := mod_pow_succ value 0
      simp only [writeGroups, List.singleton_append, readGroups, byte, if_pos lt, Nat.mod_eq_of_lt lt]
      simp only [pow_zero, Int.mul_one, Int.emod_one, Int.add_zero] at first
      rw [first]
      rfl
    | succ n =>
      have byte : (UInt8.ofNat (128 + group value (n + 1))).toNat = 128 + group value (n + 1) := by
        rw [UInt8.toNat_ofNat']
        exact Nat.mod_eq_of_lt (by omega)
      have low : (128 + group value (n + 1)) % 128 = group value (n + 1) := by omega
      rw [writeGroups, List.cons_append, readGroups, byte, low, if_neg (by omega),
        ih _ room (Nat.succ_pos n) (by omega), mod_pow_succ value (n + 1)]
      simp only [Except.map, Except.ok.injEq, Prod.mk.injEq, and_true]
      ring

theorem length_writeGroups (value : Int) (n : Nat) : (writeGroups value n).length = n := by
  induction n with
  | zero => rfl
  | succ n ih =>
    cases n with
    | zero => rfl
    | succ n => rw [writeGroups, List.length_cons, ih]

/-! ### Lengths -/

theorem bitLength_le_iff (n k : Nat) : bitLength n ≤ k ↔ n < 2 ^ k := by
  unfold bitLength
  by_cases zero : n = 0
  · rw [if_pos zero, zero]
    exact ⟨fun _ => Nat.two_pow_pos k, fun _ => Nat.zero_le k⟩
  · rw [if_neg zero, Nat.succ_le_iff, Nat.log2_lt zero]

/-- A number fits into the groups for its bits. -/
theorem lt_pow_groupsFor (n bits : Nat) (le : bitLength n ≤ bits) : n < 128 ^ groupsFor bits := by
  rw [show 128 = 2 ^ 7 from rfl, ← Nat.pow_mul, ← bitLength_le_iff]
  unfold groupsFor
  omega

theorem groupsFor_pos (bits : Nat) : 0 < groupsFor bits := by
  unfold groupsFor
  omega

theorem groupsFor_le {bits : Nat} (le : bits ≤ 64) : groupsFor bits ≤ maxLength := by
  unfold groupsFor maxLength
  omega

theorem countLength_le (value : UInt64) : countLength value ≤ maxLength :=
  groupsFor_le ((bitLength_le_iff _ _).mpr value.toNat_lt)

theorem length_writeCount (value : UInt64) : (writeCount value).length = countLength value :=
  length_writeGroups _ _

theorem length_writeCount_le (value : UInt64) : (writeCount value).length ≤ maxLength := by
  rw [length_writeCount]
  exact countLength_le value

theorem length_writeCount_pos (value : UInt64) : 0 < (writeCount value).length := by
  rw [length_writeCount]
  exact groupsFor_pos _

/-- A count below 2¹⁴ takes at most two bytes. -/
theorem length_writeCount_le_two {n : Nat} (lt : n < 2 ^ 14) : (writeCount (UInt64.ofNat n)).length ≤ 2 := by
  have value : (UInt64.ofNat n).toNat = n := by
    rw [UInt64.toNat_ofNat']
    exact Nat.mod_eq_of_lt (by omega)
  have bits : bitLength n ≤ 14 := (bitLength_le_iff n 14).mpr lt
  rw [length_writeCount, countLength, value, groupsFor]
  omega

theorem readCount_writeCount (value : UInt64) (rest : Bytes) :
    readCount (writeCount value ++ rest) = .ok (value, rest) := by
  have fits : (value.toNat : Int) % 128 ^ countLength value = value.toNat := by
    have lt := lt_pow_groupsFor value.toNat _ (Nat.le_refl _)
    apply Int.emod_eq_of_lt (Int.natCast_nonneg _)
    exact_mod_cast lt
  have read := readGroups_writeGroups 0 value.toNat rest (countLength value) maxLength (groupsFor_pos _)
    (countLength_le value)
  rw [Int.zero_mul, Int.zero_add, fits] at read
  have below : (value.toNat : Int) < UInt64.size := by exact_mod_cast value.toNat_lt
  have same : UInt64.ofNat (value.toNat : Int).toNat = value := by
    rw [Int.toNat_natCast, UInt64.ofNat_toNat]
  rw [readCount, writeCount, read]
  simp only [if_pos below, same, ↓reduceIte]

/-! ### Longs -/

/-- The magnitude of a long in two's complement: the bits that are not all like its sign. -/
def magnitude (i : Int) : Nat := if i < 0 then (-i - 1).toNat else i.toNat

theorem longLength_eq (value : Int64) : longLength value = groupsFor (bitLength (magnitude value.toInt) + 1) := rfl

theorem magnitude_lt_iff (i : Int) (bound : Nat) : magnitude i < bound ↔ -(bound : Int) ≤ i ∧ i < bound := by
  unfold magnitude
  split <;> omega

/-- A magnitude leaves room for the sign in the groups of a long. -/
theorem magnitude_lt (value : Int64) :
    ∃ n, longLength value = n + 1 ∧ n < maxLength ∧ magnitude value.toInt < 64 * 128 ^ n := by
  have bits : bitLength (magnitude value.toInt) ≤ 63 := by
    have low := value.le_toInt
    have high := value.toInt_lt
    rw [bitLength_le_iff, magnitude_lt_iff]
    exact ⟨low, high⟩
  have pos := groupsFor_pos (bitLength (magnitude value.toInt) + 1)
  have le : groupsFor (bitLength (magnitude value.toInt) + 1) ≤ maxLength := groupsFor_le (by omega)
  refine ⟨longLength value - 1, by rw [longLength_eq]; omega, by rw [longLength_eq]; omega, ?_⟩
  have power : 64 * 128 ^ (longLength value - 1) = 2 ^ (6 + 7 * (longLength value - 1)) := by
    rw [Nat.pow_add, Nat.pow_mul]
  rw [power, ← bitLength_le_iff, longLength_eq]
  unfold groupsFor
  omega

/-- The sign that is read off the first byte is the second highest bit of the first group. -/
theorem signOf_writeGroups (value : Int) (n : Nat) (rest : Bytes) :
    signOf ((writeGroups value (n + 1) ++ rest).headD 0) = if 64 ≤ group value n then -1 else 0 := by
  have lt := group_lt value n
  have sign : ∀ b : UInt8, b.toNat % 128 = group value n → signOf b = if 64 ≤ group value n then -1 else 0 := by
    intro b low
    rw [signOf]
    split <;> split <;> omega
  cases n with
  | zero =>
    refine sign _ ?_
    simp only [writeGroups, List.singleton_append, List.headD_cons, UInt8.toNat_ofNat']
    omega
  | succ n =>
    refine sign _ ?_
    simp only [writeGroups, List.cons_append, List.headD_cons, UInt8.toNat_ofNat']
    omega

theorem readLong_writeLong (value : Int64) (rest : Bytes) :
    readLong (writeLong value ++ rest) = .ok (value, rest) := by
  obtain ⟨n, length, short, fits⟩ := magnitude_lt value
  obtain ⟨low, high⟩ := (magnitude_lt_iff _ _).mp fits
  push_cast at low high
  have pos : (0 : Int) < 128 ^ n := Int.pow_pos (by decide)
  -- the sign in front of the groups makes up for the modulus
  have whole : signOf ((writeGroups value.toInt (n + 1) ++ rest).headD 0) * 128 ^ (n + 1) +
      value.toInt % 128 ^ (n + 1) = value.toInt := by
    have top := group_eq value.toInt n
    rw [signOf_writeGroups, pow_succ]
    rcases lt_or_ge value.toInt 0 with negative | nonneg
    · have above : value.toInt / 128 ^ n < 0 := Int.ediv_neg_of_neg_of_pos negative pos
      have below : -64 ≤ value.toInt / 128 ^ n := (Int.le_ediv_iff_mul_le pos).mpr (by linarith)
      have shifted : value.toInt % (128 ^ n * 128) = value.toInt + 128 ^ n * 128 := by
        rw [← Int.add_emod_right, Int.emod_eq_of_lt (by linarith) (by linarith)]
      rw [if_pos (by omega), shifted]
      ring
    · have above : value.toInt / 128 ^ n < 64 := Int.ediv_lt_of_lt_mul pos (by linarith)
      have below : 0 ≤ value.toInt / 128 ^ n := Int.ediv_nonneg nonneg pos.le
      rw [if_neg (by omega), Int.emod_eq_of_lt nonneg (by linarith)]
      ring
  have read := readGroups_writeGroups (signOf ((writeGroups value.toInt (n + 1) ++ rest).headD 0)) value.toInt rest
    (n + 1) maxLength (Nat.succ_pos n) short
  rw [whole] at read
  have range : Int64.minValue.toInt ≤ value.toInt ∧ value.toInt ≤ Int64.maxValue.toInt :=
    ⟨value.minValue_le_toInt, value.toInt_le⟩
  rw [readLong, writeLong, length, read]
  simp only [if_pos range, Int64.ofInt_toInt, length, ↓reduceIte]

theorem length_writeLong_le (value : Int64) : (writeLong value).length ≤ maxLength := by
  obtain ⟨n, length, short, -⟩ := magnitude_lt value
  rw [writeLong, length_writeGroups, length]
  exact short

/-! ### Nothing else is read -/

theorem writeGroups_succ (value : Int) {n : Nat} (pos : 0 < n) :
    writeGroups value (n + 1) = UInt8.ofNat (128 + group value n) :: writeGroups value n := by
  cases n with
  | zero => cases pos
  | succ n => rfl

/-- The groups that are read are those of the value, in front of which `high` stands. -/
theorem readGroups_eq_ok {high value : Int} {room used : Nat} {bytes rest : Bytes}
    (read : readGroups high room bytes = .ok (value, used, rest)) :
    bytes = writeGroups value used ++ rest ∧ 0 < used ∧ value / 128 ^ used = high := by
  induction room generalizing high bytes used with
  | zero => cases read
  | succ room ih =>
    cases bytes with
    | nil => cases read
    | cons b bytes =>
      have fits := b.toNat_lt
      rw [readGroups] at read
      by_cases last : b.toNat < 128
      · simp only [if_pos last, Except.ok.injEq, Prod.mk.injEq] at read
        obtain ⟨rfl, rfl, rfl⟩ := read
        have low := group_eq (high * 128 + (b.toNat % 128 : Nat)) 0
        rw [pow_zero, Int.ediv_one] at low
        have same : group (high * 128 + (b.toNat % 128 : Nat)) 0 = b.toNat := by omega
        refine ⟨?_, Nat.one_pos, by omega⟩
        rw [writeGroups, same, UInt8.ofNat_toNat, List.singleton_append]
      · rw [if_neg last] at read
        cases more : readGroups (high * 128 + (b.toNat % 128 : Nat)) room bytes with
        | error cause =>
          rw [more] at read
          cases read
        | ok answer =>
          obtain ⟨value', used', rest'⟩ := answer
          simp only [more, Except.map, Except.ok.injEq, Prod.mk.injEq] at read
          obtain ⟨rfl, rfl, rfl⟩ := read
          obtain ⟨written, pos, above⟩ := ih more
          have low := group_eq value' used'
          rw [above] at low
          have same : 128 + group value' used' = b.toNat := by omega
          refine ⟨?_, Nat.succ_pos _, ?_⟩
          · rw [writeGroups_succ value' pos, same, UInt8.ofNat_toNat, written, List.cons_append]
          · rw [pow_succ, ← Int.ediv_ediv_of_nonneg (Int.pow_nonneg (by decide)), above]
            omega

/-- Only what a count writes is read as that count. -/
theorem readCount_eq_ok {bytes rest : Bytes} {value : UInt64} (read : readCount bytes = .ok (value, rest)) :
    bytes = writeCount value ++ rest := by
  rw [readCount] at read
  cases groups : readGroups 0 maxLength bytes with
  | error cause =>
    rw [groups] at read
    cases read
  | ok answer =>
    obtain ⟨i, used, rest'⟩ := answer
    obtain ⟨written, -, above⟩ := readGroups_eq_ok groups
    simp only [groups] at read
    by_cases below : i < UInt64.size
    · rw [if_pos below] at read
      by_cases minimal : countLength (UInt64.ofNat i.toNat) = used
      · rw [if_pos minimal] at read
        cases read
        have nonneg : 0 ≤ i := (Int.ediv_nonneg_iff_of_pos (Int.pow_pos (by decide))).mp above.ge
        have same : ((UInt64.ofNat i.toNat).toNat : Int) = i := by
          rw [UInt64.toNat_ofNat', Nat.mod_eq_of_lt ((Int.toNat_lt nonneg).mpr below), Int.toNat_of_nonneg nonneg]
        rw [writeCount, minimal, same]
        exact written
      · rw [if_neg minimal] at read
        cases read
    · rw [if_neg below] at read
      cases read

/-- Only what a long writes is read as that long. -/
theorem readLong_eq_ok {bytes rest : Bytes} {value : Int64} (read : readLong bytes = .ok (value, rest)) :
    bytes = writeLong value ++ rest := by
  rw [readLong] at read
  cases groups : readGroups (signOf (bytes.headD 0)) maxLength bytes with
  | error cause =>
    rw [groups] at read
    cases read
  | ok answer =>
    obtain ⟨i, used, rest'⟩ := answer
    obtain ⟨written, -, -⟩ := readGroups_eq_ok groups
    simp only [groups] at read
    by_cases range : Int64.minValue.toInt ≤ i ∧ i ≤ Int64.maxValue.toInt
    · rw [if_pos range] at read
      by_cases minimal : longLength (Int64.ofInt i) = used
      · rw [if_pos minimal] at read
        cases read
        have same : (Int64.ofInt i).toInt = i := Int64.toInt_ofInt_of_le range.1 (by
          have := range.2
          have : Int64.maxValue.toInt = 2 ^ 63 - 1 := by decide
          omega)
        rw [writeLong, minimal, same]
        exact written
      · rw [if_neg minimal] at read
        cases read
    · rw [if_neg range] at read
      cases read

end MerkleCells.Quantity
