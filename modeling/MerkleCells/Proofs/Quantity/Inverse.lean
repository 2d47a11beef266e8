import Mathlib.Data.List.Induction
import MerkleCells.Proofs.Quantity

/-!
Readers and writers of quantities are exact inverses of each other (`Form.Exact`). A reader that fails does so for one
of four reasons, each of which is a condition on the bytes alone: what it gathers of a quantity is the `amount` of the
groups so far. Words of 64 bits for a value and of 128 bits for what is gathered lose none of it.
-/
namespace MerkleCells.Quantity

/-- The number that some groups stand for behind `high`, most significant group first. -/
def amount (high : Int) (groups : Bytes) : Int := groups.foldl (fun n b => n * 128 + (b.toNat % 128 : Nat)) high

/-- Bytes that are all marked to be continued. -/
def Continued (groups : Bytes) : Prop := ∀ b ∈ groups, 128 ≤ b.toNat

/-- Groups gathered in a word of 128 bits, by shifts. -/
def gather (word : BitVec 128) (groups : Bytes) : BitVec 128 :=
  groups.foldl (fun word b => word <<< 7 ||| (b &&& 0x7F).toBitVec.setWidth 128) word

/-- A kind of quantity: its values, and how they are written and read. -/
structure Form (α : Type) where
  kind : Kind
  /-- The number that a value stands for. -/
  number : α → Int
  /-- What stands in front of the first group. -/
  sign : Bytes → Int
  length : α → Nat
  write : α → Bytes
  read : Bytes → Except Fault (α × Bytes)
  /-- The seven bits at a place of a value, by a shift of its word. -/
  septet : α → Nat → UInt8

def counts : Form UInt64 where
  kind := .count
  number value := value.toNat
  sign _ := 0
  length := countLength
  write := writeCount
  read := readCount
  septet value i := (value >>> UInt64.ofNat (7 * i)).toUInt8 &&& 0x7F

def longs : Form Int64 where
  kind := .long
  number := Int64.toInt
  sign bytes := signOf (bytes.headD 0)
  length := longLength
  write := writeLong
  read := readLong
  septet value i := (value >>> Int64.ofNat (7 * i)).toInt8.toUInt8 &&& 0x7F

/-- The writer and the reader of a form are exact inverses, and no word overflows in either. -/
structure Form.Exact {α : Type} (f : Form α) : Prop where
  /-- A value is read from its own bytes, whatever follows them, and from no others. -/
  read_iff : ∀ bytes value rest, f.read bytes = .ok (value, rest) ↔ bytes = f.write value ++ rest
  length_write : ∀ value, (f.write value).length = f.length value
  length_pos : ∀ value, 1 ≤ f.length value
  length_le : ∀ value, f.length value ≤ maxLength
  truncated : ∀ groups, Continued groups → groups.length < maxLength →
    f.read groups = .error ⟨f.kind, .truncated⟩
  tooLong : ∀ groups rest, Continued groups → groups.length = maxLength →
    f.read (groups ++ rest) = .error ⟨f.kind, .tooLong⟩
  /-- Groups that stand for no value are refused. -/
  overflow : ∀ groups last rest, Continued groups → groups.length < maxLength → last.toNat < 128 →
    (∀ value, f.number value ≠ amount (f.sign (groups ++ [last])) (groups ++ [last])) →
      f.read (groups ++ last :: rest) = .error ⟨f.kind, .overflow⟩
  /-- So are groups that stand for a value with another number of groups. -/
  notMinimal : ∀ groups last rest, Continued groups → groups.length < maxLength → last.toNat < 128 →
    ∀ value, f.number value = amount (f.sign (groups ++ [last])) (groups ++ [last]) →
      f.length value ≠ groups.length + 1 → f.read (groups ++ last :: rest) = .error ⟨f.kind, .notMinimal⟩
  /-- Shifting groups into a word of 128 bits never loses a bit. -/
  gathered : ∀ groups, groups.length ≤ maxLength →
    (gather (BitVec.ofInt 128 (f.sign groups)) groups).toInt = amount (f.sign groups) groups
  /-- Shifting the word of a value gives each of its groups. -/
  shifted : ∀ value i, i < f.length value → (f.septet value i).toNat = group (f.number value) i

/-! ### What a reader gathers -/

theorem amount_append (high : Int) (groups more : Bytes) :
    amount high (groups ++ more) = amount (amount high groups) more :=
  List.foldl_append

/-- A reader goes on behind groups that are to be continued. -/
theorem readGroups_append (high : Int) {groups : Bytes} (continued : Continued groups) (room : Nat) (bytes : Bytes) :
    readGroups high (room + groups.length) (groups ++ bytes) =
      (readGroups (amount high groups) room bytes).map fun (v, n, rest) => (v, n + groups.length, rest) := by
  induction groups generalizing high with
  | nil =>
    show readGroups high room bytes = (readGroups high room bytes).map _
    cases readGroups high room bytes <;> rfl
  | cons b groups ih =>
    have more : ¬ b.toNat < 128 := not_lt.mpr (continued b List.mem_cons_self)
    have next := ih (high * 128 + (b.toNat % 128 : Nat)) fun b' member => continued b' (List.mem_cons_of_mem b member)
    rw [List.length_cons, ← Nat.add_assoc, List.cons_append, readGroups, if_neg more, next]
    show ((readGroups (amount _ groups) room bytes).map _).map _ = (readGroups (amount _ groups) room bytes).map _
    cases readGroups (amount _ groups) room bytes <;> rfl

theorem readGroups_continued (high : Int) {groups : Bytes} (continued : Continued groups)
    (short : groups.length < maxLength) : readGroups high maxLength groups = .error .truncated := by
  obtain ⟨room, enough⟩ : ∃ room, maxLength = room + 1 + groups.length := ⟨maxLength - 1 - groups.length, by omega⟩
  have read := readGroups_append high continued (room + 1) []
  rw [List.append_nil] at read
  rw [enough, read]
  rfl

theorem readGroups_full (high : Int) {groups : Bytes} (continued : Continued groups)
    (full : groups.length = maxLength) (rest : Bytes) :
    readGroups high maxLength (groups ++ rest) = .error .tooLong := by
  have read := readGroups_append high continued 0 rest
  rw [full, Nat.zero_add] at read
  rw [read]
  rfl

theorem readGroups_last (high : Int) {groups : Bytes} {last : UInt8} (continued : Continued groups)
    (short : groups.length < maxLength) (ends : last.toNat < 128) (rest : Bytes) :
    readGroups high maxLength (groups ++ last :: rest) =
      .ok (amount high (groups ++ [last]), groups.length + 1, rest) := by
  obtain ⟨room, enough⟩ : ∃ room, maxLength = room + 1 + groups.length := ⟨maxLength - 1 - groups.length, by omega⟩
  rw [enough, readGroups_append high continued, readGroups, if_pos ends, amount_append, Nat.add_comm]
  rfl

/-! ### Words -/

/-- The seven bits of a byte that carry a value. -/
theorem toNat_and_septet (b : UInt8) : (b &&& 0x7F).toNat = b.toNat % 128 := by
  rw [UInt8.toNat_and]
  exact Nat.and_two_pow_sub_one_eq_mod b.toNat 7

theorem gather_ofInt (high : Int) (groups : Bytes) :
    gather (BitVec.ofInt 128 high) groups = BitVec.ofInt 128 (amount high groups) := by
  induction groups generalizing high with
  | nil => rfl
  | cons b groups ih =>
    have septet : (b &&& 0x7F).toBitVec.setWidth 128 = BitVec.ofNat 128 (b.toNat % 128) := by
      apply BitVec.eq_of_toNat_eq
      rw [BitVec.toNat_setWidth, UInt8.toNat_toBitVec, toNat_and_septet, BitVec.toNat_ofNat]
    have apart : BitVec.ofInt 128 high <<< 7 &&& BitVec.ofNat 128 (b.toNat % 128) = 0#128 := by
      have small : b.toNat % 128 < 2 ^ 7 := Nat.mod_lt _ (by decide)
      refine BitVec.eq_of_getLsbD_eq fun i _ => ?_
      rw [BitVec.getLsbD_and, BitVec.getLsbD_shiftLeft, BitVec.getLsbD_ofNat, BitVec.getLsbD_zero]
      by_cases low : i < 7
      · simp [low]
      · have high_bit : (b.toNat % 128).testBit i = false :=
          Nat.testBit_lt_two_pow (small.trans_le (Nat.pow_le_pow_right (by decide) (not_lt.mp low)))
        simp [high_bit]
    have step : BitVec.ofInt 128 high <<< 7 ||| (b &&& 0x7F).toBitVec.setWidth 128 =
        BitVec.ofInt 128 (high * 128 + (b.toNat % 128 : Nat)) := by
      rw [septet, ← BitVec.add_eq_or_of_and_eq_zero _ _ apart, BitVec.shiftLeft_eq_mul_twoPow, BitVec.ofInt_add,
        BitVec.ofInt_mul, BitVec.ofInt_natCast]
      rfl
    rw [gather, List.foldl_cons, step]
    exact ih _

/-- An amount behind a sign stays within seven bits for each group. -/
theorem amount_bounds {high : Int} (sign : high = 0 ∨ high = -1) (groups : Bytes) :
    -128 ^ groups.length ≤ amount high groups ∧ amount high groups < 128 ^ groups.length := by
  induction groups using List.reverseRecOn with
  | nil =>
    rcases sign with rfl | rfl <;> decide
  | append_singleton groups b ih =>
    rw [amount_append, List.length_append, List.length_singleton, pow_succ]
    show _ ≤ amount high groups * 128 + ((b.toNat % 128 : Nat) : Int) ∧
      amount high groups * 128 + ((b.toNat % 128 : Nat) : Int) < _
    have small : b.toNat % 128 < 128 := Nat.mod_lt _ (by decide)
    omega

theorem toInt_gather {high : Int} (sign : high = 0 ∨ high = -1) {groups : Bytes} (short : groups.length ≤ maxLength) :
    (gather (BitVec.ofInt 128 high) groups).toInt = amount high groups := by
  obtain ⟨low, up⟩ := amount_bounds sign groups
  have room : (128 : Int) ^ groups.length ≤ 128 ^ maxLength := pow_le_pow_right₀ (by decide) short
  have wide : (128 : Int) ^ maxLength ≤ 2 ^ 127 := by decide
  rw [gather_ofInt]
  exact BitVec.toInt_ofInt_eq_self (by decide) (by omega) (by omega)

theorem septet_count (value : UInt64) {i : Nat} (inside : i < maxLength) :
    (counts.septet value i).toNat = group (counts.number value) i := by
  have place : (UInt64.ofNat (7 * i)).toNat % 64 = 7 * i := by
    rw [UInt64.toNat_ofNat']
    unfold maxLength at inside
    omega
  show ((value >>> UInt64.ofNat (7 * i)).toUInt8 &&& 0x7F).toNat = ((value.toNat : Int) >>> (7 * i) % 128).toNat
  rw [toNat_and_septet, UInt64.toNat_toUInt8, UInt64.toNat_shiftRight, place]
  have cut : (value.toNat : Int) >>> (7 * i) = (value.toNat >>> (7 * i) : Nat) := rfl
  rw [cut]
  omega

theorem septet_long (value : Int64) {i : Nat} (inside : i < maxLength) :
    (longs.septet value i).toNat = group (longs.number value) i := by
  have place : ∀ i < maxLength, ((Int64.ofNat (7 * i)).toBitVec.smod 64).toNat = 7 * i := by decide
  show ((value >>> Int64.ofNat (7 * i)).toInt8.toUInt8 &&& 0x7F).toNat = (value.toInt >>> (7 * i) % 128).toNat
  have word : (value >>> Int64.ofNat (7 * i)).toInt8.toUInt8.toNat =
      (value.toBitVec.sshiftRight (7 * i)).toNat % 2 ^ 8 := by
    show ((value >>> Int64.ofNat (7 * i)).toBitVec.signExtend 8).toNat = _
    rw [BitVec.signExtend_eq_setWidth_of_le _ (by decide), BitVec.toNat_setWidth, Int64.toBitVec_shiftRight,
      BitVec.sshiftRight_eq', place i inside]
  have number : (value.toBitVec.sshiftRight (7 * i)).toInt = value.toInt >>> (7 * i) := BitVec.toInt_sshiftRight
  rw [toNat_and_septet, word, ← number, BitVec.toInt_eq_toNat_cond]
  split <;> omega

/-! ### Both forms -/

/-- What a reader makes of the groups that it has gathered. -/
structure Form.Checks {α : Type} (f : Form α) : Prop where
  sign_eq : ∀ bytes, f.sign bytes = 0 ∨ f.sign bytes = -1
  sign_append : ∀ bytes rest, bytes ≠ [] → f.sign (bytes ++ rest) = f.sign bytes
  failed : ∀ bytes cause, readGroups (f.sign bytes) maxLength bytes = .error cause →
    f.read bytes = .error ⟨f.kind, cause⟩
  overflow : ∀ bytes n used rest, readGroups (f.sign bytes) maxLength bytes = .ok (n, used, rest) →
    (∀ value, f.number value ≠ n) → f.read bytes = .error ⟨f.kind, .overflow⟩
  notMinimal : ∀ bytes value used rest,
    readGroups (f.sign bytes) maxLength bytes = .ok (f.number value, used, rest) → f.length value ≠ used →
      f.read bytes = .error ⟨f.kind, .notMinimal⟩

theorem counts_checks : counts.Checks where
  sign_eq _ := .inl rfl
  sign_append _ _ _ := rfl
  failed bytes cause run := by
    show readCount bytes = _
    have run : readGroups 0 maxLength bytes = .error cause := run
    rw [readCount, run]
    rfl
  overflow bytes n used rest run none := by
    show readCount bytes = _
    have run : readGroups 0 maxLength bytes = .ok (n, used, rest) := run
    have nonneg : 0 ≤ n :=
      (Int.ediv_nonneg_iff_of_pos (Int.pow_pos (by decide))).mp (readGroups_eq_ok run).2.2.ge
    have beyond : ¬ n < UInt64.size := fun below => none (UInt64.ofNat n.toNat) (by
      show ((UInt64.ofNat n.toNat).toNat : Int) = n
      rw [UInt64.toNat_ofNat', Nat.mod_eq_of_lt ((Int.toNat_lt nonneg).mpr below), Int.toNat_of_nonneg nonneg])
    rw [readCount, run]
    exact if_neg beyond
  notMinimal bytes value used rest run other := by
    show readCount bytes = _
    have run : readGroups 0 maxLength bytes = .ok ((value.toNat : Int), used, rest) := run
    have below : (value.toNat : Int) < UInt64.size := by exact_mod_cast value.toNat_lt
    have other : countLength value ≠ used := other
    rw [readCount, run]
    simp only [if_pos below, Int.toNat_natCast, UInt64.ofNat_toNat, if_neg other]
    rfl

theorem longs_checks : longs.Checks where
  sign_eq bytes := by
    show signOf (bytes.headD 0) = 0 ∨ signOf (bytes.headD 0) = -1
    rw [signOf]
    split
    · exact .inr rfl
    · exact .inl rfl
  sign_append bytes rest nonempty := by
    cases bytes with
    | nil => exact absurd rfl nonempty
    | cons b bytes => rfl
  failed bytes cause run := by
    show readLong bytes = _
    have run : readGroups (signOf (bytes.headD 0)) maxLength bytes = .error cause := run
    rw [readLong, run]
    rfl
  overflow bytes n used rest run none := by
    show readLong bytes = _
    have run : readGroups (signOf (bytes.headD 0)) maxLength bytes = .ok (n, used, rest) := run
    have beyond : ¬ (Int64.minValue.toInt ≤ n ∧ n ≤ Int64.maxValue.toInt) := fun range =>
      none (Int64.ofInt n) (Int64.toInt_ofInt_of_le range.1 (Int.lt_add_one_iff.mpr range.2))
    rw [readLong, run]
    exact if_neg beyond
  notMinimal bytes value used rest run other := by
    show readLong bytes = _
    have run : readGroups (signOf (bytes.headD 0)) maxLength bytes = .ok (value.toInt, used, rest) := run
    have range : Int64.minValue.toInt ≤ value.toInt ∧ value.toInt ≤ Int64.maxValue.toInt :=
      ⟨value.minValue_le_toInt, value.toInt_le⟩
    have other : longLength value ≠ used := other
    rw [readLong, run]
    simp only [if_pos range, Int64.ofInt_toInt, if_neg other]
    rfl

/-- A form is exact if its reader and writer are inverse and its reader makes the usual checks. -/
theorem Form.exact_of_checks {α : Type} {f : Form α} (checks : f.Checks)
    (read_write : ∀ value rest, f.read (f.write value ++ rest) = .ok (value, rest))
    (read_eq_ok : ∀ bytes value rest, f.read bytes = .ok (value, rest) → bytes = f.write value ++ rest)
    (length_write : ∀ value, (f.write value).length = f.length value)
    (length_bounds : ∀ value, 1 ≤ f.length value ∧ f.length value ≤ maxLength)
    (shifted : ∀ value i, i < maxLength → (f.septet value i).toNat = group (f.number value) i) : f.Exact := by
  have sign : ∀ groups last rest, f.sign (groups ++ last :: rest) = f.sign (groups ++ [last]) := by
    intro groups last rest
    rw [← checks.sign_append (groups ++ [last]) rest (by simp), List.append_assoc, List.singleton_append]
  refine ⟨fun bytes value rest => ⟨read_eq_ok bytes value rest, ?_⟩, length_write, fun value => (length_bounds value).1,
    fun value => (length_bounds value).2, ?_, ?_, ?_, ?_, ?_, ?_⟩
  · rintro rfl
    exact read_write value rest
  · intro groups continued short
    exact checks.failed _ _ (readGroups_continued _ continued short)
  · intro groups rest continued full
    exact checks.failed _ _ (readGroups_full _ continued full rest)
  · intro groups last rest continued short ends none
    refine checks.overflow _ _ _ _ (readGroups_last _ continued short ends rest) ?_
    rw [sign]
    exact none
  · intro groups last rest continued short ends value number other
    refine checks.notMinimal _ value _ rest ?_ other
    rw [number, ← sign groups last rest]
    exact readGroups_last _ continued short ends rest
  · intro groups short
    exact toInt_gather (checks.sign_eq groups) short
  · intro value i inside
    exact shifted value i (inside.trans_le (length_bounds value).2)

/-- Counts and longs are read just as they are written, and no other bytes are read. -/
theorem forms_exact : counts.Exact ∧ longs.Exact := by
  constructor
  · exact Form.exact_of_checks counts_checks readCount_writeCount (fun _ _ _ => readCount_eq_ok) length_writeCount
      (fun value => ⟨groupsFor_pos _, countLength_le value⟩) fun value _ => septet_count value
  · have length : ∀ value, (writeLong value).length = longLength value := fun value => length_writeGroups _ _
    refine Form.exact_of_checks longs_checks readLong_writeLong (fun _ _ _ => readLong_eq_ok) length
      (fun value => ⟨groupsFor_pos _, ?_⟩) fun value _ => septet_long value
    show longLength value ≤ maxLength
    rw [← length]
    exact length_writeLong_le value

end MerkleCells.Quantity
