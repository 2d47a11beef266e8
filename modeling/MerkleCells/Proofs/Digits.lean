import Mathlib.Data.List.Basic
import MerkleCells.Digits

/-!
What the functions on digits compute, in terms of the digits that two keys share. `Digits.Shares a b n`
says that both keys have `n` digits and that these are the same; `common` is the greatest such number up
to its limit, `beginsWith` is the relation itself, and `leading?` depends on nothing but the shared digits.
-/
namespace MerkleCells.Digits

/-- Two keys both have `n` digits, and the first `n` are the same. -/
def Shares (a b : Bytes) (n : Nat) : Prop :=
  n ≤ count a ∧ n ≤ count b ∧ ∀ i < n, digit? a i = digit? b i

theorem high_low_injective {a b : UInt8} (h : high a = high b) (l : low a = low b) : a = b := by
  simp only [high, low, Fin.mk.injEq] at h l
  apply UInt8.toNat_inj.mp
  omega

theorem high_lt_of_lt {x y : UInt8} (lt : x < y) (part : high x ≠ high y) : high x < high y := by
  have le : high x ≤ high y := Nat.div_le_div_right (Nat.le_of_lt (UInt8.lt_iff_toNat_lt.mp lt))
  exact Nat.lt_of_le_of_ne le fun same => part (Fin.ext same)

theorem low_lt_of_lt {x y : UInt8} (lt : x < y) (same : high x = high y) : low x < low y := by
  have lt := UInt8.lt_iff_toNat_lt.mp lt
  have same : x.toNat / 16 = y.toNat / 16 := congrArg Fin.val same
  show x.toNat % 16 < y.toNat % 16
  omega

theorem lt_of_high_lt {x y : UInt8} (lt : high x < high y) : x < y := by
  have lt : x.toNat / 16 < y.toNat / 16 := lt
  rw [UInt8.lt_iff_toNat_lt]
  omega

theorem lt_of_low_lt {x y : UInt8} (same : high x = high y) (lt : low x < low y) : x < y := by
  have same : x.toNat / 16 = y.toNat / 16 := congrArg Fin.val same
  have lt : x.toNat % 16 < y.toNat % 16 := lt
  rw [UInt8.lt_iff_toNat_lt]
  omega

@[simp]
theorem digit?_cons_zero (b : UInt8) (rest : Bytes) : digit? (b :: rest) 0 = some (high b) := rfl

@[simp]
theorem digit?_cons_one (b : UInt8) (rest : Bytes) : digit? (b :: rest) 1 = some (low b) := rfl

@[simp]
theorem digit?_cons_succ_succ (b : UInt8) (rest : Bytes) (i : Nat) :
    digit? (b :: rest) (i + 2) = digit? rest i := by
  have half : (i + 2) / 2 = i / 2 + 1 := by omega
  have parity : (i + 2) % 2 = i % 2 := by omega
  rw [digit?, digit?, half, parity, List.getElem?_cons_succ]

@[simp]
theorem digit?_nil (i : Nat) : digit? [] i = none := rfl

theorem count_cons (b : UInt8) (rest : Bytes) : count (b :: rest) = count rest + 2 := by
  simp only [count, List.length_cons]
  omega

theorem digit?_isSome_iff (key : Bytes) (i : Nat) : (∃ d, digit? key i = some d) ↔ i < count key := by
  rw [← getElem?_ofKey, ← length_ofKey]
  constructor
  · rintro ⟨d, at_i⟩
    exact (List.getElem?_eq_some_iff.mp at_i).1
  · intro inside
    exact ⟨_, List.getElem?_eq_getElem inside⟩

theorem lt_count {key : Bytes} {i : Nat} {d : Digit} (here : digit? key i = some d) : i < count key :=
  (digit?_isSome_iff key i).mp ⟨d, here⟩

theorem digit?_eq_none_iff (key : Bytes) (i : Nat) : digit? key i = none ↔ count key ≤ i := by
  rw [← getElem?_ofKey, ← length_ofKey, List.getElem?_eq_none_iff]

/-- A key is its digits. -/
theorem eq_of_digits {a b : Bytes} (same : ∀ i, digit? a i = digit? b i) : a = b := by
  induction a generalizing b with
  | nil =>
    cases b with
    | nil => rfl
    | cons y bs => simpa using same 0
  | cons x as ih =>
    cases b with
    | nil => simpa using same 0
    | cons y bs =>
      have first : high x = high y := by simpa using same 0
      have second : low x = low y := by simpa using same 1
      have rest : as = bs := ih fun i => by simpa using same (i + 2)
      rw [high_low_injective first second, rest]

namespace Shares

variable {a b c : Bytes} {n m : Nat}

theorem refl (inside : n ≤ count a) : Shares a a n := ⟨inside, inside, fun _ _ => rfl⟩

theorem zero (a b : Bytes) : Shares a b 0 := ⟨Nat.zero_le _, Nat.zero_le _, fun i lt => absurd lt (Nat.not_lt_zero i)⟩

theorem symm (h : Shares a b n) : Shares b a n := ⟨h.2.1, h.1, fun i lt => (h.2.2 i lt).symm⟩

theorem trans (h : Shares a b n) (h' : Shares b c n) : Shares a c n :=
  ⟨h.1, h'.2.1, fun i lt => (h.2.2 i lt).trans (h'.2.2 i lt)⟩

theorem mono (h : Shares a b n) (le : m ≤ n) : Shares a b m :=
  ⟨Nat.le_trans le h.1, Nat.le_trans le h.2.1, fun i lt => h.2.2 i (Nat.lt_of_lt_of_le lt le)⟩

theorem succ (h : Shares a b n) {d : Digit} (left : digit? a n = some d) (right : digit? b n = some d) :
    Shares a b (n + 1) := by
  refine ⟨lt_count left, lt_count right, ?_⟩
  intro i lt
  rcases Nat.lt_succ_iff_lt_or_eq.mp lt with lt | rfl
  · exact h.2.2 i lt
  · rw [left, right]

theorem eq (h : Shares a b n) (left : count a = n) (right : count b = n) : a = b := by
  apply eq_of_digits
  intro i
  rcases Nat.lt_or_ge i n with lt | ge
  · exact h.2.2 i lt
  · rw [(digit?_eq_none_iff a i).mpr (by omega), (digit?_eq_none_iff b i).mpr (by omega)]

theorem digit?_eq (h : Shares a b n) {i : Nat} (lt : i < n) : digit? a i = digit? b i := h.2.2 i lt

theorem cons_cons (x y : UInt8) : Shares (x :: a) (y :: b) (n + 2) ↔ x = y ∧ Shares a b n := by
  constructor
  · rintro ⟨left, right, same⟩
    have first := same 0 (by omega)
    have second := same 1 (by omega)
    simp only [digit?_cons_zero, digit?_cons_one, Option.some.injEq] at first second
    rw [count_cons] at left right
    refine ⟨high_low_injective first second, by omega, by omega, fun i lt => ?_⟩
    simpa using same (i + 2) (by omega)
  · rintro ⟨rfl, left, right, same⟩
    refine ⟨by rw [count_cons]; omega, by rw [count_cons]; omega, fun i lt => ?_⟩
    match i with
    | 0 => rfl
    | 1 => rfl
    | i + 2 => simpa using same i (by omega)

theorem cons_one (x y : UInt8) : Shares (x :: a) (y :: b) 1 ↔ high x = high y := by
  constructor
  · rintro ⟨_, _, same⟩
    simpa using same 0 (by omega)
  · intro first
    refine ⟨by rw [count_cons]; omega, by rw [count_cons]; omega, fun i lt => ?_⟩
    obtain rfl : i = 0 := by omega
    simpa using first

end Shares

/-! ### The scan of two keys -/

theorem shares_commonBytes (a b : Bytes) (limit : Nat) : Shares a b (commonBytes a b limit) := by
  fun_induction commonBytes a b limit with
  | case1 as x bs limit ih => exact (Shares.cons_cons x x).mpr ⟨rfl, ih⟩
  | case2 => exact .zero _ _
  | case3 => exact .zero _ _

theorem commonBytes_le (a b : Bytes) (limit : Nat) : commonBytes a b limit ≤ limit := by
  fun_induction commonBytes a b limit with
  | case1 as x bs limit ih => omega
  | case2 => exact Nat.zero_le _
  | case3 => exact Nat.zero_le _

/-- From a place up to which two keys share all digits, the scan by digits goes on as far as they do, within what is
left. -/
theorem le_partFrom_iff {a b : Bytes} {i left : Nat} (shares : Shares a b i) (inside : i + left ≤ count a)
    (inside' : i + left ≤ count b) (n : Nat) : n ≤ partFrom a b i left ↔ n ≤ i + left ∧ Shares a b n := by
  -- the place moves on as less is left, and the keys share every digit before it
  induction left generalizing i with
  | zero =>
    rw [partFrom, Nat.add_zero]
    exact ⟨fun le => ⟨le, shares.mono le⟩, And.left⟩
  | succ left ih =>
    rw [partFrom]
    by_cases same : digit? a i = digit? b i
    · obtain ⟨d, here⟩ := (digit?_isSome_iff a i).mpr (by omega)
      rw [if_pos same, ih (shares.succ here (same ▸ here)) (by omega) (by omega), Nat.add_right_comm i 1 left]
      exact Iff.rfl
    · rw [if_neg same]
      constructor
      · exact fun le => ⟨by omega, shares.mono le⟩
      · rintro ⟨-, further⟩
        exact Nat.not_lt.mp fun lt => same (further.digit?_eq lt)

theorem le_common_iff (a b : Bytes) (limit n : Nat) : n ≤ common a b limit ↔ n ≤ limit ∧ Shares a b n := by
  -- what the whole bytes leave of the limit is what the scan by digits may still take
  have whole := commonBytes_le a b (min limit (min (count a) (count b)))
  rw [common, le_partFrom_iff (shares_commonBytes a b _) (by omega) (by omega), Nat.add_sub_of_le whole]
  constructor
  · rintro ⟨le, shares⟩
    exact ⟨by omega, shares⟩
  · rintro ⟨le, shares⟩
    exact ⟨Nat.le_min.mpr ⟨le, Nat.le_min.mpr ⟨shares.1, shares.2.1⟩⟩, shares⟩

theorem common_le (a b : Bytes) (limit : Nat) : common a b limit ≤ limit :=
  ((le_common_iff a b limit _).mp (Nat.le_refl _)).1

theorem shares_common (a b : Bytes) (limit : Nat) : Shares a b (common a b limit) :=
  ((le_common_iff a b limit _).mp (Nat.le_refl _)).2

theorem common_eq_iff (a b : Bytes) (limit : Nat) : common a b limit = limit ↔ Shares a b limit := by
  constructor
  · intro all
    have shared := shares_common a b limit
    rwa [all] at shared
  · intro all
    exact Nat.le_antisymm (common_le a b limit) ((le_common_iff a b limit limit).mpr ⟨Nat.le_refl _, all⟩)

theorem not_common_lt_iff (a b : Bytes) (limit : Nat) : ¬ common a b limit < limit ↔ Shares a b limit := by
  rw [← common_eq_iff, Nat.not_lt]
  exact ⟨Nat.le_antisymm (common_le a b limit), fun all => Nat.le_of_eq all.symm⟩

/-- Below the limit, `common` stops where the keys part or one of them ends. -/
theorem not_shares_of_common_lt {a b : Bytes} {limit : Nat} (lt : common a b limit < limit) :
    ¬ Shares a b (common a b limit + 1) := by
  intro more
  have := (le_common_iff a b limit _).mpr ⟨lt, more⟩
  omega

theorem le_shared_iff (a b : Bytes) (n : Nat) : n ≤ shared a b ↔ Shares a b n := by
  rw [shared, le_common_iff]
  constructor
  · exact fun h => h.2
  · exact fun h => ⟨Nat.le_min.mpr ⟨h.1, h.2.1⟩, h⟩

/-- Where keys stop sharing digits that both have, their digits differ. -/
theorem digits_part {a b : Bytes} {n : Nat} (shared : Shares a b n) (more : ¬ Shares a b (n + 1))
    {c d : Digit} (left : digit? a n = some c) (right : digit? b n = some d) : c ≠ d := by
  rintro rfl
  exact more (shared.succ left right)

theorem beginsWith_iff (key path : Bytes) (depth : Nat) :
    beginsWith key path depth = true ↔ Shares key path depth := by
  rw [beginsWith, Bool.and_eq_true, decide_eq_true_eq, beq_iff_eq, common_eq_iff]
  exact ⟨fun h => h.2, fun h => ⟨h.1, h⟩⟩

/-! ### The first digits of a key -/

theorem leading?_isSome {key : Bytes} {depth : Nat} (inside : depth ≤ count key) :
    ∃ path, leading? key depth = some path := by
  fun_induction leading? key depth with
  | case1 => exact ⟨_, rfl⟩
  | case2 => exact ⟨_, rfl⟩
  | case3 b rest depth ih =>
    rw [count_cons] at inside
    obtain ⟨path, found⟩ := ih (by omega)
    exact ⟨_, by rw [found]; rfl⟩
  | case4 => simp [count] at inside

/-- The first digits of a key are shared with the key, fill whole bytes and are their own beginning. -/
theorem leading?_spec {key path : Bytes} {depth : Nat} (found : leading? key depth = some path) :
    Shares key path depth ∧ path.length = (depth + 1) / 2 ∧ leading? path depth = some path := by
  fun_induction leading? key depth generalizing path with
  | case1 =>
    cases found
    exact ⟨.zero _ _, rfl, rfl⟩
  | case2 b rest =>
    cases found
    have half : high (UInt8.ofNat (16 * (high b).val)) = high b := by
      have lt := (high b).isLt
      apply Fin.ext
      show (UInt8.ofNat (16 * (high b).val)).toNat / 16 = (high b).val
      rw [UInt8.toNat_ofNat']
      omega
    refine ⟨(Shares.cons_one _ _).mpr half.symm, rfl, ?_⟩
    rw [leading?, half]
  | case3 b rest depth ih =>
    obtain ⟨tail, within, rfl⟩ := Option.map_eq_some_iff.mp found
    obtain ⟨shared, length, own⟩ := ih within
    refine ⟨(Shares.cons_cons _ _).mpr ⟨rfl, shared⟩, ?_, ?_⟩
    · rw [List.length_cons, length]
      omega
    · rw [leading?, own]
      rfl
  | case4 => cases found

/-- The first digits depend on nothing else of a key. -/
theorem leading?_eq_of_shares {a b : Bytes} {depth : Nat} (shared : Shares a b depth) :
    leading? a depth = leading? b depth := by
  fun_induction leading? a depth generalizing b with
  | case1 => cases b <;> rfl
  | case2 x as =>
    cases b with
    | nil => simp [Shares, count] at shared
    | cons y bs => rw [leading?, (Shares.cons_one x y).mp shared]
  | case3 x as depth ih =>
    cases b with
    | nil => simp [Shares, count] at shared
    | cons y bs =>
      obtain ⟨rfl, rest⟩ := (Shares.cons_cons x y).mp shared
      rw [leading?, ih rest]
  | case4 => simp [Shares, count] at shared

theorem leading?_count (key : Bytes) : leading? key (count key) = some key := by
  obtain ⟨path, found⟩ := leading?_isSome (Nat.le_refl (count key))
  obtain ⟨shares, length, -⟩ := leading?_spec found
  have ends : count path = count key := by
    simp only [count] at length ⊢
    omega
  rw [found, shares.eq rfl ends]

theorem eq_of_leading? {a path key : Bytes} {depth : Nat} (found : leading? a depth = some path)
    (shares : Shares a key depth) (ends : count key = depth) : path = key := by
  rw [leading?_eq_of_shares shares, ← ends, leading?_count] at found
  exact (Option.some.inj found).symm

theorem leading?_padding {key path : Bytes} {depth : Nat} (found : leading? key depth = some path)
    (odd : depth % 2 = 1) : (path.getLastD 0).toNat % 16 = 0 := by
  fun_induction leading? key depth generalizing path with
  | case1 => omega
  | case2 b rest =>
    cases found
    simp only [List.getLastD_cons, List.getLastD_nil, UInt8.toNat_ofNat']
    omega
  | case3 b rest depth ih =>
    obtain ⟨tail, within, rfl⟩ := Option.map_eq_some_iff.mp found
    have odd' : depth % 2 = 1 := by omega
    have length := (leading?_spec within).2.1
    cases tail with
    | nil =>
      rw [List.length_nil] at length
      omega
    | cons b' tail => simpa using ih within odd'
  | case4 => cases found

/-- A path of whole bytes, the last half of which is zero if it does not count, is its own beginning. -/
theorem leading?_self {path : Bytes} {depth : Nat} (length : path.length = (depth + 1) / 2)
    (padding : depth % 2 = 1 → (path.getLastD 0).toNat % 16 = 0) : leading? path depth = some path := by
  fun_induction leading? path depth with
  | case1 path =>
    rw [List.length_eq_zero_iff.mp length]
  | case2 b rest =>
    obtain rfl := List.length_eq_zero_iff.mp (Nat.succ.inj length)
    have low : b.toNat % 16 = 0 := padding rfl
    have whole : UInt8.ofNat (16 * (high b).val) = b := by
      apply UInt8.toNat_inj.mp
      have fits := b.toNat_lt
      rw [UInt8.toNat_ofNat']
      show 16 * (b.toNat / 16) % 256 = b.toNat
      omega
    rw [whole]
  | case3 b rest depth ih =>
    rw [List.length_cons] at length
    rw [ih (by omega) ?_]
    · rfl
    · intro odd
      cases rest with
      | nil => rfl
      | cons b' rest => simpa using padding (by omega)
  | case4 depth =>
    rw [List.length_nil] at length
    omega

end MerkleCells.Digits
