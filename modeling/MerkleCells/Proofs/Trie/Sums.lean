import Mathlib.Algebra.Ring.Nat
import Mathlib.Data.List.Forall2
import MerkleCells.Proofs.Mirroring
import MerkleCells.Trie.Basic

/-!
Sums of counts. A sum is the sum of the numbers or there is none: what does not fit in 64 bits is an error
(`addCounts_eq_ok`, `addCounts_eq_error`). So is the sum of counts that are told one after the other (`runs_sumOf`),
and they have one wherever there is room for it (`sumOf_answers`).
-/
namespace MerkleCells.Trie

open MerkleCells.Action

variable {a b c : UInt64} {e : Error}

theorem addCounts_eq_ok : addCounts a b = .ok c ↔ c.toNat = a.toNat + b.toNat := by
  rw [addCounts]
  by_cases room : a.toNat + b.toNat < UInt64.size
  · have exact : (a + b).toNat = a.toNat + b.toNat := by rw [UInt64.toNat_add, Nat.mod_eq_of_lt room]
    rw [if_pos room]
    refine ⟨fun same => ?_, fun same => ?_⟩
    · cases same
      exact exact
    · exact congrArg Except.ok (UInt64.toNat_inj.mp (exact.trans same.symm))
  · rw [if_neg room]
    refine ⟨fun same => (by cases same), fun same => absurd ?_ room⟩
    rw [← same]
    exact c.toNat_lt_size

theorem addCounts_eq_error : addCounts a b = .error e ↔ e = .overflow ∧ UInt64.size ≤ a.toNat + b.toNat := by
  rw [addCounts]
  split
  · next room => exact ⟨fun same => (by cases same), fun far => absurd room (Nat.not_lt.mpr far.2)⟩
  · next far =>
    refine ⟨fun same => ?_, fun same => congrArg Except.error same.1.symm⟩
    cases same
    exact ⟨rfl, Nat.not_lt.mp far⟩

theorem addCounts_of_lt (room : a.toNat + b.toNat < UInt64.size) :
    ∃ c, addCounts a b = .ok c ∧ c.toNat = a.toNat + b.toNat := by
  cases added : addCounts a b with
  | error e => exact absurd room (Nat.not_lt.mpr (addCounts_eq_error.mp added).2)
  | ok c => exact ⟨c, rfl, addCounts_eq_ok.mp added⟩

/-- Adding nothing always goes well. -/
@[simp]
theorem addCounts_zero (a : UInt64) : addCounts a 0 = .ok a := addCounts_eq_ok.mpr (by simp)

section

variable {α : Type} {R : Session → Session → Prop} {count : α → Action UInt64} {items : List α} {sizes : List Nat}
  {s : Session}

/-- A sum of counts that are told one after the other is that of the numbers, or they have no room, or one of them is
not told. -/
theorem runs_sumOf {F : Error → Prop} (refl : ∀ s, R s s) (trans : ∀ {s₁ s₂ s₃}, R s₁ s₂ → R s₂ s₃ → R s₁ s₃)
    (full : UInt64.size ≤ sizes.sum → F .overflow)
    (each : List.Forall₂ (fun item size => ∀ s₁, R s s₁ → Runs R F (count item) s₁ fun n _ => n.toNat = size) items sizes) :
    Runs R F (sumOf count items) s fun n _ => n.toNat = sizes.sum := by
  -- The induction is on the items that are left, with the sum so far in the place of zero.
  have all : ∀ (start : UInt64) (s₁ : Session), R s s₁ → (UInt64.size ≤ start.toNat + sizes.sum → F .overflow) →
      Runs R F (items.foldlM (fun total item => do addCounts total (← count item)) start) s₁ fun n _ =>
        n.toNat = start.toNat + sizes.sum := by
    clear full
    induction each with
    | nil => exact fun start s₁ _ _ => runs_pure refl rfl
    | @cons item size items sizes first _ ih =>
      intro start s₁ related full
      rw [List.sum_cons] at full ⊢
      rw [List.foldlM_cons, bind_assoc]
      refine (first s₁ related).bind trans fun n s₂ _ related' size_eq => ?_
      have added : Ends F (fun total => total.toNat = start.toNat + n.toNat) (addCounts start n) := by
        cases sum : addCounts start n with
        | error e =>
          obtain ⟨rfl, excess⟩ := addCounts_eq_error.mp sum
          exact full (by omega)
        | ok total => exact addCounts_eq_ok.mp sum
      refine (runs_lift (P := fun total _ => total.toNat = start.toNat + n.toNat) refl added).bind trans
        fun total s₃ _ related'' total_eq => ?_
      refine (ih total s₃ (trans related (trans related' related'')) fun excess => full (by omega)).mono (fun _ => id) ?_
      exact fun m _ sum => by omega
  have sums := all 0 s (refl s) fun excess => full (by rwa [UInt64.toNat_zero, Nat.zero_add] at excess)
  exact sums.mono (fun _ => id) fun n _ sum => by rwa [UInt64.toNat_zero, Nat.zero_add] at sum

/-- Whatever becomes of a sum, it is that of the numbers if there is one. -/
theorem keeps_sumOf (refl : ∀ s, R s s) (trans : ∀ {s₁ s₂ s₃}, R s₁ s₂ → R s₂ s₃ → R s₁ s₃)
    (each : List.Forall₂ (fun item size => ∀ s₁, R s s₁ → Keeps R (count item) s₁ fun n _ => n.toNat = size) items sizes) :
    Keeps R (sumOf count items) s fun n _ => n.toNat = sizes.sum :=
  (runs_sumOf refl trans (fun _ => trivial) (each.imp fun _ _ keeps s₁ related => (keeps s₁ related).runs)).keeps

/-- Counts that are told one after the other have a sum if there is room for it, unless one cannot be told because
something is missing. -/
theorem sumOf_answers {M : Hash → Prop} (refl : ∀ s, R s s) (trans : ∀ {s₁ s₂ s₃}, R s₁ s₂ → R s₂ s₃ → R s₁ s₃)
    (each : List.Forall₂ (fun item size => ∀ s₁, R s s₁ → Answers M (count item) s₁ fun n s₂ =>
      R s₁ s₂ ∧ n.toNat = size) items sizes)
    (room : sizes.sum < UInt64.size) : Answers M (sumOf count items) s fun n s' => R s s' ∧ n.toNat = sizes.sum := by
  have all : ∀ (start : UInt64) (s₁ : Session), R s s₁ → start.toNat + sizes.sum < UInt64.size →
      Answers M (items.foldlM (fun total item => do addCounts total (← count item)) start) s₁ fun n s' =>
        R s₁ s' ∧ n.toNat = start.toNat + sizes.sum := by
    clear room
    induction each with
    | nil => exact fun start s₁ _ _ => .inl (yields_pure.mpr ⟨refl s₁, rfl⟩)
    | @cons item size items sizes first _ ih =>
      intro start s₁ related room
      rw [List.sum_cons] at room ⊢
      rw [List.foldlM_cons, bind_assoc]
      refine (first s₁ related).bind ?_
      rintro n s₂ ⟨related', rfl⟩
      obtain ⟨total, added, total_eq⟩ := addCounts_of_lt (a := start) (b := n) (by omega)
      rw [added]
      refine (ih total s₂ (trans related related') (by omega)).mono ?_
      rintro m s₃ ⟨related'', sum⟩
      exact ⟨trans related' related'', by omega⟩
  refine (all 0 s (refl s) ?_).mono ?_
  · rwa [UInt64.toNat_zero, Nat.zero_add]
  · rintro n s' ⟨related, sum⟩
    rw [UInt64.toNat_zero, Nat.zero_add] at sum
    exact ⟨related, sum⟩

theorem sumOf_yields (refl : ∀ s, R s s) (trans : ∀ {s₁ s₂ s₃}, R s₁ s₂ → R s₂ s₃ → R s₁ s₃)
    (each : List.Forall₂ (fun item size => ∀ s₁, R s s₁ → Yields (count item) s₁ fun n s₂ =>
      R s₁ s₂ ∧ n.toNat = size) items sizes)
    (room : sizes.sum < UInt64.size) : Yields (sumOf count items) s fun n s' => R s s' ∧ n.toNat = sizes.sum := by
  have answers := sumOf_answers (M := fun _ => False) refl trans
    (each.imp fun _ _ first s₁ related => (first s₁ related).answers) room
  exact answers.yields fun _ none => none

end

/-! ### Counts that are known -/

theorem keeps_sumOf_pure (counts : List UInt64) (s : Session) :
    Keeps Eq (sumOf pure counts) s fun n _ => n.toNat = (counts.map UInt64.toNat).sum := by
  refine keeps_sumOf (fun _ => rfl) Eq.trans ?_
  rw [List.forall₂_map_right_iff, List.forall₂_same]
  exact fun n _ s₁ _ => ⟨rfl, fun m same => by cases same; rfl⟩

theorem sumOf_pure_yields {counts : List UInt64} (room : (counts.map UInt64.toNat).sum < UInt64.size) (s : Session) :
    Yields (sumOf pure counts) s fun n s' => s = s' ∧ n.toNat = (counts.map UInt64.toNat).sum := by
  refine sumOf_yields (fun _ => rfl) Eq.trans ?_ room
  rw [List.forall₂_map_right_iff, List.forall₂_same]
  exact fun n _ s₁ _ => yields_pure.mpr ⟨rfl, rfl⟩

end MerkleCells.Trie
