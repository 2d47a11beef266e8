import Mathlib.Data.Set.Card
import MerkleCells.Proofs.Digits

/-!
Contents: finite maps from byte keys, which tries stand for. `Content.below` is the part of a content
that lies below one digit, `Content.beside` is the rest of it, and `size` adds up over such parts.
-/
namespace MerkleCells

/-- What is bound to each key. -/
abbrev Content (α : Type) := Bytes → Option α

namespace Content

variable {α : Type}

/-- The content without bindings. -/
def none : Content α := fun _ => Option.none

/-- The content of one binding. -/
def single (key : Bytes) (a : α) : Content α := fun k => if k = key then some a else Option.none

/-- The content after a key has been bound. -/
def put (f : Content α) (key : Bytes) (a : α) : Content α := fun k => if k = key then some a else f k

/-- The content after a key has been unbound. -/
def erase (f : Content α) (key : Bytes) : Content α := fun k => if k = key then Option.none else f k

/-- The bindings of the keys that have digit `d` at a place. -/
def below (f : Content α) (depth : Nat) (d : Digit) : Content α :=
  fun k => if Digits.digit? k depth = some d then f k else Option.none

/-- The bindings of the keys that do not have digit `d` at a place. -/
def beside (f : Content α) (depth : Nat) (d : Digit) : Content α :=
  fun k => if Digits.digit? k depth = some d then Option.none else f k

/-- The keys that are bound. -/
def keys (f : Content α) : Set Bytes := {k | f k ≠ Option.none}

/-- Number of keys that are bound. -/
noncomputable def size (f : Content α) : Nat := f.keys.ncard

/-- All bound keys share the first `depth` digits of a path. -/
def Within (f : Content α) (path : Bytes) (depth : Nat) : Prop := ∀ k ∈ f.keys, Digits.Shares k path depth

variable {f g : Content α} {key k : Bytes} {a : α} {depth : Nat} {d : Digit}

theorem mem_keys : k ∈ f.keys ↔ f k ≠ Option.none := Iff.rfl

theorem mem_keys_of_eq_some (bound : f k = some a) : k ∈ f.keys := by simp [mem_keys, bound]

theorem eq_none_of_notMem (unbound : k ∉ f.keys) : f k = Option.none := not_not.mp unbound

theorem keys_eq_empty_iff : f.keys = ∅ ↔ f = none := by
  rw [Set.eq_empty_iff_forall_notMem]
  constructor
  · exact fun empty => funext fun k => eq_none_of_notMem (empty k)
  · rintro rfl k bound
    exact bound rfl

theorem exists_mem_keys (nonempty : f ≠ none) : ∃ k, k ∈ f.keys := by
  rw [← Set.nonempty_def, Set.nonempty_iff_ne_empty]
  exact fun empty => nonempty (keys_eq_empty_iff.mp empty)

/-! ### Parts -/

theorem below_of_digit (here : Digits.digit? k depth = some d) : f.below depth d k = f k := if_pos here

theorem below_of_ne (other : Digits.digit? k depth ≠ some d) : f.below depth d k = Option.none := if_neg other

theorem mem_keys_below : k ∈ (f.below depth d).keys ↔ Digits.digit? k depth = some d ∧ k ∈ f.keys := by
  by_cases here : Digits.digit? k depth = some d <;> simp [mem_keys, below, here]

theorem mem_keys_beside : k ∈ (f.beside depth d).keys ↔ Digits.digit? k depth ≠ some d ∧ k ∈ f.keys := by
  by_cases here : Digits.digit? k depth = some d <;> simp [mem_keys, beside, here]

theorem below_subset (f : Content α) (depth : Nat) (d : Digit) : (f.below depth d).keys ⊆ f.keys :=
  fun _ bound => (mem_keys_below.mp bound).2

theorem beside_subset (f : Content α) (depth : Nat) (d : Digit) : (f.beside depth d).keys ⊆ f.keys :=
  fun _ bound => (mem_keys_beside.mp bound).2

theorem below_eq_some_iff : f.below depth d k = some a ↔ Digits.digit? k depth = some d ∧ f k = some a := by
  by_cases here : Digits.digit? k depth = some d <;> simp [below, here]

theorem below_eq_self (all : ∀ k ∈ f.keys, Digits.digit? k depth = some d) : f.below depth d = f := by
  funext k
  by_cases bound : k ∈ f.keys
  · exact below_of_digit (all k bound)
  · rw [eq_none_of_notMem bound]
    exact eq_none_of_notMem fun bound' => bound (below_subset f depth d bound')

theorem below_eq_none (all : ∀ k ∈ f.keys, Digits.digit? k depth ≠ some d) : f.below depth d = none := by
  rw [← keys_eq_empty_iff, Set.eq_empty_iff_forall_notMem]
  intro k bound
  obtain ⟨here, bound⟩ := mem_keys_below.mp bound
  exact all k bound here

theorem below_ne_none (bound : k ∈ f.keys) (here : Digits.digit? k depth = some d) : f.below depth d ≠ none := by
  intro empty
  have := congrFun empty k
  rw [below_of_digit here] at this
  exact bound this

theorem below_none : (none : Content α).below depth d = none := by
  funext k
  exact ite_self _

theorem Within.below {path : Bytes} {n : Nat} (within : f.Within path n) : (f.below depth d).Within path n :=
  fun k bound => within k (below_subset f depth d bound)

theorem Within.mono {path : Bytes} {m n : Nat} (within : f.Within path n) (le : m ≤ n) : f.Within path m :=
  fun k bound => (within k bound).mono le

theorem Within.trans {path path' : Bytes} {n : Nat} (within : f.Within path n)
    (shares : Digits.Shares path path' n) : f.Within path' n :=
  fun k bound => (within k bound).trans shares

/-! ### Updates -/

@[simp]
theorem put_self (f : Content α) (key : Bytes) (a : α) : f.put key a key = some a := if_pos rfl

theorem put_of_ne (other : k ≠ key) : f.put key a k = f k := if_neg other

@[simp]
theorem erase_self (f : Content α) (key : Bytes) : f.erase key key = Option.none := if_pos rfl

theorem erase_of_ne (other : k ≠ key) : f.erase key k = f k := if_neg other

theorem keys_put (f : Content α) (key : Bytes) (a : α) : (f.put key a).keys = insert key f.keys := by
  ext k
  by_cases same : k = key <;> simp [mem_keys, put, same]

theorem keys_erase (f : Content α) (key : Bytes) : (f.erase key).keys = f.keys \ {key} := by
  ext k
  by_cases same : k = key <;> simp [mem_keys, erase, same]

theorem keys_single (key : Bytes) (a : α) : (single key a).keys = {key} := by
  ext k
  by_cases same : k = key <;> simp [mem_keys, single, same]

theorem finite_put (finite : f.keys.Finite) (key : Bytes) (a : α) : (f.put key a).keys.Finite := by
  rw [keys_put]
  exact finite.insert key

theorem put_ne_none (f : Content α) (key : Bytes) (a : α) : f.put key a ≠ none := by
  intro empty
  have := congrFun empty key
  rw [put_self] at this
  cases this

theorem finite_erase (finite : f.keys.Finite) (key : Bytes) : (f.erase key).keys.Finite := by
  rw [keys_erase]
  exact finite.sdiff

theorem Within.put {path : Bytes} {n : Nat} (within : f.Within path n) (shares : Digits.Shares path key n) :
    (f.put key a).Within path n := by
  intro k bound
  rw [keys_put] at bound
  rcases bound with rfl | bound
  · exact shares.symm
  · exact within k bound

theorem Within.erase {path : Bytes} {n : Nat} (within : f.Within path n) : (f.erase key).Within path n := by
  intro k bound
  rw [keys_erase] at bound
  exact within k bound.1

theorem put_none (key : Bytes) (a : α) : (none : Content α).put key a = single key a := rfl

theorem put_single (key : Bytes) (a b : α) : (single key a).put key b = single key b := by
  funext k
  by_cases same : k = key <;> simp [put, single, same]

/-- An update of a key that has digit `d` at a place is an update of the part below `d`. -/
theorem below_put_self (here : Digits.digit? key depth = some d) :
    (f.put key a).below depth d = (f.below depth d).put key a := by
  funext k
  by_cases same : k = key
  · subst same
    rw [below_of_digit here, put_self, put_self]
  · by_cases at_d : Digits.digit? k depth = some d
    · rw [below_of_digit at_d, put_of_ne same, put_of_ne same, below_of_digit at_d]
    · rw [below_of_ne at_d, put_of_ne same, below_of_ne at_d]

theorem below_put_of_ne (other : Digits.digit? key depth ≠ some d) :
    (f.put key a).below depth d = f.below depth d := by
  funext k
  by_cases at_d : Digits.digit? k depth = some d
  · have ne : k ≠ key := fun same => other (same ▸ at_d)
    rw [below_of_digit at_d, put_of_ne ne, below_of_digit at_d]
  · rw [below_of_ne at_d, below_of_ne at_d]

theorem below_put_of_other {e : Digit} (here : Digits.digit? key depth = some d) (other : d ≠ e) :
    (f.put key a).below depth e = f.below depth e := by
  refine below_put_of_ne fun at_e => other ?_
  rw [here, Option.some.injEq] at at_e
  exact at_e

theorem below_put_of_ends (ends : Digits.count key = depth) : (f.put key a).below depth d = f.below depth d :=
  below_put_of_ne fun here => (Digits.lt_count here).ne' ends

theorem below_erase_self (here : Digits.digit? key depth = some d) :
    (f.erase key).below depth d = (f.below depth d).erase key := by
  funext k
  by_cases same : k = key
  · subst same
    rw [below_of_digit here, erase_self, erase_self]
  · by_cases at_d : Digits.digit? k depth = some d
    · rw [below_of_digit at_d, erase_of_ne same, erase_of_ne same, below_of_digit at_d]
    · rw [below_of_ne at_d, erase_of_ne same, below_of_ne at_d]

theorem below_erase_of_ne (other : Digits.digit? key depth ≠ some d) :
    (f.erase key).below depth d = f.below depth d := by
  funext k
  by_cases at_d : Digits.digit? k depth = some d
  · have ne : k ≠ key := fun same => other (same ▸ at_d)
    rw [below_of_digit at_d, erase_of_ne ne, below_of_digit at_d]
  · rw [below_of_ne at_d, below_of_ne at_d]

theorem below_erase_of_other {e : Digit} (here : Digits.digit? key depth = some d) (other : d ≠ e) :
    (f.erase key).below depth e = f.below depth e := by
  refine below_erase_of_ne fun at_e => other ?_
  rw [here, Option.some.injEq] at at_e
  exact at_e

theorem below_erase_of_ends (ends : Digits.count key = depth) :
    (f.erase key).below depth d = f.below depth d :=
  below_erase_of_ne fun here => (Digits.lt_count here).ne' ends

theorem beside_put (here : Digits.digit? key depth = some d) : (f.put key a).beside depth d = f.beside depth d := by
  funext k
  by_cases at_d : Digits.digit? k depth = some d
  · simp [beside, at_d]
  · have ne : k ≠ key := fun same => at_d (same ▸ here)
    simp [beside, at_d, put_of_ne ne]

theorem beside_erase (here : Digits.digit? key depth = some d) : (f.erase key).beside depth d = f.beside depth d := by
  funext k
  by_cases at_d : Digits.digit? k depth = some d
  · simp [beside, at_d]
  · have ne : k ≠ key := fun same => at_d (same ▸ here)
    simp [beside, at_d, erase_of_ne ne]

/-! ### Sizes -/

theorem size_none : (none : Content α).size = 0 := by
  rw [size, keys_eq_empty_iff.mpr rfl, Set.ncard_empty]

theorem size_single (key : Bytes) (a : α) : (single key a).size = 1 := by
  rw [size, keys_single, Set.ncard_singleton]

theorem size_eq_zero_iff (finite : f.keys.Finite) : f.size = 0 ↔ f = none := by
  rw [size, Set.ncard_eq_zero finite, keys_eq_empty_iff]

theorem size_mono (finite : g.keys.Finite) (sub : f.keys ⊆ g.keys) : f.size ≤ g.size :=
  Set.ncard_le_ncard sub finite

theorem size_put_of_none (finite : f.keys.Finite) (unbound : f key = Option.none) :
    (f.put key a).size = f.size + 1 := by
  rw [size, keys_put]
  exact Set.ncard_insert_of_notMem (fun bound => bound unbound) finite

theorem size_put_of_mem (bound : key ∈ f.keys) : (f.put key a).size = f.size := by
  rw [size, keys_put, Set.insert_eq_of_mem bound, size]

theorem size_erase_of_mem (finite : f.keys.Finite) (bound : key ∈ f.keys) :
    (f.erase key).size + 1 = f.size := by
  rw [size, keys_erase]
  exact Set.ncard_sdiff_singleton_add_one bound finite

theorem size_eq_below_add_beside (finite : f.keys.Finite) (depth : Nat) (d : Digit) :
    f.size = (f.below depth d).size + (f.beside depth d).size := by
  have union : f.keys = (f.below depth d).keys ∪ (f.beside depth d).keys := by
    ext k
    rw [Set.mem_union, mem_keys_below, mem_keys_beside]
    tauto
  have disjoint : Disjoint (f.below depth d).keys (f.beside depth d).keys := by
    rw [Set.disjoint_left]
    intro k left right
    exact (mem_keys_beside.mp right).1 (mem_keys_below.mp left).1
  rw [size, union, Set.ncard_union_eq disjoint (finite.subset (below_subset f depth d))
    (finite.subset (beside_subset f depth d))]
  rfl

/-- The keys with one of some digits at a place are as many as there are below each. -/
theorem ncard_digits (finite : f.keys.Finite) (depth : Nat) {digits : List Digit} (distinct : digits.Nodup) :
    {k ∈ f.keys | ∃ d ∈ digits, Digits.digit? k depth = some d}.ncard =
      (digits.map fun d => (f.below depth d).size).sum := by
  induction digits with
  | nil => simp
  | cons d rest ih =>
    obtain ⟨new, distinct⟩ := List.nodup_cons.mp distinct
    have union : {k ∈ f.keys | ∃ e ∈ d :: rest, Digits.digit? k depth = some e} =
        (f.below depth d).keys ∪ {k ∈ f.keys | ∃ e ∈ rest, Digits.digit? k depth = some e} := by
      ext k
      simp only [Set.mem_union, mem_keys_below, Set.mem_ofPred_eq, List.exists_mem_cons_iff]
      tauto
    have disjoint : Disjoint (f.below depth d).keys
        {k ∈ f.keys | ∃ e ∈ rest, Digits.digit? k depth = some e} := by
      rw [Set.disjoint_left]
      rintro k left ⟨_, e, member, at_e⟩
      rw [(mem_keys_below.mp left).1] at at_e
      cases at_e
      exact new member
    rw [union, Set.ncard_union_eq disjoint (finite.subset (below_subset f depth d))
      (finite.subset (Set.sep_subset _ _)), ih distinct, List.map_cons, List.sum_cons]
    rfl

/-- A content is what ends at a depth and its parts below the digits that go on. -/
theorem size_eq_sum (finite : f.keys.Finite) {path : Bytes} (within : f.Within path depth) {digits : List Digit}
    (distinct : digits.Nodup) (all : ∀ k ∈ f.keys, ∀ d, Digits.digit? k depth = some d → d ∈ digits) :
    f.size = {k ∈ f.keys | Digits.count k = depth}.ncard +
      (digits.map fun d => (f.below depth d).size).sum := by
  have union : f.keys = {k ∈ f.keys | Digits.count k = depth} ∪
      {k ∈ f.keys | ∃ d ∈ digits, Digits.digit? k depth = some d} := by
    ext k
    simp only [Set.mem_union, Set.mem_ofPred_eq]
    constructor
    · intro bound
      rcases Nat.lt_or_eq_of_le (within k bound).1 with lt | eq
      · obtain ⟨d, here⟩ := (Digits.digit?_isSome_iff k depth).mpr lt
        exact .inr ⟨bound, d, all k bound d here, here⟩
      · exact .inl ⟨bound, eq.symm⟩
    · rintro (⟨bound, _⟩ | ⟨bound, _⟩) <;> exact bound
  have disjoint : Disjoint {k ∈ f.keys | Digits.count k = depth}
      {k ∈ f.keys | ∃ d ∈ digits, Digits.digit? k depth = some d} := by
    rw [Set.disjoint_left]
    rintro k ⟨_, ends⟩ ⟨_, d, _, here⟩
    have inside := Digits.lt_count here
    omega
  rw [← ncard_digits finite depth distinct, ← Set.ncard_union_eq disjoint
    (finite.subset (Set.sep_subset _ _)) (finite.subset (Set.sep_subset _ _)), ← union]
  rfl

end Content

end MerkleCells
