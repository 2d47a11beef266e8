import Mathlib.Data.List.Basic
import Mathlib.Data.List.Pairwise
import Mathlib.Order.Fin.Basic
import MerkleCells.Trie.Node

/-!
Lists of children. In a list that ascends by digit a child is what is found at its digit, so such a list
is determined by what is found in it, and putting and taking out a child act on one digit alone.
-/
namespace MerkleCells.Branch

variable {ρ σ : Type}

/-- The children ascend by digit. -/
def Ascending (children : List (Digit × ρ)) : Prop := children.Pairwise fun c c' => c.1 < c'.1

/-- The child at a digit of a list of children. -/
def childIn (children : List (Digit × ρ)) (d : Digit) : Option ρ :=
  (children.find? fun c => c.1 == d).map (·.2)

theorem child?_eq (b : Branch ρ) (d : Digit) : b.child? d = childIn b.children d := rfl

@[simp]
theorem childIn_nil (d : Digit) : childIn ([] : List (Digit × ρ)) d = none := rfl

theorem childIn_cons (c : Digit × ρ) (rest : List (Digit × ρ)) (d : Digit) :
    childIn (c :: rest) d = if c.1 = d then some c.2 else childIn rest d := by
  by_cases here : c.1 = d <;> simp [childIn, here]

theorem mem_of_childIn {children : List (Digit × ρ)} {d : Digit} {r : ρ} (found : childIn children d = some r) :
    (d, r) ∈ children := by
  induction children with
  | nil => cases found
  | cons c rest ih =>
    rw [childIn_cons] at found
    by_cases here : c.1 = d
    · rw [if_pos here] at found
      cases found
      subst here
      exact List.mem_cons_self
    · rw [if_neg here] at found
      exact List.mem_cons_of_mem _ (ih found)

theorem Ascending.childIn_of_mem {children : List (Digit × ρ)} (ascending : Ascending children) {d : Digit} {r : ρ}
    (member : (d, r) ∈ children) : childIn children d = some r := by
  induction children with
  | nil => cases member
  | cons c rest ih =>
    obtain ⟨least, ascending⟩ := List.pairwise_cons.mp ascending
    rw [childIn_cons]
    rcases List.mem_cons.mp member with rfl | member
    · exact if_pos rfl
    · have lt := least _ member
      rw [if_neg (ne_of_lt lt)]
      exact ih ascending member

theorem Ascending.eq_of_childIn {left right : List (Digit × ρ)} (ascending : Ascending left)
    (ascending' : Ascending right) (same : ∀ d, childIn left d = childIn right d) : left = right := by
  have distinct : ∀ {l : List (Digit × ρ)}, Ascending l → l.Nodup := fun h =>
    List.Pairwise.imp (fun lt eq => absurd (congrArg Prod.fst eq) (ne_of_lt lt)) h
  have antisymm : ∀ c c' : Digit × ρ, c ∈ left → c' ∈ right → c.1 < c'.1 → c'.1 < c.1 → c = c' :=
    fun c c' _ _ lt lt' => absurd (lt_trans lt lt') (lt_irrefl _)
  refine List.Perm.eq_of_pairwise antisymm ascending ascending' ?_
  · refine (List.perm_ext_iff_of_nodup (distinct ascending) (distinct ascending')).mpr ?_
    rintro ⟨d, r⟩
    constructor
    · intro member
      exact mem_of_childIn ((same d).symm.trans (ascending.childIn_of_mem member))
    · intro member
      exact mem_of_childIn ((same d).trans (ascending'.childIn_of_mem member))

theorem childIn_map (f : ρ → σ) (children : List (Digit × ρ)) (d : Digit) :
    childIn (children.map fun c => (c.1, f c.2)) d = (childIn children d).map f := by
  induction children with
  | nil => rfl
  | cons c rest ih =>
    rw [List.map_cons, childIn_cons, childIn_cons, ih]
    split <;> rfl

theorem Ascending.map {children : List (Digit × ρ)} (ascending : Ascending children) (f : ρ → σ) :
    Ascending (children.map fun c => (c.1, f c.2)) :=
  List.pairwise_map.mpr ascending

/-! ### Putting and taking out a child -/

theorem childIn_setChild (d e : Digit) (r : ρ) {children : List (Digit × ρ)} (ascending : Ascending children) :
    childIn (setChild d r children) e = if d = e then some r else childIn children e := by
  induction children with
  | nil => simp [setChild, childIn_cons]
  | cons c rest ih =>
    obtain ⟨least, ascending⟩ := List.pairwise_cons.mp ascending
    rw [setChild]
    by_cases before : d < c.1
    · rw [if_pos before, childIn_cons]
    · rw [if_neg before]
      by_cases here : c.1 = d
      · rw [if_pos here, childIn_cons, childIn_cons, here]
        split <;> rfl
      · rw [if_neg here, childIn_cons, childIn_cons, ih ascending]
        by_cases hit : c.1 = e
        · rw [if_pos hit, if_pos hit, if_neg fun same => here (hit.trans same.symm)]
        · rw [if_neg hit, if_neg hit]

theorem forall_mem_setChild {P : Digit × ρ → Prop} {d : Digit} {r : ρ} {children : List (Digit × ρ)}
    (all : ∀ c ∈ children, P c) (new : P (d, r)) : ∀ c ∈ setChild d r children, P c := by
  induction children with
  | nil => simpa [setChild] using new
  | cons c rest ih =>
    obtain ⟨first, others⟩ := List.forall_mem_cons.mp all
    rw [setChild]
    split
    · exact List.forall_mem_cons.mpr ⟨new, all⟩
    · split
      · exact List.forall_mem_cons.mpr ⟨new, others⟩
      · exact List.forall_mem_cons.mpr ⟨first, ih others⟩

theorem setChild_of_lt {d : Digit} {r : ρ} {children : List (Digit × ρ)} (after : ∀ c ∈ children, c.1 < d) :
    setChild d r children = children ++ [(d, r)] := by
  induction children with
  | nil => rfl
  | cons c rest ih =>
    have lt := after c (by simp)
    rw [setChild, if_neg (lt_asymm lt), if_neg (ne_of_lt lt), ih fun c' member => after c' (by simp [member])]
    rfl

theorem Ascending.setChild (d : Digit) (r : ρ) {children : List (Digit × ρ)} (ascending : Ascending children) :
    Ascending (Branch.setChild d r children) := by
  induction children with
  | nil => exact List.pairwise_singleton _ _
  | cons c rest ih =>
    obtain ⟨least, sorted⟩ := List.pairwise_cons.mp ascending
    rw [Branch.setChild]
    by_cases before : d < c.1
    · rw [if_pos before]
      refine List.pairwise_cons.mpr ⟨?_, ascending⟩
      intro c' member
      rcases List.mem_cons.mp member with rfl | member
      · exact before
      · exact lt_trans before (least c' member)
    · rw [if_neg before]
      by_cases here : c.1 = d
      · rw [if_pos here]
        exact List.pairwise_cons.mpr ⟨fun c' member => here ▸ least c' member, sorted⟩
      · rw [if_neg here]
        refine List.pairwise_cons.mpr ⟨?_, ih sorted⟩
        have after : c.1 < d := lt_of_le_of_ne (not_lt.mp before) here
        rintro ⟨e, r'⟩ member
        have found := (ih sorted).childIn_of_mem member
        rw [childIn_setChild d e r sorted] at found
        by_cases same : d = e
        · exact same ▸ after
        · rw [if_neg same] at found
          exact least _ (mem_of_childIn found)

theorem length_setChild_of_none (d : Digit) (r : ρ) {children : List (Digit × ρ)}
    (absent : childIn children d = none) : (setChild d r children).length = children.length + 1 := by
  induction children with
  | nil => rfl
  | cons c rest ih =>
    rw [childIn_cons] at absent
    by_cases here : c.1 = d
    · rw [if_pos here] at absent
      cases absent
    · rw [if_neg here] at absent
      rw [setChild, if_neg here]
      split
      · rfl
      · rw [List.length_cons, List.length_cons, ih absent]

theorem length_setChild_of_some (d : Digit) (r : ρ) {old : ρ} {children : List (Digit × ρ)}
    (ascending : Ascending children) (present : childIn children d = some old) :
    (setChild d r children).length = children.length := by
  induction children with
  | nil => cases present
  | cons c rest ih =>
    obtain ⟨least, ascending⟩ := List.pairwise_cons.mp ascending
    rw [childIn_cons] at present
    rw [setChild]
    by_cases here : c.1 = d
    · rw [if_neg (by rw [here]; exact lt_irrefl d), if_pos here]
      rfl
    · rw [if_neg here] at present
      have after : c.1 < d := least _ (mem_of_childIn present)
      rw [if_neg (lt_asymm after), if_neg here, List.length_cons, List.length_cons, ih ascending present]

theorem childIn_eraseChild (d e : Digit) (children : List (Digit × ρ)) :
    childIn (eraseChild d children) e = if d = e then none else childIn children e := by
  induction children with
  | nil => simp [eraseChild]
  | cons c rest ih =>
    by_cases here : c.1 = d
    · have gone : eraseChild d (c :: rest) = eraseChild d rest := by simp [eraseChild, here]
      rw [gone, ih, childIn_cons, here]
      by_cases same : d = e <;> simp [same]
    · have kept : eraseChild d (c :: rest) = c :: eraseChild d rest := by simp [eraseChild, here]
      rw [kept, childIn_cons, childIn_cons, ih]
      by_cases hit : c.1 = e
      · rw [if_pos hit, if_pos hit, if_neg fun same => here (hit.trans same.symm)]
      · rw [if_neg hit, if_neg hit]

theorem Ascending.eraseChild (d : Digit) {children : List (Digit × ρ)} (ascending : Ascending children) :
    Ascending (Branch.eraseChild d children) :=
  ascending.sublist List.filter_sublist

end MerkleCells.Branch
