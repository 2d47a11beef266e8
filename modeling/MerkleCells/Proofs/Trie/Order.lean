import MerkleCells.Proofs.Trie.Invariant
import MerkleCells.Proofs.Trie.Listing

/-!
Entries by their place and by the beginning of their key. Both agree with the order of keys: the entry at a place is
the one that a walk would come across there (`entryAt?_yields`), and the entries whose key begins with given bytes are
those of the bindings of such keys (`entriesStarting_yields`).
-/
namespace MerkleCells

open MerkleCells.Action

variable {kind : TrieKind} {s s' : Session} {f : Content Mark}

/-! ### Lists of bindings -/

/-- As many entries are listed as keys are bound. -/
theorem Content.Lists.length_eq {entries : List Entry} (lists : f.Lists entries) : entries.length = f.size := by
  have keys : f.keys = ((entries.map (·.key)).toFinset : Set Bytes) := by
    ext k
    rw [List.coe_toFinset, Set.mem_ofPred_eq, List.mem_map]
    constructor
    · intro bound
      obtain ⟨m, bound⟩ := Option.ne_none_iff_exists'.mp bound
      obtain ⟨e, member, same, -⟩ := (lists.listed k m).mp bound
      exact ⟨e, member, same⟩
    · rintro ⟨e, member, rfl⟩
      exact Content.mem_keys_of_eq_some (lists.bound member)
  rw [Content.size, keys, Set.ncard_coe_finset, List.toFinset_card_of_nodup lists.nodup, List.length_map]

theorem Node.Holds.exists_lists {n : Node (Ref Cell)} (holds : n.Holds kind s f) (admitted : f.Admitted kind) :
    ∃ entries, f.Lists entries := by
  obtain ⟨entries, -, -, -, lists⟩ :=
    Trie.listWithin_walks (fun e => e) (kind.maxDigits + 1) holds admitted (by omega)
  exact ⟨entries, lists⟩

/-- The bindings below some digits can be listed. -/
theorem Branch.Fits.exists_lists {b : Branch (Ref Cell)} (fits : b.Fits f) (admitted : f.Admitted kind)
    {children : List (Digit × Ref Cell)} (ascending : Branch.Ascending children)
    (leads : ∀ c ∈ children, c.2.Leads kind s (f.below b.depth c.1)) :
    ∃ entries, (f.among b.depth (children.map (·.1))).Lists entries := by
  induction children with
  | nil => exact ⟨[], Content.lists_among_nil f b.depth⟩
  | cons c rest ih =>
    obtain ⟨least, ascending⟩ := List.pairwise_cons.mp ascending
    obtain ⟨t, s₁, -, -, -, holds⟩ := leads c List.mem_cons_self s (.refl s)
    obtain ⟨entries, lists⟩ := holds.exists_lists (admitted.below _ _)
    obtain ⟨entries', lists'⟩ := ih ascending fun c' member => leads c' (List.mem_cons_of_mem _ member)
    exact ⟨entries ++ entries', fits.lists_cons least lists lists'⟩

namespace Trie

/-! ### Entries by place -/

section Place

variable {b : Branch (Ref Cell)}

/-- Where a place lies below some children, one of them has it, and the entry there is the entry of the place. -/
theorem childAt_yields (fits : b.Fits f) (admitted : f.Admitted kind) {children : List (Digit × Ref Cell)}
    (ascending : Branch.Ascending children) (leads : ∀ c ∈ children, c.2.Leads kind s (f.below b.depth c.1))
    (index : UInt64) (inside : index.toNat < (children.map fun c => (f.below b.depth c.1).size).sum) :
    Yields (childAt kind children index) s fun found s' => s.Later s' ∧ ∃ c ∈ children,
      found.1.node.Holds kind s' (f.below b.depth c.1) ∧ ∀ below, (f.below b.depth c.1).Lists below →
        ∃ entries, (f.among b.depth (children.map (·.1))).Lists entries ∧
          entries[index.toNat]? = below[found.2.toNat]? := by
  induction children generalizing s index with
  | nil => exact absurd inside (Nat.not_lt_zero _)
  | cons c rest ih =>
    obtain ⟨least, ascending⟩ := List.pairwise_cons.mp ascending
    have others : ∀ c' ∈ rest, c'.2.Leads kind s (f.below b.depth c'.1) := fun c' member =>
      leads c' (List.mem_cons_of_mem _ member)
    rw [List.map_cons, List.sum_cons] at inside
    refine (leads c List.mem_cons_self s (.refl s)).bind ?_
    rintro t s₁ ⟨-, later, holds⟩
    have count := holds.count_eq
    by_cases here : index < t.count
    · rw [if_pos here]
      refine yields_pure.mpr ⟨later, c, List.mem_cons_self, holds, fun below lists => ?_⟩
      obtain ⟨entries', lists'⟩ := fits.exists_lists admitted ascending others
      refine ⟨below ++ entries', fits.lists_cons least lists lists', List.getElem?_append_left ?_⟩
      rw [lists.length_eq, ← count]
      exact UInt64.lt_iff_toNat_lt.mp here
    · rw [if_neg here]
      have le : t.count ≤ index := UInt64.not_lt.mp here
      have rest_index : (index - t.count).toNat = index.toNat - (f.below b.depth c.1).size := by
        rw [UInt64.toNat_sub_of_le _ _ le, ← count]
        rfl
      have ge : (f.below b.depth c.1).size ≤ index.toNat := by
        rw [← count]
        exact UInt64.le_iff_toNat_le.mp le
      refine (ih ascending (fun c' member => (others c' member).later later) (index - t.count) (by omega)).mono ?_
      rintro found s₂ ⟨later', c', member, child, each⟩
      refine ⟨later.trans later', c', List.mem_cons_of_mem _ member, child, fun below lists => ?_⟩
      obtain ⟨entries', lists', same⟩ := each below lists
      obtain ⟨first, first_lists⟩ := holds.exists_lists (admitted.below _ _)
      refine ⟨first ++ entries', fits.lists_cons least first_lists lists', ?_⟩
      rw [List.getElem?_append_right (by rw [first_lists.length_eq]; exact ge), first_lists.length_eq, ← same,
        rest_index]

/-- Below the children, the entry of a place is the one that is listed after the branch's own. -/
theorem entryBelow_yields (fits : b.Fits f) (admitted : f.Admitted kind)
    (leads : ∀ c ∈ b.children, c.2.Leads kind s (f.below b.depth c.1))
    {visit : Trie kind → UInt64 → Action (Option Entry)}
    (visits : ∀ c ∈ b.children, ∀ t j s₁, t.node.Holds kind s₁ (f.below b.depth c.1) →
      Yields (visit t j) s₁ fun e s' =>
        s₁.Later s' ∧ ∃ entries, (f.below b.depth c.1).Lists entries ∧ e = entries[j.toNat]?)
    {i : UInt64} {place : Nat} (at_place : i.toNat + b.entry.toList.length = place) (inside : place < f.size) :
    Yields (childAt kind b.children i >>= fun found => visit found.1 found.2) s fun e s' =>
      s.Later s' ∧ ∃ entries, f.Lists entries ∧ e = entries[place]? := by
  have total := fits.count_eq_sum
  rw [fits.count_eq] at total
  refine (childAt_yields fits admitted fits.ascending leads i (by omega)).bind ?_
  rintro ⟨t, j⟩ s₁ ⟨later, c, member, child, each⟩
  refine (visits c member t j s₁ child).mono ?_
  rintro e s₂ ⟨later', below, below_lists, rfl⟩
  obtain ⟨entries, lists, same⟩ := each below below_lists
  refine ⟨later.trans later', _, fits.lists lists, ?_⟩
  rw [← same, ← at_place]
  cases b.entry <;> simp

/-- The entry at a place is the one that is listed there. -/
theorem entryAtWithin_yields (fuel : Nat) {n : Node (Ref Cell)} {s : Session} {f : Content Mark} (index : UInt64)
    (holds : n.Holds kind s f) (admitted : f.Admitted kind) (enough : kind.maxDigits < fuel + n.depth) :
    Yields (entryAtWithin kind fuel n index) s fun e s' =>
      s.Later s' ∧ ∃ entries, f.Lists entries ∧ e = entries[index.toNat]? := by
  induction fuel generalizing n s f index with
  | zero => exact absurd rfl (fuel_pos holds admitted enough)
  | succ fuel ih =>
    have count := holds.count_eq
    obtain ⟨listed, lists⟩ := holds.exists_lists admitted
    rw [entryAtWithin.eq_def]
    dsimp only
    by_cases outside : n.count ≤ index
    · rw [if_pos outside]
      have beyond : listed.length ≤ index.toNat := by
        rw [lists.length_eq, ← count]
        exact UInt64.le_iff_toNat_le.mp outside
      exact yields_pure.mpr ⟨.refl s, listed, lists, (List.getElem?_eq_none beyond).symm⟩
    rw [if_neg outside]
    have inside : index.toNat < f.size := by
      rw [← count]
      exact UInt64.lt_iff_toNat_lt.mp (UInt64.not_le.mp outside)
    cases n with
    | empty =>
      cases holds with
      | empty content =>
        rw [content, Content.size_none] at inside
        exact absurd inside (Nat.not_lt_zero _)
    | leaf key value =>
      cases holds with
      | leaf _ _ content =>
        rw [content, Content.size_single] at inside
        refine yields_pure.mpr ⟨.refl s, [⟨key, value⟩], content ▸ .single ⟨key, value⟩, ?_⟩
        rw [show index.toNat = 0 by omega]
        rfl
    | branch b =>
      have fits := holds.fits
      have parts := holds.parts
      have leads : ∀ c ∈ b.children, c.2.Leads kind s (f.below b.depth c.1) := fun c member =>
        ((parts c.1).2 c.2 (fits.ascending.childIn_of_mem member)).2
      have visits : ∀ c ∈ b.children, ∀ (t : Trie kind) (j : UInt64) s₁, t.node.Holds kind s₁ (f.below b.depth c.1) →
          Yields (entryAtWithin kind fuel t.node j) s₁ fun e s' =>
            s₁.Later s' ∧ ∃ entries, (f.below b.depth c.1).Lists entries ∧ e = entries[j.toNat]? :=
        fun c member t j s₁ child =>
          ih j child (admitted.below _ _) (fuel_child fits child (fits.below_ne_none member) enough)
      dsimp only
      cases own : b.entry with
      | none => exact entryBelow_yields fits admitted leads visits (by rw [own]; rfl) inside
      | some value =>
        dsimp only
        by_cases first : index = 0
        · rw [if_pos first]
          obtain ⟨entries, lists⟩ := fits.exists_lists admitted fits.ascending leads
          have whole := fits.lists lists
          rw [own] at whole
          refine yields_pure.mpr ⟨.refl s, _, whole, ?_⟩
          rw [first]
          rfl
        · rw [if_neg first]
          refine entryBelow_yields fits admitted leads visits ?_ inside
          have pos : index.toNat ≠ 0 := fun zero => first (UInt64.toNat_inj.mp zero)
          have le : 1 ≤ index := by
            rw [UInt64.le_iff_toNat_le, UInt64.toNat_one]
            omega
          rw [own, UInt64.toNat_sub_of_le _ _ le, UInt64.toNat_one]
          simp only [Option.toList_some, List.length_singleton]
          omega

theorem entryAt?_yields {t : Trie kind} (index : UInt64) (holds : t.node.Holds kind s f) (admitted : f.Admitted kind) :
    Yields (t.entryAt? index) s fun e s' => s.Later s' ∧ ∃ entries, f.Lists entries ∧ e = entries[index.toNat]? := by
  refine (t.yields_levels s).bind ?_
  rintro fuel s' ⟨rfl, enough⟩
  exact entryAtWithin_yields fuel index holds admitted (by omega)

end Place

end Trie

/-! ### Entries by the beginning of their key -/

/-- A key begins with another one if it shares all digits of that. -/
theorem Digits.isPrefixOf_iff (start key : Bytes) : start.isPrefixOf key = true ↔ Shares start key (count start) := by
  induction start generalizing key with
  | nil => exact ⟨fun _ => .zero [] key, fun _ => rfl⟩
  | cons x start ih =>
    cases key with
    | nil =>
      constructor
      · intro begins
        cases begins
      · intro shares
        have le := shares.2.1
        rw [count_cons, show count [] = 0 from rfl] at le
        omega
    | cons y key => rw [List.isPrefixOf_cons_cons, Bool.and_eq_true, beq_iff_eq, ih, count_cons, Shares.cons_cons]

namespace Content

variable {α : Type} {g : Content α}

/-- The bindings of the keys that begin with given bytes. -/
def starting (g : Content α) (start : Bytes) : Content α := fun k => if start.isPrefixOf k then g k else Option.none

theorem starting_eq_self {start : Bytes} (all : ∀ k ∈ g.keys, start.isPrefixOf k = true) : g.starting start = g := by
  funext k
  by_cases begins : start.isPrefixOf k = true
  · exact if_pos begins
  · rw [starting, if_neg begins]
    exact (eq_none_of_notMem fun bound => begins (all k bound)).symm

theorem starting_eq_none {start : Bytes} (all : ∀ k ∈ g.keys, ¬ start.isPrefixOf k = true) :
    g.starting start = none := by
  funext k
  by_cases begins : start.isPrefixOf k = true
  · rw [starting, if_pos begins]
    exact eq_none_of_notMem fun bound => all k bound begins
  · exact if_neg begins

/-- Keys that begin with given bytes all lie below the digit with which these go on. -/
theorem starting_below {start : Bytes} {depth : Nat} {d : Digit} (here : Digits.digit? start depth = some d) :
    (g.below depth d).starting start = g.starting start := by
  funext k
  by_cases begins : start.isPrefixOf k = true
  · have shares := (Digits.isPrefixOf_iff start k).mp begins
    rw [starting, starting, if_pos begins, if_pos begins, below_of_digit]
    rw [← shares.digit?_eq (Digits.lt_count here), here]
  · rw [starting, starting, if_neg begins, if_neg begins]

end Content

namespace Trie

/-- The entries whose key begins with given bytes are the bindings of such keys, in the order of keys. -/
theorem startingWithin_yields (start : Bytes) (fuel : Nat) {n : Node (Ref Cell)} {s : Session} {f : Content Mark}
    (holds : n.Holds kind s f) (admitted : f.Admitted kind) (enough : kind.maxDigits < fuel + n.depth) :
    Yields (startingWithin kind start fuel n) s fun es s' => s.Later s' ∧ (f.starting start).Lists es := by
  induction fuel generalizing n s f with
  | zero => exact absurd rfl (fuel_pos holds admitted enough)
  | succ fuel ih =>
    cases n with
    | empty =>
      cases holds with
      | empty content =>
        have none : f.starting start = .none :=
          Content.starting_eq_none fun k bound => absurd (by rw [content]; rfl) bound
        exact yields_pure.mpr ⟨.refl s, none ▸ .nil⟩
    | leaf key value =>
      cases holds with
      | leaf _ _ content =>
        refine yields_pure.mpr ⟨.refl s, ?_⟩
        have only : ∀ k ∈ f.keys, k = key := fun k bound => by rwa [content, Content.keys_single] at bound
        by_cases begins : start.isPrefixOf key = true
        · rw [if_pos begins, Content.starting_eq_self fun k bound => by rw [only k bound, begins], content]
          exact .single ⟨key, value⟩
        · rw [if_neg begins, Content.starting_eq_none fun k bound => by rw [only k bound]; exact begins]
          exact .nil
    | branch b =>
      have fits := holds.fits
      rw [startingWithin]
      by_cases apart : Digits.common start b.path (min (Digits.count start) b.depth) < min (Digits.count start) b.depth
      · rw [if_pos apart]
        refine yields_pure.mpr ⟨.refl s, ?_⟩
        rw [Content.starting_eq_none fun k bound begins => ?_]
        · exact .nil
        · have shares := ((Digits.isPrefixOf_iff start k).mp begins).mono (min_le_left _ b.depth)
          have path := (fits.within k bound).mono (min_le_right (Digits.count start) _)
          exact (Digits.not_common_lt_iff _ _ _).mpr (shares.trans path) apart
      rw [if_neg apart]
      have shares := (Digits.not_common_lt_iff _ _ _).mp apart
      by_cases inside : Digits.count start ≤ b.depth
      · rw [if_pos inside, Content.starting_eq_self fun k bound => ?_]
        · obtain ⟨entries, s', walk, later, lists⟩ := listWithin_walks (fun e => e) (fuel + 1) holds admitted enough
          rw [List.map_id'] at walk
          have run : result (do (← listWithin kind .ok (fuel + 1) (.branch b)).toExcept : Action (List Entry)) s =
              (let listed := StateT.run (listWithin kind .ok (fuel + 1) (.branch b)) s
              (listed.1.toExcept, listed.2)) := rfl
          rw [walk] at run
          exact ⟨entries, s', run, later, lists⟩
        · rw [min_eq_left inside] at shares
          exact (Digits.isPrefixOf_iff start k).mpr (shares.trans ((fits.within k bound).mono inside).symm)
      · rw [if_neg inside]
        obtain ⟨d, here⟩ := (Digits.digit?_isSome_iff start b.depth).mpr (not_le.mp inside)
        refine yields_bind.mpr (yields_digitAt here ?_)
        obtain ⟨absent, present⟩ := holds.parts d
        rw [← Content.starting_below here]
        simp only [Branch.child?_eq]
        cases found : Branch.childIn b.children d with
        | none =>
          refine yields_pure.mpr ⟨.refl s, ?_⟩
          rw [absent found, Content.starting_eq_none (g := .none) fun k bound => absurd rfl bound]
          exact .nil
        | some r =>
          obtain ⟨nonempty, leads⟩ := present r found
          refine (leads s (.refl s)).bind ?_
          rintro t s' ⟨-, later, child⟩
          refine (ih child (admitted.below _ _) (fuel_child fits child nonempty enough)).mono ?_
          rintro es s'' ⟨later', lists⟩
          exact ⟨later.trans later', lists⟩

theorem entriesStarting_yields {t : Trie kind} (start : Bytes) (holds : t.node.Holds kind s f)
    (admitted : f.Admitted kind) :
    Yields (t.entriesStarting start) s fun es s' => s.Later s' ∧ (f.starting start).Lists es := by
  refine (t.yields_levels s).bind ?_
  rintro fuel s' ⟨rfl, enough⟩
  exact startingWithin_yields start fuel holds admitted (by omega)

end Trie

end MerkleCells
