import MerkleCells.Proofs.Trie.Holds

/-!
The trie invariant in terms of nodes alone. `Branch.Sound` says of one branch how its path, its own entry,
its count and the nodes that its children lead to hang together; `Node.Holds.sound` says that every branch
that a well-formed node reaches is sound.
-/
namespace MerkleCells

open MerkleCells.Action

/-- A node is met on the way down from another, following children that are resolved. -/
inductive Node.Reaches (kind : TrieKind) : Session → Node (Ref Cell) → Node (Ref Cell) → Prop
  | refl (s : Session) (n : Node (Ref Cell)) : Reaches kind s n n
  | child {s s' : Session} {b : Branch (Ref Cell)} {d : Digit} {r : Ref Cell} {t : Trie kind} {n : Node (Ref Cell)}
      (found : b.child? d = some r) (run : result (Trie.resolve kind r) s = (.ok t, s')) :
      Reaches kind s' t.node n → Reaches kind s (.branch b) n

/-- The invariant of a branch. -/
structure Branch.Sound (kind : TrieKind) (s : Session) (b : Branch (Ref Cell)) : Prop where
  /-- The path is the first `depth` digits of whatever lies below, in whole bytes. -/
  path_eq : Digits.leading? b.path b.depth = some b.path
  ascending : Ascending b.children
  children_ne_nil : b.children ≠ []
  occupants : 2 ≤ b.occupants
  /-- The path of a branch with an entry of its own ends there, so it is the entry's key. -/
  entry_ends : b.entry.isSome → Digits.count b.path = b.depth
  /-- Each child extends the path by its own digit at least. -/
  child_extends : ∀ d r, b.child? d = some r → Yields (Trie.resolve kind r) s fun t _ =>
    b.depth < t.node.depth ∧ Digits.Shares t.node.path b.path b.depth ∧ Digits.digit? t.node.path b.depth = some d
  /-- The count is the sum of the children's counts and one for an entry of its own. -/
  count_eq : ∃ counts : Digit → Nat,
    (∀ d r, b.child? d = some r → Yields (Trie.resolve kind r) s fun t _ => t.count.toNat = counts d) ∧
      b.count.toNat = b.entry.toList.length + (b.children.map fun c => counts c.1).sum

namespace Branch.Fits

variable {kind : TrieKind} {b : Branch (Ref Cell)} {f : Content Mark}

theorem ncard_ends (fits : b.Fits f) : {k ∈ f.keys | Digits.count k = b.depth}.ncard = b.entry.toList.length := by
  cases own : b.entry with
  | none =>
    have empty : {k ∈ f.keys | Digits.count k = b.depth} = ∅ := by
      rw [Set.eq_empty_iff_forall_notMem]
      rintro k ⟨bound, ends⟩
      obtain ⟨rfl, ends'⟩ := fits.eq_path bound ends
      have entry := fits.entry_eq
      rw [own, if_pos ends'] at entry
      exact bound entry.symm
    rw [empty, Set.ncard_empty]
    rfl
  | some r =>
    obtain ⟨ends, bound⟩ := fits.entry_isSome (by rw [own]; rfl)
    have single : {k ∈ f.keys | Digits.count k = b.depth} = {b.path} := by
      ext k
      constructor
      · rintro ⟨bound', ends'⟩
        exact (fits.eq_path bound' ends').1
      · rintro rfl
        exact ⟨bound, ends⟩
    rw [single, Set.ncard_singleton]
    rfl

/-- A branch counts its own entry and what is below its children. -/
theorem count_eq_sum (fits : b.Fits f) : b.count.toNat =
    b.entry.toList.length + (b.children.map fun c => (f.below b.depth c.1).size).sum := by
  have distinct : (b.children.map (·.1)).Nodup :=
    List.pairwise_map.mpr (List.Pairwise.imp (fun lt => ne_of_lt lt) fits.ascending)
  have all : ∀ k ∈ f.keys, ∀ d, Digits.digit? k b.depth = some d → d ∈ b.children.map (·.1) := by
    intro k bound d here
    obtain ⟨r, found⟩ := Option.isSome_iff_exists.mp ((fits.child_iff d).mpr (Content.below_ne_none bound here))
    exact List.mem_map.mpr ⟨(d, r), mem_of_childIn found, rfl⟩
  rw [fits.count_eq, Content.size_eq_sum fits.finite fits.within distinct all, fits.ncard_ends, List.map_map]
  rfl

theorem below_ne_none (fits : b.Fits f) {c : Digit × Ref Cell} (member : c ∈ b.children) :
    f.below b.depth c.1 ≠ .none := by
  obtain ⟨k, bound, here⟩ := fits.child_mem member
  exact Content.below_ne_none bound here

/-- Every place that is taken stands for an entry at least. -/
theorem occupants_le (fits : b.Fits f) : b.occupants ≤ b.count.toNat := by
  rw [fits.count_eq_sum, Branch.occupants]
  have each : ∀ n ∈ b.children.map fun c => (f.below b.depth c.1).size, 1 ≤ n := by
    intro n listed
    obtain ⟨c, member, rfl⟩ := List.mem_map.mp listed
    refine Nat.one_le_iff_ne_zero.mpr fun zero => fits.below_ne_none member ?_
    exact (Content.size_eq_zero_iff (fits.finite.subset (Content.below_subset f b.depth c.1))).mp zero
  have le := List.length_le_sum_of_one_le _ each
  rw [List.length_map] at le
  omega

/-- A node that holds the part below a digit extends the branch by that digit. -/
theorem child_extends (fits : b.Fits f) {s : Session} {d : Digit} {n : Node (Ref Cell)}
    (holds : n.Holds kind s (f.below b.depth d)) (nonempty : f.below b.depth d ≠ .none) :
    b.depth < n.depth ∧ Digits.Shares n.path b.path b.depth ∧ Digits.digit? n.path b.depth = some d := by
  have lt := Node.Holds.depth_lt fits holds nonempty
  obtain ⟨k, bound⟩ := Content.exists_mem_keys nonempty
  have shares := holds.within k bound
  obtain ⟨here, bound⟩ := Content.mem_keys_below.mp bound
  refine ⟨lt, (shares.mono lt.le).symm.trans (fits.within k bound), ?_⟩
  rw [← shares.digit?_eq lt, here]

end Branch.Fits

namespace Node.Holds

variable {kind : TrieKind} {s : Session} {f : Content Mark}

theorem sound_branch {b : Branch (Ref Cell)} (holds : Holds kind s (.branch b) f) : b.Sound kind s := by
  have fits := holds.fits
  have parts := holds.parts
  refine ⟨fits.path_eq, fits.ascending, ?_, holds.occupants, fun own => (fits.entry_isSome own).1, ?_, ?_⟩
  · intro empty
    have occupants := holds.occupants
    have : b.entry.toList.length ≤ 1 := by cases b.entry <;> simp
    rw [Branch.occupants, empty, List.length_nil] at occupants
    omega
  · intro d r found
    obtain ⟨nonempty, leads⟩ := (parts d).2 r found
    exact (leads s (.refl s)).mono fun t s' holds => fits.child_extends holds.2.2 nonempty
  · refine ⟨fun d => (f.below b.depth d).size, fun d r found => ?_, fits.count_eq_sum⟩
    exact (((parts d).2 r found).2 s (.refl s)).mono fun t s' holds => holds.2.2.count_eq

/-- A node that a well-formed one reaches holds what shares its path. -/
theorem holds_reached {n n' : Node (Ref Cell)} (holds : n.Holds kind s f) (reaches : n.Reaches kind s n') :
    ∃ s' p, n'.Holds kind s' p ∧ p.keys = {k ∈ f.keys | Digits.Shares k n'.path n'.depth} ∧ (f ≠ .none → p ≠ .none) := by
  induction reaches generalizing f with
  | refl s n =>
    refine ⟨s, f, holds, ?_, id⟩
    ext k
    exact ⟨fun bound => ⟨bound, holds.within k bound⟩, fun both => both.1⟩
  | @child s s₁ b d r t m found run _ ih =>
    obtain ⟨-, -, child⟩ := (holds.leads found s (.refl s)).of_result run
    have nonempty := (holds.fits.child_iff d).mp (by rw [found]; rfl)
    obtain ⟨s', p, holds', keys, some_below⟩ := ih child
    have part := some_below nonempty
    obtain ⟨k', bound'⟩ := Content.exists_mem_keys part
    have within : p.Within t.node.path t.node.depth := fun k bound => by
      rw [keys] at bound
      exact child.within k bound.1
    have deeper := lt_of_lt_of_le (Node.Holds.depth_lt holds.fits child nonempty) (holds'.le_depth part within)
    rw [keys] at bound'
    obtain ⟨here', -⟩ := Content.mem_keys_below.mp bound'.1
    refine ⟨s', p, holds', ?_, fun _ => part⟩
    rw [keys]
    ext k
    constructor
    · rintro ⟨bound, shares⟩
      exact ⟨Content.below_subset f _ _ bound, shares⟩
    · rintro ⟨bound, shares⟩
      have here : Digits.digit? k b.depth = some d := by
        rw [shares.digit?_eq deeper, ← bound'.2.digit?_eq deeper, here']
      exact ⟨Content.mem_keys_below.mpr ⟨here, bound⟩, shares⟩

/-- Every branch that a well-formed node reaches is sound. -/
theorem sound {n n' : Node (Ref Cell)} (holds : n.Holds kind s f) (reaches : n.Reaches kind s n')
    {b : Branch (Ref Cell)} (branch : n' = .branch b) : ∃ s', s.Later s' ∧ b.Sound kind s' := by
  induction reaches generalizing f with
  | refl s n =>
    subst branch
    exact ⟨s, .refl s, holds.sound_branch⟩
  | child found run _ ih =>
    obtain ⟨-, later, holds'⟩ := (holds.leads found _ (.refl _)).of_result run
    obtain ⟨s', later', sound⟩ := ih holds' branch
    exact ⟨s', later.trans later', sound⟩

end Node.Holds

end MerkleCells
