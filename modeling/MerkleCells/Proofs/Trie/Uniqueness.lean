import MerkleCells.Proofs.Trie.Decoding

/-!
One form for each content. Two nodes that hold the same content show the same marks, all the way up from the
children that they lead to, so well-formed tries with the same content have the same encoding.
-/
namespace MerkleCells

open MerkleCells.Action

variable {kind : TrieKind} {s s' : Session} {f : Content Mark}

namespace Branch.Fits

variable {b b' : Branch (Ref Cell)}

theorem two_le_size (fits : b.Fits f) (occupants : 2 ≤ b.occupants) : 2 ≤ f.size := by
  rw [← fits.count_eq]
  exact occupants.trans fits.occupants_le

theorem ne_single (fits : b.Fits f) (occupants : 2 ≤ b.occupants) {key : Bytes} {m : Mark}
    (content : f = .single key m) : False := by
  have two := fits.two_le_size occupants
  rw [content, Content.size_single] at two
  omega

theorem ne_none (fits : b.Fits f) (occupants : 2 ≤ b.occupants) : f ≠ .none := by
  rintro rfl
  have two := fits.two_le_size occupants
  rw [Content.size_none] at two
  omega

theorem same_place (fits : b.Fits f) (occupants : 2 ≤ b.occupants) (fits' : b'.Fits f) (occupants' : 2 ≤ b'.occupants) :
    b.depth = b'.depth ∧ b.path = b'.path := by
  have depth := Nat.le_antisymm (fits'.le_depth occupants' fits.within) (fits.le_depth occupants fits'.within)
  obtain ⟨k, bound⟩ := Content.exists_mem_keys (fits.ne_none occupants)
  have shares : Digits.Shares b.path b'.path b.depth :=
    (fits.within k bound).symm.trans (depth ▸ fits'.within k bound)
  have path := Digits.leading?_eq_of_shares shares
  rw [fits.path_eq, depth, fits'.path_eq] at path
  exact ⟨depth, Option.some.inj path⟩

theorem map_mark_eq (fits : b.Fits f) (occupants : 2 ≤ b.occupants) (fits' : b'.Fits f) (occupants' : 2 ≤ b'.occupants)
    (children : ∀ d r r', b.child? d = some r → b'.child? d = some r' → r.mark = r'.mark) :
    b.map Ref.mark = b'.map Ref.mark := by
  obtain ⟨depth, path⟩ := fits.same_place occupants fits' occupants'
  have entry : b.entry.map Ref.mark = b'.entry.map Ref.mark := by rw [fits.entry_eq, fits'.entry_eq, depth, path]
  have count : b.count = b'.count := UInt64.toNat_inj.mp (fits.count_eq.trans fits'.count_eq.symm)
  have below : (b.children.map fun c => (c.1, c.2.mark)) = b'.children.map fun c => (c.1, c.2.mark) := by
    refine Ascending.eq_of_childIn (fits.ascending.map Ref.mark) (fits'.ascending.map Ref.mark) fun d => ?_
    rw [childIn_map, childIn_map]
    have iff := fits.child_iff d
    rw [depth, ← fits'.child_iff d, child?_eq, child?_eq] at iff
    cases found : childIn b.children d with
    | none =>
      rw [found] at iff
      rw [Option.not_isSome_iff_eq_none.mp (iff.not.mp (by simp))]
    | some r =>
      rw [found] at iff
      obtain ⟨r', found'⟩ := Option.isSome_iff_exists.mp (iff.mp rfl)
      rw [found', Option.map_some, Option.map_some, children d r r' found found']
  rw [Branch.map, Branch.map, depth, path, entry, count, below]

end Branch.Fits

/-- A content has one form: nodes that hold it show the same. -/
theorem Node.Holds.map_mark_eq {n n' : Node (Ref Cell)} (holds : n.Holds kind s f) (holds' : n'.Holds kind s' f) :
    n.map Ref.mark = n'.map Ref.mark := by
  -- by induction on the nodes below the first; the second leads to nodes with the same contents
  induction holds generalizing n' s' with
  | empty content =>
    cases holds' with
    | empty => rfl
    | leaf key value content' =>
      rw [content'] at content
      have := congrFun content key
      simp [Content.single, Content.none] at this
    | branch b fits occupants => exact absurd content (fits.ne_none occupants)
  | leaf key value content =>
    cases holds' with
    | empty content' =>
      rw [content'] at content
      have := congrFun content key
      simp [Content.single, Content.none] at this
    | leaf key' value' content' =>
      have same : Content.single key value.mark key = Content.single key' value'.mark key := by
        rw [← content, ← content']
      rw [Content.single, if_pos rfl, Content.single] at same
      by_cases here : key = key'
      · rw [if_pos here, Option.some.injEq] at same
        rw [Node.map, Node.map, here, same]
      · rw [if_neg here] at same
        cases same
    | branch b fits occupants => exact absurd content (fits.ne_single occupants)
  | @branch s f b fits occupants found below ih =>
    cases holds' with
    | empty content' => exact absurd content' (fits.ne_none occupants)
    | leaf key value content' => exact absurd content' (fits.ne_single occupants)
    | branch b' fits' occupants' found' below' =>
      refine congrArg Node.branch (fits.map_mark_eq occupants fits' occupants' ?_)
      intro d r r' at_d at_d'
      obtain ⟨t, s₁, run, mark⟩ := found d r at_d s (.refl s)
      obtain ⟨t', s₁', run', mark'⟩ := found' d r' at_d' s' (.refl s')
      have child := below' d r' at_d' s' (.refl s') t' s₁' run'
      rw [← (fits.same_place occupants fits' occupants').1] at child
      have same := ih d r at_d s (.refl s) t s₁ run child
      have shows : t.cell.Shows t'.cell := by
        rw [Cell.Shows, t.value_eq, t'.value_eq]
        exact congrArg (Value.trie kind) same
      rw [← mark, ← mark', shows.mark_eq]

/-- Well-formed tries with the same content show the same, whatever session they are held in. -/
theorem Trie.shows_of_holds {t t' : Trie kind} (holds : t.node.Holds kind s f) (holds' : t'.node.Holds kind s' f) :
    t.cell.Shows t'.cell := by
  rw [Cell.Shows, t.value_eq, t'.value_eq]
  exact congrArg (Value.trie kind) (holds.map_mark_eq holds')

end MerkleCells
