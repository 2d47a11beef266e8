import MerkleCells.Proofs.Trie.Holds
import MerkleCells.Trie.Lookup

/-!
Looking up a key in a well-formed trie gives the value that its content binds to the key.
-/
namespace MerkleCells.Trie

open MerkleCells.Action

variable {kind : TrieKind} {s : Session} {f : Content Mark}

theorem yields_digitAt {key : Bytes} {i : Nat} {d : Digit} (here : Digits.digit? key i = some d) {Q : Digit → Session → Prop}
    (holds : Q d s) : Yields (liftM (digitAt key i)) s Q :=
  yields_liftExcept.mpr ⟨d, by rw [digitAt, here], holds⟩

/-- Enough levels are left for a walk to reach every key below a node. -/
theorem fuel_pos {n : Node (Ref Cell)} (holds : n.Holds kind s f) (admitted : f.Admitted kind) {fuel : Nat}
    (enough : kind.maxDigits < fuel + n.depth) : fuel ≠ 0 := by
  rintro rfl
  have := holds.depth_le admitted
  omega

theorem fuel_child {b : Branch (Ref Cell)} (fits : b.Fits f) {d : Digit} {t : Trie kind}
    (holds : t.node.Holds kind s (f.below b.depth d)) (nonempty : f.below b.depth d ≠ .none) {fuel : Nat}
    (enough : kind.maxDigits < fuel + 1 + (Node.branch b).depth) : kind.maxDigits < fuel + t.node.depth := by
  have deeper := Node.Holds.depth_lt fits holds nonempty
  have same : (Node.branch b).depth = b.depth := rfl
  omega

theorem getWithin_yields (key : Bytes) (fuel : Nat) {n : Node (Ref Cell)} {s : Session} {f : Content Mark}
    (holds : n.Holds kind s f) (admitted : f.Admitted kind) (enough : kind.maxDigits < fuel + n.depth) :
    Yields (getWithin kind key fuel n) s fun r s' => r.map Ref.mark = f key ∧ s.Later s' := by
  induction fuel generalizing n s f with
  | zero => exact absurd rfl (fuel_pos holds admitted enough)
  | succ fuel ih =>
    cases n with
    | empty =>
      cases holds with
      | empty content => exact yields_pure.mpr ⟨by rw [content]; rfl, .refl s⟩
    | leaf k value =>
      cases holds with
      | leaf _ _ content =>
        refine yields_pure.mpr ⟨?_, .refl s⟩
        by_cases same : k = key
        · subst same
          simp [content, Content.single]
        · simp [content, Content.single, same, Ne.symm same]
    | branch b =>
      have fits := holds.fits
      rw [getWithin]
      by_cases begins : Digits.beginsWith key b.path b.depth = true
      · have shares := (Digits.beginsWith_iff key b.path b.depth).mp begins
        simp only [begins, Bool.not_true, Bool.false_eq_true, ↓reduceIte]
        by_cases ends : Digits.count key = b.depth
        · rw [if_pos ends]
          exact yields_pure.mpr ⟨fits.entry_of_ends shares.symm ends, .refl s⟩
        · rw [if_neg ends]
          obtain ⟨d, here⟩ := (Digits.digit?_isSome_iff key b.depth).mpr (by have := shares.1; omega)
          refine yields_bind.mpr (yields_digitAt here ?_)
          obtain ⟨absent, present⟩ := holds.parts d
          simp only [Branch.child?_eq]
          cases found : Branch.childIn b.children d with
          | none =>
            refine yields_pure.mpr ⟨?_, .refl s⟩
            rw [← Content.below_of_digit (f := f) here, absent found]
            rfl
          | some r =>
            obtain ⟨nonempty, leads⟩ := present r found
            refine (leads s (.refl s)).bind ?_
            rintro t s' ⟨_, later, child⟩
            refine (ih child (admitted.below _ _) (fuel_child fits child nonempty enough)).mono ?_
            rintro value s'' ⟨same, later'⟩
            exact ⟨by rw [same, Content.below_of_digit here], later.trans later'⟩
      · simp only [begins, Bool.not_false, ↓reduceIte]
        refine yields_pure.mpr ⟨?_, .refl s⟩
        have unbound : key ∉ f.keys := fun bound => begins ((Digits.beginsWith_iff _ _ _).mpr (fits.within key bound))
        rw [Content.eq_none_of_notMem unbound]
        rfl

/-- A key's value is the one that a trie's content binds to it. -/
theorem get?_yields {t : Trie kind} (key : Bytes) (holds : t.node.Holds kind s f) (admitted : f.Admitted kind) :
    Yields (t.get? key) s fun r s' => r.map Ref.mark = f key ∧ s.Later s' := by
  refine (t.yields_levels s).bind ?_
  rintro fuel s' ⟨rfl, enough⟩
  exact getWithin_yields key fuel holds admitted (by omega)

end MerkleCells.Trie
