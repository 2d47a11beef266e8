import MerkleCells.Proofs.Trie.Insertion

/-!
Removing from a well-formed trie. A branch that has lost an entry may have lost its reason: `build_yields`
says that what `build` leaves of it is the form that the remaining entries call for, and
`eraseWithin_yields` follows the walk down.
-/
namespace MerkleCells.Trie

open MerkleCells.Action

variable {kind : TrieKind} {s : Session} {f g : Content Mark}

theorem exists_child {b : Branch (Ref Cell)} (fits : b.Fits g) (parts : Branch.Parts kind s b.children b.depth g)
    (own : b.entry = none) {k : Bytes} (bound : k ∈ g.keys) :
    ∃ d r, Digits.digit? k b.depth = some d ∧ Branch.childIn b.children d = some r := by
  rcases fits.ends_or_digit bound with ends | ⟨d, here⟩
  · obtain ⟨path_is, ends'⟩ := fits.eq_path bound ends
    have entry := fits.entry_eq
    rw [own, if_pos ends', ← path_is] at entry
    exact absurd entry.symm bound
  · obtain ⟨r, found⟩ := Option.isSome_iff_exists.mp ((parts.child_iff d).mpr (Content.below_ne_none bound here))
    exact ⟨d, r, here, found⟩

theorem eq_single {b : Branch (Ref Cell)} {value : Ref Cell} (fits : b.Fits g)
    (parts : Branch.Parts kind s [] b.depth g) (own : b.entry = some value) : g = .single b.path value.mark := by
  obtain ⟨ends, -⟩ := fits.entry_isSome (by rw [own]; rfl)
  have entry := fits.entry_eq
  rw [own, if_pos ends] at entry
  funext k
  by_cases same : k = b.path
  · rw [same, ← entry, Content.single, if_pos rfl]
    rfl
  · rw [Content.single, if_neg same]
    refine Content.eq_none_of_notMem fun bound => ?_
    rcases fits.ends_or_digit bound with ends' | ⟨d, here⟩
    · exact same (fits.eq_path bound ends').1
    · exact Content.below_ne_none bound here ((parts d).1 rfl)

/-- What is left of a branch holds what the branch would hold, also where that is no branch any more. -/
theorem build_yields {b : Branch (Ref Cell)} (fits : b.Fits g)
    (parts : Branch.Parts kind s b.children b.depth g) :
    Yields (build b : Action (Trie kind)) s fun t s' => s.Later s' ∧ t.node.Holds kind s' g := by
  unfold build
  match own : b.entry, list : b.children with
  | none, [] =>
    refine yields_pure.mpr ⟨.refl s, .empty ?_⟩
    rw [← Content.keys_eq_empty_iff, Set.eq_empty_iff_forall_notMem]
    intro k bound
    obtain ⟨d, r, -, found⟩ := exists_child fits parts own bound
    rw [list] at found
    cases found
  | none, [(d, r)] =>
    have all : ∀ k ∈ g.keys, Digits.digit? k b.depth = some d := by
      intro k bound
      obtain ⟨e, r', here, found⟩ := exists_child fits parts own bound
      rw [list, Branch.childIn_cons] at found
      by_cases same : d = e
      · rw [here, same]
      · rw [if_neg same] at found
        cases found
    have leads := ((parts d).2 r (by rw [list, Branch.childIn_cons, if_pos rfl])).2
    rw [Content.below_eq_self all] at leads
    refine (leads s (.refl s)).mono ?_
    rintro t s' ⟨-, later, holds⟩
    exact ⟨later, holds⟩
  | some value, [] =>
    rw [list] at parts
    exact yields_pure.mpr ⟨.refl s, .leaf b.path value (eq_single fits parts own)⟩
  | some value, c :: rest =>
    refine yields_pure.mpr ⟨.refl s, .ofFits fits ?_ fun d r found => ((parts d).2 r found).2⟩
    simp only [Branch.occupants, own, list, Option.toList_some, List.length_cons, List.length_nil]
    omega
  | none, c :: c' :: rest =>
    refine yields_pure.mpr ⟨.refl s, .ofFits fits ?_ fun d r found => ((parts d).2 r found).2⟩
    simp [Branch.occupants, own, list]

/-- What a removal gives: nothing if the key is not bound, and otherwise a trie that holds the rest. -/
def Removed (s : Session) (f : Content Mark) (key : Bytes) : Option (Trie kind) → Prop
  | none => f key = none
  | some t => key ∈ f.keys ∧ t.node.Holds kind s (f.erase key)

theorem fits_eraseEntry {b : Branch (Ref Cell)} {count : UInt64} (fits : b.Fits f) (ends : Digits.count b.path = b.depth)
    (count_eq : count.toNat = (f.erase b.path).size) : { b with entry := none, count : Branch _ }.Fits (f.erase b.path) where
  path_eq := fits.path_eq
  within := fits.within.erase
  entry_eq := by
    rw [if_pos ends, Content.erase_self]
    rfl
  ascending := fits.ascending
  child_iff := fun d => by
    rw [Content.below_erase_of_ends ends]
    exact fits.child_iff d
  finite := Content.finite_erase fits.finite _
  count_eq := count_eq

theorem fits_eraseBelow {b : Branch (Ref Cell)} {key : Bytes} {d : Digit} {children : List (Digit × Ref Cell)}
    {count : UInt64} (fits : b.Fits f) (here : Digits.digit? key b.depth = some d)
    (ascending : Branch.Ascending children) (parts : Branch.Parts kind s children b.depth (f.erase key))
    (count_eq : count.toNat = (f.erase key).size) : { b with children, count : Branch _ }.Fits (f.erase key) where
  path_eq := fits.path_eq
  within := fits.within.erase
  entry_eq := by
    have goes := Digits.lt_count here
    by_cases whole : Digits.count b.path = b.depth
    · have other : b.path ≠ key := fun same => by
        rw [← same] at goes
        omega
      rw [fits.entry_eq, if_pos whole, if_pos whole, Content.erase_of_ne other]
    · rw [fits.entry_eq, if_neg whole, if_neg whole]
  ascending := ascending
  child_iff := parts.child_iff
  finite := Content.finite_erase fits.finite _
  count_eq := count_eq

theorem build_entry_yields {b : Branch (Ref Cell)} (holds : Node.Holds kind s (.branch b) f)
    (ends : Digits.count b.path = b.depth) (bound : b.path ∈ f.keys) :
    ∃ count, adjust b.count 1 0 = .ok count ∧
      Yields (build { b with entry := none, count } : Action (Trie kind)) s fun t s' =>
        s.Later s' ∧ Removed s' f b.path (some t) := by
  have fits := holds.fits
  have size := Content.size_erase_of_mem fits.finite bound
  have le : (1 : UInt64) ≤ b.count := by
    rw [UInt64.le_iff_toNat_le, fits.count_eq, UInt64.toNat_one]
    omega
  have count_eq : (b.count - 1).toNat = (f.erase b.path).size := by
    rw [UInt64.toNat_sub_of_le _ _ le, fits.count_eq, UInt64.toNat_one]
    omega
  refine ⟨b.count - 1, by rw [adjust, if_pos le, addCounts_zero], ?_⟩
  have parts : Branch.Parts kind s b.children b.depth (f.erase b.path) := fun d => by
    rw [Content.below_erase_of_ends ends]
    exact holds.parts d
  exact (build_yields (fits_eraseEntry fits ends count_eq) parts).mono fun t s' built => ⟨built.1, bound, built.2⟩

/-- What a branch becomes after a removal below one digit. A child that has lost its last entry goes. -/
theorem build_child_yields {b : Branch (Ref Cell)} {key : Bytes} {d : Digit} {before : UInt64} {t : Trie kind}
    (holds : Node.Holds kind s (.branch b) f) (here : Digits.digit? key b.depth = some d)
    (before_eq : before.toNat = (f.below b.depth d).size) (removed : Removed s (f.below b.depth d) key (some t)) :
    ∃ count, adjust b.count before t.count = .ok count ∧
      Yields (build { b with
        children := if t.count = 0 then Branch.eraseChild d b.children else Branch.setChild d t.ref b.children
        count } : Action (Trie kind)) s fun t' s' => s.Later s' ∧ Removed s' f key (some t') := by
  obtain ⟨bound, below_holds⟩ := removed
  have fits := holds.fits
  have bound : key ∈ f.keys := Content.below_subset _ _ _ bound
  rw [← Content.below_erase_self here] at below_holds
  have others : ∀ e, d ≠ e → (f.erase key).below b.depth e = f.below b.depth e := fun e other =>
    Content.below_erase_of_other here other
  have room : (f.erase key).size < UInt64.size := by
    have size := Content.size_erase_of_mem fits.finite bound
    have count := fits.count_eq
    have := b.count.toNat_lt_size
    omega
  obtain ⟨count, adjusted, count_eq⟩ := adjust_spec fits.finite (Content.finite_erase fits.finite _)
    (Content.beside_erase here) fits.count_eq before_eq below_holds.count_eq room
  refine ⟨count, adjusted, ?_⟩
  have zero_iff : t.count = 0 ↔ (f.erase key).below b.depth d = .none := by
    rw [← Content.size_eq_zero_iff below_holds.finite, ← below_holds.count_eq]
    exact ⟨congrArg UInt64.toNat, fun zero => UInt64.toNat_inj.mp zero⟩
  by_cases gone : (f.erase key).below b.depth d = .none
  · rw [if_pos (zero_iff.mpr gone)]
    have parts := holds.parts.eraseChild gone others
    exact (build_yields (fits_eraseBelow fits here (fits.ascending.eraseChild d) parts count_eq) parts).mono
      fun t' s' built => ⟨built.1, bound, built.2⟩
  · rw [if_neg fun zero => gone (zero_iff.mp zero)]
    have parts := holds.parts.setChild fits.ascending gone (leads_ref below_holds) others
    exact (build_yields (fits_eraseBelow fits here (fits.ascending.setChild d _) parts count_eq) parts).mono
      fun t' s' built => ⟨built.1, bound, built.2⟩

theorem eraseWithin_yields (key : Bytes) (fuel : Nat) {t : Trie kind} {s : Session} {f : Content Mark}
    (holds : t.node.Holds kind s f) (admitted : f.Admitted kind) (enough : kind.maxDigits < fuel + t.node.depth) :
    Yields (eraseWithin key fuel t) s fun r s' => s.Later s' ∧ Removed s' f key r := by
  induction fuel generalizing t s f with
  | zero => exact absurd rfl (fuel_pos holds admitted enough)
  | succ fuel ih =>
    rw [eraseWithin]
    cases shape : t.node with
    | empty =>
      rw [shape] at holds
      cases holds with
      | empty content => exact yields_pure.mpr ⟨.refl s, by rw [content]; rfl⟩
    | leaf k own =>
      rw [shape] at holds
      cases holds with
      | leaf _ _ content =>
        refine yields_pure.mpr ⟨.refl s, ?_⟩
        by_cases same : k = key
        · subst same
          rw [if_pos rfl]
          refine ⟨by rw [content, Content.keys_single]; rfl, .empty ?_⟩
          rw [← Content.keys_eq_empty_iff, Content.keys_erase, content, Content.keys_single, Set.sdiff_self]
        · rw [if_neg same]
          show f key = none
          rw [content, Content.single, if_neg (Ne.symm same)]
    | branch b =>
      rw [shape] at holds enough
      have fits := holds.fits
      by_cases begins : Digits.beginsWith key b.path b.depth = true
      · have shares := (Digits.beginsWith_iff key b.path b.depth).mp begins
        simp only [begins, Bool.not_true, Bool.false_eq_true, ↓reduceIte]
        by_cases ends : Digits.count key = b.depth
        · rw [if_pos ends]
          have entry := fits.entry_of_ends shares.symm ends
          obtain rfl : b.path = key := Digits.eq_of_leading? fits.path_eq shares.symm ends
          cases own : b.entry with
          | none =>
            rw [own] at entry
            exact yields_pure.mpr ⟨.refl s, entry.symm⟩
          | some value =>
            rw [own] at entry
            simp only [Option.isNone_some, Bool.false_eq_true, ↓reduceIte]
            obtain ⟨count, adjusted, built⟩ := build_entry_yields holds ends (Content.mem_keys_of_eq_some entry.symm)
            refine .lift_bind adjusted ?_
            exact built.bind fun t' s' removed => yields_pure.mpr removed
        · rw [if_neg ends]
          obtain ⟨d, here⟩ := (Digits.digit?_isSome_iff key b.depth).mpr (by have := shares.1; omega)
          refine yields_bind.mpr (yields_digitAt here ?_)
          obtain ⟨absent, present⟩ := holds.parts d
          simp only [Branch.child?_eq]
          cases found : Branch.childIn b.children d with
          | none =>
            refine yields_pure.mpr ⟨.refl s, ?_⟩
            show f key = none
            rw [← Content.below_of_digit (f := f) here, absent found]
            rfl
          | some r =>
            obtain ⟨nonempty, leads⟩ := present r found
            refine (leads s (.refl s)).bind ?_
            rintro child s' ⟨-, later, child_holds⟩
            refine (ih child_holds (admitted.below _ _) (fuel_child fits child_holds nonempty enough)).bind ?_
            rintro updated s'' ⟨later', removed⟩
            cases updated with
            | none =>
              refine yields_pure.mpr ⟨later.trans later', ?_⟩
              show f key = none
              rw [← Content.below_of_digit (f := f) here]
              exact removed
            | some t' =>
              have moved := later.trans later'
              obtain ⟨count, adjusted, built⟩ :=
                build_child_yields (holds.later moved) here child_holds.count_eq removed
              refine .lift_bind adjusted ?_
              exact built.bind fun t'' s₃ removed' => yields_pure.mpr ⟨moved.trans removed'.1, removed'.2⟩
      · simp only [begins, Bool.not_false, ↓reduceIte]
        refine yields_pure.mpr ⟨.refl s, Content.eq_none_of_notMem fun bound => ?_⟩
        exact begins ((Digits.beginsWith_iff _ _ _).mpr (fits.within key bound))

/-- Removing unbinds a key. -/
theorem erase_yields {t : Trie kind} (key : Bytes) (holds : t.node.Holds kind s f) (admitted : f.Admitted kind) :
    Yields (t.erase key) s fun r s' => s.Later s' ∧ Removed s' f key r := by
  refine (t.yields_levels s).bind ?_
  rintro fuel s' ⟨rfl, enough⟩
  exact eraseWithin_yields key fuel holds admitted (by omega)

end MerkleCells.Trie
