import MerkleCells.Proofs.KeyMap
import MerkleCells.Proofs.Trie.Placing
import MerkleCells.Proofs.Trie.TotalsMerge
import MerkleCells.Proofs.Trie.TotalsUpdates

/-!
Updates of decoded tries near the largest count. A decoder knows of a child written as its hash only that it has an
entry, so a branch may declare any count that is large enough, and nothing looks whether there is room for more before
an update adds to it. An update that succeeds has counted what it does, and over stores that have what the branches
declare one overflows only if the count of the root has no room, at whatever depth (`Trie.counts_of_decoded`). For a map
with the largest count that is so when a key is added (`Crowded.insert_overflows`).
-/
namespace MerkleCells

open MerkleCells.Action

namespace Trie

variable {kind : TrieKind} {w : Hash → Nat} {s s' : Session} {t t' : Trie kind} {key : Bytes} {value : Ref Cell}

/-! ### Whole updates -/

/-- An insertion that succeeds looks the key up in passing, and adds one for a key that is not found. -/
theorem insert_count {r : Option (Trie kind)} (run : result (t.insert key value) s = (.ok r, s')) :
    ∃ found, (result (t.get? key) (result value.canonical s).2).1 = .ok found ∧ Counted t.count found r := by
  rw [insert] at run
  obtain ⟨own, s₁, canonical, rest⟩ := of_result_bind run
  obtain ⟨fuel, s₂, levels, walk⟩ := of_result_bind rest
  obtain rfl := session_of_levels levels
  obtain ⟨found, lookup, counted⟩ := insertWithin_count fuel walk
  refine ⟨found, ?_, counted⟩
  rw [canonical, get?, result_bind, levels]
  exact lookup

/-- Nothing is found in an empty trie. -/
theorem node_ne_empty {found : Ref Cell} (lookup : (result (t.get? key) s).1 = .ok (some found)) : t.node ≠ .empty := by
  intro shape
  obtain ⟨fuel, s₁, levels, rfl, -⟩ := t.yields_levels s
  rw [get?, result_bind, levels, shape] at lookup
  cases fuel <;> cases lookup

theorem isEmpty_eq_false (pos : 0 < t.count.toNat) : t.isEmpty = false := by
  rw [isEmpty, beq_eq_false_iff_ne]
  intro zero
  rw [zero] at pos
  exact absurd pos (by decide)

/-- Only the empty trie has no entry, of those that are decoded. -/
theorem Decoded.count_pos (decoded : t.Decoded) (nonempty : t.node ≠ .empty) : 0 < t.count.toNat := by
  obtain ⟨loader, bytes, decoded⟩ := decoded
  have value := t.value_eq
  rw [count]
  cases shape : t.node with
  | empty => exact absurd shape nonempty
  | leaf key r => exact Nat.one_pos
  | branch b =>
    rw [shape] at value
    have readable := (of_decode decoded).2.branch_readable value
    exact lt_of_lt_of_le (lt_of_lt_of_le Nat.two_pos readable.occupants) readable.occupants_le

/-- An insertion makes counts that add up of such, and overflows only at the largest count. -/
theorem loads_insert (weighs : s.Weighs w) (addsUp : t.node.AddsUp w kind) (fits : kind = .set → key.length = 32) :
    Loads (UInt64.size ≤ t.count.toNat + 1) (t.insert key value) s fun r _ =>
      ∀ t', r = some t' → t'.node.AddsUp w kind ∧ t'.count.toNat ≤ t.count.toNat + 1 := by
  have digits : kind = .set → Digits.count key = 64 := fun set => by rw [Digits.count, fits set]
  rw [insert]
  refine (value.loads_canonical s).bind fun own s₁ _ later _ => ?_
  refine (t.loads_levels s₁).bind fun fuel s₂ _ later' _ => ?_
  have weighs₂ := (weighs.later later).later later'
  refine (insertWithin_full fuel weighs₂ addsUp).of_ok fun r s₃ run => ?_
  rintro t' rfl
  obtain ⟨_, -, counted⟩ := insertWithin_count fuel run
  exact ⟨(insertWithin_addsUp digits fuel weighs₂ addsUp run).2 t' rfl, counted.le⟩

/-- A removal makes counts that add up of such, and does not overflow. -/
theorem loads_erase (weighs : s.Weighs w) (addsUp : t.node.AddsUp w kind) : Loads False (t.erase key) s fun r _ =>
    ∀ t', r = some t' → t'.node.AddsUp w kind ∧ t'.count.toNat + 1 = t.count.toNat := by
  rw [erase]
  refine (t.loads_levels s).bind fun fuel s₁ _ later _ => ?_
  have weighs₁ := weighs.later later
  exact (eraseWithin_full fuel weighs₁ addsUp).of_ok fun r s₂ run => (eraseWithin_addsUp fuel weighs₁ addsUp run).2

/-- A removal that succeeds looks the key up in passing, and gives nothing for a key that is not found. -/
theorem erase_finds {r : Option (Trie kind)} (run : result (t.erase key) s = (.ok r, s')) :
    ∃ found, (result (t.get? key) s).1 = .ok found ∧ (r = none ↔ found = none) := by
  rw [erase] at run
  obtain ⟨fuel, s₁, levels, walk⟩ := of_result_bind run
  obtain rfl := session_of_levels levels
  rw [get?, result_bind, levels]
  exact eraseWithin_finds fuel walk

end Trie

namespace KeyMap

variable {w : Hash → Nat} {s s' : Session} {m m' : KeyMap}

theorem checkKey_ne_overflow (key : Bytes) : checkKey key ≠ .error .overflow := by
  rw [checkKey]
  repeat' split
  all_goals exact fun same => by cases same

theorem loads_update (weighs : s.Weighs w) (addsUp : m.node.AddsUp w .map) (u : Update) :
    Loads (UInt64.size ≤ m.count.toNat + 1) (u.run m) s fun m' _ =>
      m'.node.AddsUp w .map ∧ m'.count.toNat ≤ m.count.toNat + 1 := by
  have unchanged : m.node.AddsUp w .map ∧ m.count.toNat ≤ m.count.toNat + 1 := ⟨addsUp, Nat.le_succ _⟩
  cases u with
  | assoc key value =>
    have assoc : Loads (UInt64.size ≤ m.count.toNat + 1) (m.assoc key value) s fun r _ =>
        ∀ m', r = some m' → m'.node.AddsUp w .map ∧ m'.count.toNat ≤ m.count.toNat + 1 := by
      refine (loads_liftExcept (P := fun _ _ => True) (fun _ _ => trivial) fun excess =>
        absurd excess (checkKey_ne_overflow key)).bind fun _ s₁ _ later _ => ?_
      exact Trie.loads_insert (weighs.later later) addsUp fun set => by cases set
    refine assoc.bind fun r s₁ _ _ made => loads_pure ?_
    cases r with
    | none => exact unchanged
    | some m' => exact made m' rfl
  | dissoc key =>
    refine ((Trie.loads_erase weighs addsUp).widen False.elim).bind fun r s₁ _ _ made => loads_pure ?_
    cases r with
    | none => exact unchanged
    | some m' =>
      obtain ⟨addsUp', less⟩ := made m' rfl
      exact ⟨addsUp', show m'.count.toNat ≤ m.count.toNat + 1 by omega⟩

/-- However many updates are made, they overflow only if there is no room for all of them. -/
theorem loads_updates (weighs : s.Weighs w) (addsUp : m.node.AddsUp w .map) (updates : List Update) :
    Loads (UInt64.size ≤ m.count.toNat + updates.length) (updates.foldlM Update.run m) s fun m' _ =>
      m'.node.AddsUp w .map ∧ m'.count.toNat ≤ m.count.toNat + updates.length := by
  induction updates generalizing m s with
  | nil => exact loads_pure ⟨addsUp, le_rfl⟩
  | cons u rest ih =>
    rw [List.length_cons, List.foldlM_cons]
    have first : Loads (UInt64.size ≤ m.count.toNat + (rest.length + 1)) (u.run m) s _ :=
      (loads_update weighs addsUp u).widen fun excess => by omega
    refine first.bind fun m₁ s₁ _ later made => ?_
    refine ((ih (weighs.later later) made.1).widen fun excess => by omega).mono fun m' s' _ made' => ⟨made'.1, ?_⟩
    omega

end KeyMap

/-! ### Counts in a store -/

namespace Misplaced

/-- What is said of the hashes of the two leaves. -/
def weights (h : Hash) : Nat := if h = firstHash ∨ h = secondHash then 1 else 0

theorem leaf_tallies {key : Bytes} {value : Ref Cell} {h : Hash} (said : weights h = 1) :
    (Trie.leaf .map key value).cell.Tallies weights h := by
  intro kind n held
  rw [(Trie.leaf .map key value).value_eq] at held
  cases held
  exact ⟨said.symm, .leaf key value fun set => by cases set⟩

theorem lent_weighs : lent.Weighs weights := by
  refine ⟨fun l listed e member => ?_, fun id h c accepted => ?_⟩
  · rw [List.mem_singleton.mp listed] at member
    cases member
  · rcases of_accept accepted with ⟨at_first, rfl⟩ | ⟨at_second, rfl⟩
    · exact leaf_tallies (if_pos (.inl at_first.symm))
    · exact leaf_tallies (if_pos (.inr at_second.symm))

/-- A set that has two children from the store. -/
def joined (d e : Digit) : ContentSet :=
  Trie.ofNode .set (.branch ⟨0, [], none, [(d, .ofMarker firstHash (some 0)), (e, .ofMarker secondHash (some 0))], 2⟩)

theorem joined_addsUp (d e : Digit) : (joined d e).AddsUp weights := by
  rintro b ⟨⟩
  rfl

end Misplaced

/-- An action of whose answer something is known has one. -/
theorem Action.of_toOption_map {α β : Type} {x : Action α} {s : Session} {f : α → β} {b : β}
    (known : (result x s).1.toOption.map f = some b) : ∃ a s', result x s = (.ok a, s') ∧ f a = b := by
  cases run : result x s with
  | mk answer s' =>
    rw [run] at known
    cases answer with
    | error e => cases known
    | ok a => exact ⟨a, s', rfl, Option.some.inj known⟩

/-! ### Decoded tries -/

/-- What updates do to the counts of decoded tries. Whatever the stores give, an insertion that succeeds adds one for a
key that is not found, and the trie is not empty afterwards. Over stores that have what is said of their hashes, the
counts of all branches add up after an insertion, which overflows only if the count of the root is the largest one, after
a removal, which never overflows and takes one off for a key that is found, and after an operation on sets, which
overflows only if their counts have no room for each other. -/
theorem Trie.counts_of_decoded (s : Session) :
    (∀ (kind : TrieKind) (t : Trie kind) (key : Bytes) (value : Ref Cell), t.Decoded →
      ∀ r s', result (t.insert key value) s = (.ok r, s') →
        ∃ found, (result (t.get? key) (result value.canonical s).2).1 = .ok found ∧ (r = none → found.isSome) ∧
          ∀ t', r = some t' → t'.count.toNat = t.count.toNat + (if found.isNone then 1 else 0) ∧ t'.isEmpty = false) ∧
    ∀ w, s.Weighs w →
      (∀ (kind : TrieKind) (t : Trie kind) (key : Bytes), t.Decoded → t.AddsUp w →
        (∀ value, (kind = .set → key.length = 32) →
          ((result (t.insert key value) s).1 = .error .overflow → t.count.toNat + 1 = UInt64.size) ∧
          ∀ r s', result (t.insert key value) s = (.ok r, s') → ∀ t', r = some t' → t'.node.AddsUp w kind) ∧
        (result (t.erase key) s).1 ≠ .error .overflow ∧
        ∀ r s', result (t.erase key) s = (.ok r, s') →
          ∃ found, (result (t.get? key) s).1 = .ok found ∧ (r = none ↔ found = none) ∧
            ∀ t', r = some t' → t'.node.AddsUp w kind ∧ t'.count.toNat + 1 = t.count.toNat) ∧
      ∀ (op : SetOperation) (left right : ContentSet), left.Decoded → right.Decoded → left.AddsUp w → right.AddsUp w →
        ((result (mergeCells op left.cell right.cell) s).1 = .error .overflow →
          UInt64.size ≤ left.count.toNat + right.count.toNat) ∧
        ∀ t s', result (mergeCells op left.cell right.cell) s = (.ok t, s') →
          t.node.AddsUp w .set ∧ t.count.toNat ≤ left.count.toNat + right.count.toNat := by
  refine ⟨fun kind t key value decoded r s' run => ?_, fun w weighs => ⟨fun kind t key decoded root => ?_, ?_⟩⟩
  · obtain ⟨found, lookup, counted⟩ := insert_count run
    refine ⟨found, lookup, counted.1, fun t' made => ?_⟩
    have count_eq := counted.2 t' made
    refine ⟨count_eq, isEmpty_eq_false ?_⟩
    cases found with
    | none =>
      rw [count_eq, Option.isNone_none, if_pos rfl]
      exact Nat.succ_pos _
    | some own =>
      rw [count_eq, Option.isNone_some, if_neg (by decide)]
      exact decoded.count_pos (node_ne_empty lookup)
  · have addsUp := decoded.addsUp root
    refine ⟨fun value fits => ⟨fun excess => ?_, fun r s' run t' made => ?_⟩, fun excess => ?_, fun r s' run => ?_⟩
    · have full := (loads_insert weighs addsUp fits).full_of_overflow excess
      have fits := t.count.toNat_lt_size
      omega
    · exact (((loads_insert weighs addsUp fits).of_result run).2 t' made).1
    · exact (loads_erase weighs addsUp).full_of_overflow excess
    · obtain ⟨found, lookup, same⟩ := erase_finds run
      exact ⟨found, lookup, same, ((loads_erase weighs addsUp).of_result run).2⟩
  · intro op left right decoded decoded' root root'
    have loads := mergeCells_addsUp op weighs (decoded.addsUp root) (decoded'.addsUp root')
    exact ⟨loads.full_of_overflow, fun t s' run => (loads.of_result run).2⟩

namespace Misplaced

theorem counts_of_decoded_lent :
    (∃ m s', result ((stored firstHash secondHash).insert [0x30] (.direct .nil)) lent = (.ok (some m), s') ∧
      m.count.toNat = 3 ∧ m.isEmpty = false ∧ m.node.AddsUp weights .map) ∧
    (∃ m s', result ((stored firstHash secondHash).erase [0x10]) lent = (.ok (some m), s') ∧
      m.count.toNat + 1 = 2 ∧ m.node.AddsUp weights .map) ∧
    ∃ t s', result (Trie.mergeCells .union (joined 1 2).cell (joined 3 4).cell) lent = (.ok t, s') ∧
      t.count = 4 ∧ t.node.AddsUp weights .set := by
  obtain ⟨inserts, honest⟩ := Trie.counts_of_decoded lent
  obtain ⟨updates, merges⟩ := honest weights lent_weighs
  have decoded : (stored firstHash secondHash).Decoded :=
    ⟨some 0, (stored firstHash secondHash).cell.encoding, rfl⟩
  have root : (stored firstHash secondHash).AddsUp weights := by
    rintro b ⟨⟩
    rfl
  refine ⟨?_, ?_, ?_⟩
  · have added : (result ((stored firstHash secondHash).insert [0x30] (.direct .nil)) lent).1.toOption.map
        (fun r => r.map Trie.count) = some (some 3) := by
      decide +kernel
    obtain ⟨r, s', run, counted⟩ := of_toOption_map added
    obtain ⟨m, rfl, count_eq⟩ := Option.map_eq_some_iff.mp counted
    obtain ⟨_, -, -, made⟩ := inserts .map _ [0x30] (.direct .nil) decoded (some m) s' run
    obtain ⟨-, addsUp⟩ := (updates .map _ [0x30] decoded root).1 (.direct .nil) fun set => by cases set
    exact ⟨m, s', run, by rw [count_eq]; rfl, (made m rfl).2, addsUp (some m) s' run m rfl⟩
  · have removed : (result ((stored firstHash secondHash).erase [0x10]) lent).1.toOption.map Option.isSome =
        some true := by
      decide +kernel
    obtain ⟨r, s', run, isSome⟩ := of_toOption_map removed
    obtain ⟨m, rfl⟩ := Option.isSome_iff_exists.mp isSome
    obtain ⟨_, -, -, made⟩ := (updates .map _ [0x10] decoded root).2.2 (some m) s' run
    obtain ⟨addsUp, less⟩ := made m rfl
    exact ⟨m, s', run, less, addsUp⟩
  · have made : (result (Trie.mergeCells .union (joined 1 2).cell (joined 3 4).cell) lent).1.toOption.map
        Trie.count = some 4 := by
      decide +kernel
    obtain ⟨t, s', run, count_eq⟩ := of_toOption_map made
    obtain ⟨-, sums⟩ := merges .union (joined 1 2) (joined 3 4) ⟨some 0, (joined 1 2).cell.encoding, rfl⟩
      ⟨some 0, (joined 3 4).cell.encoding, rfl⟩ (joined_addsUp 1 2) (joined_addsUp 3 4)
    exact ⟨t, s', run, count_eq, (sums t s' run).1⟩

end Misplaced

namespace Crowded

open Inlined (repeated)

/-- A map of the largest count, with two children that are known by their hashes. -/
def full : KeyMap :=
  Trie.ofNode .map (.branch ⟨0, [], none, [(Digits.high 0x10, .ofMarker (repeated 7) none),
    (Digits.high 0x20, .ofMarker (repeated 8) none)], 18446744073709551615⟩)

/-- A key that is not found is added to a map that says it has the largest number of keys: the addition of the counts
overflows. -/
theorem insert_overflows : full.Decoded ∧ full.isEmpty = false ∧ (result (full.get? [0x30]) ⟨[], []⟩).1 = .ok none ∧
    result (full.insert [0x30] (.direct .nil)) ⟨[], []⟩ = (.error .overflow, ⟨[], []⟩) :=
  ⟨⟨none, full.cell.encoding, rfl⟩, rfl, rfl, rfl⟩

end Crowded

end MerkleCells
