import MerkleCells.Proofs.Trie.Combine
import MerkleCells.Proofs.Trie.Reading
import MerkleCells.Proofs.Trie.Sums
import MerkleCells.Trie.Merge

/-!
Counts that are worked out without loading. A `Tally` accounts for the elements below the children of one
input branch that have been passed: `Tally.Counts` says how many there are, and how many of them are below
children of unknown count that were kept. `Gathers` says what the parts of a merged branch hold so far, and
`settle_yields` that their count comes out right from both.
-/
namespace MerkleCells.Trie

open MerkleCells.Action

/-! ### Tallies -/

namespace Tally

/-- A tally of a branch of `total` elements: `passed` are below the children so far, and `held` of these are below
children of unknown count that were kept. -/
structure Counts (t : Tally) (total passed held : Nat) : Prop where
  total_eq : t.total.toNat = total
  le : passed ≤ total
  split : ∃ dropped, t.known.toNat + held + dropped = passed ∧ (t.blind = false → dropped = 0)
  pending : t.pending = false → held = 0

variable {t : Tally} {total passed held size : Nat}

theorem counts_ofBranch {ρ : Type} (b : Branch ρ) : (ofBranch b).Counts b.count.toNat 0 0 :=
  ⟨rfl, Nat.zero_le _, ⟨0, rfl, fun _ => rfl⟩, fun _ => rfl⟩

theorem Counts.opened (counts : t.Counts total passed held) {n : UInt64} (count : n.toNat = size)
    (room : passed + size ≤ total) : (t.opened n).Counts total (passed + size) held := by
  obtain ⟨dropped, split, blind⟩ := counts.split
  have lt := t.total.toNat_lt
  have known : (addSaturating t.known n).toNat = t.known.toNat + n.toNat := by
    refine toNat_addSaturating (lt_of_le_of_lt ?_ lt)
    rw [counts.total_eq]
    omega
  refine ⟨counts.total_eq, room, ⟨dropped, ?_, blind⟩, counts.pending⟩
  show (addSaturating t.known n).toNat + held + dropped = passed + size
  omega

/-- The elements below a child that count as unknown. -/
def unknown (count : Option UInt64) (size : Nat) : Nat := if count.isNone then size else 0

theorem Counts.kept (counts : t.Counts total passed held) {count : Option UInt64}
    (known : ∀ n, count = some n → n.toNat = size) (room : passed + size ≤ total) :
    (t.kept count).Counts total (passed + size) (held + unknown count size) := by
  cases count with
  | some n => exact counts.opened (known n rfl) room
  | none =>
    obtain ⟨dropped, split, blind⟩ := counts.split
    refine ⟨counts.total_eq, room, ⟨dropped, ?_, blind⟩, fun off => by cases off⟩
    show t.known.toNat + (held + size) + dropped = passed + size
    omega

theorem Counts.dropped (counts : t.Counts total passed held) {count : Option UInt64}
    (known : ∀ n, count = some n → n.toNat = size) (room : passed + size ≤ total) :
    (t.dropped count).Counts total (passed + size) held := by
  cases count with
  | some n => exact counts.opened (known n rfl) room
  | none =>
    obtain ⟨dropped, split, blind⟩ := counts.split
    refine ⟨counts.total_eq, room, ⟨dropped + size, ?_, fun off => by cases off⟩, counts.pending⟩
    show t.known.toNat + held + (dropped + size) = passed + size
    omega

/-- When all children have been passed, a tally that is settled tells what was kept unknown. -/
theorem Counts.missing (counts : t.Counts total total held) (settled : t.settled = true) :
    ∃ n, t.missing = .ok n ∧ n.toNat = held := by
  obtain ⟨dropped, split, blind⟩ := counts.split
  have total_eq := counts.total_eq
  unfold Tally.missing
  cases pending : t.pending with
  | false => exact ⟨0, rfl, (counts.pending pending).symm⟩
  | true =>
    have none := blind (by simpa [settled, Tally.settled, pending] using settled)
    have le : t.known ≤ t.total := by
      rw [UInt64.le_iff_toNat_le]
      omega
    refine ⟨t.total - t.known, by simp [le]; rfl, ?_⟩
    rw [UInt64.toNat_sub_of_le _ _ le]
    omega

end Tally

/-! ### Sums -/

/-- The elements below the parts of known count. -/
def knownSum (parts : List Part) : Nat := ((parts.filterMap (·.count)).map UInt64.toNat).sum

theorem knownSum_append (parts parts' : List Part) : knownSum (parts ++ parts') = knownSum parts + knownSum parts' := by
  simp [knownSum]

theorem knownSum_singleton {p : Part} {size : Nat} (known : ∀ n, p.count = some n → n.toNat = size) :
    knownSum [p] + Tally.unknown p.count size = size := by
  cases count : p.count with
  | none => simp [knownSum, count, Tally.unknown]
  | some n => simp [knownSum, count, Tally.unknown, known n count]

/-- The children that parts make up. -/
def Part.children (parts : List Part) : List (Digit × Ref Cell) := parts.map fun p => (p.digit, p.root)

/-! ### Parts -/

/-- What the parts of a merged branch hold after some digits: `h`, of which `unknown` elements are below parts of
unknown count. If `exact` is true of the inputs, it is what `target` has below these digits. -/
structure Gathers (exact : Prop) (s : Session) (depth : Nat) (path : Bytes) (f g target : Content Mark)
    (done : List Digit) (parts : List Part) (h : Content Mark) (unknown : Nat) : Prop where
  within : h.Within path depth
  digits : ∀ k ∈ h.keys, ∃ d ∈ done, Digits.digit? k depth = some d
  finite : h.keys.Finite
  ascending : Branch.Ascending (Part.children parts)
  inside : ∀ p ∈ parts, p.digit ∈ done
  leads : Branch.Parts .set s (Part.children parts) depth h
  known : ∀ p ∈ parts, ∀ n, p.count = some n → n.toNat = (h.below depth p.digit).size
  size_eq : h.size = knownSum parts + unknown
  sub : h.From f g
  agrees : exact → ∀ d ∈ done, h.below depth d = target.below depth d

namespace Gathers

variable {exact : Prop} {s s' : Session} {depth unknown : Nat} {path : Bytes} {f g target h part : Content Mark}
  {done : List Digit} {parts : List Part} {d : Digit} {p : Part}

theorem empty (exact : Prop) (s : Session) (depth : Nat) (path : Bytes) (f g target : Content Mark) :
    Gathers exact s depth path f g target [] [] .none 0 where
  within := fun k bound => absurd rfl bound
  digits := fun k bound => absurd rfl bound
  finite := by
    rw [Content.keys_eq_empty_iff.mpr rfl]
    exact Set.finite_empty
  ascending := List.Pairwise.nil
  inside := fun p member => by cases member
  leads := .nil fun k bound => absurd rfl bound
  known := fun p member => by cases member
  size_eq := Content.size_none
  sub := .none
  agrees := fun _ d member => by cases member

theorem later (gathers : Gathers exact s depth path f g target done parts h unknown) (later : s.Later s') :
    Gathers exact s' depth path f g target done parts h unknown :=
  { gathers with leads := gathers.leads.later later }

theorem below_new (gathers : Gathers exact s depth path f g target done parts h unknown) (new : d ∉ done) :
    h.below depth d = .none := by
  refine Content.below_eq_none fun k bound here => ?_
  obtain ⟨e, member, at_e⟩ := gathers.digits k bound
  rw [here, Option.some.injEq] at at_e
  exact new (at_e ▸ member)

/-- A digit may have no part. -/
theorem skip (gathers : Gathers exact s depth path f g target done parts h unknown) (new : d ∉ done)
    (agrees : exact → target.below depth d = .none) :
    Gathers exact s depth path f g target (done ++ [d]) parts h unknown where
  within := gathers.within
  digits := fun k bound => by
    obtain ⟨e, member, at_e⟩ := gathers.digits k bound
    exact ⟨e, List.mem_append_left _ member, at_e⟩
  finite := gathers.finite
  ascending := gathers.ascending
  inside := fun p member => List.mem_append_left _ (gathers.inside p member)
  leads := gathers.leads
  known := gathers.known
  size_eq := gathers.size_eq
  sub := gathers.sub
  agrees := fun holds e member => by
    rcases List.mem_append.mp member with old | last
    · exact gathers.agrees holds e old
    · obtain rfl := List.mem_singleton.mp last
      rw [gathers.below_new new, agrees holds]

/-- A digit after all others may have a part. -/
theorem add (gathers : Gathers exact s depth path f g target done parts h unknown) (after : ∀ e ∈ done, e < p.digit)
    (leads : p.root.Leads .set s part) (nonempty : part ≠ .none) (within : part.Within path depth)
    (goes : part.GoesTo depth p.digit) (finite : part.keys.Finite)
    (known : ∀ n, p.count = some n → n.toNat = part.size) (sub : part.From f g)
    (agrees : exact → target.below depth p.digit = part) :
    Gathers exact s depth path f g target (done ++ [p.digit]) (parts ++ [p]) (h.join depth p.digit part)
      (unknown + Tally.unknown p.count part.size) := by
  have new : p.digit ∉ done := fun member => lt_irrefl _ (after _ member)
  have vacant := gathers.below_new new
  have keys := Content.keys_join goes vacant
  have other : ∀ q ∈ parts, p.digit ≠ q.digit := fun q member same => new (same ▸ gathers.inside q member)
  have children : Part.children (parts ++ [p]) = Branch.setChild p.digit p.root (Part.children parts) := by
    rw [Branch.setChild_of_lt]
    · simp [Part.children]
    · intro c member
      obtain ⟨q, old, rfl⟩ := List.mem_map.mp member
      exact after _ (gathers.inside q old)
  refine ⟨?_, ?_, ?_, ?_, ?_, ?_, ?_, ?_, gathers.sub.join sub, ?_⟩
  · intro k bound
    rw [keys] at bound
    rcases bound with bound | bound
    · exact gathers.within k bound
    · exact within k bound
  · intro k bound
    rw [keys] at bound
    rcases bound with bound | bound
    · obtain ⟨e, member, at_e⟩ := gathers.digits k bound
      exact ⟨e, List.mem_append_left _ member, at_e⟩
    · exact ⟨p.digit, by simp, goes k bound⟩
  · rw [keys]
    exact gathers.finite.union finite
  · rw [children]
    exact gathers.ascending.setChild _ _
  · intro q member
    rcases List.mem_append.mp member with old | last
    · exact List.mem_append_left _ (gathers.inside q old)
    · obtain rfl := List.mem_singleton.mp last
      simp
  · rw [children]
    refine gathers.leads.setChild gathers.ascending ?_ ?_ ?_
    · rw [Content.join_below_self goes]
      exact nonempty
    · rw [Content.join_below_self goes]
      exact leads
    · exact fun e ne => Content.join_below_of_ne ne
  · intro q member n count
    rcases List.mem_append.mp member with old | last
    · rw [Content.join_below_of_ne (other q old)]
      exact gathers.known q old n count
    · obtain rfl := List.mem_singleton.mp last
      rw [Content.join_below_self goes]
      exact known n count
  · have single := knownSum_singleton known
    rw [Content.size_join goes vacant gathers.finite finite, gathers.size_eq, knownSum_append]
    omega
  · intro holds e member
    rcases List.mem_append.mp member with old | last
    · have ne : p.digit ≠ e := fun same => new (same ▸ old)
      rw [Content.join_below_of_ne ne]
      exact gathers.agrees holds e old
    · obtain rfl := List.mem_singleton.mp last
      rw [Content.join_below_self goes, agrees holds]

/-- When all digits of the target have been passed, it is what has been gathered. -/
theorem eq_target (gathers : Gathers exact s depth path f g target done parts h unknown) (holds : exact)
    (all : ∀ k ∈ target.keys, ∃ d ∈ done, Digits.digit? k depth = some d) : h = target := by
  have left : h.GoesOn depth := fun k bound => by
    obtain ⟨d, -, here⟩ := gathers.digits k bound
    exact ⟨d, here⟩
  have right : target.GoesOn depth := fun k bound => by
    obtain ⟨d, -, here⟩ := all k bound
    exact ⟨d, here⟩
  refine left.ext right fun d => ?_
  by_cases member : d ∈ done
  · exact gathers.agrees holds d member
  · rw [gathers.below_new member, Content.below_eq_none]
    intro k bound here
    obtain ⟨e, member', at_e⟩ := all k bound
    rw [here, Option.some.injEq] at at_e
    exact member (at_e ▸ member')

theorem exists_part (gathers : Gathers exact s depth path f g target done parts h unknown) {k : Bytes}
    (bound : k ∈ h.keys) : ∃ p ∈ parts, Digits.digit? k depth = some p.digit := by
  obtain ⟨d, -, here⟩ := gathers.digits k bound
  have found : (Branch.childIn (Part.children parts) d).isSome := by
    rw [gathers.leads.child_iff]
    exact Content.below_ne_none bound here
  obtain ⟨r, found⟩ := Option.isSome_iff_exists.mp found
  obtain ⟨p, member, same⟩ := List.mem_map.mp (Branch.mem_of_childIn found)
  cases same
  exact ⟨p, member, here⟩

theorem size_eq_sum (gathers : Gathers exact s depth path f g target done parts h unknown) :
    h.size = (parts.map fun p => (h.below depth p.digit).size).sum := by
  have distinct : (parts.map (·.digit)).Nodup := by
    have ascending := gathers.ascending
    rw [Branch.Ascending, Part.children, List.pairwise_map] at ascending
    exact List.pairwise_map.mpr (ascending.imp fun lt => ne_of_lt lt)
  have all : ∀ k ∈ h.keys, ∀ d, Digits.digit? k depth = some d → d ∈ parts.map (·.digit) := by
    intro k bound d here
    obtain ⟨p, member, at_p⟩ := gathers.exists_part bound
    rw [here, Option.some.injEq] at at_p
    exact at_p ▸ List.mem_map_of_mem member
  have none_ends : {k ∈ h.keys | Digits.count k = depth} = ∅ := by
    rw [Set.eq_empty_iff_forall_notMem]
    rintro k ⟨bound, ends⟩
    obtain ⟨d, -, here⟩ := gathers.digits k bound
    have inside := Digits.lt_count here
    omega
  rw [Content.size_eq_sum gathers.finite gathers.within distinct all, none_ends, Set.ncard_empty, Nat.zero_add,
    List.map_map]
  rfl

end Gathers

/-! ### Settling -/

theorem partCount_yields {p : Part} {s : Session} {part : Content Mark} (leads : p.root.Leads .set s part)
    (known : ∀ n, p.count = some n → n.toNat = part.size) :
    Yields (partCount p) s fun n s' => s.Later s' ∧ n.toNat = part.size := by
  rw [partCount]
  cases count : p.count with
  | some n => exact yields_pure.mpr ⟨.refl s, known n count⟩
  | none =>
    refine (leads s (.refl s)).bind ?_
    rintro t s' ⟨-, later, holds⟩
    exact yields_pure.mpr ⟨later, holds.count_eq⟩

/-- Tallies that are settled tell what was kept unknown without loading anything. -/
theorem sumOf_missing_yields {s : Session} {tallies : List Tally} {helds : List Nat} (settled : tallies.all Tally.settled)
    (counts : List.Forall₂ (fun t held => ∃ total, t.Counts total total held) tallies helds)
    (room : helds.sum < UInt64.size) :
    Yields (sumOf (fun t => (liftM t.missing : Action UInt64)) tallies) s fun n s' => s = s' ∧ n.toNat = helds.sum := by
  refine sumOf_yields (fun _ => rfl) Eq.trans ?_ room
  rw [List.all_eq_true] at settled
  refine List.forall₂_iff_get.mpr ⟨counts.length_eq, fun i inside inside' s₁ _ => ?_⟩
  obtain ⟨total, counts⟩ := counts.get inside inside'
  obtain ⟨n, told, value⟩ := counts.missing (settled _ (List.get_mem _ _))
  exact yields_liftExcept.mpr ⟨n, told, rfl, value⟩

/-- What is kept unknown and what is known make up the count, without loading anything. -/
theorem settle_settled_yields {s : Session} {parts : List Part} {tallies : List Tally} {helds : List Nat}
    (settled : tallies.all Tally.settled)
    (counts : List.Forall₂ (fun t held => ∃ total, t.Counts total total held) tallies helds)
    (room : helds.sum + knownSum parts < UInt64.size) :
    Yields (settle parts tallies) s fun n s' => s = s' ∧ n.toNat = helds.sum + knownSum parts := by
  rw [settle, if_pos settled]
  refine (sumOf_missing_yields settled counts (by omega)).bind ?_
  rintro missing s' ⟨rfl, missing_eq⟩
  refine (sumOf_pure_yields (lt_of_le_of_lt (Nat.le_add_left _ _) room) s).bind ?_
  rintro known s' ⟨rfl, known_eq⟩
  have known_eq : known.toNat = knownSum parts := known_eq
  rw [← missing_eq, ← known_eq] at room ⊢
  obtain ⟨n, added, sum⟩ := addCounts_of_lt room
  exact yields_liftExcept.mpr ⟨n, added, rfl, sum⟩

/-- The count of some parts is the number of elements below them, whichever of them are in memory. -/
theorem settle_yields {exact : Prop} {s : Session} {depth unknown : Nat} {path : Bytes} {f g target h : Content Mark}
    {done : List Digit} {parts : List Part} {tallies : List Tally} {helds : List Nat}
    (gathers : Gathers exact s depth path f g target done parts h unknown)
    (counts : List.Forall₂ (fun t held => ∃ total, t.Counts total total held) tallies helds)
    (unknown_eq : unknown = helds.sum) (room : h.size < UInt64.size) :
    Yields (settle parts tallies) s fun n s' => s.Later s' ∧ n.toNat = h.size := by
  by_cases settled : tallies.all Tally.settled = true
  · have size : h.size = helds.sum + knownSum parts := by
      rw [gathers.size_eq, unknown_eq, Nat.add_comm]
    rw [size] at room ⊢
    refine (settle_settled_yields settled counts room).mono ?_
    rintro n s' ⟨rfl, sum⟩
    exact ⟨.refl s, sum⟩
  · have leads : ∀ p ∈ parts, p.root.Leads .set s (h.below depth p.digit) := fun p member =>
      ((gathers.leads p.digit).2 p.root
        (gathers.ascending.childIn_of_mem (List.mem_map.mpr ⟨p, member, rfl⟩))).2
    rw [settle, if_neg settled]
    rw [gathers.size_eq_sum] at room ⊢
    refine sumOf_yields Session.Later.refl Session.Later.trans ?_ room
    rw [List.forall₂_map_right_iff, List.forall₂_same]
    exact fun p member s₁ later => partCount_yields ((leads p member).later later) (gathers.known p member)

/-! ### Assembling -/

/-- A merged subtree holds what comes from two contents, and it is `target` if `exact` is true of these. -/
def Merged.Makes (exact : Prop) (s : Session) (f g target : Content Mark) (m : Merged) : Prop :=
  ∃ h : Content Mark, m.root.Leads .set s h ∧ m.count.toNat = h.size ∧ h.From f g ∧ (exact → h = target)

theorem single_leads {exact : Prop} {s : Session} {depth unknown : Nat} {path : Bytes} {f g target h : Content Mark}
    {done : List Digit} {p : Part} (gathers : Gathers exact s depth path f g target done [p] h unknown) :
    p.root.Leads .set s h := by
  have found : Branch.childIn (Part.children [p]) p.digit = some p.root :=
    gathers.ascending.childIn_of_mem (List.mem_singleton.mpr rfl)
  have goes : h.GoesTo depth p.digit := fun k bound => by
    obtain ⟨q, member, here⟩ := gathers.exists_part bound
    obtain rfl := List.mem_singleton.mp member
    exact here
  have leads := ((gathers.leads p.digit).2 p.root found).2
  rwa [goes.below_self] at leads

/-- What has been gathered is assembled to nothing, the only part or a branch that holds it. -/
theorem assemble_yields {exact : Prop} {s : Session} {depth unknown : Nat} {path : Bytes} {f g target h : Content Mark}
    {done : List Digit} {parts : List Part} {tallies : List Tally} {helds : List Nat}
    (gathers : Gathers exact s depth path f g target done parts h unknown)
    (counts : List.Forall₂ (fun t held => ∃ total, t.Counts total total held) tallies helds)
    (unknown_eq : unknown = helds.sum) (room : h.size < UInt64.size)
    (path_eq : Digits.leading? path depth = some path)
    (all : ∀ k ∈ target.keys, ∃ d ∈ done, Digits.digit? k depth = some d) :
    Yields (assemble depth path parts tallies) s fun m s' => s.Later s' ∧ m.Makes exact s' f g target := by
  refine (settle_yields gathers counts unknown_eq room).bind ?_
  rintro count s' ⟨later, size⟩
  have gathers' := gathers.later later
  have agrees : exact → h = target := fun holds => gathers.eq_target holds all
  match parts, gathers, gathers' with
  | [], gathers, gathers' =>
    have empty : h = .none := by
      rw [← Content.keys_eq_empty_iff, Set.eq_empty_iff_forall_notMem]
      intro k bound
      obtain ⟨p, member, -⟩ := gathers.exists_part bound
      cases member
    refine yields_pure.mpr ⟨later, h, ?_, ?_, gathers.sub, agrees⟩
    · exact leads_ref (.empty empty)
    · rw [empty, Content.size_none]
      rfl
  | [p], gathers, gathers' =>
    exact yields_pure.mpr ⟨later, h, single_leads gathers', size, gathers.sub, agrees⟩
  | p :: q :: rest, gathers, gathers' =>
    refine yields_pure.mpr ⟨later, h, leads_ref ?_, size, gathers.sub, agrees⟩
    refine .ofParts path_eq gathers'.within ?_ gathers'.ascending gathers'.leads gathers'.finite size ?_
    · by_cases ends : Digits.count path = depth
      · have unbound : h path = none := by
          refine Content.eq_none_of_notMem fun bound => ?_
          obtain ⟨d, -, here⟩ := gathers.digits path bound
          have inside := Digits.lt_count here
          omega
        rw [if_pos ends, unbound]
        rfl
      · rw [if_neg ends]
        rfl
    · simp [Branch.occupants]

end MerkleCells.Trie
