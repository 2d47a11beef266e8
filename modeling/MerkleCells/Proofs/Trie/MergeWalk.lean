import MerkleCells.Proofs.Trie.Merge

/-!
The walk that merges two tries as a whole. Next to two branches at the same depth there is a branch that the
other trie goes on from at one digit (`descend_yields`) and two tries whose keys part before either
(`mergeApart_yields`). What a merge may do at two tries is said once (`way_mergeWithin`), for all that is proved of
the walk. `mergeWithin_yields` puts the cases together: all keys of a set have the same number of digits, so the walk
ends before its fuel does.
-/
namespace MerkleCells

open MerkleCells.Action

theorem Branch.Fits.goesOn {b : Branch (Ref Cell)} {f : Content Mark} (fits : b.Fits f) (admitted : f.Admitted .set)
    (occupants : 2 ≤ b.occupants) : b.depth < 64 ∧ f.GoesOn b.depth := by
  have le : b.depth ≤ 63 := (fits.readable admitted occupants).depth_le
  refine ⟨by omega, fun k bound => ?_⟩
  rw [Digits.digit?_isSome_iff, admitted.count_eq bound]
  omega

namespace Trie

/-! ### Elements of one side -/

namespace Merged

variable {exact : Prop} {s : Session} {p q target : Content Mark} {t : Trie .set}

theorem makes_whole (holds : t.node.Holds .set s p) (agrees : exact → p = target) :
    (whole t).Makes exact s p q target :=
  ⟨p, leads_ref holds, holds.count_eq, .left, agrees⟩

theorem makes_nothing (agrees : exact → .none = target) : nothing.Makes exact s p q target :=
  ⟨.none, leads_ref (.empty rfl), Content.size_none.symm, .none, agrees⟩

theorem makes_one (holds : t.node.Holds .set s p) {op : SetOperation} {presence : Presence}
    (agrees : exact → target = if op.keeps presence then p else .none) :
    (one op presence t).Makes exact s p q target := by
  rw [one]
  by_cases keep : op.keeps presence = true
  · rw [if_pos keep]
    refine makes_whole holds fun told => ?_
    rw [agrees told, if_pos keep]
  · rw [if_neg keep]
    refine makes_nothing fun told => ?_
    rw [agrees told, if_neg keep]

/-- Of two sides with the same elements the left one stands for both. -/
theorem both_eq (op : SetOperation) (left right : Trie .set) : both op left right = one op .both left := by
  cases op <;> rfl

theorem Makes.imp {m : Merged} {exact' : Prop} {target' : Content Mark} (makes : m.Makes exact s p q target)
    (sub : exact' → exact) (same : target = target') : m.Makes exact' s p q target' := by
  obtain ⟨h, leads, count, from_, agrees⟩ := makes
  exact ⟨h, leads, count, from_, fun told => (agrees (sub told)).trans same⟩

theorem Makes.symm {m : Merged} (makes : m.Makes exact s p q target) : m.Makes exact s q p target := by
  obtain ⟨h, leads, count, sub, agrees⟩ := makes
  exact ⟨h, leads, count, sub.symm, agrees⟩

end Merged

/-! ### A branch that the other side goes on from -/

/-- What is kept of a branch that holds `f` and a trie that holds `g`, which belongs below the digit `slot`. -/
structure Descent (op : SetOperation) (own otherSide : Presence) (depth : Nat) (slot : Digit) (f g target : Content Mark) :
    Prop where
  goes : g.GoesTo depth slot
  sub : target.From f g
  others : ∀ d, d ≠ slot → target.below depth d = if op.keeps own then f.below depth d else .none
  vacant : f.below depth slot = .none → target.below depth slot = if op.keeps otherSide then g else .none

section Descent

variable {op : SetOperation} {own otherSide : Presence} {f g target : Content Mark} {b : Branch (Ref Cell)}
  {slot d : Digit} {s₀ s : Session} {exact : Prop} {other : Trie .set} {merge : Trie .set → Action Merged}
  {done : List Digit} {x : List Part × Tally}

theorem Descent.ofLeft {depth : Nat} (op : SetOperation) (f : Content Mark) (goes : g.GoesTo depth slot) :
    Descent op .left .right depth slot f g (op.combine f g) where
  goes := goes
  sub := op.combine_from f g
  others := fun d other => by
    rw [op.combine_below, goes.below_of_ne other.symm, op.combine_none_right]
  vacant := fun empty => by
    rw [op.combine_below, empty, goes.below_self, op.combine_none_left]

theorem Descent.ofRight {depth : Nat} (op : SetOperation) (f : Content Mark) (goes : g.GoesTo depth slot) :
    Descent op .right .left depth slot f g (op.combine g f) where
  goes := goes
  sub := (op.combine_from g f).symm
  others := fun d other => by
    rw [op.combine_below, goes.below_of_ne other.symm, op.combine_none_left]
  vacant := fun empty => by
    rw [op.combine_below, empty, goes.below_self, op.combine_none_right]

/-- What the parts and the tally so far say of a branch that is descended. -/
def DescentTells (exact : Prop) (s : Session) (b : Branch (Ref Cell)) (f g target : Content Mark) (done : List Digit)
    (x : List Part × Tally) : Prop :=
  ∃ h held, Gathers exact s b.depth b.path f g target done x.1 h held ∧
    x.2.Counts f.size (passed f b.depth done) held

/-- What a merge of the child at the slot has to do. -/
def MergesAt (exact : Prop) (merge : Trie .set → Action Merged) (s : Session) (part g target : Content Mark) : Prop :=
  ∀ s' (t : Trie .set), s.Later s' → t.node.Holds .set s' part → part ≠ .none →
    Yields (merge t) s' fun m s'' => s'.Later s'' ∧ m.Makes exact s'' part g target

/-- A digit adds to the parts what the operation keeps below it. -/
theorem descendDigit_yields (branch : Node.Holds .set s₀ (.branch b) f) (holds : other.node.Holds .set s₀ g)
    (within : g.Within b.path b.depth) (descent : Descent op own otherSide b.depth slot f g target)
    (merges : MergesAt exact merge s₀ (f.below b.depth slot) g (target.below b.depth slot))
    (sorted : (done ++ [d]).Pairwise (· < ·)) (later : s₀.Later s) (tells : DescentTells exact s b f g target done x) :
    Yields (descendDigit op merge b own other otherSide slot x d) s fun x' s' =>
      s₀.Later s' ∧ DescentTells exact s' b f g target (done ++ [d]) x' := by
  obtain ⟨h, held, gathers, counts⟩ := tells
  have after := lt_of_sorted sorted
  have fits := branch.fits
  have finite := fits.finite.subset (Content.below_subset f b.depth d)
  have goes := f.goesTo_below b.depth d
  have within' : (f.below b.depth d).Within b.path b.depth := fits.within.below
  obtain ⟨absent, present⟩ := branch.parts.later later d
  rw [descendDigit, Branch.child?_eq]
  by_cases here : d = slot
  · subst here
    rw [decide_eq_true rfl]
    cases found : Branch.childIn b.children d with
    | none =>
      have empty := absent found
      have makes : (Merged.one op otherSide other).Makes exact s (f.below b.depth d) g (target.below b.depth d) :=
        (Merged.makes_one (holds.later later) fun _ => descent.vacant empty).symm
      obtain ⟨h', gathered⟩ := gathers.merged after makes within' within goes descent.goes finite holds.finite
        fun _ sub k a bound => (sub k a bound).imp_left fun bound => (Content.below_eq_some_iff.mp bound).2
      exact yields_pure.mpr ⟨later, h', held, gathered, counts.skipDigit empty⟩
    | some r =>
      obtain ⟨nonempty, leads⟩ := present r found
      refine (leads s (.refl s)).bind ?_
      rintro t s₁ ⟨-, later₁, child⟩
      refine (merges s₁ t (later.trans later₁) child nonempty).bind ?_
      rintro m s₂ ⟨later₂, makes⟩
      have since := later₁.trans later₂
      obtain ⟨h', gathered⟩ := (gathers.later since).merged after makes within' within goes descent.goes finite
        holds.finite fun _ sub k a bound => (sub k a bound).imp_left fun bound => (Content.below_eq_some_iff.mp bound).2
      exact yields_pure.mpr ⟨later.trans since, h', held, gathered,
        counts.openDigit fits.finite sorted child.count_eq⟩
  · rw [decide_eq_false here]
    cases found : Branch.childIn b.children d with
    | none =>
      refine yields_pure.mpr ⟨later, h, held, ?_, counts.skipDigit (absent found)⟩
      refine gathers.skip (fun member => lt_irrefl _ (after d member)) fun _ => ?_
      rw [descent.others d here, absent found, ite_self]
    | some r =>
      obtain ⟨nonempty, leads⟩ := present r found
      refine (pass_yields leads x.2 d (op.keeps own)).bind ?_
      rintro _ s' ⟨rfl, count, known, rfl⟩
      obtain ⟨h', gathered⟩ := gathers.pass after (op.keeps own) leads nonempty fits.within fits.finite known .left
        fun _ => descent.others d here
      exact yields_pure.mpr ⟨later, h', _, gathered, counts.passDigit fits.finite sorted (op.keeps own) known⟩

/-- A trie that goes on from a branch is merged into it. -/
theorem descend_yields {P : Content Mark → Prop} (telling : Telling P) {t : Trie .set} (shape : t.node = .branch b)
    (branch : Node.Holds .set s₀ (.branch b) f) (goesOn : f.GoesOn b.depth) (holds : other.node.Holds .set s₀ g)
    (within : g.Within b.path b.depth) (descent : Descent op own otherSide b.depth slot f g target)
    (merges : MergesAt exact merge s₀ (f.below b.depth slot) g (target.below b.depth slot))
    (told : exact → P f ∧ P target) (room : (f.keys ∪ g.keys).ncard < UInt64.size) :
    Yields (descend op merge t b own other otherSide slot) s₀ fun m s =>
      s₀.Later s ∧ m.Makes exact s f g target := by
  have fits := branch.fits
  have start : DescentTells exact s₀ b f g target [] ([], .ofBranch b) := by
    refine ⟨.none, 0, .empty _ s₀ b.depth b.path f g _, ?_⟩
    rw [← fits.count_eq]
    exact Tally.counts_ofBranch b
  rw [descend]
  refine (foldlM_digits_yields (I := fun done x s => s₀.Later s ∧ DescentTells exact s b f g target done x)
    ⟨.refl s₀, start⟩ fun done d x s sorted inv =>
      descendDigit_yields branch holds within descent merges sorted inv.1 inv.2).bind ?_
  rintro ⟨parts, tally⟩ s ⟨later, h, held, gathers, counts⟩
  rw [passed_all fits.finite goesOn] at counts
  have all : ∀ k ∈ target.keys, ∃ d ∈ List.finRange 16, Digits.digit? k b.depth = some d := fun k bound => by
    rcases descent.sub.mem_keys bound with left | right
    · obtain ⟨d, here⟩ := goesOn k left
      exact ⟨d, List.mem_finRange d, here⟩
    · exact ⟨slot, List.mem_finRange slot, descent.goes k right⟩
  have agrees : exact → h = target := fun holds => gathers.eq_target holds all
  dsimp only
  by_cases same : sameChildren b parts = true
  · rw [if_pos same]
    refine yields_pure.mpr ⟨later, f, leads_ref (shape ▸ branch.later later), fits.count_eq, .left, fun inputs => ?_⟩
    rw [← agrees inputs]
    refine eq_of_sameChildren telling gathers (branch.parts.later later) goesOn (fun d => ?_) same
    obtain ⟨left, kept⟩ := told inputs
    rw [agrees inputs]
    exact ⟨telling.below f b.path b.depth d left fits.within,
      telling.below target b.path b.depth d kept (descent.sub.within fits.within within)⟩
  · rw [if_neg same]
    refine (assemble_yields gathers (.cons ⟨_, counts⟩ .nil) (by simp) ?_ fits.path_eq all).mono ?_
    · exact lt_of_le_of_lt (gathers.sub.size_le fits.finite holds.finite) room
    · rintro m s' ⟨later', makes⟩
      exact ⟨later.trans later', makes⟩

end Descent

/-! ### Two tries whose keys part -/

theorem mergeSort_ofMerged {d e : Digit} (m n : Merged) (lt : d < e) :
    (Part.ofMerged d m ++ Part.ofMerged e n).mergeSort (fun p q => decide (p.digit ≤ q.digit)) =
      Part.ofMerged d m ++ Part.ofMerged e n ∧
    (Part.ofMerged e n ++ Part.ofMerged d m).mergeSort (fun p q => decide (p.digit ≤ q.digit)) =
      Part.ofMerged d m ++ Part.ofMerged e n := by
  have le : d ≤ e := lt.le
  have not_le : ¬ e ≤ d := not_le.mpr lt
  unfold Part.ofMerged
  split <;> split <;> simp [List.mergeSort, List.MergeSort.Internal.splitInTwo, le, not_le]

section Apart

variable {op : SetOperation} {f g : Content Mark} {s : Session} {left right : Trie .set} {shared : Nat}

/-- Tries whose keys part after some digits are joined by a branch there. -/
theorem mergeApart_yields (holds : left.node.Holds .set s f) (holds' : right.node.Holds .set s g)
    (shares : Digits.Shares left.node.path right.node.path shared)
    (parts : ¬ Digits.Shares left.node.path right.node.path (shared + 1)) (lt : shared < left.node.depth)
    (lt' : shared < right.node.depth) (room : (f.keys ∪ g.keys).ncard < UInt64.size) (exact : Prop) :
    Yields (mergeApart op left right shared) s fun m s' => s.Later s' ∧ m.Makes exact s' f g (op.combine f g) := by
  have inside := holds.depth_le_count
  have inside' := holds'.depth_le_count
  obtain ⟨d, here⟩ := (Digits.digit?_isSome_iff left.node.path shared).mpr (lt_of_lt_of_le lt inside)
  obtain ⟨e, here'⟩ := (Digits.digit?_isSome_iff right.node.path shared).mpr (lt_of_lt_of_le lt' inside')
  obtain ⟨path, leading⟩ := Digits.leading?_isSome (lt.le.trans inside)
  obtain ⟨shares_path, -, path_eq⟩ := Digits.leading?_spec leading
  have apart := Digits.digits_part shares parts here here'
  have goes : f.GoesTo shared d := fun k bound => by rw [(holds.within k bound).digit?_eq lt, here]
  have goes' : g.GoesTo shared e := fun k bound => by rw [(holds'.within k bound).digit?_eq lt', here']
  have within : f.Within path shared := (holds.within.mono lt.le).trans shares_path
  have within' : g.Within path shared := (holds'.within.mono lt'.le).trans (shares.symm.trans shares_path)
  have makes : (Merged.one op .left left).Makes exact s f f ((op.combine f g).below shared d) :=
    Merged.makes_one holds fun _ => by
      rw [op.combine_below, goes.below_self, goes'.below_of_ne apart.symm, op.combine_none_right]
  have makes' : (Merged.one op .right right).Makes exact s g g ((op.combine f g).below shared e) :=
    Merged.makes_one holds' fun _ => by
      rw [op.combine_below, goes.below_of_ne apart, goes'.below_self, op.combine_none_left]
  have fromLeft : ∀ h : Content Mark, h.From f f → h.From f g := fun h sub k a bound =>
    .inl ((sub k a bound).elim id id)
  have fromRight : ∀ h : Content Mark, h.From g g → h.From f g := fun h sub k a bound =>
    .inr ((sub k a bound).elim id id)
  have start := Gathers.empty exact s shared path f g (op.combine f g)
  have all : ∀ k ∈ (op.combine f g).keys, Digits.digit? k shared = some d ∨ Digits.digit? k shared = some e :=
    fun k bound => ((op.combine_from f g).mem_keys bound).imp (goes k) (goes' k)
  have finish : ∀ done parts h, Gathers exact s shared path f g (op.combine f g) done parts h 0 → d ∈ done → e ∈ done →
      Yields (assemble shared path parts []) s fun m s' => s.Later s' ∧ m.Makes exact s' f g (op.combine f g) := by
    intro done parts h gathers member member'
    refine assemble_yields gathers .nil rfl ?_ path_eq fun k bound => ?_
    · exact lt_of_le_of_lt (gathers.sub.size_le holds.finite holds'.finite) room
    · exact (all k bound).elim (fun at_d => ⟨d, member, at_d⟩) fun at_e => ⟨e, member', at_e⟩
  rw [mergeApart]
  refine .lift_bind (show digitAt left.node.path shared = .ok d by rw [digitAt, here]) ?_
  refine .lift_bind (show digitAt right.node.path shared = .ok e by rw [digitAt, here']) ?_
  refine .lift_bind (show leadingOf left.node.path shared = .ok path by rw [leadingOf, leading]) ?_
  rcases lt_or_gt_of_ne apart with before | before
  · rw [(mergeSort_ofMerged _ _ before).1]
    obtain ⟨h, first⟩ := start.merged (by simp) makes within within goes goes holds.finite holds.finite fromLeft
    obtain ⟨h', both⟩ := first.merged (by simpa using before) makes' within' within' goes' goes' holds'.finite holds'.finite
      fromRight
    exact finish _ _ h' both (by simp) (by simp)
  · rw [(mergeSort_ofMerged _ _ before).2]
    obtain ⟨h, first⟩ := start.merged (by simp) makes' within' within' goes' goes' holds'.finite holds'.finite fromRight
    obtain ⟨h', both⟩ := first.merged (by simpa using before) makes within within goes goes holds.finite holds.finite
      fromLeft
    exact finish _ _ h' both (by simp) (by simp)

end Apart

/-! ### The ways of a walk -/

/-- What a merge may do at two tries, with `fuel` levels left for their children. -/
inductive Way (op : SetOperation) (fuel : Nat) (left right : Trie .set) : Action Merged → Prop where
  | equal (same : left.hash = right.hash) : Way op fuel left right (return .both op left right)
  | onlyRight (empty : left.node.isEmpty = true) : Way op fuel left right (return .one op .right right)
  | onlyLeft (empty : right.node.isEmpty = true) : Way op fuel left right (return .one op .left left)
  | apart (above : Digits.common left.node.path right.node.path (min left.node.depth right.node.depth) <
        min left.node.depth right.node.depth) :
      Way op fuel left right
        (mergeApart op left right (Digits.common left.node.path right.node.path (min left.node.depth right.node.depth)))
  | leaves {key key' : Bytes} {value value' : Ref Cell} (shape : left.node = .leaf key value)
      (shape' : right.node = .leaf key' value')
      (together : Digits.Shares left.node.path right.node.path (min left.node.depth right.node.depth)) :
      Way op fuel left right (return .both op left right)
  | level {a b : Branch (Ref Cell)} (differ : left.hash ≠ right.hash) (shape : left.node = .branch a)
      (shape' : right.node = .branch b) (same : a.depth = b.depth)
      (together : Digits.Shares left.node.path right.node.path (min left.node.depth right.node.depth)) :
      Way op fuel left right (mergeBranches op (mergeWithin op fuel) left a right b)
  | intoLeft {a : Branch (Ref Cell)} (differ : left.hash ≠ right.hash) (shape : left.node = .branch a)
      (deeper : a.depth < right.node.depth)
      (together : Digits.Shares left.node.path right.node.path (min left.node.depth right.node.depth)) :
      Way op fuel left right (do
        descend op (fun child => mergeWithin op fuel child right) left a .left right .right
          (← digitAt right.node.path a.depth))
  | intoRight {b : Branch (Ref Cell)} (differ : left.hash ≠ right.hash) (shape : right.node = .branch b)
      (deeper : b.depth < left.node.depth)
      (together : Digits.Shares left.node.path right.node.path (min left.node.depth right.node.depth)) :
      Way op fuel left right (do
        descend op (fun child => mergeWithin op fuel left child) right b .right left .left
          (← digitAt left.node.path b.depth))
  | mixedLeft {key : Bytes} {value : Ref Cell} {b : Branch (Ref Cell)} (shape : left.node = .leaf key value)
      (shape' : right.node = .branch b) (shallow : left.node.depth ≤ b.depth) :
      Way op fuel left right (throw (.invalid .mixedShapes))
  | mixedRight {key : Bytes} {value : Ref Cell} {a : Branch (Ref Cell)} (shape : left.node = .branch a)
      (shape' : right.node = .leaf key value) (shallow : right.node.depth ≤ a.depth) :
      Way op fuel left right (throw (.invalid .mixedShapes))

/-- A merge takes one of these ways. -/
theorem way_mergeWithin (op : SetOperation) (fuel : Nat) (left right : Trie .set) :
    Way op fuel left right (mergeWithin op (fuel + 1) left right) := by
  rw [mergeWithin]
  by_cases same : left.hash = right.hash
  · rw [if_pos same]
    exact .equal same
  rw [if_neg same]
  by_cases empty : left.node.isEmpty = true
  · rw [if_pos empty]
    exact .onlyRight empty
  rw [if_neg empty]
  by_cases empty' : right.node.isEmpty = true
  · rw [if_pos empty']
    exact .onlyLeft empty'
  rw [if_neg empty']
  dsimp only
  by_cases above : Digits.common left.node.path right.node.path (min left.node.depth right.node.depth) <
      min left.node.depth right.node.depth
  · rw [if_pos above]
    exact .apart above
  rw [if_neg above]
  have together := (Digits.not_common_lt_iff _ _ _).mp above
  -- a branch on the right is gone into from a leaf and from a deeper branch
  have intoRight : ∀ b : Branch (Ref Cell), right.node = .branch b → b.depth < left.node.depth →
      Way op fuel left right (do
        descend op (fun child => mergeWithin op fuel left child) right b .right left .left
          (← digitAt left.node.path b.depth)) := fun b shape deeper => .intoRight same shape deeper together
  rcases shape : left.node with _ | ⟨key, value⟩ | a
  · exact absurd (by rw [shape]; rfl) empty
  · rcases shape' : right.node with _ | ⟨key', value'⟩ | b
    · exact absurd (by rw [shape']; rfl) empty'
    · exact .leaves shape shape' together
    · dsimp only
      rw [shape] at intoRight
      by_cases deeper : b.depth < (Node.leaf key value).depth
      · rw [if_pos deeper]
        exact intoRight b shape' deeper
      · rw [if_neg deeper]
        exact .mixedLeft shape shape' (by rw [shape]; exact not_lt.mp deeper)
  · dsimp only
    by_cases deeper : a.depth < right.node.depth
    · rw [if_pos deeper]
      exact .intoLeft same shape deeper together
    rw [if_neg deeper]
    rcases shape' : right.node with _ | ⟨key', value'⟩ | b
    · exact absurd (by rw [shape']; rfl) empty'
    · exact .mixedRight shape shape' (not_lt.mp deeper)
    · dsimp only
      by_cases level : a.depth = b.depth
      · rw [if_pos level]
        exact .level same shape shape' level together
      · rw [if_neg level]
        rw [shape] at intoRight
        rw [shape'] at deeper
        exact intoRight b shape' (lt_of_le_of_ne (not_lt.mp deeper) (Ne.symm level))

/-! ### The walk -/

/-- What a merge of two tries has to do, if all keys together go on for less than `fuel` digits. -/
def MergesFrom (P : Content Mark → Prop) (op : SetOperation) (merge : Trie .set → Trie .set → Action Merged) (fuel : Nat) :
    Prop :=
  ∀ (s : Session) (t t' : Trie .set) (f g : Content Mark), t.node.Holds .set s f → t'.node.Holds .set s g →
    f.Admitted .set → g.Admitted .set → 128 < fuel + t.node.depth + t'.node.depth →
    (f.keys ∪ g.keys).ncard < UInt64.size →
    Yields (merge t t') s fun m s' => s.Later s' ∧ m.Makes (Told P op f g) s' f g (op.combine f g)

section Walk

variable {P : Content Mark → Prop} {op : SetOperation} {merge : Trie .set → Trie .set → Action Merged} {fuel : Nat}
  {s : Session} {left right : Trie .set} {f g : Content Mark} {a b : Branch (Ref Cell)}

theorem room_below (finite : f.keys.Finite) (finite' : g.keys.Finite) {n : Nat} (room : (f.keys ∪ g.keys).ncard < n)
    {p q : Content Mark} (sub : p.keys ⊆ f.keys) (sub' : q.keys ⊆ g.keys) : (p.keys ∪ q.keys).ncard < n :=
  lt_of_le_of_lt (Set.ncard_le_ncard (Set.union_subset_union sub sub') (finite.union finite')) room

/-- The keys of a node that goes on from a place share the path there and one digit more. -/
theorem exists_slot {n : Node (Ref Cell)} (holds : n.Holds .set s g) {path : Bytes} {depth : Nat}
    (shares : Digits.Shares path n.path depth) (lt : depth < n.depth) :
    ∃ d, digitAt n.path depth = .ok d ∧ g.Within path depth ∧ g.GoesTo depth d := by
  obtain ⟨d, here⟩ := (Digits.digit?_isSome_iff n.path depth).mpr (lt_of_lt_of_le lt holds.depth_le_count)
  refine ⟨d, by rw [digitAt, here], (holds.within.mono lt.le).trans shares.symm, fun k bound => ?_⟩
  rw [(holds.within k bound).digit?_eq lt, here]

/-- The left trie is a branch that the right one goes on from at one digit. -/
theorem MergesFrom.descendLeft (telling : Telling P) (merges : MergesFrom P op merge fuel) (shape : left.node = .branch a)
    (holds : Node.Holds .set s (.branch a) f) (holds' : right.node.Holds .set s g) (admitted : f.Admitted .set)
    (admitted' : g.Admitted .set) (enough : 128 < fuel + 1 + a.depth + right.node.depth)
    (room : (f.keys ∪ g.keys).ncard < UInt64.size) (lt : a.depth < right.node.depth)
    (shares : Digits.Shares a.path right.node.path a.depth) :
    ∃ slot, digitAt right.node.path a.depth = .ok slot ∧
      Yields (descend op (fun child => merge child right) left a .left right .right slot) s fun m s' =>
        s.Later s' ∧ m.Makes (Told P op f g) s' f g (op.combine f g) := by
  have fits := holds.fits
  have goesOn := (fits.goesOn admitted holds.occupants).2
  obtain ⟨slot, at_slot, within, goes⟩ := exists_slot holds' shares lt
  refine ⟨slot, at_slot, descend_yields telling shape holds goesOn holds' within (Descent.ofLeft op f goes) ?_
    (fun told => ⟨told.1, told.2.2⟩) room⟩
  intro s' t later child nonempty
  have deeper := Node.Holds.depth_lt fits child nonempty
  refine (merges s' t right _ g child (holds'.later later) (admitted.below _ _) admitted' (by omega)
    (room_below holds.finite holds'.finite room (Content.below_subset f _ _) le_rfl)).mono ?_
  rintro m s'' ⟨later', makes⟩
  refine ⟨later', makes.imp (fun told => ?_) ?_⟩
  · have below := told.below telling fits.within within slot
    rwa [goes.below_self] at below
  · rw [op.combine_below, goes.below_self]

/-- The right trie is a branch that the left one goes on from at one digit. -/
theorem MergesFrom.descendRight (telling : Telling P) (merges : MergesFrom P op merge fuel) (shape : right.node = .branch b)
    (holds : left.node.Holds .set s f) (holds' : Node.Holds .set s (.branch b) g) (admitted : f.Admitted .set)
    (admitted' : g.Admitted .set) (enough : 128 < fuel + 1 + left.node.depth + b.depth)
    (room : (f.keys ∪ g.keys).ncard < UInt64.size) (lt : b.depth < left.node.depth)
    (shares : Digits.Shares b.path left.node.path b.depth) :
    ∃ slot, digitAt left.node.path b.depth = .ok slot ∧
      Yields (descend op (fun child => merge left child) right b .right left .left slot) s fun m s' =>
        s.Later s' ∧ m.Makes (Told P op f g) s' f g (op.combine f g) := by
  have fits := holds'.fits
  have goesOn := (fits.goesOn admitted' holds'.occupants).2
  have room' : (g.keys ∪ f.keys).ncard < UInt64.size := by rwa [Set.union_comm]
  obtain ⟨slot, at_slot, within, goes⟩ := exists_slot holds shares lt
  refine ⟨slot, at_slot, (descend_yields telling shape holds' goesOn holds within (Descent.ofRight op g goes) ?_
    (fun told : Told P op f g => ⟨told.2.1, told.2.2⟩) room').mono fun m s' made => ⟨made.1, made.2.symm⟩⟩
  intro s' t later child nonempty
  have deeper := Node.Holds.depth_lt fits child nonempty
  refine (merges s' left t f _ (holds.later later) child admitted (admitted'.below _ _) (by omega)
    (room_below holds.finite holds'.finite room le_rfl (Content.below_subset g _ _))).mono ?_
  rintro m s'' ⟨later', makes⟩
  refine ⟨later', (makes.imp (fun told => ?_) ?_).symm⟩
  · have below := told.below telling within fits.within slot
    rwa [goes.below_self] at below
  · rw [op.combine_below, goes.below_self]

/-- Both tries are branches at the same depth. -/
theorem MergesFrom.branches (telling : Telling P) (merges : MergesFrom P op merge fuel) (shape : left.node = .branch a)
    (shape' : right.node = .branch b) (holds : Node.Holds .set s (.branch a) f) (holds' : Node.Holds .set s (.branch b) g)
    (admitted : f.Admitted .set) (admitted' : g.Admitted .set) (enough : 128 < fuel + 1 + a.depth + b.depth)
    (room : (f.keys ∪ g.keys).ncard < UInt64.size) (depth_eq : a.depth = b.depth)
    (shares : Digits.Shares a.path b.path a.depth) :
    Yields (mergeBranches op merge left a right b) s fun m s' =>
      s.Later s' ∧ m.Makes (Told P op f g) s' f g (op.combine f g) := by
  have fits := holds.fits
  have fits' := holds'.fits
  have goesOn' := (fits'.goesOn admitted' holds'.occupants).2
  have within' := fits'.within
  rw [← depth_eq] at goesOn' within'
  refine mergeBranches_yields telling shape shape' ⟨holds, holds', depth_eq.symm, within'.trans shares.symm,
    (fits.goesOn admitted holds.occupants).2, goesOn'⟩ ?_ room
  intro d s' t t' later child child' nonempty nonempty'
  have deeper := Node.Holds.depth_lt fits child nonempty
  exact merges s' t t' _ _ child child' (admitted.below _ _) (admitted'.below _ _) (by
      have deeper' : a.depth < t'.node.depth := by
        rw [depth_eq] at child' nonempty' ⊢
        exact Node.Holds.depth_lt fits' child' nonempty'
      omega)
    (room_below holds.finite holds'.finite room (Content.below_subset f _ _) (Content.below_subset g _ _))

theorem leaf_depth {key : Bytes} {value : Ref Cell} (holds : Node.Holds .set s (.leaf key value) f)
    (admitted : f.Admitted .set) : Digits.count key = 64 := by
  have bound : key ∈ f.keys := by
    cases holds with
    | leaf _ _ content => rw [content, Content.keys_single]; rfl
  exact admitted.count_eq bound

/-- Two leaves with the same digits hold the same element. -/
theorem mergeLeaves_yields {key key' : Bytes} {value value' : Ref Cell} (op : SetOperation)
    (holds : left.node.Holds .set s f) (shape : left.node = .leaf key value)
    (holds' : Node.Holds .set s (.leaf key' value') g) (same : key = key') (exact : Prop) :
    (Merged.both op left right).Makes exact s f g (op.combine f g) := by
  rw [Merged.both_eq]
  refine Merged.makes_one holds fun _ => ?_
  rw [shape] at holds
  cases holds with
  | leaf _ _ content =>
    cases holds' with
    | leaf _ _ content' =>
      subst same content content'
      exact op.combine_of_keys_eq (by rw [Content.keys_single, Content.keys_single])

end Walk

/-- Merging two tries ends before its fuel does and makes a trie of what comes from both. If equal hashes mean
equal contents, that is what the operation keeps. -/
theorem mergeWithin_yields {P : Content Mark → Prop} (telling : Telling P) (op : SetOperation) (fuel : Nat) :
    MergesFrom P op (mergeWithin op fuel) fuel := by
  induction fuel with
  | zero =>
    intro s left right f g holds holds' admitted admitted' enough room
    have depth := holds.depth_le admitted
    have depth' := holds'.depth_le admitted'
    simp only [TrieKind.maxDigits] at depth depth'
    omega
  | succ fuel ih =>
    intro s left right f g holds holds' admitted admitted' enough room
    have way := way_mergeWithin op fuel left right
    generalize mergeWithin op (fuel + 1) left right = walk at way
    cases way with
    | equal same =>
      rw [Merged.both_eq]
      refine yields_pure.mpr ⟨.refl s, Merged.makes_one holds fun told => ?_⟩
      rw [← telling.eq_of_hash f g told.1 told.2.1 s s left right holds holds' same, op.combine_self]
    | onlyRight empty =>
      have none := holds.isEmpty_iff.mp empty
      refine yields_pure.mpr ⟨.refl s, (Merged.makes_one holds' fun _ => ?_).symm⟩
      rw [none, op.combine_none_left]
    | onlyLeft empty =>
      have none := holds'.isEmpty_iff.mp empty
      refine yields_pure.mpr ⟨.refl s, Merged.makes_one holds fun _ => ?_⟩
      rw [none, op.combine_none_right]
    | apart above =>
      exact mergeApart_yields holds holds' (Digits.shares_common _ _ _) (Digits.not_shares_of_common_lt above)
        (lt_of_lt_of_le above (min_le_left _ _)) (lt_of_lt_of_le above (min_le_right _ _)) room _
    | leaves shape shape' together =>
      have leaf := leaf_depth (shape ▸ holds) admitted
      have leaf' := leaf_depth (shape' ▸ holds') admitted'
      rw [shape, shape'] at together
      simp only [Node.path, Node.depth, leaf, leaf', min_self] at together
      exact yields_pure.mpr ⟨.refl s, mergeLeaves_yields op holds shape (shape' ▸ holds') (together.eq leaf leaf') _⟩
    | level _ shape shape' same together =>
      rw [shape] at holds together enough
      rw [shape'] at holds' together enough
      simp only [Node.path, Node.depth, ← same, min_self] at together
      exact ih.branches telling shape shape' holds holds' admitted admitted' enough room same together
    | intoLeft _ shape deeper together =>
      rw [shape] at holds together enough
      rw [min_eq_left (show (Node.branch _).depth ≤ _ from deeper.le)] at together
      obtain ⟨slot, at_slot, descended⟩ :=
        ih.descendLeft telling shape holds holds' admitted admitted' enough room deeper together
      exact .lift_bind at_slot descended
    | intoRight _ shape deeper together =>
      rw [shape] at holds' together enough
      rw [min_eq_right (show (Node.branch _).depth ≤ _ from deeper.le)] at together
      obtain ⟨slot, at_slot, descended⟩ :=
        ih.descendRight telling shape holds holds' admitted admitted' enough room deeper together.symm
      exact .lift_bind at_slot descended
    -- leaves are deeper than branches
    | mixedLeft shape shape' shallow =>
      rw [shape, Node.depth, leaf_depth (shape ▸ holds) admitted] at shallow
      rw [shape'] at holds'
      exact absurd (holds'.fits.goesOn admitted' holds'.occupants).1 (not_lt.mpr shallow)
    | mixedRight shape shape' shallow =>
      rw [shape', Node.depth, leaf_depth (shape' ▸ holds') admitted'] at shallow
      rw [shape] at holds
      exact absurd (holds.fits.goesOn admitted holds.occupants).1 (not_lt.mpr shallow)

/-- An operation on two sets succeeds and makes a set of what comes from both. If equal hashes mean equal contents,
that is what the operation keeps. -/
theorem merge_yields {P : Content Mark → Prop} (telling : Telling P) (op : SetOperation) {s : Session}
    {left right : Trie .set} {f g : Content Mark} (holds : left.node.Holds .set s f) (holds' : right.node.Holds .set s g)
    (admitted : f.Admitted .set) (admitted' : g.Admitted .set) (room : (f.keys ∪ g.keys).ncard < UInt64.size) :
    Yields (merge op left right) s fun t s' => s.Later s' ∧ ∃ h : Content Mark, t.node.Holds .set s' h ∧ h.From f g ∧
      (Told P op f g → h = op.combine f g) := by
  rw [merge]
  refine (left.yields_levels s).bind ?_
  rintro n s' ⟨rfl, enough⟩
  refine (right.yields_levels s').bind ?_
  rintro n' s' ⟨rfl, enough'⟩
  simp only [TrieKind.maxDigits] at enough enough'
  refine (mergeWithin_yields telling op (n + n') s' left right f g holds holds' admitted admitted' (by omega) room).bind ?_
  rintro m s'' ⟨later, h, leads, -, sub, agrees⟩
  refine (leads s'' (.refl s'')).mono ?_
  rintro t s₃ ⟨-, later', made⟩
  exact ⟨later.trans later', h, made, sub, agrees⟩

end Trie

end MerkleCells
