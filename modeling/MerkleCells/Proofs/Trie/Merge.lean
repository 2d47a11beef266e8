import MerkleCells.Proofs.Trie.Tally

/-!
Merging two branches at the same depth. Each digit adds its part to what has been gathered
(`mergeDigit_yields`), and `mergeBranches_yields` follows the walk over all digits. What is merged always comes
from the two sides and is counted right. It is what the operation keeps of them if equal hashes mean equal
contents for what is compared on the way, which is what `Telling` asks for.
-/
namespace MerkleCells.Trie

open MerkleCells.Action

/-! ### Passing a child by reference -/

section Pass

variable {s : Session} {r : Ref Cell} {part : Content Mark}

/-- A count that is known without asking a store is right. -/
theorem knownCount_yields (leads : r.Leads .set s part) :
    Yields (knownCount r) s fun count s' => s' = s ∧ ∀ n, count = some n → n.toNat = part.size := by
  obtain ⟨held, run, same⟩ := r.peek_spec s
  refine yields_bind.mpr ⟨held, s, run, ?_⟩
  cases held with
  | none => exact yields_pure.mpr ⟨rfl, fun n none => by cases none⟩
  | some c =>
    refine yields_pure.mpr ⟨rfl, fun n counted => ?_⟩
    obtain ⟨t, found, rfl⟩ := Option.map_eq_some_iff.mp counted
    obtain ⟨t', s', run', -, -, holds⟩ := leads s (.refl s)
    rw [resolve, result_bind] at run'
    generalize answer : result r.value s = a at run'
    obtain ⟨_ | c', s''⟩ := a
    · cases run'
    · obtain rfl := same c rfl c' s'' answer
      have found : ofCell .set c' = .ok t := by
        cases reading : ofCell .set c' with
        | error e => rw [reading] at found; cases found
        | ok t'' => rw [reading] at found; cases found; rfl
      simp only [result_liftExcept, found] at run'
      cases run'
      exact holds.count_eq

/-- A child that is passed becomes a part if it is kept, and is told to the tally either way. -/
theorem pass_yields (leads : r.Leads .set s part) (t : Tally) (d : Digit) (keep : Bool) :
    Yields (pass t d r keep) s fun passed s' => s' = s ∧ ∃ count, (∀ n, count = some n → n.toNat = part.size) ∧
      passed = (if keep then [⟨d, r, count⟩] else [], if keep then t.kept count else t.dropped count) := by
  refine (knownCount_yields leads).bind ?_
  rintro count s' ⟨rfl, known⟩
  cases keep
  · exact yields_pure.mpr ⟨rfl, count, known, rfl⟩
  · exact yields_pure.mpr ⟨rfl, count, known, rfl⟩

end Pass

namespace Gathers

variable {exact : Prop} {s s' : Session} {depth unknown : Nat} {path : Bytes} {f g c target h : Content Mark}
  {done : List Digit} {parts : List Part} {d : Digit}

theorem pass (gathers : Gathers exact s depth path f g target done parts h unknown) (after : ∀ e ∈ done, e < d)
    {r : Ref Cell} {count : Option UInt64} (keep : Bool) (leads : r.Leads .set s (c.below depth d))
    (nonempty : c.below depth d ≠ .none) (within : c.Within path depth) (finite : c.keys.Finite)
    (known : ∀ n, count = some n → n.toNat = (c.below depth d).size) (sub : c.From f g)
    (agrees : exact → target.below depth d = if keep then c.below depth d else .none) :
    ∃ h', Gathers exact s depth path f g target (done ++ [d]) (parts ++ if keep then [⟨d, r, count⟩] else []) h'
      (unknown + if keep then Tally.unknown count (c.below depth d).size else 0) := by
  cases keep
  · refine ⟨h, ?_⟩
    simp only [Bool.false_eq_true, ↓reduceIte, List.append_nil, Nat.add_zero]
    exact gathers.skip (fun member => lt_irrefl _ (after d member)) agrees
  · exact ⟨_, gathers.add (p := ⟨d, r, count⟩) after leads nonempty within.below (c.goesTo_below depth d)
      (finite.subset (Content.below_subset c depth d)) known (fun k a bound => sub k a (Content.below_eq_some_iff.mp bound).2)
      agrees⟩

theorem merged (gathers : Gathers exact s depth path f g target done parts h unknown) (after : ∀ e ∈ done, e < d)
    {m : Merged} {p q : Content Mark} (makes : m.Makes exact s p q (target.below depth d))
    (left : p.Within path depth) (right : q.Within path depth) (goes : p.GoesTo depth d) (goes' : q.GoesTo depth d)
    (finite : p.keys.Finite) (finite' : q.keys.Finite) (sub : ∀ h : Content Mark, h.From p q → h.From f g) :
    ∃ h', Gathers exact s depth path f g target (done ++ [d]) (parts ++ Part.ofMerged d m) h' unknown := by
  obtain ⟨part, leads, count, from_, agrees⟩ := makes
  have finite_part : part.keys.Finite := (finite.union finite').subset fun k bound => from_.mem_keys bound
  have size := Content.size_eq_zero_iff finite_part
  by_cases some_left : m.count > 0
  · have nonempty : part ≠ .none := fun empty => by
      have zero := count.trans (size.mpr empty)
      rw [gt_iff_lt, UInt64.lt_iff_toNat_lt, zero] at some_left
      exact absurd some_left (by decide)
    have added := gathers.add (p := ⟨d, m.root, some m.count⟩) after leads nonempty (from_.within left right)
      (from_.goesTo goes goes') finite_part (fun n same => by cases same; exact count) (sub part from_)
      fun holds => (agrees holds).symm
    rw [Part.ofMerged, if_pos some_left]
    exact ⟨_, added⟩
  · have empty : part = .none := by
      rw [← size, ← count]
      rw [gt_iff_lt, UInt64.lt_iff_toNat_lt] at some_left
      exact Nat.eq_zero_of_not_pos some_left
    rw [Part.ofMerged, if_neg some_left, List.append_nil]
    refine ⟨h, gathers.skip (fun member => lt_irrefl _ (after d member)) fun holds => ?_⟩
    rw [← agrees holds, empty]

end Gathers

/-! ### Walking the digits of a branch -/

/-- What every step on a digit keeps is kept by the walk over all digits. -/
theorem foldlM_digits_yields {β : Type} {step : β → Digit → Action β} {I : List Digit → β → Session → Prop} {x : β}
    {s : Session} (start : I [] x s)
    (next : ∀ done d x s, (done ++ [d]).Pairwise (· < ·) → I done x s → Yields (step x d) s (I (done ++ [d]))) :
    Yields ((List.finRange 16).foldlM step x) s (I (List.finRange 16)) := by
  have all : ∀ rest done x s, done ++ rest = List.finRange 16 → I done x s →
      Yields (rest.foldlM step x) s (I (List.finRange 16)) := by
    intro rest
    induction rest with
    | nil =>
      intro done x s split inv
      rw [List.append_nil] at split
      exact yields_pure.mpr (split ▸ inv)
    | cons d rest ih =>
      intro done x s split inv
      have split' : (done ++ [d]) ++ rest = List.finRange 16 := by simpa using split
      have sorted := List.pairwise_lt_finRange 16
      rw [← split'] at sorted
      rw [List.foldlM_cons]
      exact (next done d x s (List.pairwise_append.mp sorted).1 inv).bind fun x' s' inv' => ih _ x' s' split' inv'
  exact all _ [] x s rfl start

/-- Elements below some digits. -/
noncomputable def passed (f : Content Mark) (depth : Nat) (done : List Digit) : Nat :=
  (done.map fun d => (f.below depth d).size).sum

theorem passed_append (f : Content Mark) (depth : Nat) (done : List Digit) (d : Digit) :
    passed f depth (done ++ [d]) = passed f depth done + (f.below depth d).size := by
  simp [passed]

theorem passed_le {f : Content Mark} (finite : f.keys.Finite) (depth : Nat) {done : List Digit}
    (sorted : done.Pairwise (· < ·)) : passed f depth done ≤ f.size := by
  rw [passed, ← Content.ncard_digits finite depth (sorted.imp fun lt => ne_of_lt lt)]
  exact Set.ncard_le_ncard (Set.sep_subset _ _) finite

theorem passed_all {f : Content Mark} (finite : f.keys.Finite) {depth : Nat} (goes : f.GoesOn depth) :
    passed f depth (List.finRange 16) = f.size := by
  rw [passed, ← Content.ncard_digits finite depth (List.nodup_finRange 16), Content.size]
  congr 1
  ext k
  refine ⟨fun bound => bound.1, fun bound => ⟨bound, ?_⟩⟩
  obtain ⟨d, here⟩ := goes k bound
  exact ⟨d, List.mem_finRange d, here⟩

theorem lt_of_sorted {done : List Digit} {d : Digit} (sorted : (done ++ [d]).Pairwise (· < ·)) : ∀ e ∈ done, e < d :=
  fun e member => (List.pairwise_append.mp sorted).2.2 e member d (by simp)

/-! ### A tally after one digit more -/

namespace Tally.Counts

variable {t : Tally} {f : Content Mark} {depth held : Nat} {done : List Digit} {d : Digit}

theorem skipDigit (counts : t.Counts f.size (passed f depth done) held) (empty : f.below depth d = .none) :
    t.Counts f.size (passed f depth (done ++ [d])) held := by
  rwa [passed_append, empty, Content.size_none, Nat.add_zero]

theorem openDigit (counts : t.Counts f.size (passed f depth done) held) (finite : f.keys.Finite)
    (sorted : (done ++ [d]).Pairwise (· < ·)) {n : UInt64} (count : n.toNat = (f.below depth d).size) :
    (t.opened n).Counts f.size (passed f depth (done ++ [d])) held := by
  have room := passed_le finite depth sorted
  rw [passed_append] at room ⊢
  exact counts.opened count room

theorem passDigit (counts : t.Counts f.size (passed f depth done) held) (finite : f.keys.Finite)
    (sorted : (done ++ [d]).Pairwise (· < ·)) {count : Option UInt64} (keep : Bool)
    (known : ∀ n, count = some n → n.toNat = (f.below depth d).size) :
    (if keep then t.kept count else t.dropped count).Counts f.size (passed f depth (done ++ [d]))
      (held + if keep then Tally.unknown count (f.below depth d).size else 0) := by
  have room := passed_le finite depth sorted
  rw [passed_append] at room ⊢
  cases keep
  · exact counts.dropped known room
  · exact counts.kept known room

end Tally.Counts

/-! ### Comparing by hash -/

/-- Contents for which tries tell the hash: of those in `P`, no two different ones are held by tries of the same
hash. The parts of a content in `P` are in `P`. -/
structure Telling (P : Content Mark → Prop) : Prop where
  below : ∀ p path depth d, P p → p.Within path depth → P (p.below depth d)
  eq_of_hash : ∀ p q, P p → P q → ∀ s s' (t t' : Trie .set), t.node.Holds .set s p → t'.node.Holds .set s' q →
    t.hash = t'.hash → p = q

/-- No content at all need be told by its hash. -/
theorem telling_nothing : Telling fun _ => False := ⟨fun _ _ _ _ nothing => nothing.elim, fun _ _ nothing => nothing.elim⟩

/-- Two contents and what an operation keeps of them are told by their hashes. -/
def Told (P : Content Mark → Prop) (op : SetOperation) (f g : Content Mark) : Prop := P f ∧ P g ∧ P (op.combine f g)

section Told

variable {P : Content Mark → Prop} {op : SetOperation} {f g : Content Mark} {path : Bytes} {depth : Nat}

theorem Told.below (telling : Telling P) (told : Told P op f g) (left : f.Within path depth)
    (right : g.Within path depth) (d : Digit) : Told P op (f.below depth d) (g.below depth d) := by
  refine ⟨telling.below f path depth d told.1 left, telling.below g path depth d told.2.1 right, ?_⟩
  rw [← SetOperation.combine_below]
  exact telling.below _ path depth d told.2.2 ((op.combine_from f g).within left right)

theorem Telling.eq_of_leads (telling : Telling P) {p q : Content Mark} (left : P p) (right : P q) {r r' : Ref Cell}
    {s s' : Session} (leads : r.Leads .set s p) (leads' : r'.Leads .set s' q) (same : r.hash = r'.hash) : p = q := by
  obtain ⟨t, s₁, -, mark, -, holds⟩ := leads s (.refl s)
  obtain ⟨t', s₁', -, mark', -, holds'⟩ := leads' s' (.refl s')
  refine telling.eq_of_hash p q left right s₁ s₁' t t' holds holds' ?_
  have hash : t.cell.hash = r.hash := congrArg Mark.hash mark
  have hash' : t'.cell.hash = r'.hash := congrArg Mark.hash mark'
  exact hash.trans (same.trans hash'.symm)

end Told

/-! ### Two branches at the same depth -/

/-- Two branches at the same depth and what they hold. -/
structure Branches (s : Session) (a b : Branch (Ref Cell)) (f g : Content Mark) : Prop where
  left : Node.Holds .set s (.branch a) f
  right : Node.Holds .set s (.branch b) g
  depth_eq : b.depth = a.depth
  within : g.Within a.path a.depth
  goesOn : f.GoesOn a.depth
  goesOn' : g.GoesOn a.depth

/-- What the parts and tallies so far say of two branches. -/
def Side.Tells (exact : Prop) (s : Session) (a : Branch (Ref Cell)) (f g target : Content Mark) (done : List Digit)
    (x : Side) : Prop :=
  ∃ h heldLeft heldRight, Gathers exact s a.depth a.path f g target done x.parts h (heldLeft + heldRight) ∧
    x.left.Counts f.size (passed f a.depth done) heldLeft ∧ x.right.Counts g.size (passed g a.depth done) heldRight

theorem Side.Tells.later {exact : Prop} {s s' : Session} {a : Branch (Ref Cell)} {f g target : Content Mark}
    {done : List Digit} {x : Side} (tells : x.Tells exact s a f g target done) (later : s.Later s') :
    x.Tells exact s' a f g target done := by
  obtain ⟨h, heldLeft, heldRight, gathers, counts⟩ := tells
  exact ⟨h, heldLeft, heldRight, gathers.later later, counts⟩

/-- What a merge of two tries has to do with those below one digit. -/
def MergesBelow (op : SetOperation) (P : Content Mark → Prop) (merge : Trie .set → Trie .set → Action Merged) (s : Session)
    (f g : Content Mark) (depth : Nat) : Prop :=
  ∀ d s' (t t' : Trie .set), s.Later s' → t.node.Holds .set s' (f.below depth d) → t'.node.Holds .set s' (g.below depth d) →
    f.below depth d ≠ .none → g.below depth d ≠ .none → Yields (merge t t') s' fun m s'' => s'.Later s'' ∧
      m.Makes (Told P op (f.below depth d) (g.below depth d)) s'' (f.below depth d) (g.below depth d)
        (op.combine (f.below depth d) (g.below depth d))

section Branches

variable {P : Content Mark → Prop} {op : SetOperation} {s₀ s : Session} {a b : Branch (Ref Cell)} {f g : Content Mark}
  {merge : Trie .set → Trie .set → Action Merged} {done : List Digit} {d : Digit} {x : Side}

theorem passRight_yields (sides : Branches s₀ a b f g) (sorted : (done ++ [d]).Pairwise (· < ·)) (later : s₀.Later s)
    (tells : x.Tells (Told P op f g) s a f g (op.combine f g) done) (absent : f.below a.depth d = .none)
    (nonempty : g.below a.depth d ≠ .none) {r : Ref Cell} (leads : r.Leads .set s (g.below a.depth d)) :
    Yields (pass x.right d r (op.keeps .right)) s fun passed s' => s₀.Later s' ∧
      Side.Tells (Told P op f g) s' a f g (op.combine f g) (done ++ [d])
        { x with parts := x.parts ++ passed.1, right := passed.2 } := by
  obtain ⟨h, heldLeft, heldRight, gathers, countsLeft, countsRight⟩ := tells
  have finite := sides.right.fits.finite
  refine (pass_yields leads x.right d (op.keeps .right)).mono ?_
  rintro _ s' ⟨rfl, count, known, rfl⟩
  obtain ⟨h', gathered⟩ := gathers.pass (lt_of_sorted sorted) (op.keeps .right) leads nonempty sides.within finite known
    .right fun _ => by rw [op.combine_below, absent, op.combine_none_left]
  rw [Nat.add_assoc] at gathered
  exact ⟨later, h', heldLeft, _, gathered, countsLeft.skipDigit absent, countsRight.passDigit finite sorted _ known⟩

theorem passLeft_yields (sides : Branches s₀ a b f g) (sorted : (done ++ [d]).Pairwise (· < ·)) (later : s₀.Later s)
    (tells : x.Tells (Told P op f g) s a f g (op.combine f g) done) (absent : g.below a.depth d = .none)
    (nonempty : f.below a.depth d ≠ .none) {r : Ref Cell} (leads : r.Leads .set s (f.below a.depth d)) :
    Yields (pass x.left d r (op.keeps .left)) s fun passed s' => s₀.Later s' ∧
      Side.Tells (Told P op f g) s' a f g (op.combine f g) (done ++ [d])
        { x with parts := x.parts ++ passed.1, left := passed.2 } := by
  obtain ⟨h, heldLeft, heldRight, gathers, countsLeft, countsRight⟩ := tells
  have fits := sides.left.fits
  refine (pass_yields leads x.left d (op.keeps .left)).mono ?_
  rintro _ s' ⟨rfl, count, known, rfl⟩
  obtain ⟨h', gathered⟩ := gathers.pass (lt_of_sorted sorted) (op.keeps .left) leads nonempty fits.within fits.finite
    known .left fun _ => by rw [op.combine_below, absent, op.combine_none_right]
  rw [Nat.add_right_comm] at gathered
  exact ⟨later, h', _, heldRight, gathered, countsLeft.passDigit fits.finite sorted _ known,
    countsRight.skipDigit absent⟩

/-- Of two children with the same hash the left one stands for both. -/
theorem passBoth_yields (telling : Telling P) (sides : Branches s₀ a b f g) (sorted : (done ++ [d]).Pairwise (· < ·))
    (later : s₀.Later s) (tells : x.Tells (Told P op f g) s a f g (op.combine f g) done)
    (nonempty : f.below a.depth d ≠ .none) {r r' : Ref Cell} (leads : r.Leads .set s (f.below a.depth d))
    (leads' : r'.Leads .set s (g.below a.depth d)) (equal : r.hash = r'.hash) :
    Yields (pass x.left d r (op.keeps .both)) s fun passed s' => Yields (pass x.right d r' false) s'
      fun passed' s'' => s₀.Later s'' ∧ Side.Tells (Told P op f g) s'' a f g (op.combine f g) (done ++ [d])
        ⟨x.parts ++ passed.1, passed.2, passed'.2⟩ := by
  obtain ⟨h, heldLeft, heldRight, gathers, countsLeft, countsRight⟩ := tells
  have fits := sides.left.fits
  refine (pass_yields leads x.left d (op.keeps .both)).mono ?_
  rintro _ s' ⟨rfl, count, known, rfl⟩
  refine (pass_yields leads' x.right d false).mono ?_
  rintro _ s'' ⟨rfl, count', known', rfl⟩
  obtain ⟨h', gathered⟩ := gathers.pass (lt_of_sorted sorted) (op.keeps .both) leads nonempty fits.within fits.finite
    known .left fun told => by
      have below := told.below telling fits.within sides.within d
      rw [op.combine_below, ← telling.eq_of_leads below.1 below.2.1 leads leads' equal, op.combine_self]
  rw [Nat.add_right_comm] at gathered
  exact ⟨later, h', _, heldRight, gathered, countsLeft.passDigit fits.finite sorted _ known,
    countsRight.passDigit sides.right.fits.finite sorted false known'⟩

/-- Of two children with different hashes the merge becomes the part. -/
theorem Side.Tells.merged (telling : Telling P) (sides : Branches s₀ a b f g) (sorted : (done ++ [d]).Pairwise (· < ·))
    (tells : x.Tells (Told P op f g) s a f g (op.combine f g) done) {m : Merged} {n n' : UInt64}
    (makes : m.Makes (Told P op (f.below a.depth d) (g.below a.depth d)) s (f.below a.depth d) (g.below a.depth d)
      (op.combine (f.below a.depth d) (g.below a.depth d)))
    (count : n.toNat = (f.below a.depth d).size) (count' : n'.toNat = (g.below a.depth d).size) :
    Side.Tells (Told P op f g) s a f g (op.combine f g) (done ++ [d])
      ⟨x.parts ++ Part.ofMerged d m, x.left.opened n, x.right.opened n'⟩ := by
  obtain ⟨h, heldLeft, heldRight, gathers, countsLeft, countsRight⟩ := tells
  have fits := sides.left.fits
  have finite' := sides.right.fits.finite
  rw [← op.combine_below] at makes
  obtain ⟨part, leads, size, sub, agrees⟩ := makes
  obtain ⟨h', gathered⟩ := gathers.merged (lt_of_sorted sorted)
    ⟨part, leads, size, sub, fun told => agrees (told.below telling fits.within sides.within d)⟩
    fits.within.below sides.within.below (f.goesTo_below _ d) (g.goesTo_below _ d)
    (fits.finite.subset (Content.below_subset f _ d)) (finite'.subset (Content.below_subset g _ d))
    fun _ sub => sub.of_below
  exact ⟨h', heldLeft, heldRight, gathered, countsLeft.openDigit fits.finite sorted count,
    countsRight.openDigit finite' sorted count'⟩

/-- A digit adds to the parts what the operation keeps below it. -/
theorem mergeDigit_yields (telling : Telling P) (sides : Branches s₀ a b f g) (merges : MergesBelow op P merge s₀ f g a.depth)
    (sorted : (done ++ [d]).Pairwise (· < ·)) (later : s₀.Later s)
    (tells : x.Tells (Told P op f g) s a f g (op.combine f g) done) :
    Yields (mergeDigit op merge a b x d) s fun x' s' =>
      s₀.Later s' ∧ x'.Tells (Told P op f g) s' a f g (op.combine f g) (done ++ [d]) := by
  obtain ⟨absent, present⟩ := sides.left.parts.later later d
  obtain ⟨absent', present'⟩ := sides.right.parts.later later d
  rw [sides.depth_eq] at absent' present'
  rw [mergeDigit, Branch.child?_eq, Branch.child?_eq]
  cases foundLeft : Branch.childIn a.children d with
  | none =>
    have empty := absent foundLeft
    cases foundRight : Branch.childIn b.children d with
    | none =>
      have empty' := absent' foundRight
      obtain ⟨h, heldLeft, heldRight, gathers, countsLeft, countsRight⟩ := tells
      refine yields_pure.mpr ⟨later, h, heldLeft, heldRight, ?_, countsLeft.skipDigit empty, countsRight.skipDigit empty'⟩
      refine gathers.skip (fun member => lt_irrefl _ (lt_of_sorted sorted d member)) fun _ => ?_
      rw [op.combine_below, empty, empty', op.combine_self, ite_self]
    | some r =>
      obtain ⟨nonempty, leads⟩ := present' r foundRight
      refine (passRight_yields sides sorted later tells empty nonempty leads).bind ?_
      exact fun _ _ told => yields_pure.mpr told
  | some r =>
    obtain ⟨nonempty, leads⟩ := present r foundLeft
    cases foundRight : Branch.childIn b.children d with
    | none =>
      refine (passLeft_yields sides sorted later tells (absent' foundRight) nonempty leads).bind ?_
      exact fun _ _ told => yields_pure.mpr told
    | some r' =>
      obtain ⟨nonempty', leads'⟩ := present' r' foundRight
      dsimp only
      by_cases equal : (r == r') = true
      · rw [if_pos equal]
        refine (passBoth_yields telling sides sorted later tells nonempty leads leads' ((Ref.beq_iff r r').mp equal)).bind ?_
        intro _ _ right
        exact right.bind fun _ _ told => yields_pure.mpr told
      · rw [if_neg equal]
        refine (leads s (.refl s)).bind ?_
        rintro t s₁ ⟨-, later₁, holds⟩
        refine (leads' s₁ later₁).bind ?_
        rintro t' s₂ ⟨-, later₂, holds'⟩
        refine (merges d s₂ t t' ((later.trans later₁).trans later₂) (holds.later later₂) holds' nonempty nonempty').bind ?_
        rintro m s₃ ⟨later₃, makes⟩
        have since := (later₁.trans later₂).trans later₃
        exact yields_pure.mpr ⟨later.trans since,
          (tells.later since).merged telling sides sorted makes holds.count_eq holds'.count_eq⟩

end Branches

/-- The parts of a branch's children are at the same digits and have the same hashes. -/
theorem sameChildren_spec {b : Branch (Ref Cell)} {parts : List Part} (same : sameChildren b parts = true) (d : Digit) :
    (Branch.childIn b.children d = none ∧ Branch.childIn (Part.children parts) d = none) ∨
      ∃ r r', Branch.childIn b.children d = some r ∧ Branch.childIn (Part.children parts) d = some r' ∧
        r.hash = r'.hash := by
  rw [sameChildren, Bool.and_eq_true, beq_iff_eq] at same
  obtain ⟨length, each⟩ := same
  generalize b.children = children at length each
  induction children generalizing parts with
  | nil =>
    obtain rfl := List.length_eq_zero_iff.mp length.symm
    exact .inl ⟨rfl, rfl⟩
  | cons c rest ih =>
    cases parts with
    | nil => cases length
    | cons p parts =>
      rw [List.zip_cons_cons, List.all_cons, Bool.and_eq_true, Bool.and_eq_true, beq_iff_eq] at each
      obtain ⟨⟨digit, root⟩, each⟩ := each
      rw [show Part.children (p :: parts) = (p.digit, p.root) :: Part.children parts from rfl, Branch.childIn_cons,
        Branch.childIn_cons]
      simp only at digit root ⊢
      by_cases here : c.1 = d
      · rw [if_pos here, if_pos (digit ▸ here)]
        exact .inr ⟨_, _, rfl, rfl, (Ref.beq_iff _ _).mp root⟩
      · rw [if_neg here, if_neg (digit ▸ here)]
        exact ih (Nat.succ.inj length) each

/-- If the parts of a branch are its own children, it holds what has been gathered. -/
theorem eq_of_sameChildren {P : Content Mark → Prop} (telling : Telling P) {exact : Prop} {s : Session}
    {b : Branch (Ref Cell)} {path : Bytes} {f f' g target h : Content Mark} {done : List Digit} {parts : List Part}
    {unknown : Nat} (gathers : Gathers exact s b.depth path f' g target done parts h unknown)
    (below : Branch.Parts .set s b.children b.depth f) (goesOn : f.GoesOn b.depth)
    (told : ∀ d, P (f.below b.depth d) ∧ P (h.below b.depth d)) (same : sameChildren b parts = true) : f = h := by
  have goesOn' : h.GoesOn b.depth := fun k bound => by
    obtain ⟨d, -, here⟩ := gathers.digits k bound
    exact ⟨d, here⟩
  refine goesOn.ext goesOn' fun d => ?_
  rcases sameChildren_spec same d with ⟨absent, absent'⟩ | ⟨r, r', found, found', hash⟩
  · rw [(below d).1 absent, (gathers.leads d).1 absent']
  · exact telling.eq_of_leads (told d).1 (told d).2 ((below d).2 r found).2 ((gathers.leads d).2 r' found').2 hash

/-- Two branches at the same depth are merged digit by digit. -/
theorem mergeBranches_yields {P : Content Mark → Prop} (telling : Telling P) {op : SetOperation} {s₀ : Session}
    {left right : Trie .set} {a b : Branch (Ref Cell)} {f g : Content Mark}
    {merge : Trie .set → Trie .set → Action Merged} (shape : left.node = .branch a) (shape' : right.node = .branch b)
    (sides : Branches s₀ a b f g) (merges : MergesBelow op P merge s₀ f g a.depth)
    (room : (f.keys ∪ g.keys).ncard < UInt64.size) :
    Yields (mergeBranches op merge left a right b) s₀ fun m s =>
      s₀.Later s ∧ m.Makes (Told P op f g) s f g (op.combine f g) := by
  have fits := sides.left.fits
  have fits' := sides.right.fits
  have start : (⟨[], .ofBranch a, .ofBranch b⟩ : Side).Tells (Told P op f g) s₀ a f g (op.combine f g) [] := by
    refine ⟨.none, 0, 0, .empty _ s₀ a.depth a.path f g _, ?_, ?_⟩
    · rw [← fits.count_eq]
      exact Tally.counts_ofBranch a
    · rw [← fits'.count_eq]
      exact Tally.counts_ofBranch b
  rw [mergeBranches]
  refine (foldlM_digits_yields (I := fun done x s => s₀.Later s ∧
    x.Tells (Told P op f g) s a f g (op.combine f g) done) ⟨.refl s₀, start⟩ fun done d x s sorted inv =>
      mergeDigit_yields telling sides merges sorted inv.1 inv.2).bind ?_
  rintro x s ⟨later, h, heldLeft, heldRight, gathers, countsLeft, countsRight⟩
  rw [passed_all fits.finite sides.goesOn] at countsLeft
  rw [passed_all fits'.finite sides.goesOn'] at countsRight
  have all : ∀ k ∈ (op.combine f g).keys, ∃ d ∈ List.finRange 16, Digits.digit? k a.depth = some d := fun k bound => by
    rcases (op.combine_from f g).mem_keys bound with left | right
    · obtain ⟨d, here⟩ := sides.goesOn k left
      exact ⟨d, List.mem_finRange d, here⟩
    · obtain ⟨d, here⟩ := sides.goesOn' k right
      exact ⟨d, List.mem_finRange d, here⟩
  have target : Told P op f g → h = op.combine f g := fun told => gathers.eq_target told all
  have told_below : Told P op f g → ∀ d, Told P op (f.below a.depth d) (g.below a.depth d) := fun told d =>
    told.below telling fits.within sides.within d
  by_cases same : sameChildren a x.parts = true
  · rw [if_pos same]
    refine yields_pure.mpr ⟨later, f, leads_ref (shape ▸ sides.left.later later), fits.count_eq, .left, fun told => ?_⟩
    rw [← target told]
    refine eq_of_sameChildren telling gathers (sides.left.parts.later later) sides.goesOn (fun d => ?_) same
    obtain ⟨left, -, kept⟩ := told_below told d
    rw [← op.combine_below, ← target told] at kept
    exact ⟨left, kept⟩
  rw [if_neg same]
  by_cases same' : sameChildren b x.parts = true
  · rw [if_pos same']
    refine yields_pure.mpr ⟨later, g, leads_ref (shape' ▸ sides.right.later later), fits'.count_eq, .right, fun told => ?_⟩
    rw [← target told]
    have depth_eq := sides.depth_eq
    refine eq_of_sameChildren telling (depth_eq ▸ gathers) (sides.right.parts.later later) (depth_eq ▸ sides.goesOn')
      (fun d => ?_) same'
    obtain ⟨-, right, kept⟩ := told_below told d
    rw [← op.combine_below, ← target told] at kept
    rw [depth_eq]
    exact ⟨right, kept⟩
  rw [if_neg same']
  refine (assemble_yields gathers (.cons ⟨_, countsLeft⟩ (.cons ⟨_, countsRight⟩ .nil)) (by simp) ?_ fits.path_eq all).mono ?_
  · exact lt_of_le_of_lt (gathers.sub.size_le fits.finite fits'.finite) room
  · rintro m s' ⟨later', makes⟩
    exact ⟨later.trans later', makes⟩

end MerkleCells.Trie
