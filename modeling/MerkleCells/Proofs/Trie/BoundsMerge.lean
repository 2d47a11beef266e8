import MerkleCells.Proofs.Recency
import MerkleCells.Proofs.Trie.Bounds

/-!
Merging stays within the keys and the shapes of sets. At a fork the two nodes part above the end of both, and where they
do not part the deeper one goes on below a digit that it has; two nodes that end at the same depth are two leaves or two
branches, because no branch of a set ends where its leaves do (`mergeWithin_inBounds`). The main statement is
`Trie.bounded_of_decoded`.
-/
namespace MerkleCells

open MerkleCells.Action

namespace Trie

variable {s : Session} {op : SetOperation} {left right : Trie .set} {a b : Branch (Ref Cell)}

/-! ### Parts -/

theorem knownCount_inBounds (r : Ref Cell) (s : Session) : InBounds (knownCount r) s := by
  obtain ⟨held, peeked, -⟩ := r.peek_spec s
  have peek : InBounds r.peek s := by
    rw [InBounds, Runs, peeked]
    exact ⟨.refl s, trivial⟩
  refine peek.bind fun held s' _ _ => ?_
  cases held with
  | none => exact inBounds_pure none s'
  | some c => exact inBounds_pure _ s'

theorem pass_inBounds (t : Tally) (d : Digit) (r : Ref Cell) (keep : Bool) (s : Session) :
    InBounds (pass t d r keep) s := by
  refine (knownCount_inBounds r s).bind fun count s' _ _ => ?_
  cases keep <;> exact inBounds_pure _ s'

theorem ends_missing (t : Tally) : Ends External (fun _ => True) t.missing := by
  rw [Tally.missing]
  split
  · exact trivial
  · split
    · exact trivial
    · exact rfl

theorem partCount_inBounds (p : Part) (s : Session) : InBounds (partCount p) s := by
  rw [partCount]
  split
  · exact inBounds_pure _ s
  · exact (inBounds_resolve .set p.root s).bind fun t s' _ _ => inBounds_pure t.count s'

theorem settle_inBounds (parts : List Part) (tallies : List Tally) (s : Session) :
    InBounds (settle parts tallies) s := by
  rw [settle]
  split
  · refine (inBounds_sumOf (fun t s' => inBounds_lift (ends_missing t)) s).bind fun missing s₁ _ _ => ?_
    refine (inBounds_sumOf (fun n s' => inBounds_pure n s') s₁).bind fun known s₂ _ _ => ?_
    exact inBounds_lift (ends_addCounts _ _)
  · exact inBounds_sumOf partCount_inBounds s

theorem assemble_inBounds (depth : Nat) (path : Bytes) (parts : List Part) (tallies : List Tally) (s : Session) :
    InBounds (assemble depth path parts tallies) s := by
  refine (settle_inBounds parts tallies s).bind fun count s' _ _ => ?_
  split <;> exact inBounds_pure _ s'

/-! ### Branches -/

/-- A merge of two sets stays within bounds, in any session in which they and all that is loaded have their shapes. -/
def MergesInBounds (merge : Trie .set → Trie .set → Action Merged) : Prop :=
  ∀ (s : Session) (t u : Trie .set), s.Shaped → t.cell.Shaped → u.cell.Shaped → InBounds (merge t u) s

theorem mergeDigit_inBounds {merge : Trie .set → Trie .set → Action Merged} (merges : MergesInBounds merge)
    (shaped : s.Shaped) (left_shaped : left.cell.Shaped) (right_shaped : right.cell.Shaped)
    (shape : left.node = .branch a) (shape' : right.node = .branch b) (side : Side) (d : Digit) :
    InBounds (mergeDigit op merge a b side d) s := by
  rw [mergeDigit]
  cases found : a.child? d with
  | none =>
    cases found' : b.child? d with
    | none => exact inBounds_pure side s
    | some rb => exact (pass_inBounds side.right d rb _ s).bind fun passed s' _ _ => inBounds_pure _ s'
  | some ra =>
    cases found' : b.child? d with
    | none => exact (pass_inBounds side.left d ra _ s).bind fun passed s' _ _ => inBounds_pure _ s'
    | some rb =>
      dsimp only
      split
      · refine (pass_inBounds side.left d ra _ s).bind fun passed s₁ _ _ => ?_
        exact (pass_inBounds side.right d rb _ s₁).bind fun passed' s₂ _ _ => inBounds_pure _ s₂
      · refine (inBounds_resolve .set ra s).bind fun ca s₁ resolved later => ?_
        refine (inBounds_resolve .set rb s₁).bind fun cb s₂ resolved' later' => ?_
        have shaped₁ := shaped.later Node.Accepted.shaped later
        have below := left_shaped.child_of_resolve shaped Node.Accepted.shaped shape found resolved
        have below' := right_shaped.child_of_resolve shaped₁ Node.Accepted.shaped shape' found' resolved'
        have merged := merges s₂ ca cb (shaped₁.later Node.Accepted.shaped later') below below'
        exact merged.bind fun m s₃ _ _ => inBounds_pure _ s₃

theorem mergeBranches_inBounds {merge : Trie .set → Trie .set → Action Merged} (merges : MergesInBounds merge)
    (shaped : s.Shaped) (left_shaped : left.cell.Shaped) (right_shaped : right.cell.Shaped)
    (shape : left.node = .branch a) (shape' : right.node = .branch b) :
    InBounds (mergeBranches op merge left a right b) s := by
  rw [mergeBranches]
  refine (inBounds_foldlM fun side d s' later => ?_).bind fun side s' _ _ => ?_
  · exact mergeDigit_inBounds merges (shaped.later Node.Accepted.shaped later) left_shaped right_shaped shape shape' side d
  · split
    · exact inBounds_pure _ s'
    · split
      · exact inBounds_pure _ s'
      · exact assemble_inBounds _ _ _ _ s'

theorem descend_inBounds {merge : Trie .set → Action Merged}
    (merges : ∀ (s : Session) (t : Trie .set), s.Shaped → t.cell.Shaped → InBounds (merge t) s) (shaped : s.Shaped)
    {t : Trie .set} (cell : t.cell.Shaped) (shape : t.node = .branch b) (own : Presence) (other : Trie .set)
    (otherSide : Presence) (slot : Digit) : InBounds (descend op merge t b own other otherSide slot) s := by
  rw [descend]
  refine (inBounds_foldlM fun passed d s' later => ?_).bind fun passed s' _ _ => ?_
  · rw [descendDigit]
    cases decide (d = slot) with
    | false =>
      cases b.child? d with
      | none => exact inBounds_pure _ s'
      | some r => exact (pass_inBounds passed.2 d r _ s').bind fun _ s'' _ _ => inBounds_pure _ s''
    | true =>
      cases found : b.child? d with
      | none => exact inBounds_pure _ s'
      | some r =>
        refine (inBounds_resolve .set r s').bind fun child s₁ resolved later₁ => ?_
        have shaped' := shaped.later Node.Accepted.shaped later
        have below := cell.child_of_resolve shaped' Node.Accepted.shaped shape found resolved
        exact (merges s₁ child (shaped'.later Node.Accepted.shaped later₁) below).bind fun m s₂ _ _ => inBounds_pure _ s₂
  · obtain ⟨parts, tally⟩ := passed
    dsimp only
    split
    · exact inBounds_pure _ s'
    · exact assemble_inBounds _ _ _ _ s'

/-- Two nodes are joined where they part, which is above the end of both. -/
theorem mergeApart_inBounds (left_shaped : left.node.Shaped .set) (right_shaped : right.node.Shaped .set) {shared : Nat}
    (above : shared < min left.node.depth right.node.depth) (s : Session) :
    InBounds (mergeApart op left right shared) s := by
  have inside : left.node.depth ≤ _ := left_shaped.spelled
  have inside' : right.node.depth ≤ _ := right_shaped.spelled
  rw [mergeApart]
  refine .lift_bind (ends_digitAt (by omega)) fun d _ => ?_
  refine .lift_bind (ends_digitAt (by omega)) fun d' _ => ?_
  refine .lift_bind (ends_leadingOf (by omega)) fun path _ => ?_
  exact assemble_inBounds _ _ _ _ s

/-! ### Whole sets -/

/-- A leaf of a set ends below any branch. -/
theorem lt_leaf {t u : Trie .set} {key : Bytes} {value : Ref Cell} (ends : t.node.Shaped .set)
    (above : u.node.Shaped .set) (shape : t.node = .leaf key value) (shape' : u.node = .branch b) :
    b.depth < t.node.depth := by
  rw [shape] at ends ⊢
  rw [shape'] at above
  have same : (Node.leaf key value).depth = TrieKind.set.maxDigits := ends rfl
  rw [same]
  exact above.2 rfl

theorem mergeWithin_inBounds (op : SetOperation) (fuel : Nat) : MergesInBounds (mergeWithin op fuel) := by
  induction fuel with
  | zero => exact fun s t u _ _ _ => inBounds_throw rfl
  | succ fuel ih =>
    intro s left right shaped left_shaped right_shaped
    have inside : left.node.depth ≤ _ := left_shaped.node.spelled
    have inside' : right.node.depth ≤ _ := right_shaped.node.spelled
    have way := way_mergeWithin op fuel left right
    generalize mergeWithin op (fuel + 1) left right = walk at way
    cases way with
    | equal => exact inBounds_pure _ s
    | onlyRight => exact inBounds_pure _ s
    | onlyLeft => exact inBounds_pure _ s
    | apart above => exact mergeApart_inBounds left_shaped.node right_shaped.node above s
    | leaves => exact inBounds_pure _ s
    | level _ shape shape' => exact mergeBranches_inBounds ih shaped left_shaped right_shaped shape shape'
    | intoLeft _ shape deeper =>
      refine .lift_bind (ends_digitAt (by omega)) fun slot _ => ?_
      exact descend_inBounds (fun s t shaped inside => ih s t right shaped inside right_shaped) shaped left_shaped shape _ _ _ _
    | intoRight _ shape deeper =>
      refine .lift_bind (ends_digitAt (by omega)) fun slot _ => ?_
      exact descend_inBounds (fun s t shaped inside => ih s left t shaped left_shaped inside) shaped right_shaped shape _ _ _ _
    | mixedLeft shape shape' shallow =>
      exact absurd (lt_leaf left_shaped.node right_shaped.node shape shape') (not_lt.mpr shallow)
    | mixedRight shape shape' shallow =>
      exact absurd (lt_leaf right_shaped.node left_shaped.node shape' shape) (not_lt.mpr shallow)

theorem mergeCells_inBounds (op : SetOperation) (shaped : s.Shaped) {left right : Cell} (left_shaped : left.Shaped)
    (right_shaped : right.Shaped) : InBounds (mergeCells op left right) s := by
  rw [mergeCells]
  split
  · exact inBounds_pure _ s
  · refine .lift_bind (ends_ofCell .set left) fun l found => ?_
    refine .lift_bind (ends_ofCell .set right) fun r found' => ?_
    rw [← cell_of_ofCell found] at left_shaped
    rw [← cell_of_ofCell found'] at right_shaped
    rw [merge]
    refine (inBounds_levels l s).bind fun n s₁ _ later => (inBounds_levels r s₁).bind fun n' s₂ _ later' => ?_
    have shaped₂ := shaped.later Node.Accepted.shaped (later.trans later')
    refine (mergeWithin_inBounds op (n + n') s₂ l r shaped₂ left_shaped right_shaped).bind fun m s₃ _ _ => ?_
    exact inBounds_resolve .set m.root s₃

/-! ### Decoded tries -/

/-- The operations on a trie come to no internal error. Looking up or removing a key, taking an entry by its place and
walking through all entries or through those whose key begins with given bytes come to none in any session, and inserting
in any where paths spell the depths of their branches. Merging with a decoded cell comes to none where what is held has
the shapes of decoded nodes. -/
structure Bounded {kind : TrieKind} (t : Trie kind) (s : Session) : Prop where
  get : ∀ key, InBounds (t.get? key) s
  erase : ∀ key, InBounds (t.erase key) s
  entryAt : ∀ index, InBounds (t.entryAt? index) s
  entriesStarting : ∀ start, InBounds (t.entriesStarting start) s
  list : WalksInBounds t.list s
  insert : s.Spelled → ∀ key value, InBounds (t.insert key value) s
  merge : s.Shaped → ∀ op other loader bytes, decode loader bytes = .ok other →
    InBounds (mergeCells op t.cell other) s ∧ InBounds (mergeCells op other t.cell) s

/-- A trie is decoded, and its children come from stores that may have anything. -/
theorem bounded_of_decoded {kind : TrieKind} {t : Trie kind} (decoded : t.Decoded) (s : Session) : t.Bounded s := by
  obtain ⟨loader, bytes, decoded⟩ := decoded
  have accepted := (of_decode decoded).2
  exact
    { get := fun key => (inBounds_levels t s).bind fun fuel s' _ _ => getWithin_inBounds kind key fuel t.node s'
      erase := fun key => (inBounds_levels t s).bind fun fuel s' _ _ => eraseWithin_inBounds key fuel t s'
      entryAt := fun index => (inBounds_levels t s).bind fun fuel s' _ _ => entryAtWithin_inBounds fuel t.node index s'
      entriesStarting := fun start => (inBounds_levels t s).bind fun fuel s' _ _ =>
        startingWithin_inBounds start fuel t.node s'
      list := listWith_inBounds (f := .ok) (fun _ => trivial) t s
      insert := fun session key value => (value.inBounds_canonical s).bind fun value s₁ _ later =>
        (inBounds_levels t s₁).bind fun fuel s₂ _ later' =>
          insertWithin_inBounds key value fuel (session.later Node.Accepted.spelled (later.trans later')) t
            (accepted.throughout Node.Accepted.spelled)
      merge := fun session op other loader' bytes' decoded' =>
        have cell := accepted.throughout Node.Accepted.shaped
        have other_cell := (of_decode decoded').2.throughout Node.Accepted.shaped
        ⟨mergeCells_inBounds op session cell other_cell, mergeCells_inBounds op session other_cell cell⟩ }

end Trie

/-! ### A leaf under another key -/

namespace Misshapen

theorem zero_lt : 0 < 16 := by decide

theorem one_lt : 1 < 16 := by decide

/-- An element that is not embeddable. -/
def element : Cell := Cell.ofValue (.blob (List.replicate 200 7))

/-- The set of this element as it is held in memory, under its own key or another. The key is not written. -/
def single (key : Bytes) : ContentSet := Trie.leaf .set key (Ref.direct element)

/-- A branch of a set below the byte `02`, whose children nothing holds. -/
def lower : ContentSet :=
  Trie.ofNode .set (.branch
    ⟨2, [2], none, [(⟨0, zero_lt⟩, Ref.ofMarker Hash.zero none), (⟨1, one_lt⟩, Ref.ofMarker Hash.zero none)], 2⟩)

/-- The hashes of the two. -/
def singleHash : Hash :=
  ⟨[0xED, 0xC3, 0xEB, 0x79, 0x2A, 0xA4, 0x6C, 0xE1, 0x6F, 0x89, 0xE0, 0x62, 0xA2, 0x89, 0x5D, 0x34, 0x68, 0x92, 0x31,
    0xAE, 0xBE, 0xCB, 0x17, 0x6F, 0xF6, 0x19, 0x76, 0x79, 0x5D, 0x5D, 0x6C, 0x5B], rfl⟩

def lowerHash : Hash :=
  ⟨[0xB4, 0x0C, 0x24, 0x18, 0xE7, 0xEB, 0xA9, 0xA7, 0xAD, 0x55, 0x09, 0x63, 0x47, 0x0B, 0x48, 0x56, 0xA0, 0x5A, 0x21,
    0x03, 0xAB, 0x46, 0x31, 0x31, 0xA8, 0x38, 0x19, 0x4D, 0x77, 0xD9, 0xC5, 0x09], rfl⟩

theorem hash_lower : lower.cell.hash = lowerHash := by decide +kernel

theorem hash_single (key : Bytes) : (single key).cell.hash = singleHash := by
  have same : (single key).cell.encoding = (single []).cell.encoding := rfl
  rw [Cell.hash_eq, same]
  decide +kernel

/-- A session whose store holds both. -/
def lent (key : Bytes) : Session :=
  ⟨[⟨0, .empty 2 Nat.two_pos, 0, 0⟩],
    [.memory ⟨[(singleHash, ⟨(single key).cell, .stored⟩), (lowerHash, ⟨lower.cell, .stored⟩)]⟩]⟩

/-- A set of two children, of which nothing holds the second. -/
def paired (first : Hash) (count : UInt64) : ContentSet :=
  Trie.ofNode .set (.branch
    ⟨0, [], none, [(⟨0, zero_lt⟩, Ref.ofMarker first (some 0)), (⟨1, one_lt⟩, Ref.ofMarker Hash.zero (some 0))], count⟩)

theorem decoded_left : decode (some 0) (paired singleHash 2).cell.encoding = .ok (paired singleHash 2).cell := rfl

theorem decoded_right : decode (some 0) (paired lowerHash 3).cell.encoding = .ok (paired lowerHash 3).cell := rfl

/-- The store holds the leaf and what could be decoded. -/
theorem lent_throughout {P : TrieKind → Node (Ref Cell) → Prop} (nodes : ∀ kind n, n.Accepted kind → P kind n)
    (key : Bytes) (leaf : P .set (.leaf key (Ref.direct element))) : (lent key).Throughout P := by
  refine ⟨fun l listed e cached => ?_, fun m stored e member => ?_⟩
  · rw [List.mem_singleton.mp listed] at cached
    cases cached
  · obtain rfl := Store.memory.inj (List.mem_singleton.mp stored)
    rcases List.mem_pair.mp member with rfl | rfl
    · exact .of_root (t := single key) leaf fun _ shape => by cases shape
    · have decoded : decode none lower.cell.encoding = .ok lower.cell := rfl
      exact (of_decode decoded).2.throughout nodes

/-- Wherever the element is, branches have their paths. Under its own key all that is held has the shapes of decoded
nodes. -/
theorem bounded_lent : (paired singleHash 2).Decoded ∧
    ((lent [2]).Spelled ∧ (paired singleHash 2).Bounded (lent [2])) ∧
    (lent element.hash.bytes).Shaped ∧ (paired singleHash 2).Bounded (lent element.hash.bytes) := by
  have spelled : (lent [2]).Spelled := lent_throughout Node.Accepted.spelled [2] (Nat.le_refl 2)
  have shaped : (lent element.hash.bytes).Shaped :=
    lent_throughout Node.Accepted.shaped element.hash.bytes fun _ => by
      rw [Digits.count, Hash.length_eq]
      rfl
  exact ⟨⟨some 0, _, decoded_left⟩, ⟨spelled, Trie.bounded_of_decoded ⟨some 0, _, decoded_left⟩ _⟩,
    shaped, Trie.bounded_of_decoded ⟨some 0, _, decoded_left⟩ _⟩

/-- A set may be given keys that are no hashes. With the element inserted under such a key and stored, both children that
are loaded have the hashes that were asked for, but a merge of the two decoded sets comes across a leaf and a branch that
end at the same digit. -/
theorem merge_mixes : (result ((Trie.empty .set).insert [2] (Ref.direct element)) (lent [2])).1 = .ok (some (single [2])) ∧
    decode (some 0) (paired singleHash 2).cell.encoding = .ok (paired singleHash 2).cell ∧
    decode (some 0) (paired lowerHash 3).cell.encoding = .ok (paired lowerHash 3).cell ∧
    ((lent [2]).load 0 singleHash).1 = .ok (single [2]).cell ∧ ((lent [2]).load 0 lowerHash).1 = .ok lower.cell ∧
    (result (Trie.mergeCells .difference (paired singleHash 2).cell (paired lowerHash 3).cell) (lent [2])).1 =
      .error (.invalid .mixedShapes) := by
  have loads : ∀ h c, Loader.accept h ((lent [2]).answerTo 0 ⟨0, .empty 2 Nat.two_pos, 0, 0⟩ h) = .ok c →
      ((lent [2]).load 0 h).1 = .ok c := by
    intro h c accepted
    rw [Session.load_miss (l := ⟨0, .empty 2 Nat.two_pos, 0, 0⟩) rfl rfl, Loader.receive_of_accept accepted]
  refine ⟨?_, decoded_left, decoded_right, ?_, ?_, ?_⟩
  · obtain ⟨fuel, s', levels, rfl, enough⟩ := (Trie.empty .set).yields_levels (lent [2])
    obtain ⟨fuel, rfl⟩ : ∃ n, fuel = n + 1 := ⟨fuel - 1, by omega⟩
    have canonical : result (Ref.direct element).canonical (lent [2]) = (.ok (Ref.direct element), lent [2]) := rfl
    rw [Trie.insert, result_bind, canonical]
    dsimp only
    rw [result_bind, levels]
    rfl
  · exact loads _ _ (Loader.accept_eq_ok.mpr ⟨_, rfl, rfl, hash_single [2]⟩)
  · exact loads _ _ (Loader.accept_eq_ok.mpr ⟨_, rfl, rfl, hash_lower⟩)
  · have failed : (result (Trie.mergeCells .difference (paired singleHash 2).cell (paired lowerHash 3).cell)
        (lent [2])).1.map (fun _ => ()) = .error (.invalid .mixedShapes) := by
      decide +kernel
    generalize (result (Trie.mergeCells .difference (paired singleHash 2).cell (paired lowerHash 3).cell)
      (lent [2])).1 = answer at failed
    cases answer with
    | error e => exact congrArg _ (Except.error.inj failed)
    | ok t => cases failed

end Misshapen

end MerkleCells
