import MerkleCells.Proofs.Trie.CopyParts
import MerkleCells.Proofs.Trie.MergeWalk

/-!
Merges of copies. Both merges take the same way, digit by digit (`mergeDigit_mirrors`, `descendDigit_mirrors`), so the
merge of two copies makes a copy of what the other merge makes (`mergeWithin_mirrors`), unless a child is missing that
it has to look at.
-/
namespace MerkleCells.Trie

open MerkleCells.Action

variable {M : Hash → Prop} {s₀ s₁ s s' : Session} {k k' : Nat} {f g : Content Mark} {op : SetOperation}

/-! ### Copies of sets -/

/-- A set that is held directly, what it holds, and a copy. -/
structure Copied (M : Hash → Prop) (k : Nat) (s s' : Session) (f : Content Mark) (t t' : Trie .set) : Prop where
  holds : t.node.Holds .set s f
  admitted : f.Admitted .set
  copies : t.node.Copies M .set k s' t'.node

/-- The same of a branch. -/
structure BranchCopied (M : Hash → Prop) (k : Nat) (s s' : Session) (f : Content Mark) (b b' : Branch (Ref Cell)) :
    Prop where
  holds : Node.Holds .set s (.branch b) f
  admitted : f.Admitted .set
  copies : b.Copies M .set k s' b'

theorem Copied.like {t t' : Trie .set} (copied : Copied M k s s' f t t') : t'.Matches t := copied.copies.map_mark_eq

theorem Copied.later {t t' : Trie .set} {s'' : Session} (copied : Copied M k s s' f t t') (later : s'.Later s'') :
    Copied M k s s'' f t t' := ⟨copied.holds, copied.admitted, copied.copies.later later⟩

namespace BranchCopied

variable {b b' : Branch (Ref Cell)} {s'' : Session}

theorem later (copied : BranchCopied M k s s' f b b') (later : s'.Later s'') : BranchCopied M k s s'' f b b' :=
  ⟨copied.holds, copied.admitted, copied.copies.later later⟩

theorem goesOn (copied : BranchCopied M k s s' f b b') : f.GoesOn b.depth :=
  (copied.holds.fits.goesOn copied.admitted copied.holds.occupants).2

theorem alike (copied : BranchCopied M k s s' f b b') : Branch.Alike b.children b'.children :=
  Branch.alike_of_corresponds copied.copies.children

/-- At a digit there is nothing, or a child and one that leads to a copy of it. -/
theorem child (copied : BranchCopied M k s s' f b b') (d : Digit) :
    (b.child? d = none ∧ b'.child? d = none ∧ f.below b.depth d = .none) ∨
      ∃ (r r' : Ref Cell) (t : Trie .set), b.child? d = some r ∧ b'.child? d = some r' ∧ r'.mark = r.mark ∧
        r.cell? = some t.cell ∧ t.count.toNat = (f.below b.depth d).size ∧
        r'.Finds M .set s' fun t' s₁ => Copied M k s s₁ (f.below b.depth d) t t' := by
  rcases copied.copies.child d with ⟨none, none'⟩ | ⟨r, r', t, at_d, at_d', mark, held, finds⟩
  · exact .inl ⟨none, none', (copied.holds.parts d).1 (by rwa [← Branch.child?_eq])⟩
  · have holds : t.node.Holds .set s (f.below b.depth d) := by
      have leads := copied.holds.leads at_d
      rw [Ref.eq_direct held] at leads
      obtain ⟨u, s₂, run, -, -, holds⟩ := leads s (.refl s)
      obtain ⟨rfl, rfl⟩ := (t.yields_resolve_direct r.status s).of_result run
      exact holds
    exact .inr ⟨r, r', t, at_d, at_d', mark, held, holds.count_eq, finds.mono fun t' s₁ copies =>
      ⟨holds, copied.admitted.below _ _, copies⟩⟩

end BranchCopied

/-- What a merge does with copies. -/
def MergesCopies (M : Hash → Prop) (k k' : Nat) (merge merge' : Trie .set → Trie .set → Action Merged) : Prop :=
  ∀ {s₀ s₁ s' f g t t' u u'}, Copied M k s₀ s' f t t' → Copied M k' s₁ s' g u u' →
    Mirrors M (merge t u) (merge' t' u') s' fun m m' s₂ => m.Copies M s₂ m'

/-! ### Walking the digits -/

/-- What each step on a digit makes of related values, the walk over all digits makes of them. -/
theorem foldlM_digits_mirrors {β : Type} {step step' : β → Digit → Action β} {I : List Digit → β → β → Session → Prop}
    {x x' : β} (start : I [] x x' s')
    (next : ∀ done d x x' s₁, (done ++ [d]).Pairwise (· < ·) → s'.Later s₁ → I done x x' s₁ →
      Mirrors M (step x d) (step' x' d) s₁ (I (done ++ [d]))) :
    Mirrors M ((List.finRange 16).foldlM step x) ((List.finRange 16).foldlM step' x') s' (I (List.finRange 16)) := by
  have all : ∀ rest done x x' s₁, done ++ rest = List.finRange 16 → s'.Later s₁ → I done x x' s₁ →
      Mirrors M (rest.foldlM step x) (rest.foldlM step' x') s₁ (I (List.finRange 16)) := by
    intro rest
    induction rest with
    | nil =>
      intro done x x' s₁ split later inv
      rw [List.append_nil] at split
      exact mirrors_pure (split ▸ inv)
    | cons d rest ih =>
      intro done x x' s₁ split later inv
      have split' : (done ++ [d]) ++ rest = List.finRange 16 := by simpa using split
      have sorted := List.pairwise_lt_finRange 16
      rw [← split'] at sorted
      rw [List.foldlM_cons, List.foldlM_cons]
      refine (next done d x x' s₁ (List.pairwise_append.mp sorted).1 later inv).bind ?_
      exact fun y y' s₂ later' inv' => ih _ y y' s₂ split' (later.trans later') inv'
  exact all _ [] x x' s' rfl (.refl s') start

/-! ### Two branches at the same depth -/

section Branches

variable {a a' b b' : Branch (Ref Cell)} {merge merge' : Trie .set → Trie .set → Action Merged} {done : List Digit}
  {d : Digit} {x x' : Side}

/-- What the parts and tallies so far have to do with those of the merge that misses nothing. -/
structure Side.Copies (M : Hash → Prop) (s : Session) (depth : Nat) (f g : Content Mark) (done : List Digit)
    (x x' : Side) : Prop where
  parts : List.Forall₂ (Part.Copies M s) x.parts x'.parts
  plain : x.left.pending = false
  plain' : x.right.pending = false
  counts : ∃ heldLeft heldRight, knownSum x.parts = knownSum x'.parts + (heldLeft + heldRight) ∧
    x'.left.Counts f.size (passed f depth done) heldLeft ∧ x'.right.Counts g.size (passed g depth done) heldRight

theorem mergeDigit_mirrors (merges : MergesCopies M k k' merge merge') (left : BranchCopied M k s₀ s' f a a')
    (right : BranchCopied M k' s₁ s' g b b') (depth_eq : b.depth = a.depth) (sorted : (done ++ [d]).Pairwise (· < ·))
    (copies : x.Copies M s' a.depth f g done x') :
    Mirrors M (mergeDigit op merge a b x d) (mergeDigit op merge' a' b' x' d) s' fun y y' s₂ =>
      y.Copies M s₂ a.depth f g (done ++ [d]) y' := by
  obtain ⟨heldLeft, heldRight, sum, countsLeft, countsRight⟩ := copies.counts
  have finite := left.holds.fits.finite
  have finite' := right.holds.fits.finite
  have onRight := right.child d
  rw [depth_eq] at onRight
  have parts_later : ∀ {s₂}, s'.Later s₂ → List.Forall₂ (Part.Copies M s₂) x.parts x'.parts := fun later =>
    copies.parts.imp fun _ _ copies => copies.later later
  rw [mergeDigit, mergeDigit]
  rcases left.child d with ⟨none, none', empty⟩ | ⟨r, r', t, at_d, at_d', mark, held, count, finds⟩
  · rw [none, none']
    rcases onRight with ⟨none₂, none₂', empty₂⟩ | ⟨q, q', u, at_d₂, at_d₂', mark₂, held₂, count₂, finds₂⟩
    · rw [none₂, none₂']
      exact mirrors_pure ⟨copies.parts, copies.plain, copies.plain', heldLeft, heldRight, sum,
        countsLeft.skipDigit empty, countsRight.skipDigit empty₂⟩
    · rw [at_d₂, at_d₂']
      refine (pass_mirrors d (op.keeps .right) mark₂ held₂ (finds₂.mono fun _ _ c => c.like) copies.plain').bind ?_
      rintro passed passed' s₂ later ⟨added, plain, n, known, told, sum'⟩
      rw [count₂] at known sum'
      refine mirrors_pure ⟨List.rel_append (parts_later later) added, copies.plain, plain, heldLeft, _, ?_,
        countsLeft.skipDigit empty, told ▸ countsRight.passDigit finite' sorted _ known⟩
      dsimp only
      rw [knownSum_append, knownSum_append]
      omega
  · rw [at_d, at_d']
    rcases onRight with ⟨none₂, none₂', empty₂⟩ | ⟨q, q', u, at_d₂, at_d₂', mark₂, held₂, count₂, finds₂⟩
    · rw [none₂, none₂']
      refine (pass_mirrors d (op.keeps .left) mark held (finds.mono fun _ _ c => c.like) copies.plain).bind ?_
      rintro passed passed' s₂ later ⟨added, plain, n, known, told, sum'⟩
      rw [count] at known sum'
      refine mirrors_pure ⟨List.rel_append (parts_later later) added, plain, copies.plain', _, heldRight, ?_,
        told ▸ countsLeft.passDigit finite sorted _ known, countsRight.skipDigit empty₂⟩
      dsimp only
      rw [knownSum_append, knownSum_append]
      omega
    · rw [at_d₂, at_d₂']
      dsimp only
      rw [beq_congr mark mark₂]
      by_cases equal : (r == q) = true
      · rw [if_pos equal, if_pos equal]
        refine (pass_mirrors d (op.keeps .both) mark held (finds.mono fun _ _ c => c.like) copies.plain).bind ?_
        rintro passed passed' s₂ later ⟨added, plain, n, known, told, sum'⟩
        refine (pass_mirrors d false mark₂ held₂ ((finds₂.later later).mono fun _ _ c => c.like) copies.plain').bind ?_
        rintro dropped dropped' s₃ later' ⟨-, plain', n', known', told', -⟩
        rw [count] at known sum'
        rw [count₂] at known'
        refine mirrors_pure ⟨List.rel_append (parts_later (later.trans later')) (added.imp fun _ _ c => c.later later'),
          plain, plain', _, heldRight, ?_, told ▸ countsLeft.passDigit finite sorted _ known,
          told' ▸ countsRight.passDigit finite' sorted false known'⟩
        dsimp only
        rw [knownSum_append, knownSum_append]
        omega
      · rw [if_neg equal, if_neg equal]
        refine (finds.mirrors held).bind ?_
        rintro t t' s₂ later ⟨rfl, copied⟩
        refine ((finds₂.later later).mirrors held₂).bind ?_
        rintro u u' s₃ later' ⟨rfl, copied₂⟩
        refine (merges (copied.later later') copied₂).bind ?_
        rintro m m' s₄ later'' merged
        rw [copied.like.count_eq, copied₂.like.count_eq]
        have moved := (later.trans later').trans later''
        refine mirrors_pure ⟨List.rel_append (parts_later moved) (Part.ofMerged_copies d merged), copies.plain,
          copies.plain', heldLeft, heldRight, ?_, countsLeft.openDigit finite sorted count,
          countsRight.openDigit finite' sorted count₂⟩
        dsimp only
        rw [knownSum_append, knownSum_append, Part.knownSum_ofMerged d merged]
        omega

/-- An input branch as it is. -/
theorem Merged.branch_copies {t t' : Trie .set} (like : t'.Matches t) (shape : t.node = .branch b) :
    Merged.Copies M s ⟨t.ref, b.count⟩ ⟨t'.ref, b.count⟩ := by
  have count : b.count = t.count := by
    rw [Trie.count, shape]
    rfl
  exact ⟨like.ref_mark, rfl, t, rfl, count, Ref.finds_ref fun _ _ => like⟩

/-- Two branches at the same depth. -/
theorem mergeBranches_mirrors {t t' u u' : Trie .set} (merges : MergesCopies M k k' merge merge') (like : t'.Matches t)
    (like' : u'.Matches u) (shape : t.node = .branch a) (shape' : u.node = .branch b)
    (left : BranchCopied M k s₀ s' f a a') (right : BranchCopied M k' s₁ s' g b b') (depth_eq : b.depth = a.depth) :
    Mirrors M (mergeBranches op merge t a u b) (mergeBranches op merge' t' a' u' b') s'
      fun m m' s₂ => m.Copies M s₂ m' := by
  have goesOn := right.goesOn
  rw [depth_eq] at goesOn
  have start : Side.Copies M s' a.depth f g [] ⟨[], .ofBranch a, .ofBranch b⟩ ⟨[], .ofBranch a', .ofBranch b'⟩ := by
    refine ⟨.nil, rfl, rfl, 0, 0, rfl, ?_, ?_⟩
    · rw [← left.holds.fits.count_eq, ← left.copies.count_eq]
      exact Tally.counts_ofBranch a'
    · rw [← right.holds.fits.count_eq, ← right.copies.count_eq]
      exact Tally.counts_ofBranch b'
  rw [mergeBranches, mergeBranches]
  refine (foldlM_digits_mirrors (I := fun done x x' s₂ => Side.Copies M s₂ a.depth f g done x x') start
    fun done d x x' s₂ sorted later copies =>
    mergeDigit_mirrors merges (left.later later) (right.later later) depth_eq sorted copies).bind ?_
  rintro x x' s₂ later copies
  obtain ⟨heldLeft, heldRight, sum, countsLeft, countsRight⟩ := copies.counts
  rw [passed_all left.holds.fits.finite left.goesOn] at countsLeft
  rw [passed_all right.holds.fits.finite goesOn] at countsRight
  rw [sameChildren_congr left.alike copies.parts, sameChildren_congr right.alike copies.parts]
  by_cases same : sameChildren a x.parts = true
  · rw [if_pos same, if_pos same]
    rw [left.copies.count_eq]
    exact mirrors_pure (Merged.branch_copies like shape)
  rw [if_neg same, if_neg same]
  by_cases same' : sameChildren b x.parts = true
  · rw [if_pos same', if_pos same', right.copies.count_eq]
    exact mirrors_pure (Merged.branch_copies like' shape')
  rw [if_neg same', if_neg same', left.copies.depth_eq, left.copies.path_eq]
  refine assemble_mirrors a.depth a.path copies.parts ?_ (.cons ⟨_, countsLeft⟩ (.cons ⟨_, countsRight⟩ .nil))
    (by simpa using sum)
  intro tally member
  rcases List.mem_cons.mp member with rfl | member
  · exact copies.plain
  · rw [List.mem_singleton.mp member]
    exact copies.plain'

end Branches

/-! ### A branch that the other side goes on from -/

section Descent

variable {b b' : Branch (Ref Cell)} {own otherSide : Presence} {other other' : Trie .set} {slot : Digit}
  {merge merge' : Trie .set → Action Merged} {done : List Digit} {d : Digit} {x x' : List Part × Tally}

/-- What the parts and the tally so far have to do with those of the merge that misses nothing. -/
structure DescentCopies (M : Hash → Prop) (s : Session) (depth : Nat) (f : Content Mark) (done : List Digit)
    (x x' : List Part × Tally) : Prop where
  parts : List.Forall₂ (Part.Copies M s) x.1 x'.1
  plain : x.2.pending = false
  counts : ∃ held, knownSum x.1 = knownSum x'.1 + held ∧ x'.2.Counts f.size (passed f depth done) held

theorem descendDigit_mirrors (branch : BranchCopied M k s₀ s' f b b') (like : other'.Matches other)
    (merges : ∀ s₂ t t', s'.Later s₂ → Copied M k s₀ s₂ (f.below b.depth slot) t t' →
      Mirrors M (merge t) (merge' t') s₂ fun m m' s₃ => m.Copies M s₃ m')
    (sorted : (done ++ [d]).Pairwise (· < ·)) (copies : DescentCopies M s' b.depth f done x x') :
    Mirrors M (descendDigit op merge b own other otherSide slot x d)
      (descendDigit op merge' b' own other' otherSide slot x' d) s'
      fun y y' s₂ => DescentCopies M s₂ b.depth f (done ++ [d]) y y' := by
  obtain ⟨held, sum, counts⟩ := copies.counts
  have finite := branch.holds.fits.finite
  have parts_later : ∀ {s₂}, s'.Later s₂ → List.Forall₂ (Part.Copies M s₂) x.1 x'.1 := fun later =>
    copies.parts.imp fun _ _ copies => copies.later later
  rw [descendDigit, descendDigit]
  by_cases here : d = slot
  · subst here
    rw [decide_eq_true rfl]
    rcases branch.child d with ⟨none, none', empty⟩ | ⟨r, r', t, at_d, at_d', mark, direct, count, finds⟩
    · rw [none, none']
      have merged : (Merged.one op otherSide other).Copies M s' (.one op otherSide other') :=
        Merged.one_copies op otherSide like
      refine mirrors_pure ⟨List.rel_append copies.parts (Part.ofMerged_copies d merged), copies.plain, held, ?_,
        counts.skipDigit empty⟩
      dsimp only
      rw [knownSum_append, knownSum_append, Part.knownSum_ofMerged d merged]
      omega
    · rw [at_d, at_d']
      refine (finds.mirrors direct).bind ?_
      rintro t t' s₂ later ⟨rfl, copied⟩
      refine (merges s₂ t t' later copied).bind ?_
      rintro m m' s₃ later' merged
      rw [copied.like.count_eq]
      refine mirrors_pure ⟨List.rel_append (parts_later (later.trans later')) (Part.ofMerged_copies d merged),
        copies.plain, held, ?_, counts.openDigit finite sorted count⟩
      dsimp only
      rw [knownSum_append, knownSum_append, Part.knownSum_ofMerged d merged]
      omega
  · rw [decide_eq_false here]
    rcases branch.child d with ⟨none, none', empty⟩ | ⟨r, r', t, at_d, at_d', mark, direct, count, finds⟩
    · rw [none, none']
      exact mirrors_pure ⟨copies.parts, copies.plain, held, sum, counts.skipDigit empty⟩
    · rw [at_d, at_d']
      refine (pass_mirrors d (op.keeps own) mark direct (finds.mono fun _ _ c => c.like) copies.plain).bind ?_
      rintro passed passed' s₂ later ⟨added, plain, n, known, told, sum'⟩
      rw [count] at known sum'
      refine mirrors_pure ⟨List.rel_append (parts_later later) added, plain, _, ?_,
        told ▸ counts.passDigit finite sorted _ known⟩
      dsimp only
      rw [knownSum_append, knownSum_append]
      omega

/-- A trie that goes on from a branch. -/
theorem descend_mirrors {t t' : Trie .set} (branch : BranchCopied M k s₀ s' f b b') (like : t'.Matches t)
    (shape : t.node = .branch b) (like' : other'.Matches other)
    (merges : ∀ s₂ t t', s'.Later s₂ → Copied M k s₀ s₂ (f.below b.depth slot) t t' →
      Mirrors M (merge t) (merge' t') s₂ fun m m' s₃ => m.Copies M s₃ m') :
    Mirrors M (descend op merge t b own other otherSide slot) (descend op merge' t' b' own other' otherSide slot) s'
      fun m m' s₂ => m.Copies M s₂ m' := by
  have start : DescentCopies M s' b.depth f [] ([], .ofBranch b) ([], .ofBranch b') := by
    refine ⟨.nil, rfl, 0, rfl, ?_⟩
    rw [← branch.holds.fits.count_eq, ← branch.copies.count_eq]
    exact Tally.counts_ofBranch b'
  rw [descend, descend]
  refine (foldlM_digits_mirrors (I := fun done x x' s₂ => DescentCopies M s₂ b.depth f done x x') start
    fun done d x x' s₂ sorted later copies => descendDigit_mirrors (branch.later later) like'
      (fun s₃ t t' later' => merges s₃ t t' (later.trans later')) sorted copies).bind ?_
  rintro ⟨parts, tally⟩ ⟨parts', tally'⟩ s₂ later copies
  obtain ⟨held, sum, counts⟩ := copies.counts
  rw [passed_all branch.holds.fits.finite branch.goesOn] at counts
  dsimp only
  rw [sameChildren_congr branch.alike copies.parts]
  by_cases same : sameChildren b parts = true
  · rw [if_pos same, if_pos same, branch.copies.count_eq]
    exact mirrors_pure (Merged.branch_copies like shape)
  rw [if_neg same, if_neg same, branch.copies.depth_eq, branch.copies.path_eq]
  refine assemble_mirrors b.depth b.path copies.parts ?_ (.cons ⟨_, counts⟩ .nil) (by simpa using sum)
  intro tally₂ member
  rw [List.mem_singleton.mp member]
  exact copies.plain

end Descent

/-! ### Two tries whose keys part -/

section Apart

variable {t t' u u' : Trie .set}

/-- Sorting by digits puts parts and the parts that they copy in the same order. -/
theorem mergeSort_copies {parts parts' : List Part} (all : List.Forall₂ (Part.Copies M s) parts parts') :
    List.Forall₂ (Part.Copies M s) (parts.mergeSort fun p q => decide (p.digit ≤ q.digit))
      (parts'.mergeSort fun p q => decide (p.digit ≤ q.digit)) := by
  obtain ⟨pairs, rfl, rfl, copies⟩ : ∃ pairs : List (Part × Part), pairs.map Prod.fst = parts ∧
      pairs.map Prod.snd = parts' ∧ ∀ p ∈ pairs, Part.Copies M s p.1 p.2 := by
    induction all with
    | nil => exact ⟨[], rfl, rfl, fun p member => by cases member⟩
    | @cons p p' rest rest' first _ ih =>
      obtain ⟨pairs, rfl, rfl, copies⟩ := ih
      exact ⟨(p, p') :: pairs, rfl, rfl, List.forall_mem_cons.mpr ⟨first, copies⟩⟩
  rw [← List.map_mergeSort (r := fun p q : Part × Part => decide (p.1.digit ≤ q.1.digit)) fun p _ q _ => rfl,
    ← List.map_mergeSort (r := fun p q : Part × Part => decide (p.1.digit ≤ q.1.digit)) fun p member q member' => by
      rw [(copies p member).digit_eq, (copies q member').digit_eq],
    List.forall₂_map_left_iff, List.forall₂_map_right_iff, List.forall₂_same]
  exact fun p member => copies p (List.mem_mergeSort.mp member)

theorem knownSum_mergeSort (parts : List Part) (le : Part → Part → Bool) :
    knownSum (parts.mergeSort le) = knownSum parts :=
  (((List.mergeSort_perm parts le).filterMap _).map _).sum_eq

theorem mergeApart_mirrors (shared : Nat) (like : t'.Matches t) (like' : u'.Matches u) :
    Mirrors M (mergeApart op t u shared) (mergeApart op t' u' shared) s' fun m m' s₂ => m.Copies M s₂ m' := by
  rw [mergeApart, mergeApart, like.path_eq, like'.path_eq]
  refine Mirrors.bind_lift fun d _ => ?_
  refine Mirrors.bind_lift fun e _ => ?_
  refine Mirrors.bind_lift fun path _ => ?_
  have left : (Merged.one op .left t).Copies M s' (.one op .left t') := Merged.one_copies op .left like
  have right : (Merged.one op .right u).Copies M s' (.one op .right u') := Merged.one_copies op .right like'
  refine assemble_mirrors shared path
    (mergeSort_copies (List.rel_append (Part.ofMerged_copies d left) (Part.ofMerged_copies e right)))
    (fun tally member => by cases member) .nil ?_
  rw [knownSum_mergeSort, knownSum_mergeSort, knownSum_append, knownSum_append, Part.knownSum_ofMerged d left,
    Part.knownSum_ofMerged e right]
  rfl

end Apart

/-! ### The walk -/

theorem Copied.branch {t t' : Trie .set} {b : Branch (Ref Cell)} (copied : Copied M k s s' f t t')
    (shape : t.node = .branch b) : ∃ j b', k = j + 1 ∧ t'.node = .branch b' ∧ BranchCopied M j s s' f b b' := by
  have copies := copied.copies
  cases k with
  | zero => exact copies.elim
  | succ j =>
    rw [shape] at copies
    obtain ⟨b', shape', below⟩ := copies.branch
    exact ⟨j, b', rfl, shape', shape ▸ copied.holds, copied.admitted, below⟩

theorem Copied.pos {t t' : Trie .set} (copied : Copied M k s s' f t t') : 0 < k := by
  cases k with
  | zero => exact copied.copies.elim
  | succ k => exact Nat.succ_pos k

/-- Merging copies makes a copy of what merging the other tries makes. -/
theorem mergeWithin_mirrors (op : SetOperation) {fuel fuel' : Nat} (enough : k + k' ≤ fuel') :
    MergesCopies M k k' (mergeWithin op fuel) (mergeWithin op fuel') := by
  induction fuel' generalizing fuel k k' with
  | zero =>
    intro s₀ s₁ s' f g t t' u u' left right
    have pos := left.pos
    omega
  | succ fuel' ih =>
    intro s₀ s₁ s' f g t t' u u' left right
    have like := left.like
    have like' := right.like
    cases fuel with
    | zero => exact mirrors_throw _
    | succ fuel =>
      have hash : t'.hash = t.hash := congrArg Mark.hash like.mark_eq
      have hash' : u'.hash = u.hash := congrArg Mark.hash like'.mark_eq
      rw [mergeWithin, mergeWithin, hash, hash', like.isEmpty_eq, like'.isEmpty_eq, like.path_eq, like.depth_eq,
        like'.path_eq, like'.depth_eq]
      by_cases equal : t.hash = u.hash
      · rw [if_pos equal, if_pos equal, Merged.both_eq, Merged.both_eq]
        exact mirrors_pure (Merged.one_copies op .both like)
      rw [if_neg equal, if_neg equal]
      by_cases empty : t.node.isEmpty = true
      · rw [if_pos empty, if_pos empty]
        exact mirrors_pure (Merged.one_copies op .right like')
      rw [if_neg empty, if_neg empty]
      by_cases empty' : u.node.isEmpty = true
      · rw [if_pos empty', if_pos empty']
        exact mirrors_pure (Merged.one_copies op .left like)
      rw [if_neg empty', if_neg empty']
      dsimp only
      by_cases apart : Digits.common t.node.path u.node.path (min t.node.depth u.node.depth) <
          min t.node.depth u.node.depth
      · rw [if_pos apart, if_pos apart]
        exact mergeApart_mirrors _ like like'
      rw [if_neg apart, if_neg apart]
      have leftward : ∀ {a a' j} slot, t.node = .branch a → k = j + 1 → BranchCopied M j s₀ s' f a a' →
          Mirrors M (descend op (fun child => mergeWithin op fuel child u) t a .left u .right slot)
            (descend op (fun child => mergeWithin op fuel' child u') t' a' .left u' .right slot) s' fun m m' s₂ =>
              m.Copies M s₂ m' := by
        intro a a' j slot shape levels branch
        refine descend_mirrors branch like shape like' fun s₂ c c' later copied => ?_
        exact ih (by omega) copied (right.later later)
      have rightward : ∀ {b b' j} slot, u.node = .branch b → k' = j + 1 → BranchCopied M j s₁ s' g b b' →
          Mirrors M (descend op (fun child => mergeWithin op fuel t child) u b .right t .left slot)
            (descend op (fun child => mergeWithin op fuel' t' child) u' b' .right t' .left slot) s' fun m m' s₂ =>
              m.Copies M s₂ m' := by
        intro b b' j slot shape levels branch
        refine descend_mirrors branch like' shape like fun s₂ c c' later copied => ?_
        exact ih (by omega) (left.later later) copied
      rcases Node.alike_cases like with ⟨shape, -⟩ | ⟨key, value, value', shape, shape', -⟩ | ⟨a, -, shape, -, -⟩
      · exact absurd (by rw [shape]; rfl) empty
      · rw [shape, shape']
        rcases Node.alike_cases like' with ⟨shape₂, -⟩ | ⟨key₂, value₂, value₂', shape₂, shape₂', -⟩ |
          ⟨b, -, shape₂, -, -⟩
        · exact absurd (by rw [shape₂]; rfl) empty'
        · rw [shape₂, shape₂', Merged.both_eq, Merged.both_eq]
          exact mirrors_pure (Merged.one_copies op .both like)
        · obtain ⟨j, b', levels, shape₂', branch⟩ := right.branch shape₂
          rw [shape₂, shape₂']
          dsimp only
          rw [branch.copies.depth_eq]
          by_cases lt : b.depth < (Node.leaf key value).depth
          · rw [if_pos lt, if_pos (show b.depth < (Node.leaf key value').depth from lt)]
            exact Mirrors.bind_lift fun slot _ => rightward slot shape₂ levels branch
          · rw [if_neg lt]
            exact mirrors_throw _
      · obtain ⟨j, a', levels, shape', branch⟩ := left.branch shape
        rw [shape, shape']
        dsimp only
        rw [like'.depth_eq, branch.copies.depth_eq]
        by_cases lt : a.depth < u.node.depth
        · rw [if_pos lt, if_pos lt, like'.path_eq]
          exact Mirrors.bind_lift fun slot _ => leftward slot shape levels branch
        rw [if_neg lt, if_neg lt]
        rcases Node.alike_cases like' with ⟨shape₂, -⟩ | ⟨key₂, value₂, value₂', shape₂, shape₂', -⟩ |
          ⟨b, -, shape₂, -, -⟩
        · exact absurd (by rw [shape₂]; rfl) empty'
        · rw [shape₂, shape₂']
          exact mirrors_throw _
        · obtain ⟨j', b', levels', shape₂', branch'⟩ := right.branch shape₂
          rw [shape₂, shape₂']
          dsimp only
          rw [branch'.copies.depth_eq, branch.copies.path_eq]
          by_cases level : a.depth = b.depth
          · rw [if_pos level, if_pos level]
            exact mergeBranches_mirrors (ih (by omega)) like like' shape shape₂ branch branch' level.symm
          · rw [if_neg level, if_neg level]
            exact Mirrors.bind_lift fun slot _ => rightward slot shape₂ levels' branch'

/-- An operation on two copies gives a trie that is written as what it makes of the other sets. -/
theorem merge_mirrors (op : SetOperation) {t t' u u' : Trie .set}
    (left : Copied M (TrieKind.maxDigits .set + 1) s₀ s' f t t')
    (right : Copied M (TrieKind.maxDigits .set + 1) s₁ s' g u u') :
    Mirrors M (merge op t u) (merge op t' u') s' fun v v' _ => v'.Matches v := by
  rw [merge, merge]
  refine (levels_mirrors t t' s').bind ?_
  rintro n n' s₂ later enough
  refine (levels_mirrors u u' s₂).bind ?_
  rintro m m' s₃ later' enough'
  have moved := later.trans later'
  refine (mergeWithin_mirrors op (by omega) (left.later moved) (right.later moved)).bind ?_
  rintro x x' s₄ _ copies
  obtain ⟨v, held, -, finds⟩ := copies.leads
  refine (finds.mirrors held).mono ?_
  rintro w v' s₅ ⟨rfl, like⟩
  exact like

end MerkleCells.Trie
