import MerkleCells.Proofs.Trie.Copies
import MerkleCells.Trie.Update

/-!
Changes of copies. A change of a copy leaves a trie that is written as the one that the same change of the other trie
leaves, unless a child is missing that it has to look at.
-/
namespace MerkleCells

open MerkleCells.Action

variable {M : Hash → Prop} {kind : TrieKind} {s s' : Session} {k : Nat}

namespace Branch

section

variable {P : Digit × Ref Cell → Digit × Ref Cell → Prop} {children children' : List (Digit × Ref Cell)} {d : Digit}
  {r r' : Ref Cell}

/-- Children are put in place alike where the others are at the same digits. -/
theorem forall₂_setChild (digits : ∀ c c', P c c' → c'.1 = c.1) (all : List.Forall₂ P children children')
    (new : P (d, r) (d, r')) : List.Forall₂ P (Branch.setChild d r children) (Branch.setChild d r' children') := by
  induction all with
  | nil => exact .cons new .nil
  | @cons c c' rest rest' first others ih =>
    rw [Branch.setChild, Branch.setChild, digits c c' first]
    by_cases before : d < c.1
    · rw [if_pos before, if_pos before]
      exact .cons new (.cons first others)
    rw [if_neg before, if_neg before]
    by_cases here : c.1 = d
    · rw [if_pos here, if_pos here]
      exact .cons new others
    · rw [if_neg here, if_neg here]
      exact .cons first ih

theorem forall₂_eraseChild (digits : ∀ c c', P c c' → c'.1 = c.1) (all : List.Forall₂ P children children')
    (d : Digit) : List.Forall₂ P (Branch.eraseChild d children) (Branch.eraseChild d children') := by
  induction all with
  | nil => exact .nil
  | @cons c c' rest rest' first others ih =>
    rw [Branch.eraseChild, Branch.eraseChild, List.filter_cons, List.filter_cons, digits c c' first]
    split
    · exact .cons first ih
    · exact ih

end

/-- Children that are written alike, at the same digits. -/
def Alike : List (Digit × Ref Cell) → List (Digit × Ref Cell) → Prop :=
  List.Forall₂ fun c c' => c'.1 = c.1 ∧ c'.2.mark = c.2.mark

variable {children children' : List (Digit × Ref Cell)}

theorem Alike.setChild (alike : Alike children children') (d : Digit) {r r' : Ref Cell} (mark : r'.mark = r.mark) :
    Alike (Branch.setChild d r children) (Branch.setChild d r' children') :=
  forall₂_setChild (fun _ _ same => same.1) alike ⟨rfl, mark⟩

/-- Branches with such children are written alike if the rest is. -/
theorem Alike.map_mark_eq (alike : Alike children children') {entry entry' : Option (Ref Cell)}
    (own : entry'.map Ref.mark = entry.map Ref.mark) (depth : Nat) (path : Bytes) (count : UInt64) :
    (Branch.map Ref.mark ⟨depth, path, entry', children', count⟩) =
      Branch.map Ref.mark ⟨depth, path, entry, children, count⟩ := by
  have kids : (children'.map fun c => (c.1, c.2.mark)) = children.map fun c => (c.1, c.2.mark) := by
    induction alike with
    | nil => rfl
    | cons same _ ih => rw [List.map_cons, List.map_cons, ih, same.1, same.2]
  rw [Branch.map, Branch.map, kids, own]

theorem alike_of_corresponds {Q : Trie kind → Trie kind → Session → Prop}
    (all : List.Forall₂ (Trie.Corresponds M s Q) children children') : Alike children children' :=
  all.imp fun _ _ corresponds => ⟨corresponds.digit_eq, corresponds.mark_eq⟩

end Branch

/-- Nodes that are written alike are of one shape. -/
theorem Node.alike_cases {n n' : Node (Ref Cell)} (like : n'.map Ref.mark = n.map Ref.mark) :
    (n = .empty ∧ n' = .empty) ∨
      (∃ key value value', n = .leaf key value ∧ n' = .leaf key value' ∧ value'.mark = value.mark) ∨
      ∃ b b', n = .branch b ∧ n' = .branch b' ∧ b'.map Ref.mark = b.map Ref.mark := by
  cases n with
  | empty =>
    cases n' with
    | empty => exact .inl ⟨rfl, rfl⟩
    | leaf => cases like
    | branch => cases like
  | leaf key value =>
    cases n' with
    | empty => cases like
    | leaf key' value' =>
      rw [Node.map, Node.map, Node.leaf.injEq] at like
      obtain ⟨rfl, mark⟩ := like
      exact .inr (.inl ⟨_, value, value', rfl, rfl, mark⟩)
    | branch => cases like
  | branch b =>
    cases n' with
    | empty => cases like
    | leaf => cases like
    | branch b' =>
      rw [Node.map, Node.map, Node.branch.injEq] at like
      exact .inr (.inr ⟨b, b', rfl, rfl, like⟩)

namespace Trie

variable {t t' : Trie kind} {value value' : Ref Cell} {key : Bytes}

theorem matches_branch (kind : TrieKind) {b b' : Branch (Ref Cell)} (like : b'.map Ref.mark = b.map Ref.mark) :
    (Trie.ofNode kind (.branch b')).Matches (Trie.ofNode kind (.branch b)) := congrArg Node.branch like

theorem Matches.ref_mark (like : t'.Matches t) : t'.ref.mark = t.ref.mark := like.mark_eq

theorem matches_leaf (kind : TrieKind) (key : Bytes) (mark : value'.mark = value.mark) :
    (leaf kind key value').Matches (leaf kind key value) := congrArg (Node.leaf key) mark

theorem beq_congr {r r' q q' : Ref Cell} (left : r'.mark = r.mark) (right : q'.mark = q.mark) :
    (r' == q') = (r == q) := by
  rw [Bool.eq_iff_iff, Ref.beq_iff, Ref.beq_iff]
  have left : r'.hash = r.hash := congrArg Mark.hash left
  have right : q'.hash = q.hash := congrArg Mark.hash right
  rw [left, right]

/-! ### Inserting -/

theorem Matches.depth_eq (like : t'.Matches t) : t'.node.depth = t.node.depth := by
  have depth := congrArg Node.depth like
  rwa [Node.depth_map, Node.depth_map] at depth

theorem Matches.path_eq (like : t'.Matches t) : t'.node.path = t.node.path := by
  have path := congrArg Node.path like
  rwa [Node.path_map, Node.path_map] at path

theorem Matches.isEmpty_eq (like : t'.Matches t) : t'.node.isEmpty = t.node.isEmpty := by
  have isEmpty := congrArg Node.isEmpty like
  rwa [Node.isEmpty_map, Node.isEmpty_map] at isEmpty

/-- Forks of tries that are written alike are written alike. -/
theorem Matches.fork (like : t'.Matches t) (mark : value'.mark = value.mark) (depth : Nat) (key : Bytes) :
    Passes (fun u u' => u'.Matches u) (t.fork depth key value) (t'.fork depth key value') := by
  rw [Trie.fork, Trie.fork]
  refine (passes_same _).bind ?_
  rintro path _ rfl
  have placed : ∀ entry entry' children children', entry'.map Ref.mark = entry.map Ref.mark →
      Branch.Alike children children' →
      Passes (fun u u' => u'.Matches u)
        (if Digits.count key = depth then do
          let count ← addCounts t.count 1
          pure (Trie.ofNode kind (.branch ⟨depth, path, some value, children, count⟩))
        else do
          let d ← digitAt key depth
          let count ← addCounts t.count 1
          pure (Trie.ofNode kind (.branch
            ⟨depth, path, entry, Branch.setChild d (leaf kind key value).ref children, count⟩)))
        (if Digits.count key = depth then do
          let count ← addCounts t'.count 1
          pure (Trie.ofNode kind (.branch ⟨depth, path, some value', children', count⟩))
        else do
          let d ← digitAt key depth
          let count ← addCounts t'.count 1
          pure (Trie.ofNode kind (.branch
            ⟨depth, path, entry', Branch.setChild d (leaf kind key value').ref children', count⟩))) := by
    intro entry entry' children children' own kids
    rw [like.count_eq]
    by_cases ends : Digits.count key = depth
    · rw [if_pos ends, if_pos ends]
      refine (passes_same _).bind ?_
      rintro count _ rfl
      have new : (some value').map Ref.mark = (some value).map Ref.mark := congrArg some mark
      exact passes_pure (matches_branch kind (kids.map_mark_eq new _ _ _))
    · rw [if_neg ends, if_neg ends]
      refine (passes_same _).bind ?_
      rintro d _ rfl
      refine (passes_same _).bind ?_
      rintro count _ rfl
      have set := kids.setChild d (matches_leaf kind key mark).ref_mark
      exact passes_pure (matches_branch kind (set.map_mark_eq own _ _ _))
  rw [like.depth_eq, like.path_eq]
  by_cases here : t.node.depth = depth
  · rw [if_pos here, if_pos here]
    rcases Node.alike_cases like with ⟨shape, shape'⟩ | ⟨k, own, own', shape, shape', same⟩ | ⟨b, b', shape, shape', -⟩
    · rw [shape, shape']
      exact fun u failed => by cases failed
    · rw [shape, shape']
      exact placed (some own) (some own') [] [] (congrArg some same) .nil
    · rw [shape, shape']
      exact fun u failed => by cases failed
  · rw [if_neg here, if_neg here]
    refine (passes_same _).bind ?_
    rintro d _ rfl
    exact placed none none _ _ rfl (.cons ⟨rfl, like.ref_mark⟩ .nil)

theorem any_beq_congr {entry entry' : Option (Ref Cell)} (own : entry'.map Ref.mark = entry.map Ref.mark)
    (mark : value'.mark = value.mark) : entry'.any (· == value') = entry.any (· == value) := by
  cases entry with
  | none =>
    rw [Option.map_none, Option.map_eq_none_iff] at own
    rw [own]
    rfl
  | some r =>
    rw [Option.map_some] at own
    obtain ⟨r', rfl, same⟩ := Option.map_eq_some_iff.mp own
    exact beq_congr same mark

theorem isNone_congr {entry entry' : Option (Ref Cell)} (own : entry'.map Ref.mark = entry.map Ref.mark) :
    entry'.isNone = entry.isNone := by
  have none := congrArg Option.isNone own
  rwa [Option.isNone_map, Option.isNone_map] at none

/-- Inserting into a copy leaves the key bound to the same, or leaves what is written like the other trie afterwards. -/
theorem insertWithin_mirrors (key : Bytes) (mark : value'.mark = value.mark) {fuel fuel' : Nat}
    (copies : t.node.Copies M kind k s' t'.node) (enough : k ≤ fuel') :
    Mirrors M (insertWithin key value fuel t) (insertWithin key value' fuel' t') s' fun u u' _ =>
      Option.Rel (fun u u' => u'.Matches u) u u' := by
  induction k generalizing fuel fuel' t t' s' with
  | zero => exact copies.elim
  | succ k ih =>
    obtain ⟨fuel', rfl⟩ : ∃ m, fuel' = m + 1 := ⟨fuel' - 1, by omega⟩
    cases fuel with
    | zero => exact mirrors_throw _
    | succ fuel =>
      have like : t'.Matches t := copies.map_mark_eq
      rw [insertWithin, insertWithin]
      cases shape : t.node with
      | empty =>
        rw [shape] at copies
        rw [show t'.node = .empty from copies]
        exact mirrors_pure (.some (matches_leaf kind key mark))
      | leaf k₀ own =>
        rw [shape] at copies
        obtain ⟨own', shape', same⟩ := copies
        rw [shape']
        dsimp only
        by_cases here : k₀ = key
        · rw [if_pos here, if_pos here, beq_congr same mark]
          refine mirrors_pure ?_
          split
          · exact .none
          · exact .some (matches_leaf kind key mark)
        · rw [if_neg here, if_neg here]
          refine (mirrors_lift (like.fork mark _ key)).bind ?_
          rintro u u' s₁ later forked
          exact mirrors_pure (.some forked)
      | branch b =>
        rw [shape] at copies
        obtain ⟨b', shape', branch⟩ := copies.branch
        have alike := Branch.alike_of_corresponds branch.children
        rw [shape']
        dsimp only
        rw [branch.depth_eq, branch.path_eq, branch.count_eq]
        by_cases above : Digits.common b.path key b.depth < b.depth
        · rw [if_pos above, if_pos above]
          refine (mirrors_lift (like.fork mark _ key)).bind ?_
          rintro u u' s₁ later forked
          exact mirrors_pure (.some forked)
        rw [if_neg above, if_neg above]
        by_cases ends : Digits.count key = b.depth
        · rw [if_pos ends, if_pos ends, any_beq_congr branch.own mark, isNone_congr branch.own]
          by_cases known : b.entry.any (· == value) = true
          · rw [if_pos known, if_pos known]
            exact mirrors_pure .none
          · rw [if_neg known, if_neg known]
            refine Mirrors.bind_lift fun count _ => ?_
            have new : (some value').map Ref.mark = (some value).map Ref.mark := congrArg some mark
            exact mirrors_pure (.some (matches_branch kind (alike.map_mark_eq new _ _ _)))
        · rw [if_neg ends, if_neg ends]
          refine Mirrors.bind_lift fun d here => ?_
          rcases branch.child d with ⟨none, none'⟩ | ⟨r, r', c, at_d, at_d', same, held, finds⟩
          · rw [none, none']
            refine Mirrors.bind_lift fun count _ => ?_
            have kids := alike.setChild d (matches_leaf kind key mark).ref_mark
            exact mirrors_pure (.some (matches_branch kind (kids.map_mark_eq branch.own _ _ _)))
          · rw [at_d, at_d']
            refine (finds.mirrors held).bind ?_
            rintro u c' s₁ later ⟨rfl, below⟩
            refine (ih below (by omega)).bind ?_
            rintro updated updated' s₂ later' related
            have count : c'.count = u.count := below.count_eq
            cases related with
            | none => exact mirrors_pure .none
            | some like =>
              dsimp only
              rw [count, like.count_eq]
              refine Mirrors.bind_lift fun total adjusted => ?_
              have kids := alike.setChild d like.ref_mark
              exact mirrors_pure (.some (matches_branch kind (kids.map_mark_eq branch.own _ _ _)))

theorem insert_mirrors (key : Bytes) (direct : value.isDirect = true)
    (copies : t.node.Copies M kind (kind.maxDigits + 1) s' t'.node) :
    Mirrors M (t.insert key value) (t'.insert key value) s'
      fun u u' _ => Option.Rel (fun u u' => u'.Matches u) u u' := by
  have canonical : value.canonical = pure value := by
    obtain ⟨c, held⟩ := Option.isSome_iff_exists.mp direct
    rw [Ref.eq_direct held]
    rfl
  rw [Trie.insert, Trie.insert, canonical, pure_bind, pure_bind]
  refine (levels_mirrors t t' s').bind ?_
  rintro fuel fuel' s₁ later enough
  exact insertWithin_mirrors key rfl (copies.later later) enough

/-! ### Removing -/

/-- What is left of two branches that are written alike is written alike. A lone child has to be looked at. -/
theorem build_mirrors {depth : Nat} {path : Bytes} {entry entry' : Option (Ref Cell)}
    {children children' : List (Digit × Ref Cell)} {count : UInt64} (own : entry'.map Ref.mark = entry.map Ref.mark)
    (kids : List.Forall₂ (Corresponds M s' fun (u u' : Trie kind) _ => u'.Matches u) children children') :
    Mirrors M (build ⟨depth, path, entry, children, count⟩) (build ⟨depth, path, entry', children', count⟩) s'
      fun (u u' : Trie kind) _ => u'.Matches u := by
  have whole := (Branch.alike_of_corresponds kids).map_mark_eq own depth path count
  cases entry with
  | none =>
    rw [Option.map_none, Option.map_eq_none_iff] at own
    subst own
    cases kids with
    | nil => exact mirrors_pure (.refl _)
    | cons first others =>
      cases others with
      | nil =>
        obtain ⟨u, held, finds⟩ := first.leads
        refine (finds.mirrors held).mono ?_
        rintro t t' s₁ ⟨rfl, like⟩
        exact like
      | cons => exact mirrors_pure (matches_branch kind whole)
  | some value =>
    rw [Option.map_some] at own
    obtain ⟨value', rfl, mark⟩ := Option.map_eq_some_iff.mp own
    cases kids with
    | nil => exact mirrors_pure (matches_leaf kind path mark)
    | cons => exact mirrors_pure (matches_branch kind whole)

/-- Children go on to lead to tries that are written alike when one of them changes, or goes because nothing is left of
it. -/
theorem corresponds_changed {children children' : List (Digit × Ref Cell)} {v v' : Trie kind}
    (kids : List.Forall₂ (Corresponds M s' fun (u u' : Trie kind) _ => u'.Matches u) children children')
    (like : v'.Matches v) (d : Digit) : List.Forall₂ (Corresponds M s' fun (u u' : Trie kind) _ => u'.Matches u)
      (if v.count = 0 then Branch.eraseChild d children else Branch.setChild d v.ref children)
      (if v.count = 0 then Branch.eraseChild d children' else Branch.setChild d v'.ref children') := by
  by_cases gone : v.count = 0
  · rw [if_pos gone, if_pos gone]
    exact Branch.forall₂_eraseChild (fun _ _ c => c.digit_eq) kids d
  · rw [if_neg gone, if_neg gone]
    exact Branch.forall₂_setChild (fun _ _ c => c.digit_eq) kids
      ⟨rfl, like.ref_mark, v, rfl, Ref.finds_ref fun _ _ => like⟩

/-- Removing from a copy finds the key unbound as well, or leaves what is written like the other trie afterwards. -/
theorem eraseWithin_mirrors (key : Bytes) {fuel fuel' : Nat} (copies : t.node.Copies M kind k s' t'.node)
    (enough : k ≤ fuel') :
    Mirrors M (eraseWithin key fuel t) (eraseWithin key fuel' t') s' fun u u' _ =>
      Option.Rel (fun u u' => u'.Matches u) u u' := by
  induction k generalizing fuel fuel' t t' s' with
  | zero => exact copies.elim
  | succ k ih =>
    obtain ⟨fuel', rfl⟩ : ∃ m, fuel' = m + 1 := ⟨fuel' - 1, by omega⟩
    cases fuel with
    | zero => exact mirrors_throw _
    | succ fuel =>
      rw [eraseWithin, eraseWithin]
      cases shape : t.node with
      | empty =>
        rw [shape] at copies
        rw [show t'.node = .empty from copies]
        exact mirrors_pure .none
      | leaf k₀ own =>
        rw [shape] at copies
        obtain ⟨own', shape', same⟩ := copies
        rw [shape']
        refine mirrors_pure ?_
        by_cases here : k₀ = key
        · rw [if_pos here]
          exact .some (.refl _)
        · rw [if_neg here]
          exact .none
      | branch b =>
        rw [shape] at copies
        obtain ⟨b', shape', branch⟩ := copies.branch
        have kids : ∀ s₁, s'.Later s₁ → List.Forall₂ (Corresponds M s₁ fun (u u' : Trie kind) _ => u'.Matches u)
            b.children b'.children := fun s₁ later =>
          branch.children.imp fun _ _ corresponds => (corresponds.later later).mono fun u u' _ copies =>
            copies.map_mark_eq
        rw [shape']
        dsimp only
        rw [branch.depth_eq, branch.path_eq, branch.count_eq]
        by_cases begins : Digits.beginsWith key b.path b.depth = true
        · simp only [begins, Bool.not_true, Bool.false_eq_true, ↓reduceIte]
          by_cases ends : Digits.count key = b.depth
          · rw [if_pos ends, if_pos ends, isNone_congr branch.own]
            by_cases unbound : b.entry.isNone = true
            · rw [if_pos unbound, if_pos unbound]
              exact mirrors_pure .none
            · rw [if_neg unbound, if_neg unbound]
              refine Mirrors.bind_lift fun count adjusted => ?_
              refine (build_mirrors rfl (kids s' (.refl s'))).bind ?_
              rintro u u' s₁ later like
              exact mirrors_pure (.some like)
          · rw [if_neg ends, if_neg ends]
            refine Mirrors.bind_lift fun d here => ?_
            rcases branch.child d with ⟨none, none'⟩ | ⟨r, r', c, at_d, at_d', same, held, finds⟩
            · rw [none, none']
              exact mirrors_pure .none
            · rw [at_d, at_d']
              refine (finds.mirrors held).bind ?_
              rintro u c' s₁ later ⟨rfl, below⟩
              refine (ih below (by omega)).bind ?_
              rintro updated updated' s₂ later' related
              have count : c'.count = u.count := below.count_eq
              cases related with
              | none => exact mirrors_pure .none
              | @some v v' like =>
                dsimp only
                rw [count, like.count_eq]
                refine Mirrors.bind_lift fun total adjusted => ?_
                have changed := corresponds_changed (kids s₂ (later.trans later')) like d
                refine (build_mirrors branch.own changed).bind ?_
                rintro w w' s₃ later'' like'
                exact mirrors_pure (.some like')
        · simp only [begins, Bool.not_false, ↓reduceIte]
          exact mirrors_pure .none

theorem erase_mirrors (key : Bytes) (copies : t.node.Copies M kind (kind.maxDigits + 1) s' t'.node) :
    Mirrors M (t.erase key) (t'.erase key) s' fun u u' _ => Option.Rel (fun u u' => u'.Matches u) u u' := by
  refine (levels_mirrors t t' s').bind ?_
  rintro fuel fuel' s₁ later enough
  exact eraseWithin_mirrors key (copies.later later) enough

end Trie

end MerkleCells
