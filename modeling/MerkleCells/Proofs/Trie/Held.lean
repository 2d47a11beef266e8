import MerkleCells.Proofs.Trie.Uniqueness

/-!
Ways of holding a node. Each child of a branch may be held directly, or be known by its hash and loaded from a
cache or a store, as long as it can be resolved: `Node.HeldAs` says that two nodes differ in nothing else. What
a node holds does not depend on it (`Node.HeldAs.holds`).
-/
namespace MerkleCells

open MerkleCells.Action

/-- The second node is the first one, with its children held in another way, in another session. -/
inductive Node.HeldAs (kind : TrieKind) : Session → Node (Ref Cell) → Session → Node (Ref Cell) → Prop
  | empty (s s' : Session) : HeldAs kind s .empty s' .empty
  | leaf {s s' : Session} {key : Bytes} {value value' : Ref Cell} (same : value'.mark = value.mark) :
      HeldAs kind s (.leaf key value) s' (.leaf key value')
  | branch {s s' : Session} {b b' : Branch (Ref Cell)} (same : b'.map Ref.mark = b.map Ref.mark)
      (found : ∀ d r', b'.child? d = some r' → ∀ s₁', s'.Later s₁' → ∃ t' s₂',
        result (Trie.resolve kind r') s₁' = (.ok t', s₂'))
      (below : ∀ d r r', b.child? d = some r → b'.child? d = some r' → ∀ s₁ s₁', s.Later s₁ → s'.Later s₁' →
        ∀ t s₂ t' s₂', result (Trie.resolve kind r) s₁ = (.ok t, s₂) →
          result (Trie.resolve kind r') s₁' = (.ok t', s₂') → HeldAs kind s₂ t.node s₂' t'.node) :
      HeldAs kind s (.branch b) s' (.branch b')

variable {kind : TrieKind} {s s' : Session} {n n' : Node (Ref Cell)} {f : Content Mark}

namespace Node.HeldAs

theorem map_mark_eq (held : HeldAs kind s n s' n') : n'.map Ref.mark = n.map Ref.mark := by
  cases held with
  | empty => rfl
  | leaf same => rw [Node.map, Node.map, same]
  | branch same => exact congrArg Node.branch same

theorem shows {t t' : Trie kind} (held : HeldAs kind s t.node s' t'.node) : t'.cell.Shows t.cell := by
  rw [Cell.Shows, t.value_eq, t'.value_eq]
  exact congrArg (Value.trie kind) held.map_mark_eq

end Node.HeldAs

namespace Branch

variable {b b' : Branch (Ref Cell)}

theorem child?_map_mark (same : b'.map Ref.mark = b.map Ref.mark) (d : Digit) :
    (b'.child? d).map Ref.mark = (b.child? d).map Ref.mark := by
  have children := congrArg Branch.children same
  rw [child?_eq, child?_eq, ← childIn_map, ← childIn_map]
  exact congrArg (childIn · d) children

theorem Fits.ofShown (fits : b.Fits f) (same : b'.map Ref.mark = b.map Ref.mark) : b'.Fits f := by
  have depth : b'.depth = b.depth := congrArg (fun c : Branch Mark => c.depth) same
  have path : b'.path = b.path := congrArg (fun c : Branch Mark => c.path) same
  have entry : b'.entry.map Ref.mark = b.entry.map Ref.mark := congrArg Branch.entry same
  have count : b'.count = b.count := congrArg (fun c : Branch Mark => c.count) same
  have children : (b'.children.map fun c => (c.1, c.2.mark)) = b.children.map fun c => (c.1, c.2.mark) :=
    congrArg Branch.children same
  refine ⟨?_, ?_, ?_, ?_, fun d => ?_, fits.finite, ?_⟩
  · rw [depth, path]
    exact fits.path_eq
  · rw [depth, path]
    exact fits.within
  · rw [depth, path, entry]
    exact fits.entry_eq
  · have ascending := fits.ascending.map Ref.mark
    rw [← children] at ascending
    rw [Ascending, List.pairwise_map] at ascending
    exact ascending
  · have child := congrArg Option.isSome (child?_map_mark same d)
    rw [Option.isSome_map, Option.isSome_map] at child
    rw [child, depth]
    exact fits.child_iff d
  · rw [count]
    exact fits.count_eq

theorem occupants_eq (same : b'.map Ref.mark = b.map Ref.mark) : b'.occupants = b.occupants := by
  have entry : (b'.entry.map Ref.mark).toList.length = (b.entry.map Ref.mark).toList.length :=
    congrArg (fun c => c.entry.toList.length) same
  have children : (b'.map Ref.mark).children.length = (b.map Ref.mark).children.length :=
    congrArg (fun c => c.children.length) same
  have length : ∀ o : Option (Ref Cell), (o.map Ref.mark).toList.length = o.toList.length := fun o => by
    cases o <;> rfl
  simp only [length] at entry
  simp only [Branch.map, List.length_map] at children
  rw [Branch.occupants, Branch.occupants, entry, children]

end Branch

/-- A node holds what it holds in whatever way its children are held. -/
theorem Node.HeldAs.holds (held : HeldAs kind s n s' n') (holds : n.Holds kind s f) : n'.Holds kind s' f := by
  induction held generalizing f with
  | empty s s' =>
    cases holds with
    | empty content => exact .empty content
  | leaf same =>
    cases holds with
    | leaf _ _ content => exact .leaf _ _ (by rw [content, same])
  | @branch s s' b b' same found below ih =>
    have fits' := holds.fits.ofShown same
    have depth : b'.depth = b.depth := congrArg (fun c : Branch Mark => c.depth) same
    refine .ofFits fits' (by rw [Branch.occupants_eq same]; exact holds.occupants) ?_
    intro d r' at_d' s₁' later'
    have child := Branch.child?_map_mark same d
    rw [at_d'] at child
    obtain ⟨r, at_d, mark⟩ := Option.map_eq_some_iff.mp child.symm
    obtain ⟨t, s₂, run, shown, -, holds_t⟩ := holds.leads at_d s (.refl s)
    obtain ⟨t', s₂', run'⟩ := found d r' at_d' s₁' later'
    have later : s₁'.Later (result (Trie.resolve kind r') s₁').2 := Trie.later_resolve r' s₁'
    rw [run'] at later
    have held := below d r r' at_d at_d' s s₁' (.refl s) later' t s₂ t' s₂' run run'
    refine ⟨t', s₂', run', ?_, later, ?_⟩
    · rw [held.shows.mark_eq, shown, mark]
    · rw [depth]
      exact ih d r r' at_d at_d' s s₁' (.refl s) later' t s₂ t' s₂' run run' holds_t

/-- Nodes with the same content are two ways of holding one node. -/
theorem Node.Holds.heldAs (holds : n.Holds kind s f) (holds' : n'.Holds kind s' f) : n.HeldAs kind s s' n' := by
  have same := holds'.map_mark_eq holds
  induction holds generalizing n' s' with
  | empty content =>
    cases n' with
    | empty => exact .empty _ _
    | leaf key value => cases same
    | branch b => cases same
  | leaf key value content =>
    cases n' with
    | empty => cases same
    | leaf key' value' =>
      rw [Node.map, Node.map, Node.leaf.injEq] at same
      obtain ⟨rfl, mark⟩ := same
      exact .leaf mark
    | branch b => cases same
  | @branch s f b fits occupants found below ih =>
    cases n' with
    | empty => cases same
    | leaf key value => cases same
    | branch b' =>
      have same : b'.map Ref.mark = b.map Ref.mark := by
        rw [Node.map, Node.map, Node.branch.injEq] at same
        exact same
      have depth : b'.depth = b.depth := congrArg (fun c : Branch Mark => c.depth) same
      refine .branch same ?_ ?_
      · intro d r' at_d' s₁' later'
        obtain ⟨t', s₂', run', -⟩ := holds'.leads at_d' s₁' later'
        exact ⟨t', s₂', run'⟩
      · intro d r r' at_d at_d' s₁ s₁' later later' t s₂ t' s₂' run run'
        have child' := ((holds'.leads at_d' s₁' later').of_result run').2.2
        rw [depth] at child'
        exact ih d r at_d s₁ later t s₂ run child' (child'.map_mark_eq (below d r at_d s₁ later t s₂ run))

end MerkleCells
