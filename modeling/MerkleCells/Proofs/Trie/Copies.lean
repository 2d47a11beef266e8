import MerkleCells.Proofs.Mirroring
import MerkleCells.Proofs.Trie.Accepted
import MerkleCells.Proofs.Trie.Held
import MerkleCells.Proofs.Trie.Lookup

/-!
Copies of tries whose nodes are not all at hand. A node `Copies` another one, all of which is held directly, if it is
written as that one is, and each of its children leads to a copy of the child there or is missing.
-/
namespace MerkleCells

open MerkleCells.Action

variable {M : Hash → Prop} {kind : TrieKind} {s s' : Session}

/-! ### Nodes that are written alike -/

namespace Trie

/-- Two tries are written alike. -/
def Matches (t' t : Trie kind) : Prop := t'.node.map Ref.mark = t.node.map Ref.mark

namespace Matches

variable {t t' : Trie kind}

theorem refl (t : Trie kind) : t.Matches t := rfl

theorem shows (like : t'.Matches t) : t'.cell.Shows t.cell := by
  rw [Cell.Shows, t.value_eq, t'.value_eq]
  exact congrArg (Value.trie kind) like

theorem mark_eq (like : t'.Matches t) : t'.cell.mark = t.cell.mark := like.shows.mark_eq

theorem count_eq (like : t'.Matches t) : t'.count = t.count := by
  have count := congrArg Node.count like
  rwa [Node.count_map, Node.count_map] at count

end Matches

end Trie

/-! ### Copies -/

namespace Ref

variable {r r' : Ref Cell} {t : Trie kind} {Q : Trie kind → Session → Prop}

/-- However much is loaded, a reference leads to a trie of which `Q` is true, or is missing. -/
def Finds (M : Hash → Prop) (kind : TrieKind) (s : Session) (r : Ref Cell) (Q : Trie kind → Session → Prop) : Prop :=
  ∀ s₁, s.Later s₁ → Answers M (Trie.resolve kind r) s₁ fun t s₂ => s₁.Later s₂ ∧ Q t s₂

theorem Finds.later (finds : r.Finds M kind s Q) (later : s.Later s') : r.Finds M kind s' Q :=
  fun s₁ later' => finds s₁ (later.trans later')

theorem Finds.mono {P : Trie kind → Session → Prop} (finds : r.Finds M kind s P) (sub : ∀ t s₁, P t s₁ → Q t s₁) :
    r.Finds M kind s Q :=
  fun s₁ later => (finds s₁ later).mono fun t s₂ found => ⟨found.1, sub t s₂ found.2⟩

theorem finds_ref {t' : Trie kind} (holds : ∀ s₁, s.Later s₁ → Q t' s₁) : t'.ref.Finds M kind s Q := by
  intro s₁ later
  refine (t'.yields_resolve_direct _ s₁).answers.mono ?_
  rintro u s₂ ⟨rfl, rfl⟩
  exact ⟨.refl s₂, holds s₂ later⟩

/-- Resolving such a reference mirrors resolving one that is held directly. -/
theorem Finds.mirrors (finds : r'.Finds M kind s' Q) (held : r.cell? = some t.cell) :
    Mirrors M (Trie.resolve kind r) (Trie.resolve kind r') s' fun u t' s₁ => u = t ∧ Q t' s₁ := by
  intro s u s₁ run
  rw [Ref.eq_direct held] at run
  obtain ⟨rfl, -⟩ := (t.yields_resolve_direct r.status s).of_result run
  exact (finds s' (.refl s')).mono fun t' s₂ found => ⟨found.1, rfl, found.2⟩

end Ref

/-- A node is written as a node that is held directly, at most some levels of it, and each child leads to a copy of
the child there or is missing. -/
def Node.Copies (M : Hash → Prop) (kind : TrieKind) : Nat → Node (Ref Cell) → Session → Node (Ref Cell) → Prop
  | 0, _, _, _ => False
  | _ + 1, .empty, _, n' => n' = .empty
  | _ + 1, .leaf key value, _, n' => ∃ value', n' = .leaf key value' ∧ value'.mark = value.mark
  | k + 1, .branch b, s, n' => ∃ b', n' = .branch b' ∧ b'.map Ref.mark = b.map Ref.mark ∧
    ∀ d r r', (d, r) ∈ b.children → (d, r') ∈ b'.children → ∃ t : Trie kind, r.cell? = some t.cell ∧
      r'.Finds M kind s fun t' s₁ => Copies M kind k t.node s₁ t'.node

/-- The same of a branch. -/
structure Branch.Copies (M : Hash → Prop) (kind : TrieKind) (k : Nat) (b : Branch (Ref Cell)) (s : Session)
    (b' : Branch (Ref Cell)) : Prop where
  like : b'.map Ref.mark = b.map Ref.mark
  below : ∀ d r r', (d, r) ∈ b.children → (d, r') ∈ b'.children → ∃ t : Trie kind, r.cell? = some t.cell ∧
    r'.Finds M kind s fun t' s₁ => Node.Copies M kind k t.node s₁ t'.node

variable {k : Nat} {n n' : Node (Ref Cell)} {b b' : Branch (Ref Cell)}

namespace Branch.Copies

theorem depth_eq (copies : b.Copies M kind k s b') : b'.depth = b.depth :=
  congrArg (fun c : Branch Mark => c.depth) copies.like

theorem path_eq (copies : b.Copies M kind k s b') : b'.path = b.path :=
  congrArg (fun c : Branch Mark => c.path) copies.like

theorem count_eq (copies : b.Copies M kind k s b') : b'.count = b.count :=
  congrArg (fun c : Branch Mark => c.count) copies.like

theorem own (copies : b.Copies M kind k s b') : b'.entry.map Ref.mark = b.entry.map Ref.mark :=
  congrArg Branch.entry copies.like

theorem kids (copies : b.Copies M kind k s b') :
    (b'.children.map fun c => (c.1, c.2.mark)) = b.children.map fun c => (c.1, c.2.mark) :=
  congrArg Branch.children copies.like

theorem later (copies : b.Copies M kind k s b') (later : s.Later s') : b.Copies M kind k s' b' := by
  refine ⟨copies.like, fun d r r' member member' => ?_⟩
  obtain ⟨t, held, finds⟩ := copies.below d r r' member member'
  exact ⟨t, held, finds.later later⟩

/-- There is a child for a digit just if there is one in the other branch, and it leads to a copy of that one. -/
theorem child (copies : b.Copies M kind k s b') (d : Digit) : (b.child? d = none ∧ b'.child? d = none) ∨
    ∃ (r r' : Ref Cell) (t : Trie kind), b.child? d = some r ∧ b'.child? d = some r' ∧ r'.mark = r.mark ∧
      r.cell? = some t.cell ∧
      r'.Finds M kind s fun t' s₁ => Node.Copies M kind k t.node s₁ t'.node := by
  have marks := child?_map_mark copies.like d
  cases at_d : b.child? d with
  | none =>
    rw [at_d, Option.map_none, Option.map_eq_none_iff] at marks
    exact .inl ⟨rfl, marks⟩
  | some r =>
    rw [at_d, Option.map_some] at marks
    obtain ⟨r', at_d', mark⟩ := Option.map_eq_some_iff.mp marks
    obtain ⟨t, held, finds⟩ := copies.below d r r' (mem_of_childIn at_d) (mem_of_childIn at_d')
    exact .inr ⟨r, r', t, rfl, at_d', mark, held, finds⟩

end Branch.Copies

namespace Node.Copies

theorem branch (copies : Copies M kind (k + 1) (.branch b) s n') : ∃ b', n' = .branch b' ∧ b.Copies M kind k s b' := by
  obtain ⟨b', rfl, like, below⟩ := copies
  exact ⟨b', rfl, like, below⟩

theorem map_mark_eq (copies : Copies M kind k n s n') : n'.map Ref.mark = n.map Ref.mark := by
  cases k with
  | zero => exact copies.elim
  | succ k =>
    cases n with
    | empty => rw [show n' = .empty from copies]
    | leaf key value =>
      obtain ⟨value', rfl, mark⟩ := copies
      rw [Node.map, Node.map, mark]
    | branch b =>
      obtain ⟨b', rfl, branch⟩ := copies.branch
      exact congrArg Node.branch branch.like

theorem later (copies : Copies M kind k n s n') (later : s.Later s') : Copies M kind k n s' n' := by
  cases k with
  | zero => exact copies
  | succ k =>
    cases n with
    | empty => exact copies
    | leaf key value => exact copies
    | branch b =>
      obtain ⟨b', rfl, branch⟩ := copies.branch
      exact ⟨b', rfl, branch.like, (branch.later later).below⟩

theorem count_eq (copies : Copies M kind k n s n') : n'.count = n.count := by
  have count := congrArg Node.count copies.map_mark_eq
  rwa [count_map, count_map] at count

end Node.Copies

/-! ### Children in order -/

/-- Children of one digit that are written alike: the first is held directly, the second leads to a trie that is
related to it, or is missing. -/
structure Trie.Corresponds (M : Hash → Prop) (s : Session) (Q : Trie kind → Trie kind → Session → Prop)
    (c c' : Digit × Ref Cell) : Prop where
  digit_eq : c'.1 = c.1
  mark_eq : c'.2.mark = c.2.mark
  leads : ∃ t : Trie kind, c.2.cell? = some t.cell ∧ c'.2.Finds M kind s (Q t)

theorem Trie.Corresponds.later {Q : Trie kind → Trie kind → Session → Prop} {c c' : Digit × Ref Cell}
    (corresponds : Trie.Corresponds M s Q c c') (later : s.Later s') : Trie.Corresponds M s' Q c c' := by
  obtain ⟨t, held, finds⟩ := corresponds.leads
  exact ⟨corresponds.digit_eq, corresponds.mark_eq, t, held, finds.later later⟩

theorem Trie.Corresponds.mono {P Q : Trie kind → Trie kind → Session → Prop} {c c' : Digit × Ref Cell}
    (corresponds : Trie.Corresponds M s P c c') (sub : ∀ t t' s₁, P t t' s₁ → Q t t' s₁) :
    Trie.Corresponds M s Q c c' := by
  obtain ⟨t, held, finds⟩ := corresponds.leads
  exact ⟨corresponds.digit_eq, corresponds.mark_eq, t, held, finds.mono (sub t)⟩

/-- The second trie copies the first one. -/
abbrev Node.CopiesOf (M : Hash → Prop) (kind : TrieKind) (k : Nat) (t t' : Trie kind) (s : Session) : Prop :=
  Node.Copies M kind k t.node s t'.node

theorem Branch.Copies.children (copies : b.Copies M kind k s b') :
    List.Forall₂ (Trie.Corresponds M s (Node.CopiesOf M kind k)) b.children b'.children := by
  have all : ∀ l l' : List (Digit × Ref Cell), l ⊆ b.children → l' ⊆ b'.children →
      l'.map (fun c => (c.1, c.2.mark)) = l.map (fun c => (c.1, c.2.mark)) →
      List.Forall₂ (Trie.Corresponds M s (Node.CopiesOf M kind k)) l l' := by
    intro l
    induction l with
    | nil =>
      intro l' _ _ same
      rw [List.map_eq_nil_iff.mp same]
      exact .nil
    | cons c rest ih =>
      intro l' within within' same
      cases l' with
      | nil => cases same
      | cons c' rest' =>
        rw [List.map_cons, List.map_cons, List.cons.injEq, Prod.mk.injEq] at same
        obtain ⟨⟨digit, mark⟩, same⟩ := same
        refine .cons ⟨digit, mark, ?_⟩ (ih rest' (List.subset_of_cons_subset within)
          (List.subset_of_cons_subset within') same)
        exact copies.below c.1 c.2 c'.2 (within List.mem_cons_self) (digit ▸ within' List.mem_cons_self)
  exact all _ _ (List.Subset.refl _) (List.Subset.refl _) copies.kids

/-! ### Looking up a key -/

namespace Trie

/-- A walk that has as many levels left as the node has finds what the walk through that node finds. -/
theorem getWithin_mirrors (key : Bytes) {fuel fuel' : Nat} (copies : n.Copies M kind k s' n') (enough : k ≤ fuel') :
    Mirrors M (getWithin kind key fuel n) (getWithin kind key fuel' n') s' fun a a' _ =>
      a'.map Ref.mark = a.map Ref.mark := by
  induction k generalizing fuel fuel' n n' s' with
  | zero => exact copies.elim
  | succ k ih =>
    obtain ⟨fuel', rfl⟩ : ∃ m, fuel' = m + 1 := ⟨fuel' - 1, by omega⟩
    cases fuel with
    | zero => exact mirrors_throw _
    | succ fuel =>
      cases n with
      | empty =>
        rw [show n' = .empty from copies]
        exact mirrors_pure rfl
      | leaf own value =>
        obtain ⟨value', rfl, mark⟩ := copies
        refine mirrors_pure ?_
        by_cases same : own = key
        · rw [if_pos same, if_pos same]
          exact congrArg some mark
        · rw [if_neg same, if_neg same]
      | branch b =>
        obtain ⟨b', rfl, branch⟩ := copies.branch
        rw [getWithin, getWithin]
        simp only [branch.depth_eq, branch.path_eq]
        by_cases begins : Digits.beginsWith key b.path b.depth = true
        · simp only [begins, Bool.not_true, Bool.false_eq_true, ↓reduceIte]
          by_cases ends : Digits.count key = b.depth
          · rw [if_pos ends, if_pos ends]
            exact mirrors_pure branch.own
          · rw [if_neg ends, if_neg ends]
            refine Mirrors.bind_lift fun d here => ?_
            rcases branch.child d with ⟨none, none'⟩ | ⟨r, r', t, at_d, at_d', -, held, finds⟩
            · rw [none, none']
              exact mirrors_pure rfl
            · rw [at_d, at_d']
              refine (finds.mirrors held).bind ?_
              rintro u t' s₁ later ⟨rfl, copies⟩
              exact ih copies (by omega)
        · simp only [begins, Bool.not_false, ↓reduceIte]
          exact mirrors_pure rfl

/-- A walk through a trie has enough levels left for every copy that is no deeper than the keys of its kind. -/
theorem levels_mirrors (t t' : Trie kind) (s' : Session) :
    Mirrors M t.levels t'.levels s' fun _ fuel' _ => kind.maxDigits < fuel' := by
  intro s fuel s₁ run
  refine (t'.yields_levels s').answers.mono ?_
  rintro fuel' s₁' ⟨rfl, enough⟩
  exact ⟨.refl _, enough⟩

theorem get?_mirrors {t t' : Trie kind} (key : Bytes) (copies : t.node.Copies M kind (kind.maxDigits + 1) s' t'.node) :
    Mirrors M (t.get? key) (t'.get? key) s' fun a a' _ => a'.map Ref.mark = a.map Ref.mark := by
  refine (levels_mirrors t t' s').bind ?_
  rintro fuel fuel' s₁ later enough
  exact getWithin_mirrors key (copies.later later) enough

end Trie

end MerkleCells
