import MerkleCells.Proofs.Action
import MerkleCells.Proofs.Content
import MerkleCells.Proofs.Trie.Children
import MerkleCells.Trie.Basic
import MerkleCells.Cell.Reader

/-!
Well-formed tries. `Node.Holds` says in one relation that a node has the form that its entries call for
and which entries these are: what a branch has to be is `Branch.Fits`, and every child `Leads` to a
node that holds the entries below its digit, whether it is held in memory or has to be loaded. An entry's
value is known by its `Mark`, which is all that a parent's encoding tells of it.
-/
namespace MerkleCells

open MerkleCells.Action

/-- What the encoding of a parent tells of a child. -/
structure Mark where
  hash : Hash
  /-- The child's encoding, if it is written inside its parent's. -/
  inlined : Option Bytes
  deriving DecidableEq

/-- What a parent would write of a cell that it holds directly. -/
def Cell.mark (c : Cell) : Mark := ⟨c.hash, if c.embeddable then some c.encoding else none⟩

/-- What a parent writes of a reference. -/
def Ref.mark (r : Ref Cell) : Mark := ⟨r.hash, r.inlined?⟩

@[simp]
theorem Ref.mark_direct (status : Status) (c : Cell) : Ref.mark ⟨status, .direct c⟩ = c.mark := rfl

theorem Ref.beq_iff (r r' : Ref Cell) : (r == r') = true ↔ r.hash = r'.hash := by
  show (r.hash == r'.hash) = true ↔ r.hash = r'.hash
  exact beq_iff_eq

/-- In the form in which a parent holds it, a reference shows what its target shows. -/
theorem Ref.canonical_yields {r : Ref Cell} {s s₁ : Session} {c : Cell} (target : result r.value s = (.ok c, s₁))
    (named : c.hash = r.hash) : Yields r.canonical s fun r' s' => r'.mark = c.mark ∧ s.Later s' := by
  have later := r.later_value s
  rw [target] at later
  obtain ⟨status, cell | ⟨h, loader, byMarker⟩⟩ := r
  · cases target
    exact yields_pure.mpr ⟨rfl, later⟩
  · refine yields_bind.mpr ⟨c, s₁, target, ?_⟩
    dsimp only
    by_cases small : c.embeddable
    · rw [if_pos small]
      exact yields_pure.mpr ⟨rfl, later⟩
    · rw [if_neg small]
      refine yields_pure.mpr ⟨?_, later⟩
      rw [Cell.mark, if_neg small, named]
      rfl

/-- The keys that a trie of a kind can have, with the marks of their values. -/
def TrieKind.Admits : TrieKind → Bytes → Mark → Prop
  | .map, key, _ => 0 < key.length ∧ key.length ≤ Limits.blob
  | .set, key, m => key = m.hash.bytes

/-- Digits of the longest keys of a kind. -/
def TrieKind.maxDigits : TrieKind → Nat
  | .map => 2 * Limits.blob
  | .set => 64

theorem TrieKind.Admits.count_le {kind : TrieKind} {key : Bytes} {m : Mark} (admits : kind.Admits key m) :
    Digits.count key ≤ kind.maxDigits := by
  cases kind with
  | map =>
    have le := admits.2
    simp only [Digits.count, maxDigits]
    omega
  | set =>
    have length : key.length = 32 := by rw [admits, m.hash.length_eq]
    simp [Digits.count, maxDigits, length]

/-- Every binding is one that a trie of a kind can have. -/
def Content.Admitted (kind : TrieKind) (f : Content Mark) : Prop := ∀ k m, f k = some m → kind.Admits k m

theorem Content.Admitted.below {kind : TrieKind} {f : Content Mark} (admitted : f.Admitted kind) (depth : Nat)
    (d : Digit) : (f.below depth d).Admitted kind :=
  fun k m bound => admitted k m (Content.below_eq_some_iff.mp bound).2

theorem Content.Admitted.count_le {kind : TrieKind} {f : Content Mark} (admitted : f.Admitted kind) {k : Bytes}
    (bound : k ∈ f.keys) : Digits.count k ≤ kind.maxDigits := by
  obtain ⟨m, bound⟩ := Option.ne_none_iff_exists'.mp bound
  exact (admitted k m bound).count_le

theorem Content.Admitted.count_eq {f : Content Mark} (admitted : f.Admitted .set) {k : Bytes} (bound : k ∈ f.keys) :
    Digits.count k = 64 := by
  obtain ⟨m, bound⟩ := Option.ne_none_iff_exists'.mp bound
  have key_eq : k = m.hash.bytes := admitted k m bound
  rw [Digits.count, key_eq, m.hash.length_eq]

theorem Content.Admitted.put {kind : TrieKind} {f : Content Mark} (admitted : f.Admitted kind) {key : Bytes}
    {m : Mark} (admits : kind.Admits key m) : (f.put key m).Admitted kind := by
  intro k m' bound
  by_cases same : k = key
  · subst same
    rw [put_self] at bound
    cases bound
    exact admits
  · rw [put_of_ne same] at bound
    exact admitted k m' bound

theorem Content.Admitted.erase {kind : TrieKind} {f : Content Mark} (admitted : f.Admitted kind) (key : Bytes) :
    (f.erase key).Admitted kind := by
  intro k m bound
  by_cases same : k = key
  · subst same
    rw [erase_self] at bound
    cases bound
  · rw [erase_of_ne same] at bound
    exact admitted k m bound

/-! ### Resolving children -/

namespace Trie

variable {kind : TrieKind}

theorem ofCell_cell (t : Trie kind) : ofCell kind t.cell = .ok t := by
  obtain ⟨cell, node, value⟩ := t
  unfold ofCell
  split
  · rename_i found node' value'
    rw [value] at value'
    cases value'
    rw [dif_pos rfl]
  · rename_i other
    exact absurd value (other kind node)

/-- A trie is told by its cell's value alone. -/
theorem encoding_eq (t : Trie kind) : t.cell.encoding = (Value.trie kind t.node).encode := by
  rw [Cell.encoding_eq, t.value_eq]

theorem later_resolve (r : Ref Cell) (s : Session) : s.Later (result (resolve kind r) s).2 := by
  have later := r.later_value s
  rw [resolve, result_bind]
  generalize result r.value s = answer at later
  obtain ⟨_ | cell, s'⟩ := answer <;> exact later

theorem cell_of_ofCell {t : Trie kind} {c : Cell} (found : ofCell kind c = .ok t) : t.cell = c := by
  unfold ofCell at found
  split at found
  · split at found
    · cases found
      rfl
    · cases found
  · cases found

theorem yields_levels (t : Trie kind) (s : Session) :
    Yields t.levels s fun fuel s' => s' = s ∧ kind.maxDigits < fuel := by
  have enough : kind.maxDigits < kind.maxDepth + 2 := by cases kind <;> decide
  refine (yields_stepsBelow t.cell s).bind fun n s' same => yields_pure.mpr ⟨same, ?_⟩
  omega

theorem yields_resolve_direct (t : Trie kind) (status : Status) (s : Session) :
    Yields (resolve kind ⟨status, .direct t.cell⟩) s fun t' s' => t' = t ∧ s' = s :=
  ⟨t, s, by rw [resolve, result_bind, Ref.result_value_direct]; exact Prod.ext (ofCell_cell t) rfl, rfl, rfl⟩

end Trie

/-! ### Branches -/

namespace Branch

/-- What a branch has to be for the entries below it, its children's subtrees apart. -/
structure Fits (b : Branch (Ref Cell)) (f : Content Mark) : Prop where
  /-- The path is whole bytes, the last half of which is zero if it does not count. -/
  path_eq : Digits.leading? b.path b.depth = some b.path
  /-- All keys share the path's digits. -/
  within : f.Within b.path b.depth
  /-- The own entry is that of the key which ends here, if there is one. -/
  entry_eq : b.entry.map Ref.mark = if Digits.count b.path = b.depth then f b.path else none
  /-- The children ascend by digit. -/
  ascending : Ascending b.children
  /-- There is a child for exactly those digits that follow in some key. -/
  child_iff : ∀ d, (b.child? d).isSome ↔ f.below b.depth d ≠ .none
  finite : f.keys.Finite
  /-- The count is the number of entries below. -/
  count_eq : b.count.toNat = f.size

namespace Fits

variable {b : Branch (Ref Cell)} {f : Content Mark}

theorem depth_le_count (fits : b.Fits f) : b.depth ≤ Digits.count b.path :=
  (Digits.leading?_spec fits.path_eq).1.1

theorem eq_path (fits : b.Fits f) {k : Bytes} (bound : k ∈ f.keys) (ends : Digits.count k = b.depth) :
    k = b.path ∧ Digits.count b.path = b.depth := by
  obtain rfl : b.path = k := Digits.eq_of_leading? fits.path_eq (fits.within k bound).symm ends
  exact ⟨rfl, ends⟩

theorem ends_or_digit (fits : b.Fits f) {k : Bytes} (bound : k ∈ f.keys) :
    Digits.count k = b.depth ∨ ∃ d, Digits.digit? k b.depth = some d := by
  rw [Digits.digit?_isSome_iff]
  have le := (fits.within k bound).1
  omega

theorem entry_of_ends (fits : b.Fits f) {key : Bytes} (shares : Digits.Shares b.path key b.depth)
    (ends : Digits.count key = b.depth) : b.entry.map Ref.mark = f key := by
  rw [fits.entry_eq, Digits.eq_of_leading? fits.path_eq shares ends, if_pos ends]

theorem entry_isSome (fits : b.Fits f) (present : b.entry.isSome) :
    Digits.count b.path = b.depth ∧ b.path ∈ f.keys := by
  obtain ⟨r, found⟩ := Option.isSome_iff_exists.mp present
  have entry := fits.entry_eq
  rw [found] at entry
  by_cases ends : Digits.count b.path = b.depth
  · rw [if_pos ends] at entry
    exact ⟨ends, Content.mem_keys_of_eq_some entry.symm⟩
  · rw [if_neg ends] at entry
    cases entry

theorem child_mem (fits : b.Fits f) {c : Digit × Ref Cell} (member : c ∈ b.children) :
    ∃ k ∈ f.keys, Digits.digit? k b.depth = some c.1 := by
  have found : (b.child? c.1).isSome := by
    rw [child?_eq, fits.ascending.childIn_of_mem (show (c.1, c.2) ∈ b.children from member)]
    rfl
  obtain ⟨k, bound⟩ := Content.exists_mem_keys ((fits.child_iff c.1).mp found)
  obtain ⟨here, bound⟩ := Content.mem_keys_below.mp bound
  exact ⟨k, bound, here⟩

/-- The keys below a branch with two occupants part right there. -/
theorem exists_part (fits : b.Fits f) (occupants : 2 ≤ b.occupants) :
    ∃ k ∈ f.keys, ∃ k' ∈ f.keys, ¬ Digits.Shares k k' (b.depth + 1) := by
  have children : ∀ c c' : Digit × Ref Cell, c ∈ b.children → c' ∈ b.children → c.1 < c'.1 →
      ∃ k ∈ f.keys, ∃ k' ∈ f.keys, ¬ Digits.Shares k k' (b.depth + 1) := by
    intro c c' member member' lt
    obtain ⟨k, bound, here⟩ := fits.child_mem member
    obtain ⟨k', bound', here'⟩ := fits.child_mem member'
    refine ⟨k, bound, k', bound', fun shares => ?_⟩
    have same := shares.digit?_eq (Nat.lt_succ_self b.depth)
    rw [here, here', Option.some.injEq] at same
    exact absurd same (ne_of_lt lt)
  have ascending := fits.ascending
  match entries : b.entry, list : b.children with
  | none, [] => simp [Branch.occupants, entries, list] at occupants
  | none, [_] => simp [Branch.occupants, entries, list] at occupants
  | _, c :: c' :: rest =>
    rw [list] at ascending children
    exact children c c' (by simp) (by simp) ((List.pairwise_cons.mp ascending).1 c' (by simp))
  | some r, [] => simp [Branch.occupants, entries, list] at occupants
  | some r, [c] =>
    obtain ⟨ends, bound⟩ := fits.entry_isSome (by rw [entries]; rfl)
    obtain ⟨k, bound', here⟩ := fits.child_mem (c := c) (by rw [list]; simp)
    refine ⟨b.path, bound, k, bound', fun shares => ?_⟩
    have := shares.1
    omega

/-- Keys below a branch share no more digits than it has. -/
theorem le_depth (fits : b.Fits f) (occupants : 2 ≤ b.occupants) {path : Bytes} {n : Nat} (within : f.Within path n) :
    n ≤ b.depth := by
  obtain ⟨k, bound, k', bound', part⟩ := fits.exists_part occupants
  by_contra lt
  exact part (((within k bound).trans (within k' bound').symm).mono (by omega))

end Fits

end Branch

/-! ### Nodes -/

/-- A node has the form that a content calls for, in a session and in all later ones. -/
inductive Node.Holds (kind : TrieKind) : Session → Node (Ref Cell) → Content Mark → Prop
  | empty {s : Session} {f : Content Mark} (content : f = .none) : Holds kind s .empty f
  | leaf {s : Session} {f : Content Mark} (key : Bytes) (value : Ref Cell) (content : f = .single key value.mark) :
      Holds kind s (.leaf key value) f
  | branch {s : Session} {f : Content Mark} (b : Branch (Ref Cell)) (fits : b.Fits f) (occupants : 2 ≤ b.occupants)
      (found : ∀ d r, b.child? d = some r → ∀ s', s.Later s' →
        Yields (Trie.resolve kind r) s' fun t _ => t.cell.mark = r.mark)
      (below : ∀ d r, b.child? d = some r → ∀ s', s.Later s' → ∀ t s'',
        result (Trie.resolve kind r) s' = (.ok t, s'') → Holds kind s'' t.node (f.below b.depth d)) :
      Holds kind s (.branch b) f

/-- A reference leads to a trie that holds a content, now and however much is loaded later, and shows
of it what it would show if it held it directly. -/
def Ref.Leads (kind : TrieKind) (r : Ref Cell) (s : Session) (f : Content Mark) : Prop :=
  ∀ s', s.Later s' → Yields (Trie.resolve kind r) s' fun t s'' =>
    t.cell.mark = r.mark ∧ s'.Later s'' ∧ t.node.Holds kind s'' f

namespace Ref.Leads

variable {kind : TrieKind} {r : Ref Cell} {s s' : Session} {f : Content Mark}

theorem later (leads : r.Leads kind s f) (later : s.Later s') : r.Leads kind s' f :=
  fun _ later' => leads _ (later.trans later')

end Ref.Leads

namespace Node.Holds

variable {kind : TrieKind} {n : Node (Ref Cell)} {s s' : Session} {f : Content Mark} {b : Branch (Ref Cell)}

theorem ofFits (fits : b.Fits f) (occupants : 2 ≤ b.occupants)
    (children : ∀ d r, b.child? d = some r → r.Leads kind s (f.below b.depth d)) : Holds kind s (.branch b) f := by
  refine .branch b fits occupants ?_ ?_
  · intro d r found s' later
    exact (children d r found s' later).mono fun t s'' holds => holds.1
  · intro d r found s' later t s'' run
    exact ((children d r found s' later).of_result run).2.2

theorem fits (holds : Holds kind s (.branch b) f) : b.Fits f := by
  cases holds with
  | branch _ fits => exact fits

theorem occupants (holds : Holds kind s (.branch b) f) : 2 ≤ b.occupants := by
  cases holds with
  | branch _ _ occupants => exact occupants

theorem leads (holds : Holds kind s (.branch b) f) {d : Digit} {r : Ref Cell} (at_d : b.child? d = some r) :
    r.Leads kind s (f.below b.depth d) := by
  cases holds with
  | branch _ _ _ found below =>
    intro s' later
    obtain ⟨t, s'', run, mark⟩ := found d r at_d s' later
    have later' : s'.Later (result (Trie.resolve kind r) s').2 := Trie.later_resolve r s'
    rw [run] at later'
    exact ⟨t, s'', run, mark, later', below d r at_d s' later t s'' run⟩

theorem later (holds : Holds kind s n f) (later : s.Later s') : Holds kind s' n f := by
  cases holds with
  | empty content => exact .empty content
  | leaf key value content => exact .leaf key value content
  | branch b fits occupants found below =>
    exact .branch b fits occupants (fun d r at_d s'' later' => found d r at_d s'' (later.trans later'))
      (fun d r at_d s'' later' => below d r at_d s'' (later.trans later'))

theorem finite (holds : Holds kind s n f) : f.keys.Finite := by
  cases holds with
  | empty content =>
    rw [content, Content.keys_eq_empty_iff.mpr rfl]
    exact Set.finite_empty
  | leaf key value content =>
    rw [content, Content.keys_single]
    exact Set.finite_singleton key
  | branch b fits => exact fits.finite

theorem count_eq (holds : Holds kind s n f) : n.count.toNat = f.size := by
  cases holds with
  | empty content =>
    rw [content, Content.size_none]
    rfl
  | leaf key value content =>
    rw [content, Content.size_single]
    rfl
  | branch b fits => exact fits.count_eq

theorem within (holds : Holds kind s n f) : f.Within n.path n.depth := by
  cases holds with
  | empty content =>
    subst content
    exact fun k bound => absurd rfl bound
  | leaf key value content =>
    subst content
    intro k bound
    rw [Content.keys_single] at bound
    cases bound
    exact .refl (Nat.le_refl _)
  | branch b fits => exact fits.within

theorem isEmpty_iff (holds : Holds kind s n f) : n.isEmpty ↔ f = .none := by
  cases holds with
  | empty content => simp [Node.isEmpty, content]
  | leaf key value content =>
    have bound : key ∈ f.keys := by rw [content, Content.keys_single]; rfl
    have ne : f ≠ .none := fun empty => by rw [Content.keys_eq_empty_iff.mpr empty] at bound; exact bound
    simp [Node.isEmpty, ne]
  | branch b fits occupants =>
    obtain ⟨k, bound, -⟩ := fits.exists_part occupants
    have ne : f ≠ .none := fun empty => by rw [Content.keys_eq_empty_iff.mpr empty] at bound; exact bound
    simp [Node.isEmpty, ne]

/-- Of the digits that all keys share, a node that is not empty has all. -/
theorem le_depth (holds : Holds kind s n f) (nonempty : f ≠ .none) {path : Bytes} {m : Nat} (within : f.Within path m) :
    m ≤ n.depth := by
  cases holds with
  | empty content => exact absurd content nonempty
  | leaf key value content =>
    have bound : key ∈ f.keys := by rw [content, Content.keys_single]; rfl
    exact (within key bound).1
  | branch b fits occupants => exact fits.le_depth occupants within

theorem depth_le_count (holds : Holds kind s n f) : n.depth ≤ Digits.count n.path := by
  cases holds with
  | empty => exact Nat.zero_le _
  | leaf key value content => exact Nat.le_refl _
  | branch b fits => exact fits.depth_le_count

/-- A node is no deeper than its keys. -/
theorem depth_le (holds : Holds kind s n f) (admitted : f.Admitted kind) : n.depth ≤ kind.maxDigits := by
  by_cases empty : f = .none
  · have isEmpty := holds.isEmpty_iff.mpr empty
    cases n with
    | empty => exact Nat.zero_le _
    | leaf key value => cases isEmpty
    | branch b => cases isEmpty
  · obtain ⟨k, bound⟩ := Content.exists_mem_keys empty
    exact Nat.le_trans (holds.within k bound).1 (admitted.count_le bound)

end Node.Holds

theorem Branch.Fits.within_below {b : Branch (Ref Cell)} {f : Content Mark} (fits : b.Fits f) {d : Digit} {k : Bytes}
    (bound : k ∈ (f.below b.depth d).keys) : (f.below b.depth d).Within k (b.depth + 1) := by
  intro k' bound'
  obtain ⟨here, bound⟩ := Content.mem_keys_below.mp bound
  obtain ⟨here', bound'⟩ := Content.mem_keys_below.mp bound'
  exact ((fits.within k' bound').trans (fits.within k bound).symm).succ here' here

theorem Node.Holds.depth_lt {kind : TrieKind} {b : Branch (Ref Cell)} {f : Content Mark} (fits : b.Fits f) {d : Digit}
    {n : Node (Ref Cell)} {s : Session} (holds : n.Holds kind s (f.below b.depth d)) (nonempty : f.below b.depth d ≠ .none) :
    b.depth < n.depth := by
  obtain ⟨k, bound⟩ := Content.exists_mem_keys nonempty
  exact holds.le_depth nonempty (fits.within_below bound)

theorem Trie.leads_direct {kind : TrieKind} {t : Trie kind} {s : Session} {f : Content Mark}
    (holds : t.node.Holds kind s f) (status : Status) : Ref.Leads kind ⟨status, .direct t.cell⟩ s f := by
  intro s' later
  refine (t.yields_resolve_direct status s').mono ?_
  rintro t' s'' ⟨rfl, rfl⟩
  exact ⟨rfl, .refl _, holds.later later⟩

theorem Trie.leads_ref {kind : TrieKind} {t : Trie kind} {s : Session} {f : Content Mark}
    (holds : t.node.Holds kind s f) : t.ref.Leads kind s f := leads_direct holds _

/-! ### Parts -/

namespace Branch

variable {kind : TrieKind} {s s' : Session} {children : List (Digit × Ref Cell)} {depth : Nat} {f g : Content Mark}

/-- Children at a depth lead to the parts of a content, one for each part that has bindings. -/
def Parts (kind : TrieKind) (s : Session) (children : List (Digit × Ref Cell)) (depth : Nat) (f : Content Mark) :
    Prop :=
  ∀ d, (childIn children d = none → f.below depth d = .none) ∧
    ∀ r, childIn children d = some r → f.below depth d ≠ .none ∧ r.Leads kind s (f.below depth d)

namespace Parts

theorem child_iff (parts : Parts kind s children depth f) (d : Digit) :
    (childIn children d).isSome ↔ f.below depth d ≠ .none := by
  obtain ⟨absent, present⟩ := parts d
  cases found : childIn children d with
  | none => simp [absent found]
  | some r => simp [(present r found).1]

theorem later (parts : Parts kind s children depth f) (later : s.Later s') : Parts kind s' children depth f :=
  fun d => ⟨(parts d).1, fun r found => ⟨((parts d).2 r found).1, ((parts d).2 r found).2.later later⟩⟩

theorem setChild (parts : Parts kind s children depth f) (ascending : Ascending children) {d : Digit} {r : Ref Cell}
    (nonempty : g.below depth d ≠ .none) (leads : r.Leads kind s (g.below depth d))
    (others : ∀ e, d ≠ e → g.below depth e = f.below depth e) :
    Parts kind s (Branch.setChild d r children) depth g := by
  intro e
  rw [childIn_setChild d e r ascending]
  by_cases here : d = e
  · subst here
    simp only [↓reduceIte, reduceCtorEq, false_implies, Option.some.injEq, true_and]
    rintro r' rfl
    exact ⟨nonempty, leads⟩
  · rw [if_neg here, others e here]
    exact parts e

theorem eraseChild (parts : Parts kind s children depth f) {d : Digit} (gone : g.below depth d = .none)
    (others : ∀ e, d ≠ e → g.below depth e = f.below depth e) :
    Parts kind s (Branch.eraseChild d children) depth g := by
  intro e
  rw [childIn_eraseChild]
  by_cases here : d = e
  · subst here
    simp [gone]
  · rw [if_neg here, others e here]
    exact parts e

theorem single {d : Digit} {r : Ref Cell} (leads : r.Leads kind s f) (nonempty : f ≠ .none)
    (all : ∀ k ∈ f.keys, Digits.digit? k depth = some d) : Parts kind s [(d, r)] depth f := by
  intro e
  rw [childIn_cons, childIn_nil]
  by_cases here : d = e
  · subst here
    rw [Content.below_eq_self all]
    simp only [↓reduceIte, reduceCtorEq, false_implies, Option.some.injEq, true_and]
    rintro r' rfl
    exact ⟨nonempty, leads⟩
  · have gone : f.below depth e = .none := Content.below_eq_none fun k bound at_e => here (by
      rw [all k bound, Option.some.injEq] at at_e
      exact at_e)
    simp [here, gone]

theorem nil (all : ∀ k ∈ f.keys, Digits.count k ≤ depth) : Parts kind s [] depth f := by
  intro e
  have gone : f.below depth e = .none := Content.below_eq_none fun k bound at_e => by
    have inside := Digits.lt_count at_e
    have le := all k bound
    omega
  simp [gone]

end Parts

end Branch

theorem Node.Holds.parts {kind : TrieKind} {s : Session} {b : Branch (Ref Cell)} {f : Content Mark}
    (holds : Node.Holds kind s (.branch b) f) : Branch.Parts kind s b.children b.depth f := by
  intro d
  have iff := holds.fits.child_iff d
  refine ⟨fun absent => ?_, fun r found => ⟨iff.mp ?_, holds.leads found⟩⟩
  · rw [Branch.child?_eq, absent] at iff
    exact not_not.mp fun nonempty => absurd (iff.mpr nonempty) (by simp)
  · rw [Branch.child?_eq, found]
    rfl

theorem Node.Holds.ofParts {kind : TrieKind} {s : Session} {b : Branch (Ref Cell)} {f : Content Mark}
    (path_eq : Digits.leading? b.path b.depth = some b.path) (within : f.Within b.path b.depth)
    (entry_eq : b.entry.map Ref.mark = if Digits.count b.path = b.depth then f b.path else none)
    (ascending : Branch.Ascending b.children) (parts : Branch.Parts kind s b.children b.depth f)
    (finite : f.keys.Finite) (count_eq : b.count.toNat = f.size) (occupants : 2 ≤ b.occupants) :
    Node.Holds kind s (.branch b) f :=
  .ofFits ⟨path_eq, within, entry_eq, ascending, parts.child_iff, finite, count_eq⟩ occupants
    fun d _ found => ((parts d).2 _ found).2

end MerkleCells
