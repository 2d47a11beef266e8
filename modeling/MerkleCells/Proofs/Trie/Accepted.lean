import Mathlib.Algebra.Order.BigOperators.Group.List
import Mathlib.Data.Set.Finite.Lattice
import MerkleCells.Proofs.Canonical
import MerkleCells.Proofs.Trie.Decoding

/-!
Accepted tries whose children are all held directly are well-formed. The checks of one branch are local to it;
together they make its own entry and what its children hold the content of the branch (`Branch.assembled`), which
has the path, the digits and the count that the branch says.
-/
namespace MerkleCells

open MerkleCells.Action

/-! ### The content of a branch, put together -/

/-- What the children of a branch hold, by their digits. -/
structure Branch.Holding (b : Branch (Ref Cell)) (parts : Digit → Content Mark) : Prop where
  child_iff : ∀ d, (b.child? d).isSome ↔ parts d ≠ .none
  shares : ∀ d, ∀ k ∈ (parts d).keys, Digits.Shares k b.path b.depth
  digit : ∀ d, ∀ k ∈ (parts d).keys, Digits.digit? k b.depth = some d
  finite : ∀ d, (parts d).keys.Finite

/-- The own entry of a branch together with what its children hold. -/
def Branch.assembled (b : Branch (Ref Cell)) (parts : Digit → Content Mark) : Content Mark := fun k =>
  match Digits.digit? k b.depth with
  | some d => parts d k
  | none => if k = b.path then b.entry.map Ref.mark else none

namespace Branch

variable {kind : TrieKind} {b : Branch (Ref Cell)} {parts : Digit → Content Mark} {k : Bytes} {d : Digit}

theorem assembled_of_digit (here : Digits.digit? k b.depth = some d) : b.assembled parts k = parts d k := by
  simp [assembled, here]

theorem assembled_of_none (ends : Digits.digit? k b.depth = none) :
    b.assembled parts k = if k = b.path then b.entry.map Ref.mark else none := by
  simp [assembled, ends]

theorem of_assembled {m : Mark} (bound : b.assembled parts k = some m) :
    (∃ d, parts d k = some m) ∨ k = b.path ∧ ∃ r, b.entry = some r ∧ r.mark = m := by
  cases here : Digits.digit? k b.depth with
  | some d =>
    rw [assembled_of_digit here] at bound
    exact .inl ⟨d, bound⟩
  | none =>
    rw [assembled_of_none here] at bound
    by_cases same : k = b.path
    · rw [if_pos same] at bound
      exact .inr ⟨same, Option.map_eq_some_iff.mp bound⟩
    · rw [if_neg same] at bound
      cases bound

/-- The own entry of a branch that readers accept has the path as its key. -/
theorem Readable.path_ends (readable : b.Readable kind) (own : b.entry.isSome) :
    kind = .map ∧ Digits.count b.path = b.depth ∧ 0 < b.path.length ∧ b.path.length ≤ Limits.blob := by
  obtain ⟨rfl, pos, even⟩ := readable.entry own
  have length := (Digits.leading?_spec readable.path_eq).2.1
  have le := readable.depth_le
  simp only [TrieKind.maxDepth] at le
  exact ⟨rfl, by rw [Digits.count]; omega, by omega, by omega⟩

namespace Holding

theorem below_assembled (holding : b.Holding parts) (d : Digit) : (b.assembled parts).below b.depth d = parts d := by
  funext k
  by_cases here : Digits.digit? k b.depth = some d
  · rw [Content.below_of_digit here, assembled_of_digit here]
  · rw [Content.below_of_ne here]
    exact (Content.eq_none_of_notMem fun bound => here (holding.digit d k bound)).symm

theorem mem_keys (holding : b.Holding parts) (readable : b.Readable kind) (bound : k ∈ (b.assembled parts).keys) :
    (∃ d, k ∈ (parts d).keys ∧ Digits.digit? k b.depth = some d) ∨
      k = b.path ∧ b.entry.isSome ∧ Digits.count b.path = b.depth := by
  obtain ⟨m, bound⟩ := Option.ne_none_iff_exists'.mp bound
  rcases of_assembled bound with ⟨d, bound⟩ | ⟨same, r, own, -⟩
  · have bound := Content.mem_keys_of_eq_some bound
    exact .inl ⟨d, bound, holding.digit d k bound⟩
  · have own : b.entry.isSome := by rw [own]; rfl
    exact .inr ⟨same, own, (readable.path_ends own).2.1⟩

theorem within (holding : b.Holding parts) (readable : b.Readable kind) :
    (b.assembled parts).Within b.path b.depth := by
  intro k bound
  rcases holding.mem_keys readable bound with ⟨d, bound, -⟩ | ⟨rfl, -, ends⟩
  · exact holding.shares d k bound
  · exact .refl ends.ge

theorem finite_assembled (holding : b.Holding parts) (readable : b.Readable kind) :
    (b.assembled parts).keys.Finite := by
  refine ((Set.finite_iUnion holding.finite).insert b.path).subset ?_
  intro k bound
  rcases holding.mem_keys readable bound with ⟨d, bound, -⟩ | ⟨same, -, -⟩
  · exact .inr (Set.mem_iUnion.mpr ⟨d, bound⟩)
  · exact .inl same

theorem entry_eq (readable : b.Readable kind) : b.entry.map Ref.mark =
    if Digits.count b.path = b.depth then b.assembled parts b.path else none := by
  by_cases ends : Digits.count b.path = b.depth
  · rw [if_pos ends, assembled_of_none ((Digits.digit?_eq_none_iff _ _).mpr ends.le), if_pos rfl]
  · rw [if_neg ends]
    cases own : b.entry with
    | none => rfl
    | some r => exact absurd (readable.path_ends (by rw [own]; rfl)).2.1 ends

theorem mem_keys_of_ends (holding : b.Holding parts) (readable : b.Readable kind) (bound : k ∈ (b.assembled parts).keys)
    (ends : Digits.count k = b.depth) : k = b.path ∧ b.entry.isSome := by
  rcases holding.mem_keys readable bound with ⟨d, -, here⟩ | ⟨same, own, -⟩
  · exact absurd (Digits.lt_count here) (by omega)
  · exact ⟨same, own⟩

theorem ncard_ends (holding : b.Holding parts) (readable : b.Readable kind) :
    {k ∈ (b.assembled parts).keys | Digits.count k = b.depth}.ncard = b.entry.toList.length := by
  cases own : b.entry with
  | none =>
    have empty : {k ∈ (b.assembled parts).keys | Digits.count k = b.depth} = ∅ := by
      rw [Set.eq_empty_iff_forall_notMem]
      rintro k ⟨bound, ends⟩
      have present := (holding.mem_keys_of_ends readable bound ends).2
      simp [own] at present
    rw [empty, Set.ncard_empty]
    rfl
  | some r =>
    obtain ⟨-, ends, -⟩ := readable.path_ends (by rw [own]; rfl)
    have bound : b.path ∈ (b.assembled parts).keys := by
      rw [Content.mem_keys, assembled_of_none ((Digits.digit?_eq_none_iff _ _).mpr ends.le), if_pos rfl, own]
      simp
    have single : {k ∈ (b.assembled parts).keys | Digits.count k = b.depth} = {b.path} := by
      ext k
      constructor
      · rintro ⟨bound, ends⟩
        exact (holding.mem_keys_of_ends readable bound ends).1
      · rintro rfl
        exact ⟨bound, ends⟩
    rw [single, Set.ncard_singleton]
    rfl

theorem size_assembled (holding : b.Holding parts) (readable : b.Readable kind) :
    (b.assembled parts).size = b.entry.toList.length + (b.children.map fun c => (parts c.1).size).sum := by
  have distinct : (b.children.map (·.1)).Nodup := List.pairwise_map.mpr (readable.ascending.imp fun lt => ne_of_lt lt)
  have all : ∀ k ∈ (b.assembled parts).keys, ∀ d, Digits.digit? k b.depth = some d → d ∈ b.children.map (·.1) := by
    intro k bound d here
    have nonempty := Content.below_ne_none bound here
    rw [holding.below_assembled] at nonempty
    obtain ⟨r, found⟩ := Option.isSome_iff_exists.mp ((holding.child_iff d).mpr nonempty)
    exact List.mem_map_of_mem (f := (·.1)) (mem_of_childIn found)
  rw [Content.size_eq_sum (holding.finite_assembled readable) (holding.within readable) distinct all,
    holding.ncard_ends readable, List.map_map]
  simp only [Function.comp_def, holding.below_assembled]

/-- A branch that readers accept fits its own entry and what its children hold, if its count is that of both. -/
theorem fits (holding : b.Holding parts) (readable : b.Readable kind)
    (count_eq : b.count.toNat = b.entry.toList.length + (b.children.map fun c => (parts c.1).size).sum) :
    b.Fits (b.assembled parts) where
  path_eq := readable.path_eq
  within := holding.within readable
  entry_eq := entry_eq readable
  ascending := readable.ascending
  child_iff d := by rw [holding.below_assembled, holding.child_iff]
  finite := holding.finite_assembled readable
  count_eq := by rw [count_eq, holding.size_assembled readable]

end Holding

end Branch

/-! ### Children that the reader has looked at -/

namespace Branch

variable {kind : TrieKind} {b : Branch (Ref Cell)}

/-- A child that is held directly is a node that extends the branch by its digit. -/
def Grows (kind : TrieKind) (b : Branch (Ref Cell)) (c : Digit × Ref Cell) : Prop :=
  ∀ cell, c.2.cell? = some cell → ∃ node, cell.value = .trie kind node ∧ node.isEmpty = false ∧
    b.depth < node.depth ∧ Digits.Shares node.path b.path b.depth ∧ Digits.digit? node.path b.depth = some c.1

theorem grows_of_addChild {total total' : UInt64} {c : Digit × Ref Cell}
    (added : addChild kind b total c = .ok total') : Grows kind b c := by
  intro cell held
  rw [addChild, held] at added
  cases value : cell.value with
  | trie kind' node =>
    simp only [value] at added
    by_cases alien : kind' ≠ kind
    · rw [if_pos alien] at added
      cases added
    rw [if_neg alien] at added
    by_cases empty : node.isEmpty
    · rw [if_pos empty] at added
      cases added
    rw [if_neg empty] at added
    by_cases astray : node.depth ≤ b.depth ∨ !Digits.beginsWith node.path b.path b.depth ∨
        Digits.digit? node.path b.depth ≠ some c.1
    · rw [if_pos astray] at added
      cases added
    simp only [not_or, not_not, Bool.not_eq_true', Bool.not_eq_false] at astray
    obtain ⟨deeper, begins, digit⟩ := astray
    exact ⟨node, by rw [not_not.mp alien], Bool.eq_false_iff.mpr empty, not_le.mp deeper,
      (Digits.beginsWith_iff _ _ _).mp begins, digit⟩
  | _ =>
    simp only [value] at added
    cases added

theorem grows_of_foldlM {children : List (Digit × Ref Cell)} {total total' : UInt64}
    (added : children.foldlM (addChild kind b) total = .ok total') : ∀ c ∈ children, Grows kind b c := by
  induction children generalizing total with
  | nil => simp
  | cons c rest ih =>
    rw [List.foldlM_cons] at added
    cases first : addChild kind b total c with
    | error e =>
      rw [first] at added
      cases added
    | ok next =>
      rw [first] at added
      rintro c' (_ | ⟨_, member⟩)
      · exact grows_of_addChild first
      · exact ih added c' member

/-- What the reader's look at the children of a branch has found out. -/
theorem of_checkChildren (checked : b.checkChildren kind = .ok ()) : ∃ total,
    b.children.foldlM (addChild kind b) (if b.entry.isSome then 1 else 0) = .ok total ∧
      (b.children.all (·.2.isDirect) → total = b.count) := by
  rw [checkChildren] at checked
  cases sum : b.children.foldlM (addChild kind b) (if b.entry.isSome then 1 else 0) with
  | error e =>
    simp only [sum] at checked
    cases checked
  | ok total =>
    refine ⟨total, rfl, fun all => ?_⟩
    by_contra wrong
    simp [sum, bind, Except.bind, all, wrong] at checked

/-- If all children are held directly, their sizes and the own entry make up the count. -/
theorem count_eq_of_checkChildren (checked : b.checkChildren kind = .ok ()) (sizes : Digit → Nat)
    (direct : b.children.all (·.2.isDirect)) (fits : ∀ c ∈ b.children, Extends kind b sizes c)
    (room : b.entry.toList.length + (b.children.map fun c => sizes c.1).sum < UInt64.size) :
    b.count.toNat = b.entry.toList.length + (b.children.map fun c => sizes c.1).sum := by
  obtain ⟨total, run, whole⟩ := of_checkChildren checked
  have sum := inMemory_of_direct sizes direct
  obtain ⟨total', run', value⟩ := foldlM_addChild (if b.entry.isSome then 1 else 0) fits
    (by rw [toNat_own, sum]; exact room)
  rw [run] at run'
  cases run'
  rw [← whole direct, value, toNat_own, sum]

end Branch

/-! ### Accepted tries -/

/-- All values are written inside the nodes. -/
def Content.Inlined (f : Content Mark) : Prop := ∀ k m, f k = some m → m.inlined.isSome

/-- A content that a cell's trie holds, no larger than the encoding in which it is written. -/
structure Cell.HoldsInside (c : Cell) (kind : TrieKind) (s : Session) (n : Node (Ref Cell)) (f : Content Mark) : Prop where
  holds : n.Holds kind s f
  admitted : f.Admitted kind
  inlined : f.Inlined
  size_le : f.size ≤ c.encoding.length

theorem Branch.size_le_payload {kind : TrieKind} {b : Branch (Ref Cell)} (sizes : Digit → Nat)
    (may : b.entry.isSome → kind = .map) (each : ∀ c ∈ b.children, sizes c.1 ≤ c.2.written.length) :
    b.entry.toList.length + (b.children.map fun c => sizes c.1).sum ≤ (b.payload kind).length := by
  have below : (b.children.map fun c => sizes c.1).sum ≤ (b.children.flatMap fun c => c.2.written).length := by
    rw [List.length_flatMap]
    exact List.sum_le_sum each
  have own : b.entry.toList.length ≤ (Branch.entryBytes kind b.entry).length := by
    cases entry : b.entry with
    | none => exact Nat.zero_le _
    | some r =>
      obtain rfl := may (by rw [entry]; rfl)
      simp [Branch.entryBytes]
  simp only [Branch.payload_eq, List.length_append]
  omega

theorem Ref.eq_direct {r : Ref Cell} {c : Cell} (held : r.cell? = some c) : r = ⟨r.status, .direct c⟩ := by
  obtain ⟨status, target | _⟩ := r
  · cases held
    rfl
  · cases held

theorem Ref.cell_of_isEmbedded {r : Ref Cell} (inside : r.isEmbedded) :
    ∃ c, r.cell? = some c ∧ c.embeddable ∧ r.written = c.encoding := by
  obtain ⟨e, inlined⟩ := Option.isSome_iff_exists.mp inside
  obtain ⟨c, held, small, rfl, -⟩ := Ref.inlined?_eq_some inlined
  exact ⟨c, held, small, by rw [Ref.written, inlined, Option.getD_some]⟩

theorem Cell.isEmbedded_of_embeddable {c : Cell} (small : c.embeddable) : ∀ r ∈ c.refs, r.isEmbedded := by
  rw [Cell.embeddable_eq, Bool.and_eq_true, List.all_eq_true] at small
  exact small.1

/-- A child is held directly as a node that extends its branch by its digit, and holds a content. -/
structure Branch.Part (kind : TrieKind) (s : Session) (b : Branch (Ref Cell)) (d : Digit) (r : Ref Cell)
    (f : Content Mark) (cell : Cell) (node : Node (Ref Cell)) : Prop where
  target : r = ⟨r.status, .direct cell⟩
  value : cell.value = .trie kind node
  written : r.written = cell.encoding
  nonempty : node.isEmpty = false
  deeper : b.depth < node.depth
  shares : Digits.Shares node.path b.path b.depth
  digit : Digits.digit? node.path b.depth = some d
  inside : cell.HoldsInside kind s node f

/-- Each child of a branch holds the content of its digit, and digits without a child have none. -/
def Branch.Parted (kind : TrieKind) (s : Session) (b : Branch (Ref Cell)) (parts : Digit → Content Mark) : Prop :=
  ∀ d, (b.child? d = none → parts d = .none) ∧
    ∀ r, b.child? d = some r → ∃ cell node, Part kind s b d r (parts d) cell node

namespace Branch.Parted

variable {kind : TrieKind} {s : Session} {b : Branch (Ref Cell)} {parts : Digit → Content Mark}

theorem of_bound (parted : b.Parted kind s parts) {d : Digit} {k : Bytes} {m : Mark} (bound : parts d k = some m) :
    ∃ r cell node, b.child? d = some r ∧ Part kind s b d r (parts d) cell node := by
  cases found : b.child? d with
  | none =>
    rw [(parted d).1 found] at bound
    cases bound
  | some r =>
    obtain ⟨cell, node, part⟩ := (parted d).2 r found
    exact ⟨r, cell, node, rfl, part⟩

theorem of_mem (parted : b.Parted kind s parts) (readable : b.Readable kind) {c : Digit × Ref Cell}
    (member : c ∈ b.children) : ∃ cell node, Part kind s b c.1 c.2 (parts c.1) cell node :=
  (parted c.1).2 c.2 (readable.ascending.childIn_of_mem member)

theorem holding (parted : b.Parted kind s parts) : b.Holding parts := by
  have keys : ∀ d, ∀ k ∈ (parts d).keys, Digits.Shares k b.path b.depth ∧ Digits.digit? k b.depth = some d := by
    intro d k bound
    obtain ⟨m, bound'⟩ := Option.ne_none_iff_exists'.mp bound
    obtain ⟨r, cell, node, -, part⟩ := parted.of_bound bound'
    have within := part.inside.holds.within k bound
    exact ⟨(within.mono part.deeper.le).trans part.shares, (within.digit?_eq part.deeper).trans part.digit⟩
  refine ⟨fun d => ?_, fun d k bound => (keys d k bound).1, fun d k bound => (keys d k bound).2, fun d => ?_⟩
  · cases found : b.child? d with
    | none => simp [(parted d).1 found]
    | some r =>
      obtain ⟨cell, node, part⟩ := (parted d).2 r found
      have ne : parts d ≠ .none := by
        intro none
        have empty := part.inside.holds.isEmpty_iff.mpr none
        simp [part.nonempty] at empty
      simp [ne]
  · cases found : b.child? d with
    | none => simp [(parted d).1 found, Content.keys_eq_empty_iff.mpr]
    | some r =>
      obtain ⟨cell, node, part⟩ := (parted d).2 r found
      exact part.inside.holds.finite

theorem size_le (parted : b.Parted kind s parts) (readable : b.Readable kind) :
    b.entry.toList.length + (b.children.map fun c => (parts c.1).size).sum ≤ ((Node.branch b).payload kind).length := by
  have le := Branch.size_le_payload (fun d => (parts d).size) (fun own => (readable.entry own).1) fun c member => by
    obtain ⟨cell, node, part⟩ := parted.of_mem readable member
    rw [part.written]
    exact part.inside.size_le
  simp only [Node.payload, List.length_append]
  omega

theorem count_eq (parted : b.Parted kind s parts) (readable : b.Readable kind)
    (checked : b.checkChildren kind = .ok ()) :
    b.count.toNat = b.entry.toList.length + (b.children.map fun c => (parts c.1).size).sum := by
  apply Branch.count_eq_of_checkChildren checked fun d => (parts d).size
  · rw [List.all_eq_true]
    intro c member
    obtain ⟨cell, node, part⟩ := parted.of_mem readable member
    rw [part.target]
    rfl
  · intro c member cell held
    obtain ⟨cell', node, part⟩ := parted.of_mem readable member
    rw [part.target] at held
    cases held
    exact ⟨node, part.value, part.nonempty, part.deeper, part.shares, part.digit, part.inside.holds.count_eq⟩
  · have le := parted.size_le readable
    have short := readable.length_payload_lt
    have room : Limits.encoding < UInt64.size := by decide
    omega

/-- A branch that readers accept holds its own entry and what its children hold. -/
theorem holdsInside (parted : b.Parted kind s parts) (readable : b.Readable kind)
    (checked : b.checkChildren kind = .ok ()) {c : Cell} (value : c.value = .trie kind (.branch b))
    (inside : ∀ r ∈ b.entry, r.isEmbedded) : c.HoldsInside kind s (.branch b) (b.assembled parts) := by
  have holding := parted.holding
  constructor
  · refine .ofFits (holding.fits readable (parted.count_eq readable checked)) readable.occupants fun d r found => ?_
    obtain ⟨cell, node, part⟩ := (parted d).2 r found
    rw [holding.below_assembled, part.target]
    exact @Trie.leads_direct kind ⟨cell, node, part.value⟩ s _ part.inside.holds r.status
  · intro k m bound
    rcases Branch.of_assembled bound with ⟨d, bound⟩ | ⟨rfl, r, own, -⟩
    · obtain ⟨r, cell, node, -, part⟩ := parted.of_bound bound
      exact part.inside.admitted k m bound
    · obtain ⟨rfl, -, pos, le⟩ := readable.path_ends (by rw [own]; rfl)
      exact ⟨pos, le⟩
  · intro k m bound
    rcases Branch.of_assembled bound with ⟨d, bound⟩ | ⟨rfl, r, own, rfl⟩
    · obtain ⟨r, cell, node, -, part⟩ := parted.of_bound bound
      exact part.inside.inlined k m bound
    · exact inside r own
  · have le := parted.size_le readable
    rw [holding.size_assembled readable, Cell.encoding_eq, value]
    show _ ≤ (kind.tag :: (Node.branch b).payload kind).length
    rw [List.length_cons]
    omega

end Branch.Parted

namespace Cell.Accepted

variable {loader : Option LoaderId} {kind : TrieKind} {c : Cell}

/-- Each digit of an accepted branch has the content that its child holds, if it has one. -/
theorem exists_parted {b : Branch (Ref Cell)} {s : Session} (grows : ∀ c ∈ b.children, Branch.Grows kind b c)
    (inside : ∀ r ∈ b.refs, r.isEmbedded)
    (below : ∀ r ∈ b.refs, ∀ d, r.cell? = some d → ∀ n, d.value = .trie kind n → (∀ r ∈ d.refs, r.isEmbedded) →
      ∃ f, d.HoldsInside kind s n f) : ∃ parts, b.Parted kind s parts := by
  have each : ∀ d, ∃ f : Content Mark, (b.child? d = none → f = .none) ∧
      ∀ r, b.child? d = some r → ∃ cell node, Branch.Part kind s b d r f cell node := by
    intro d
    cases found : b.child? d with
    | none => exact ⟨.none, fun _ => rfl, fun r none => by cases none⟩
    | some r =>
      have member := Branch.mem_of_childIn found
      have at_r : r ∈ b.refs := List.mem_append_right _ (List.mem_map_of_mem (f := (·.2)) member)
      obtain ⟨cell, held, small, written⟩ := Ref.cell_of_isEmbedded (inside r at_r)
      obtain ⟨node, value, nonempty, deeper, shares, here⟩ := grows _ member cell held
      obtain ⟨f, holds⟩ := below r at_r cell held node value (Cell.isEmbedded_of_embeddable small)
      refine ⟨f, fun none => (by cases none), ?_⟩
      rintro _ ⟨⟩
      exact ⟨cell, node, Ref.eq_direct held, value, written, nonempty, deeper, shares, here, holds⟩
  choose parts parted using each
  exact ⟨parts, parted⟩

/-- An accepted trie whose children are all written inside it is well-formed. -/
theorem holds (accepted : c.Accepted loader) {n : Node (Ref Cell)} (value : c.value = .trie kind n)
    (inside : ∀ r ∈ c.refs, r.isEmbedded) (s : Session) : ∃ f, c.HoldsInside kind s n f := by
  -- by induction on what is held directly, down to the nodes without children
  induction accepted generalizing n with
  | intro c accepted refs children ih =>
    have node := accepted.2 kind n value
    have refs_eq : c.refs = n.refs := by rw [Cell.refs, value]; rfl
    rw [refs_eq] at inside ih
    have pos : 1 ≤ c.encoding.length := by rw [Cell.encoding_eq_cons, List.length_cons]; omega
    cases n with
    | empty =>
      have nothing : ∀ k m, (Content.none : Content Mark) k ≠ some m := by
        intro k m bound
        cases bound
      exact ⟨.none, .empty rfl, fun k m bound => absurd bound (nothing k m), fun k m bound => absurd bound (nothing k m),
        by rw [Content.size_none]; omega⟩
    | leaf key r =>
      have only : ∀ k m, Content.single key r.mark k = some m → k = key ∧ m = r.mark := by
        intro k m bound
        by_cases same : k = key <;> simp_all [Content.single]
      refine ⟨.single key r.mark, .leaf key r rfl, ?_, ?_, by rw [Content.size_single]; exact pos⟩
      · intro k m bound
        obtain ⟨rfl, rfl⟩ := only k m bound
        exact node
      · intro k m bound
        obtain ⟨rfl, rfl⟩ := only k m bound
        exact inside r (by simp [Node.refs])
    | branch b =>
      obtain ⟨readable, checked⟩ := node
      obtain ⟨total, run, -⟩ := Branch.of_checkChildren checked
      obtain ⟨parts, parted⟩ := exists_parted (s := s) (Branch.grows_of_foldlM run) inside
        fun r member d held n value inside => ih r member d held value inside
      refine ⟨_, parted.holdsInside readable checked value fun r own => inside r ?_⟩
      simp [Node.refs, Branch.refs, Option.mem_def.mp own]

end Cell.Accepted

end MerkleCells
