import MerkleCells.Proofs.Canonical
import MerkleCells.Proofs.Markers

/-!
Cells that are obtained, by making them or by decoding whatever bytes a decoder takes. All of them can be read back
(`Cell.Obtained.readable`), so whether a parent writes such a cell inside its own encoding is told by the bytes of that
cell alone (`Cell.Obtained.embeddable_iff`).
-/
namespace MerkleCells

open MerkleCells.Action Reader

namespace Branch

variable {kind : TrieKind} {b : Branch (Ref Cell)} {image : Ref Cell → Ref Cell}

/-- What the reader of branches asks of a child depends on what that child shows. -/
theorem addChild_map (total : UInt64) {c : Digit × Ref Cell}
    (same : (image c.2).cell?.map (·.value.map Ref.mark) = c.2.cell?.map (·.value.map Ref.mark)) :
    addChild kind (b.map image) total (c.1, image c.2) = addChild kind b total c := by
  rw [addChild, addChild]
  cases held : c.2.cell? with
  | none =>
    rw [held, Option.map_none, Option.map_eq_none_iff] at same
    simp only [same]
  | some d =>
    rw [held, Option.map_some] at same
    obtain ⟨d', held', shows⟩ := Option.map_eq_some_iff.mp same
    simp only [held']
    generalize d'.value = v' at shows
    generalize d.value = v at shows
    cases v with
    | trie kind' n =>
      obtain ⟨n', rfl, nodes⟩ := Value.eq_trie_of_map shows
      have count := congrArg Node.count nodes
      have isEmpty := congrArg Node.isEmpty nodes
      have path := congrArg Node.path nodes
      have depth := congrArg Node.depth nodes
      rw [Node.count_map, Node.count_map] at count
      rw [Node.isEmpty_map, Node.isEmpty_map] at isEmpty
      rw [Node.path_map, Node.path_map] at path
      rw [Node.depth_map, Node.depth_map] at depth
      simp only [Branch.map, count, isEmpty, path, depth]
    | _ =>
      cases v' <;> first | rfl | cases shows

theorem foldlM_addChild_map {children : List (Digit × Ref Cell)} (total : UInt64)
    (same : ∀ c ∈ children, (image c.2).cell?.map (·.value.map Ref.mark) = c.2.cell?.map (·.value.map Ref.mark)) :
    (children.map fun c => (c.1, image c.2)).foldlM (addChild kind (b.map image)) total =
      children.foldlM (addChild kind b) total := by
  induction children generalizing total with
  | nil => rfl
  | cons c rest ih =>
    rw [List.map_cons, List.foldlM_cons, List.foldlM_cons, addChild_map total (same c (by simp))]
    exact congrArg _ (funext fun total => ih total fun c member => same c (by simp [member]))

theorem checkChildren_map
    (same : ∀ c ∈ b.children, (image c.2).cell?.map (·.value.map Ref.mark) = c.2.cell?.map (·.value.map Ref.mark)) :
    (b.map image).checkChildren kind = b.checkChildren kind := by
  have own : (b.map image).entry.isSome = b.entry.isSome := by simp [Branch.map]
  have children : (b.map image).children = b.children.map fun c => (c.1, image c.2) := rfl
  have count : (b.map image).count = b.count := rfl
  have direct : (b.map image).children.all (·.2.isDirect) = b.children.all (·.2.isDirect) := by
    rw [children, List.all_map, Bool.eq_iff_iff, List.all_eq_true, List.all_eq_true]
    refine forall₂_congr fun c member => ?_
    have held := congrArg Option.isSome (same c member)
    rw [Option.isSome_map, Option.isSome_map] at held
    exact Bool.eq_iff_iff.mp held
  rw [checkChildren, checkChildren, own, direct, count, children, foldlM_addChild_map _ same]

end Branch

/-! ### What is decoded -/

/-- Nothing is decoded from more bytes than an encoding may have. -/
theorem short_of_decode {loader : Option LoaderId} {bytes : Bytes} {c : Cell} (decoded : decode loader bytes = .ok c) :
    bytes.length ≤ Limits.encoding := by
  rw [decode] at decoded
  by_contra long
  rw [if_pos (not_le.mp long)] at decoded
  split at decoded <;> cases decoded

/-- A cell that a reader has accepted can be read back. -/
theorem Cell.Accepted.readable {loader : Option LoaderId} {c : Cell} (accepted : c.Accepted loader)
    (short : c.encoding.length ≤ Limits.encoding) : c.Readable := by
  induction accepted with
  | intro c value refs _ ih =>
    -- what is written inside is short, so the induction hypothesis applies to it
    have inside : ∀ r ∈ c.refs, ∀ d, r.cell? = some d → d.embeddable ∧ d.Readable := by
      intro r member d held
      rcases refs r member with ⟨d', same, small⟩ | marker
      · rw [same] at held
        cases held
        exact ⟨small, ih r member d (by rw [same]; rfl) ((length_le_of_embeddable small).trans (by decide))⟩
      · rw [marker] at held
        cases held
    have marks : ∀ r ∈ c.refs, r.mark.Readable := by
      intro r member e inlined
      obtain ⟨d, held, small, rfl, -⟩ := Ref.inlined?_eq_some inlined
      exact ⟨d, (inside r member d held).2, rfl, small⟩
    refine .ofValue value.1 ?_ short marks fun kind n shape => ?_
    · have nodes := value.2
      generalize c.value = v at nodes
      cases v with
      | trie kind n =>
        cases n with
        | branch b => exact fun own => ((nodes kind _ rfl).1.entry own).1
        | _ => trivial
      | _ => trivial
    · have refs_eq : c.refs = n.refs := by rw [Cell.refs, shape]; rfl
      have accepted := value.2 kind n shape
      rw [refs_eq] at refs inside marks
      intro loader' depth image fits each mark
      cases n with
      | empty => exact reads_empty
      | leaf key value =>
        refine reads_leaf (each value (by simp [Node.refs])) ?_
        rw [mark value (by simp [Node.refs])]
        exact accepted
      | branch b =>
        refine reads_node_branch accepted.1 each ((Branch.checkChildren_map fun child member => ?_).trans accepted.2)
        have member : child.2 ∈ (Node.branch b).refs := List.mem_append_right _ (List.mem_map_of_mem member)
        rcases refs child.2 member with ⟨d, same, small⟩ | marker
        · have read := each child.2 member
          have written : child.2.written = d.encoding := by
            rw [same, Ref.written, Ref.inlined?_direct small]
            rfl
          have held : child.2.cell? = some d := by rw [same]; rfl
          have readable := (inside child.2 member d held).2
          have shown : child.2.mark = d.mark := by rw [same, Ref.mark_direct]
          obtain ⟨d', read', shows, -⟩ := readable.reads_within loader' (fits child.2 member d.encoding (by
            rw [same]
            exact Ref.inlined?_direct small))
          rw [written] at read
          rw [read.unique (reads_inlined read' (shows.embeddable_eq.trans small)), held]
          exact congrArg some shows
        · have read := each child.2 member
          have written : child.2.written = Tag.ref :: child.2.hash.bytes := by
            conv_lhs => rw [marker]
            rfl
          rw [written] at read
          rw [read.unique (reads_marker child.2.hash _)]
          conv_rhs => rw [marker]
          rfl

/-! ### What is put together -/

namespace Cell

/-- The forms of cells that list their children. -/
inductive Form where
  | vector
  | record (kind : UInt8)
  | code (opcode : UInt8)

namespace Form

/-- The cell of a form with some children. -/
def make : Form → List (Ref Cell) → Action Cell
  | .vector, items => Cell.vector items
  | .record kind, fields => Cell.record kind fields
  | .code opcode, operands => Cell.code opcode operands

/-- What becomes of a number of children, if the form takes so many. -/
def shape (form : Form) (n : Nat) : Except Error (List (Ref Cell) → Value (Ref Cell)) :=
  match form with
  | .vector => do
    checkLength .vector n Limits.fields
    return .vector
  | .record kind => do
    let kind ← checkDigit .recordKind kind
    checkLength .record n Limits.fields
    return .record kind
  | .code opcode => do
    let opcode ← checkDigit .opcode opcode
    checkLength .code n Limits.fields
    return .code opcode

/-- Values of a form that list their children. -/
structure Lists (value : List (Ref Cell) → Value (Ref Cell)) : Prop where
  refs : ∀ items, (value items).refs = items
  plain : ∀ items, (value items).isTrie = false
  readable : ∀ items, items.length ≤ Limits.fields → (value items).Readable
  marks : ∀ items items', items'.map Ref.mark = items.map Ref.mark →
    (value items').map Ref.mark = (value items).map Ref.mark

theorem lists_of_shape {form : Form} {n : Nat} {value : List (Ref Cell) → Value (Ref Cell)}
    (shaped : form.shape n = .ok value) : n ≤ Limits.fields ∧ Lists value := by
  cases form with
  | vector =>
    obtain ⟨checked, rfl⟩ := of_checked shaped
    exact ⟨le_of_checkLength checked, fun _ => rfl, fun _ => rfl, fun _ short => short, fun _ _ same =>
      congrArg Value.vector same⟩
  | record kind =>
    cases digit : checkDigit .recordKind kind with
    | error e =>
      rw [shape, digit] at shaped
      cases shaped
    | ok d =>
      rw [shape, digit] at shaped
      obtain ⟨checked, rfl⟩ := of_checked shaped
      exact ⟨le_of_checkLength checked, fun _ => rfl, fun _ => rfl, fun _ short => short, fun _ _ same =>
        congrArg (Value.record d) same⟩
  | code opcode =>
    cases digit : checkDigit .opcode opcode with
    | error e =>
      rw [shape, digit] at shaped
      cases shaped
    | ok d =>
      rw [shape, digit] at shaped
      obtain ⟨checked, rfl⟩ := of_checked shaped
      exact ⟨le_of_checkLength checked, fun _ => rfl, fun _ => rfl, fun _ short => short, fun _ _ same =>
        congrArg (Value.code d) same⟩

/-- A form is checked before the children are put into the form in which a parent holds them. -/
theorem result_make (form : Form) (items : List (Ref Cell)) (s : Session) :
    result (form.make items) s = match form.shape items.length with
      | .error e => (.error e, s)
      | .ok value => result (do return Cell.ofValue (value (← items.mapM Ref.canonical))) s := by
  cases form with
  | vector =>
    rw [make, Cell.vector, shape, result_bind, result_liftExcept]
    cases checkLength .vector items.length Limits.fields <;> rfl
  | record kind =>
    rw [make, Cell.record, shape, result_bind, result_liftExcept]
    cases checkDigit .recordKind kind with
    | error e => rfl
    | ok d =>
      dsimp only
      rw [result_bind, result_liftExcept]
      cases checkLength .record items.length Limits.fields <;> rfl
  | code opcode =>
    rw [make, Cell.code, shape, result_bind, result_liftExcept]
    cases checkDigit .opcode opcode with
    | error e => rfl
    | ok d =>
      dsimp only
      rw [result_bind, result_liftExcept]
      cases checkLength .code items.length Limits.fields <;> rfl

theorem readable_of_make {form : Form} {items : List (Ref Cell)} {s s' : Session} {c : Cell}
    (named : Ref.Named s items) (readable : ∀ r ∈ items, ∀ d, r.MayLead s d → d.Readable)
    (made : result (form.make items) s = (.ok c, s')) : c.Readable := by
  rw [result_make] at made
  cases shaped : form.shape items.length with
  | error e => rw [shaped] at made; cases made
  | ok value =>
    rw [shaped] at made
    obtain ⟨short, lists⟩ := lists_of_shape shaped
    simp only [result_bind] at made
    cases run : result (items.mapM Ref.canonical) s with
    | mk answer s₁ =>
      rw [run] at made
      cases answer with
      | error e => cases made
      | ok items' =>
        cases made
        obtain ⟨length, each⟩ := shown_of_canonical named readable run
        refine .ofItems (lists.readable items' (length.trans_le short)) (lists.plain items') ?_
        rw [lists.refs]
        exact each

end Form

/-- The cells that are obtained: made, decoded, or made of such. -/
inductive Obtained : Cell → Prop
  | built {c : Cell} (built : c.Built) : Obtained c
  | decoded {loader : Option LoaderId} {bytes : Bytes} {c : Cell} (decoded : decode loader bytes = .ok c) : Obtained c
  | made {form : Form} {items : List (Ref Cell)} {s s' : Session} {c : Cell} (named : Ref.Named s items)
      (obtained : ∀ r ∈ items, ∀ d, r.MayLead s d → Obtained d) (made : result (form.make items) s = (.ok c, s')) :
      Obtained c
  | trie {V : Cell → Prop} {kind : TrieKind} {s : Session} {t : Trie kind} (values : ∀ c, V c → Obtained c)
      (built : Trie.Built V s t) : Obtained t.cell

namespace Obtained

variable {c : Cell}

/-- Whatever is obtained can be read back. -/
theorem readable (obtained : c.Obtained) : c.Readable := by
  induction obtained with
  | built built => exact built.readable
  | @decoded loader bytes c decoded =>
    obtain ⟨rfl, accepted⟩ := of_decode decoded
    exact accepted.readable (short_of_decode decoded)
  | made named _ made ih => exact Form.readable_of_make named ih made
  | trie _ built ih =>
    obtain ⟨f, carries⟩ := built.carries ih
    exact carries.cell_readable

/-- Whether a parent writes a cell inside its own encoding is told by the bytes of the cell: they are few enough, and
reading them back finds no hash at any level of what is written inside. -/
theorem embeddable_iff (obtained : c.Obtained) : ∃ d, decode none c.encoding = .ok d ∧
    (c.embeddable = true ↔ c.encoding.length ≤ Limits.embedded ∧ ∀ k, ¬ d.Marks k) := by
  obtain ⟨d, decoded, shows, -⟩ := obtained.readable.decode none
  refine ⟨d, decoded, ?_⟩
  rw [← shows.embeddable_eq, ← shows.encoding_eq]
  exact embeddable_iff_marks

end Obtained

end Cell

end MerkleCells
