import MerkleCells.Proofs.Decoding

/-!
Well-formed tries are decoded as they were encoded, if the values that are written inside their nodes are.
A branch holds its children to its depth, path and count, so the reader's checks pass whichever of them
stand in its encoding.
-/
namespace MerkleCells

open MerkleCells.Action Reader

/-- Every value can be read back where it is written inside a node. -/
def Content.Readable (f : Content Mark) : Prop := ∀ k m, f k = some m → m.Readable

theorem Content.Readable.below {f : Content Mark} (readable : f.Readable) (depth : Nat) (d : Digit) :
    (f.below depth d).Readable :=
  fun k m bound => readable k m (Content.below_eq_some_iff.mp bound).2

theorem Content.Readable.put {f : Content Mark} (readable : f.Readable) {key : Bytes} {m : Mark} (new : m.Readable) :
    (f.put key m).Readable := by
  intro k m' bound
  by_cases same : k = key
  · subst same
    rw [put_self] at bound
    cases bound
    exact new
  · rw [put_of_ne same] at bound
    exact readable k m' bound

theorem Content.Readable.erase {f : Content Mark} (readable : f.Readable) (key : Bytes) : (f.erase key).Readable := by
  intro k m bound
  by_cases same : k = key
  · subst same
    rw [erase_self] at bound
    cases bound
  · rw [erase_of_ne same] at bound
    exact readable k m bound

namespace Node

variable {ρ σ : Type}

@[simp]
theorem count_map (f : ρ → σ) (n : Node ρ) : (n.map f).count = n.count := by cases n <;> rfl

@[simp]
theorem isEmpty_map (f : ρ → σ) (n : Node ρ) : (n.map f).isEmpty = n.isEmpty := by cases n <;> rfl

@[simp]
theorem path_map (f : ρ → σ) (n : Node ρ) : (n.map f).path = n.path := by cases n <;> rfl

@[simp]
theorem depth_map (f : ρ → σ) (n : Node ρ) : (n.map f).depth = n.depth := by cases n <;> rfl

end Node

theorem Value.eq_trie_of_map {ρ σ : Type} {f : ρ → σ} {v : Value ρ} {kind : TrieKind} {n : Node σ}
    (same : v.map f = .trie kind n) : ∃ n', v = .trie kind n' ∧ n'.map f = n := by
  cases v with
  | trie kind' n' =>
    cases same
    exact ⟨n', rfl, rfl⟩
  | _ => cases same

variable {kind : TrieKind} {s : Session} {f : Content Mark} {b : Branch (Ref Cell)}

theorem Branch.Ascending.length_le {ρ : Type} {children : List (Digit × ρ)} (ascending : Ascending children) :
    children.length ≤ 16 := by
  have distinct : (children.map (·.1)).Nodup :=
    List.pairwise_map.mpr (List.Pairwise.imp (fun lt => ne_of_lt lt) ascending)
  have le := List.Nodup.length_le_card distinct
  rwa [List.length_map, Fintype.card_fin] at le

theorem Branch.Readable.length_payload_lt (readable : b.Readable kind) :
    ((Node.branch b).payload kind).length < Limits.encoding := by
  have count := Quantity.length_writeCount_le b.count
  have deep : kind.maxDepth ≤ 8192 := by cases kind <;> decide
  have depth_le := readable.depth_le
  have depth := Quantity.length_writeCount_le_two (n := b.depth) (by omega)
  have path := (Digits.leading?_spec readable.path_eq).2.1
  have entry : (Branch.entryBytes kind b.entry).length ≤ 141 := by
    cases kind with
    | set => exact Nat.zero_le _
    | map =>
      cases b.entry with
      | none => exact (by decide : 1 ≤ 141)
      | some r =>
        have := r.length_written_le
        rw [Branch.entryBytes, List.length_cons]
        exact Nat.succ_le_succ this
  have children := length_flatMap_le b.children (fun c => c.2.written) Limits.embedded
    fun c _ => c.2.length_written_le
  have few := Nat.mul_le_mul_left Limits.embedded readable.ascending.length_le
  simp only [Node.payload, Node.count, Branch.payload_eq, List.length_append, Bytes.length_bigEndian]
  simp only [Limits.embedded, Limits.encoding, Quantity.maxLength] at *
  omega

theorem Node.length_leaf_lt {key : Bytes} {value : Ref Cell} (admits : kind.Admits key value.mark) :
    ((Node.leaf key value).payload kind).length < Limits.encoding := by
  have count := Quantity.length_writeCount_le (Node.leaf key value).count
  have written := value.length_written_le
  simp only [Node.payload, List.length_append]
  cases kind with
  | map =>
    have blob := length_writeBlob_le admits.2
    simp only [Limits.embedded, Limits.encoding, Limits.blob, Quantity.maxLength] at *
    omega
  | set =>
    simp only [Limits.embedded, Limits.encoding, Quantity.maxLength, List.length_nil] at *
    omega

/-- The reader's checks of a branch pass if its children can be read. -/
theorem Branch.Fits.reads (fits : b.Fits f) (admitted : f.Admitted kind) (occupants : 2 ≤ b.occupants)
    (children : ∀ c ∈ b.children, ∃ (t : Trie kind) (s' : Session), c.2.mark = t.cell.mark ∧ t.cell.Readable ∧
      t.node.Holds kind s' (f.below b.depth c.1)) : (Node.branch b).Reads kind := by
  intro loader depth image short each _
  refine reads_node_branch (fits.readable admitted occupants) each ?_
  refine checkChildren_ok (fun d => (f.below b.depth d).size) ?_ ?_
  · intro c imaged cell held
    obtain ⟨c, member, rfl⟩ := List.mem_map.mp imaged
    obtain ⟨t, s', mark, readable, holds⟩ := children c member
    have member' : c.2 ∈ b.refs := List.mem_append_right _ (List.mem_map_of_mem member)
    have shows := shows_of_reads_ref (each c.2 member') (short c.2 member') mark readable held
    have value : cell.value.map Ref.mark = .trie kind (t.node.map Ref.mark) := by
      rw [show cell.value.map Ref.mark = t.cell.value.map Ref.mark from shows, t.value_eq]
      rfl
    obtain ⟨node, value, same⟩ := Value.eq_trie_of_map value
    have nonempty := fits.below_ne_none member
    obtain ⟨deeper, shares, digit⟩ := fits.child_extends holds nonempty
    have depth_eq : node.depth = t.node.depth := by rw [← Node.depth_map Ref.mark, same, Node.depth_map]
    have path_eq : node.path = t.node.path := by rw [← Node.path_map Ref.mark, same, Node.path_map]
    have count_eq : node.count = t.node.count := by rw [← Node.count_map Ref.mark, same, Node.count_map]
    have isEmpty_eq : node.isEmpty = t.node.isEmpty := by rw [← Node.isEmpty_map Ref.mark, same, Node.isEmpty_map]
    refine ⟨node, value, ?_, depth_eq ▸ deeper, path_eq ▸ shares, path_eq ▸ digit, ?_⟩
    · rw [isEmpty_eq, Bool.eq_false_iff, Ne, holds.isEmpty_iff]
      exact nonempty
    · rw [count_eq]
      exact holds.count_eq
  · have sum := fits.count_eq_sum
    have entry : (b.map image).entry.toList.length = b.entry.toList.length := by
      cases own : b.entry <;> simp [Branch.map, own]
    rw [entry]
    simpa [Branch.map, Function.comp_def] using sum

/-- A trie can be read back if its root can, down to what is written inside it. -/
theorem Trie.readable_of_reads {t : Trie kind} (reads : t.node.Reads kind)
    (short : (t.node.payload kind).length < Limits.encoding) (refs : ∀ r ∈ t.node.refs, r.mark.Readable)
    (showing : (Value.trie kind t.node).Showing) : t.cell.Readable := by
  have value := t.value_eq
  refine .ofValue ?_ (by rw [value]; exact showing) ?_ ?_ ?_
  · rw [value]
    trivial
  · rw [t.encoding_eq]
    refine Value.length_encode_le trivial fun kind' n' same => ?_
    cases same
    exact short
  · rw [Cell.refs, value]
    exact refs
  · intro kind' n' same
    rw [value] at same
    cases same
    exact reads

/-- A trie that is well-formed can be read back. -/
theorem Trie.readable {t : Trie kind} (holds : t.node.Holds kind s f) (admitted : f.Admitted kind)
    (legible : f.Readable) : t.cell.Readable := by
  -- by induction on the nodes below, each of them in the session in which its parent was resolved
  generalize shape : t.node = n at holds
  induction holds generalizing t with
  | empty content =>
    refine readable_of_reads ?_ ?_ ?_ ?_ <;> rw [shape]
    · exact fun loader depth image _ _ _ => reads_empty
    · cases kind <;> decide
    · exact fun r member => by cases member
    · trivial
  | leaf key value content =>
    have admits := admitted key value.mark (by rw [content, Content.single, if_pos rfl])
    refine readable_of_reads ?_ ?_ ?_ ?_ <;> rw [shape]
    · intro loader depth image _ each mark
      refine reads_leaf (each value (by simp [Node.refs])) ?_
      rw [mark value (by simp [Node.refs])]
      exact admits
    · exact Node.length_leaf_lt admits
    · intro r member
      obtain rfl : r = value := by simpa [Node.refs] using member
      exact legible key r.mark (by rw [content, Content.single, if_pos rfl])
    · trivial
  | @branch s f b fits occupants found below ih =>
    have readable := fits.readable admitted occupants
    have children : ∀ c ∈ b.children, ∃ (t : Trie kind) (s' : Session), c.2.mark = t.cell.mark ∧
        t.cell.Readable ∧ t.node.Holds kind s' (f.below b.depth c.1) := by
      intro c member
      have at_c : b.child? c.1 = some c.2 := fits.ascending.childIn_of_mem member
      obtain ⟨t', s', run, mark⟩ := found c.1 c.2 at_c s (.refl s)
      exact ⟨t', s', mark.symm, ih c.1 c.2 at_c s (.refl s) t' s' run (admitted.below _ _) (legible.below _ _) rfl,
        below c.1 c.2 at_c s (.refl s) t' s' run⟩
    refine readable_of_reads ?_ ?_ ?_ ?_ <;> rw [shape]
    · exact fits.reads admitted occupants children
    · exact readable.length_payload_lt
    · intro r member
      rcases List.mem_append.mp member with own | below
      · have own : b.entry = some r := by simpa using own
        have entry := fits.entry_eq
        rw [own, if_pos (fits.entry_isSome (by rw [own]; rfl)).1] at entry
        exact legible b.path r.mark entry.symm
      · obtain ⟨c, at_c, rfl⟩ := List.mem_map.mp below
        obtain ⟨t', -, mark, readable', -⟩ := children c at_c
        rw [mark]
        exact readable'.mark
    · exact fun own => (readable.entry own).1

end MerkleCells
