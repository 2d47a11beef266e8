import MerkleCells.Proofs.Persisting
import MerkleCells.Proofs.Trie.Accepted

/-!
The hashes that stand in an encoding, at any level of what is written inside it. What is written inside a parent has
none, so all of them are hashes of children (`Cell.marks_iff`), and a cell is embeddable if its encoding is short and
no hash stands in it (`Cell.embeddable_iff_marks`).
-/
namespace MerkleCells.Cell

variable {c : Cell} {k : Hash}

/-- A hash stands in the encoding of a cell in place of a child, or of a child of what is written inside it. -/
inductive Marks : Cell → Hash → Prop
  | here {c : Cell} {r : Ref Cell} (member : r ∈ c.refs) (apart : r.isEmbedded = false) : Marks c r.hash
  | inside {c d : Cell} {r : Ref Cell} {k : Hash} (member : r ∈ c.refs) (inlined : r.isEmbedded = true)
      (held : r.cell? = some d) (marks : Marks d k) : Marks c k

theorem Marks.exists_apart (marks : c.Marks k) : ∃ r ∈ c.refs, r.isEmbedded = false ∧ r.hash = k := by
  induction marks with
  | @here c r member apart => exact ⟨r, member, apart, rfl⟩
  | @inside c d r k _ inlined held _ ih =>
    -- the child is embeddable, so that none of its own children stands apart
    obtain ⟨q, below, apart, -⟩ := ih
    obtain ⟨e, held', small, -⟩ := Ref.cell_of_isEmbedded inlined
    rw [held] at held'
    cases held'
    rw [isEmbedded_of_embeddable small q below] at apart
    cases apart

theorem marks_iff : c.Marks k ↔ k ∈ c.markers := by
  constructor
  · intro marks
    obtain ⟨r, member, apart, rfl⟩ := marks.exists_apart
    exact mem_markers member apart
  · intro member
    obtain ⟨r, kept, rfl⟩ := List.mem_map.mp member
    obtain ⟨member, apart⟩ := List.mem_filter.mp kept
    exact .here member (by simpa using apart)

/-- Whether a parent writes a cell inside its own encoding is told by that cell's encoding. -/
theorem embeddable_iff_marks : c.embeddable = true ↔ c.encoding.length ≤ Limits.embedded ∧ ∀ k, ¬ c.Marks k := by
  rw [embeddable_eq, Bool.and_eq_true, decide_eq_true_eq, List.all_eq_true, and_comm]
  refine and_congr_right fun _ => ⟨fun inside k marks => ?_, fun none r member => ?_⟩
  · obtain ⟨r, member, apart, -⟩ := marks.exists_apart
    rw [inside r member] at apart
    cases apart
  · cases inlined : r.isEmbedded with
    | true => rfl
    | false => exact absurd (.here member inlined) (none r.hash)

end MerkleCells.Cell
