import MerkleCells.Proofs.KeyMap
import MerkleCells.Proofs.Trie.Held
import MerkleCells.Proofs.Trie.MergeWalk
import MerkleCells.ContentSet

/-!
What the operations on maps and sets keep. A trie `Carries` a content if it is well-formed and what stands
inside its nodes can be read back. Each operation leads from tries that carry contents to one that carries what
the operation leaves of these.
-/
namespace MerkleCells

open MerkleCells.Action

/-- A trie holds a content of admitted keys and of values that can be read back. -/
structure Trie.Carries {kind : TrieKind} (s : Session) (t : Trie kind) (f : Content Mark) : Prop where
  holds : t.node.Holds kind s f
  admitted : f.Admitted kind
  readable : f.Readable

theorem Content.From.admitted {kind : TrieKind} {f g h : Content Mark} (sub : h.From f g) (left : f.Admitted kind)
    (right : g.Admitted kind) : h.Admitted kind :=
  fun k m bound => (sub k m bound).elim (left k m) (right k m)

theorem Content.From.readable {f g h : Content Mark} (sub : h.From f g) (left : f.Readable) (right : g.Readable) :
    h.Readable :=
  fun k m bound => (sub k m bound).elim (left k m) (right k m)

namespace Trie

variable {kind : TrieKind} {s s' : Session} {t t' : Trie kind} {f g : Content Mark} {key : Bytes}

namespace Carries

theorem empty (kind : TrieKind) (s : Session) : (Trie.empty kind).Carries s .none :=
  ⟨.empty rfl, (fun _ _ bound => by cases bound), fun _ _ bound => by cases bound⟩

theorem later (carries : t.Carries s f) (later : s.Later s') : t.Carries s' f :=
  { carries with holds := carries.holds.later later }

theorem held (carries : t.Carries s f) (held : t.node.HeldAs kind s s' t'.node) : t'.Carries s' f :=
  { carries with holds := held.holds carries.holds }

theorem count_eq (carries : t.Carries s f) : t.count.toNat = f.size := carries.holds.count_eq

/-- Tries that carry the same content have the same encoding. -/
theorem encoding_eq (carries : t.Carries s f) (carries' : t'.Carries s' f) : t.cell.encoding = t'.cell.encoding :=
  (shows_of_holds carries.holds carries'.holds).encoding_eq

theorem cell_readable (carries : t.Carries s f) : t.cell.Readable :=
  Trie.readable carries.holds carries.admitted carries.readable

end Carries

/-- What a trie carries after an insertion: the content with the key bound, or what it carried before if a value of
the same hash was bound already. -/
def Updated (f : Content Mark) (key : Bytes) (v : Mark) (f' : Content Mark) : Prop :=
  f' = f.put key v ∨ f' = f ∧ ∃ old, f key = some old ∧ old.hash = v.hash

theorem Inserted.carries {v : Mark} {r : Option (Trie kind)} (inserted : Inserted s' f key v r) (carries : t.Carries s f)
    (later : s.Later s') (admits : kind.Admits key v) (readable : v.Readable) :
    ∃ f', (r.getD t).Carries s' f' ∧ Updated f key v f' := by
  cases r with
  | none => exact ⟨f, carries.later later, .inr ⟨rfl, inserted⟩⟩
  | some t' => exact ⟨_, ⟨inserted.2, carries.admitted.put admits, carries.readable.put readable⟩, .inl rfl⟩

theorem Removed.carries {r : Option (Trie kind)} (removed : Removed s' f key r) (carries : t.Carries s f)
    (later : s.Later s') : (r.getD t).Carries s' (f.erase key) := by
  cases r with
  | none =>
    have same : f.erase key = f := by
      funext k
      by_cases here : k = key
      · rw [here, Content.erase_self]
        exact Eq.symm removed
      · exact Content.erase_of_ne here
    rw [same]
    exact carries.later later
  | some t' => exact ⟨removed.2, carries.admitted.erase key, carries.readable.erase key⟩

/-- There is room for one more key if the count says so. -/
theorem Carries.room (carries : t.Carries s f) (room : t.count.toNat + 1 < UInt64.size) (m : Mark) :
    (f.put key m).size < UInt64.size := by
  rw [carries.count_eq] at room
  refine lt_of_le_of_lt ?_ room
  rw [Content.size, Content.keys_put]
  exact Set.ncard_insert_le key f.keys

/-- There is room for the elements of two sets if the counts say so. -/
theorem Carries.room_both {left right : Trie .set} (carries : left.Carries s f) (carries' : right.Carries s g)
    (room : left.count.toNat + right.count.toNat < UInt64.size) : (f.keys ∪ g.keys).ncard < UInt64.size := by
  rw [carries.count_eq, carries'.count_eq] at room
  exact lt_of_le_of_lt (Set.ncard_union_le f.keys g.keys) room

end Trie

/-! ### Maps -/

namespace KeyMap

variable {s : Session} {m : KeyMap} {f : Content Mark} {key : Bytes}

theorem valid_of_checkKey (checked : checkKey key = .ok ()) : ValidKey key := by
  rw [checkKey] at checked
  split at checked
  · cases checked
  · rename_i nonempty
    split at checked
    · cases checked
    · rename_i short
      refine ⟨List.length_pos_iff.mpr fun empty => nonempty (by rw [empty]; rfl), not_lt.mp short⟩

theorem carries_assoc {value : Ref Cell} {c : Cell} {s₁ : Session} (carries : m.Carries s f) (valid : ValidKey key)
    (target : result value.value s = (.ok c, s₁)) (named : c.hash = value.hash) (readable : c.Readable)
    (room : (f.put key c.mark).size < UInt64.size) :
    Yields (m.assoc key value) s fun r s' => s.Later s' ∧
      ∃ f', (r.getD m).Carries s' f' ∧ Trie.Updated f key c.mark f' := by
  refine (assoc_yields carries.holds carries.admitted valid target named room).mono ?_
  rintro r s' ⟨later, inserted⟩
  exact ⟨later, inserted.carries carries later valid readable.mark⟩

theorem carries_dissoc (carries : m.Carries s f) (key : Bytes) :
    Yields (m.dissoc key) s fun r s' => s.Later s' ∧ (r.getD m).Carries s' (f.erase key) := by
  refine (Trie.erase_yields key carries.holds carries.admitted).mono ?_
  rintro r s' ⟨later, removed⟩
  exact ⟨later, removed.carries carries later⟩

end KeyMap

/-! ### Sets -/

namespace ContentSet

variable {s : Session} {t : ContentSet} {f g : Content Mark}

theorem carries_conj {element : Ref Cell} {c : Cell} {s₁ : Session} (carries : t.Carries s f)
    (target : result element.value s = (.ok c, s₁)) (named : c.hash = element.hash) (readable : c.Readable)
    (room : (f.put element.hash.bytes c.mark).size < UInt64.size) :
    Yields (t.conj element) s fun r s' => s.Later s' ∧
      ∃ f', (r.getD t).Carries s' f' ∧ Trie.Updated f element.hash.bytes c.mark f' := by
  have admits : TrieKind.Admits .set element.hash.bytes c.mark := congrArg Hash.bytes named.symm
  refine (Trie.insert_yields target named carries.holds carries.admitted admits room).mono ?_
  rintro r s' ⟨later, inserted⟩
  exact ⟨later, inserted.carries carries later admits readable.mark⟩

theorem carries_disj (carries : t.Carries s f) (h : Hash) :
    Yields (t.disj h) s fun r s' => s.Later s' ∧ (r.getD t).Carries s' (f.erase h.bytes) := by
  refine (Trie.erase_yields h.bytes carries.holds carries.admitted).mono ?_
  rintro r s' ⟨later, removed⟩
  exact ⟨later, removed.carries carries later⟩

/-- An operation on two sets gives one that carries what comes from them, and what the operation keeps if equal
hashes mean equal contents. -/
theorem carries_merge {P : Content Mark → Prop} (telling : Trie.Telling P) (op : SetOperation) {left right : ContentSet}
    (carries : left.Carries s f) (carries' : right.Carries s g) (room : (f.keys ∪ g.keys).ncard < UInt64.size) :
    Yields (Trie.merge op left right) s fun t s' => s.Later s' ∧ ∃ h, t.Carries s' h ∧
      (Trie.Told P op f g → h = op.combine f g) := by
  refine (Trie.merge_yields telling op carries.holds carries'.holds carries.admitted carries'.admitted room).mono ?_
  rintro t s' ⟨later, h, holds, sub, agrees⟩
  exact ⟨later, h, ⟨holds, sub.admitted carries.admitted carries'.admitted,
    sub.readable carries.readable carries'.readable⟩, agrees⟩

end ContentSet

end MerkleCells
