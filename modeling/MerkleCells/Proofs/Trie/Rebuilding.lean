import MerkleCells.Proofs.KeyMap
import MerkleCells.Proofs.Trie.Accepted
import MerkleCells.Proofs.Trie.Listing
import MerkleCells.Proofs.Trie.Uniqueness
import MerkleCells.ContentSet

/-!
Tries made again from their own entries. The entries of a content have different keys, so each of them is new when
it is put in, and they make up the content in whatever order that happens.
-/
namespace MerkleCells

open MerkleCells.Action

/-- The content of a list of entries on top of another content. -/
def Content.adding (f : Content Mark) (entries : List Entry) : Content Mark :=
  entries.foldl (fun f e => f.put e.key e.value.mark) f

namespace Content

variable {f : Content Mark} {entries entries' : List Entry}

theorem adding_eq_some_iff (distinct : (entries.map (·.key)).Nodup) (k : Bytes) (m : Mark) :
    f.adding entries k = some m ↔
      (∃ e ∈ entries, e.key = k ∧ e.value.mark = m) ∨ f k = some m ∧ ∀ e ∈ entries, e.key ≠ k := by
  induction entries generalizing f with
  | nil => simp [Content.adding]
  | cons e rest ih =>
    obtain ⟨new, distinct⟩ := List.nodup_cons.mp distinct
    have step : f.adding (e :: rest) = (f.put e.key e.value.mark).adding rest := rfl
    rw [step, ih distinct]
    by_cases here : k = e.key
    · subst here
      have others : ∀ e' ∈ rest, e'.key ≠ e.key := fun e' member same =>
        new (List.mem_map.mpr ⟨e', member, same⟩)
      simp only [put_self, Option.some.injEq, List.mem_cons, exists_eq_or_imp, true_and]
      constructor
      · rintro (⟨e', member, same, -⟩ | ⟨mark, -⟩)
        · exact absurd same (others e' member)
        · exact .inl (.inl mark)
      · rintro ((mark | ⟨e', member, same, -⟩) | ⟨-, never⟩)
        · exact .inr ⟨mark, others⟩
        · exact absurd same (others e' member)
        · exact absurd rfl (never e (.inl rfl))
    · rw [put_of_ne here]
      simp [Ne.symm here]

/-- Entries that list a content make it up, in whatever order they are put in. -/
theorem Lists.adding_perm (lists : f.Lists entries) (perm : entries'.Perm entries) : Content.none.adding entries' = f := by
  have distinct : (entries'.map (·.key)).Nodup := (perm.map _).nodup_iff.mpr lists.nodup
  funext k
  apply Option.ext
  intro m
  rw [adding_eq_some_iff distinct, lists.listed]
  simp [Content.none, perm.mem_iff]

theorem subset_adding (f : Content Mark) (entries : List Entry) : f.keys ⊆ (f.adding entries).keys := by
  induction entries generalizing f with
  | nil => exact fun _ bound => bound
  | cons e rest ih =>
    intro k bound
    apply ih (f.put e.key e.value.mark)
    rw [keys_put]
    exact .inr bound

theorem finite_adding (finite : f.keys.Finite) (entries : List Entry) : (f.adding entries).keys.Finite := by
  induction entries generalizing f with
  | nil => exact finite
  | cons e rest ih => exact ih (finite_put finite e.key e.value.mark)

end Content

namespace Trie

variable {kind : TrieKind}

/-- Puts entries into a trie one after the other, with the insertion of its kind. -/
def putAll (insert : Trie kind → Entry → Action (Option (Trie kind))) (entries : List Entry) (t : Trie kind) :
    Action (Trie kind) :=
  entries.foldlM (fun t e => return (← insert t e).getD t) t

/-- An insertion of a kind puts an entry in as `Trie.insert` does. -/
def Inserts (insert : Trie kind → Entry → Action (Option (Trie kind))) (e : Entry) : Prop :=
  ∀ (t : Trie kind) (s : Session) (f : Content Mark), t.node.Holds kind s f → f.Admitted kind →
    (f.put e.key e.value.mark).size < UInt64.size →
      Yields (insert t e) s fun r s' => s.Later s' ∧ Inserted s' f e.key e.value.mark r

theorem putAll_yields {insert : Trie kind → Entry → Action (Option (Trie kind))} {entries : List Entry}
    (each : ∀ e ∈ entries, Inserts insert e ∧ kind.Admits e.key e.value.mark)
    (distinct : (entries.map (·.key)).Nodup) {t : Trie kind} {s : Session} {f : Content Mark}
    (holds : t.node.Holds kind s f) (admitted : f.Admitted kind) (new : ∀ e ∈ entries, f e.key = none)
    (room : (f.adding entries).size < UInt64.size) :
    Yields (putAll insert entries t) s fun t' s' => t'.node.Holds kind s' (f.adding entries) := by
  induction entries generalizing t s f with
  | nil => exact yields_pure.mpr holds
  | cons e rest ih =>
    obtain ⟨other, distinct⟩ := List.nodup_cons.mp distinct
    obtain ⟨inserts, admits⟩ := each e (by simp)
    have finite := Content.finite_put holds.finite e.key e.value.mark
    have le := Content.size_mono (Content.finite_adding finite rest) (Content.subset_adding _ rest)
    have unbound : f e.key = none := new e (by simp)
    have first : Yields (do return (← insert t e).getD t) s fun t' s' =>
        t'.node.Holds kind s' (f.put e.key e.value.mark) := by
      refine (inserts t s f holds admitted (lt_of_le_of_lt le room)).bind ?_
      rintro r s' ⟨-, inserted⟩
      refine yields_pure.mpr ?_
      cases r with
      | none =>
        obtain ⟨old, bound, -⟩ := inserted
        rw [unbound] at bound
        cases bound
      | some t' => exact inserted.2
    refine first.bind fun t' s' holds' => ?_
    refine ih (fun e' member => each e' (by simp [member])) distinct holds' (admitted.put admits) ?_ room
    intro e' member
    have ne : e'.key ≠ e.key := fun same => other (List.mem_map.mpr ⟨e', member, same⟩)
    exact (Content.put_of_ne ne).trans (new e' (by simp [member]))

/-- Entries that list what a well-formed trie holds make a trie with the same encoding, in whatever order they are
put in. -/
theorem putAll_encoding {insert : Trie kind → Entry → Action (Option (Trie kind))} {t : Trie kind} {s s' : Session}
    {f : Content Mark} (holds : t.node.Holds kind s f) (admitted : f.Admitted kind) {entries entries' : List Entry}
    (lists : f.Lists entries) (perm : entries'.Perm entries) (each : ∀ e ∈ entries, Inserts insert e) :
    Yields (putAll insert entries' (Trie.empty kind)) s' fun t' _ => t'.cell.encoding = t.cell.encoding := by
  have whole : Content.none.adding entries' = f := lists.adding_perm perm
  have distinct : (entries'.map (·.key)).Nodup := (perm.map _).nodup_iff.mpr lists.nodup
  have room : (Content.none.adding entries').size < UInt64.size := by
    rw [whole, ← holds.count_eq]
    exact t.node.count.toNat_lt
  have able : ∀ e ∈ entries', Inserts insert e ∧ kind.Admits e.key e.value.mark := fun e member =>
    ⟨each e (perm.mem_iff.mp member), admitted _ _ (lists.bound (perm.mem_iff.mp member))⟩
  refine (putAll_yields able distinct (.empty rfl) (fun _ _ bound => by cases bound) (fun _ _ => rfl) room).mono fun t' s'' holds' => ?_
  rw [whole] at holds'
  exact (shows_of_holds holds' holds).encoding_eq

end Trie

/-! ### The insertions of maps and sets -/

theorem KeyMap.inserts {e : Entry} (valid : ValidKey e.key) (inside : e.value.isEmbedded) :
    Trie.Inserts (fun m e => KeyMap.assoc m e.key e.value) e := by
  obtain ⟨key, value⟩ := e
  obtain ⟨c, held, -, -⟩ := Ref.cell_of_isEmbedded inside
  rw [show value = ⟨value.status, .direct c⟩ from Ref.eq_direct held]
  intro m s f holds admitted room
  exact KeyMap.assoc_yields holds admitted valid (Ref.result_value_direct _ c s) rfl room

theorem ContentSet.inserts {e : Entry} (same : e.key = e.value.hash.bytes) (inside : e.value.isEmbedded) :
    Trie.Inserts (fun t e => ContentSet.conj t e.value) e := by
  obtain ⟨key, value⟩ := e
  obtain rfl : key = value.hash.bytes := same
  obtain ⟨c, held, -, -⟩ := Ref.cell_of_isEmbedded inside
  rw [show value = ⟨value.status, .direct c⟩ from Ref.eq_direct held]
  intro t s f holds admitted room
  exact Trie.insert_yields (Ref.result_value_direct _ c s) rfl holds admitted rfl room

end MerkleCells
