import MerkleCells.Proofs.Trie.Rebuilding

/-!
No malleability for self-contained collections. A map or set in whose encoding no child is written as its hash has
one encoding that decoders accept: the one that its entries make when they are put into the empty collection.
-/
namespace MerkleCells

open MerkleCells.Action

/-- No child at any level is written as its hash. -/
inductive Cell.SelfContained : Cell → Prop where
  | intro (c : Cell) (children : ∀ r ∈ c.refs, r.isEmbedded)
      (below : ∀ r ∈ c.refs, ∀ d, r.cell? = some d → SelfContained d) : SelfContained c

theorem Cell.SelfContained.children {c : Cell} (whole : c.SelfContained) : ∀ r ∈ c.refs, r.isEmbedded := by
  cases whole with
  | intro _ children => exact children

/-- A cell that is written inside its parent has no other children. -/
theorem Cell.selfContained_of_children (c : Cell) (children : ∀ r ∈ c.refs, r.isEmbedded) : c.SelfContained := by
  induction c using Cell.induction with
  | step c ih =>
    refine .intro c children fun r member d held => ih r member d held ?_
    obtain ⟨d', held', small, -⟩ := Ref.cell_of_isEmbedded (children r member)
    rw [held] at held'
    cases held'
    exact Cell.isEmbedded_of_embeddable small

namespace Trie

variable {kind : TrieKind} {t : Trie kind} {s : Session}

/-- Every branch that is met on the way down keeps the invariant. -/
def WellFormed (s : Session) (t : Trie kind) : Prop :=
  ∀ b, t.node.Reaches kind s (.branch b) → ∃ s', s.Later s' ∧ b.Sound kind s'

/-- Lookups answer as a content says, by the hashes of the values. -/
def Denotes (s : Session) (t : Trie kind) (f : Content Hash) : Prop :=
  ∀ key, Yields (t.get? key) s fun r _ => r.map Ref.hash = f key

/-- The encodings of the values that lookups give. -/
def valueEncodings (s : Session) (t : Trie kind) : Set Bytes :=
  {e | ∃ key r s' c, result (t.get? key) s = (.ok (some r), s') ∧ r.cell? = some c ∧ c.encoding = e}

/-- What a self-contained trie that has been decoded holds. -/
theorem exists_content {loader : Option LoaderId} {bytes : Bytes} {c : Cell} (accepted : decode loader bytes = .ok c)
    (whole : c.SelfContained) (found : ofCell kind c = .ok t) (s : Session) :
    t.cell.encoding = bytes ∧ ∃ f, t.node.Holds kind s f ∧ f.Admitted kind ∧ f.Inlined := by
  obtain rfl := cell_of_ofCell found
  obtain ⟨encoding, accepted⟩ := of_decode accepted
  obtain ⟨f, inside⟩ := accepted.holds t.value_eq whole.children s
  exact ⟨encoding, f, inside.holds, inside.admitted, inside.inlined⟩

end Trie

namespace Trie

variable {kind : TrieKind} {t t' : Trie kind} {s : Session} {f g : Content Mark} {h : Content Hash}

theorem result_entries {entries : List Entry} {s' : Session} (walk : StateT.run t.list s = (⟨entries, none⟩, s')) :
    result t.entries s = (.ok entries, s') := by
  have lifted : result (liftM t.list : Action (Listing Entry)) s = (.ok ⟨entries, none⟩, s') :=
    congrArg (fun answer => (Except.ok answer.1, answer.2)) walk
  show result (liftM t.list >>= fun listing => liftM listing.toExcept) s = _
  rw [result_bind, lifted]
  rfl

theorem Denotes.hashes (denotes : t.Denotes s h) (holds : t.node.Holds kind s f) (admitted : f.Admitted kind)
    (key : Bytes) : (f key).map Mark.hash = h key := by
  obtain ⟨r, s', run, mark, -⟩ := get?_yields key holds admitted
  rw [← (denotes key).of_result run, ← mark]
  cases r <;> rfl

/-- A value that is written inside its trie is found by a lookup. -/
theorem exists_value (holds : t.node.Holds kind s f) (admitted : f.Admitted kind) (inlined : f.Inlined) {key : Bytes}
    {m : Mark} (bound : f key = some m) : ∃ c : Cell, c.embeddable ∧ c.mark = m ∧ c.encoding ∈ t.valueEncodings s := by
  obtain ⟨r, s', run, mark, -⟩ := get?_yields key holds admitted
  rw [bound] at mark
  obtain ⟨r, rfl, rfl⟩ := Option.map_eq_some_iff.mp mark
  obtain ⟨c, held, small, -⟩ := Ref.cell_of_isEmbedded (inlined key r.mark bound)
  exact ⟨c, small, by rw [Ref.eq_direct held, Ref.mark_direct], key, r, s', c, run, held, rfl⟩

/-- Tries that denote the same hold the same, if all values are written inside them and no two of these have the same
hash. -/
theorem Denotes.content_eq (denotes : t.Denotes s h) (denotes' : t'.Denotes s h) (holds : t.node.Holds kind s f)
    (holds' : t'.node.Holds kind s g) (admitted : f.Admitted kind) (admitted' : g.Admitted kind) (inlined : f.Inlined)
    (inlined' : g.Inlined) (injective : Set.InjOn Hash.digest (t.valueEncodings s ∪ t'.valueEncodings s)) : f = g := by
  funext key
  have hashes := (denotes.hashes holds admitted key).trans (denotes'.hashes holds' admitted' key).symm
  cases bound : f key with
  | none =>
    rw [bound] at hashes
    exact (Option.map_eq_none_iff.mp hashes.symm).symm
  | some m =>
    rw [bound] at hashes
    obtain ⟨m', bound', same⟩ := Option.map_eq_some_iff.mp hashes.symm
    obtain ⟨c, small, rfl, member⟩ := exists_value holds admitted inlined bound
    obtain ⟨c', small', rfl, member'⟩ := exists_value holds' admitted' inlined' bound'
    have digests : Hash.digest c'.encoding = Hash.digest c.encoding := by
      rw [← c.hash_eq, ← c'.hash_eq]
      exact same
    have encodings := injective (.inr member') (.inl member) digests
    rw [bound', Cell.mark, Cell.mark, if_pos small, if_pos small', c.hash_eq, c'.hash_eq, encodings]

end Trie

/-- A self-contained collection that is decoded is well-formed, its own entries make it again in whatever order they
are put in, and no other encoding of a self-contained collection denotes the same. -/
theorem decode_selfContained (loader : Option LoaderId) {bytes : Bytes} {c : Cell}
    (accepted : decode loader bytes = .ok c) (whole : c.SelfContained) (s : Session) :
    (∀ m : KeyMap, KeyMap.ofCell c = .ok m → m.WellFormed s ∧
      ∃ entries s', result m.entries s = (.ok entries, s') ∧ ∀ entries' : List Entry, entries'.Perm entries →
        Yields (KeyMap.ofEntries (entries'.map fun e => (e.key, e.value))) s' fun m' _ => m'.cell.encoding = bytes) ∧
    (∀ t : ContentSet, ContentSet.ofCell c = .ok t → t.WellFormed s ∧
      ∃ elements s', StateT.run t.elements s = (⟨elements, none⟩, s') ∧ ∀ elements' : List (Ref Cell), elements'.Perm elements →
        Yields (ContentSet.ofElements elements') s' fun t' _ => t'.cell.encoding = bytes) ∧
    (∀ loader' bytes' c', decode loader' bytes' = .ok c' → c'.SelfContained →
      ∀ kind (t t' : Trie kind) f, Trie.ofCell kind c = .ok t → Trie.ofCell kind c' = .ok t' →
        t.Denotes s f → t'.Denotes s f → Set.InjOn Hash.digest (t.valueEncodings s ∪ t'.valueEncodings s) →
          bytes = bytes') := by
  refine ⟨?_, ?_, ?_⟩
  · intro m found
    obtain ⟨rfl, f, holds, admitted, inlined⟩ := Trie.exists_content accepted whole found s
    obtain ⟨entries, s', walk, -, lists⟩ := Trie.listWith_walks id holds admitted
    refine ⟨fun b reaches => holds.sound reaches rfl, entries, s', ?_, ?_⟩
    · rw [List.map_id] at walk
      exact Trie.result_entries walk
    · intro entries' perm
      rw [KeyMap.ofEntries, List.foldlM_map]
      refine Trie.putAll_encoding holds admitted lists perm fun e member => ?_
      exact KeyMap.inserts (admitted _ _ (lists.bound member)) (inlined _ _ (lists.bound member))
  · intro t found
    obtain ⟨rfl, f, holds, admitted, inlined⟩ := Trie.exists_content accepted whole found s
    obtain ⟨entries, s', walk, -, lists⟩ := Trie.listWith_walks Entry.value holds admitted
    refine ⟨fun b reaches => holds.sound reaches rfl, entries.map Entry.value, s', walk, ?_⟩
    intro elements' perm
    have keyed : ∀ e ∈ entries, e.key = e.value.hash.bytes := fun e member => admitted _ _ (lists.bound member)
    have back : (entries.map Entry.value).map (fun r => (⟨r.hash.bytes, r⟩ : Entry)) = entries := by
      rw [List.map_map]
      refine (List.map_congr_left fun e member => ?_).trans (List.map_id entries)
      exact congrArg (fun key => (⟨key, e.value⟩ : Entry)) (keyed e member).symm
    have perm' := perm.map fun r => (⟨r.hash.bytes, r⟩ : Entry)
    rw [back] at perm'
    have made : Yields _ s' _ := Trie.putAll_encoding holds admitted lists perm' fun e member =>
      ContentSet.inserts (keyed e member) (inlined _ _ (lists.bound member))
    rwa [Trie.putAll, List.foldlM_map] at made
  · intro loader' bytes' c' accepted' whole' kind t t' f found found' denotes denotes' injective
    obtain ⟨rfl, g, holds, admitted, inlined⟩ := Trie.exists_content accepted whole found s
    obtain ⟨rfl, g', holds', admitted', inlined'⟩ := Trie.exists_content accepted' whole' found' s
    obtain rfl := denotes.content_eq denotes' holds holds' admitted admitted' inlined inlined' injective
    exact (Trie.shows_of_holds holds holds').encoding_eq

/-- A map of two keys in an encoding of sixteen bytes. -/
theorem decode_selfContained_fork : ∃ (c : Cell) (m : KeyMap),
    decode none [0x84, 2, 0, 0, 6, 0, 0x84, 1, 1, 0x10, 0, 0x84, 1, 1, 0x20, 0] = .ok c ∧ c.SelfContained ∧
      KeyMap.ofCell c = .ok m ∧ ∃ entries s', result m.entries ⟨[], []⟩ = (.ok entries, s') ∧
        Yields (KeyMap.ofEntries (entries.reverse.map fun e => (e.key, e.value))) s' fun m' _ =>
          m'.cell.encoding = [0x84, 2, 0, 0, 6, 0, 0x84, 1, 1, 0x10, 0, 0x84, 1, 1, 0x20, 0] := by
  let leaf (key : Bytes) : Ref Cell := ⟨.embedded, .direct (Trie.leaf .map key ⟨.embedded, .direct Cell.nil⟩).cell⟩
  let fork : Branch (Ref Cell) := ⟨0, [], none, [(1, leaf [0x10]), (2, leaf [0x20])], 2⟩
  let m : KeyMap := Trie.ofNode .map (.branch fork)
  have accepted : decode none [0x84, 2, 0, 0, 6, 0, 0x84, 1, 1, 0x10, 0, 0x84, 1, 1, 0x20, 0] = .ok m.cell := by
    rfl
  have whole : m.cell.SelfContained := by
    refine Cell.selfContained_of_children _ fun r member => ?_
    rw [Cell.refs, m.value_eq] at member
    rcases List.mem_cons.mp member with rfl | member
    · rfl
    · obtain rfl := List.mem_singleton.mp member
      rfl
  have found : KeyMap.ofCell m.cell = .ok m := Trie.ofCell_cell m
  obtain ⟨-, entries, s', run, rebuilt⟩ := (decode_selfContained none accepted whole ⟨[], []⟩).1 m found
  exact ⟨m.cell, m, accepted, whole, found, entries, s', run, rebuilt _ entries.reverse_perm⟩

end MerkleCells
