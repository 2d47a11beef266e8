import MerkleCells.Proofs.History.Set
import MerkleCells.Proofs.Honest

/-!
Set algebra by merging. An operation on two sets, whichever of their nodes are in memory, makes the set that
adding the right elements one by one would make, with all counts right (`merge_computes`), although the merge
opens no more nodes than it has to and works out counts by subtraction.
-/
namespace MerkleCells

open MerkleCells.Action

variable {I : Set Bytes}

namespace ContentSet

/-- A set is the one that has exactly some elements. -/
structure Exactly (I : Set Bytes) (s : Session) (t : ContentSet) (E : Set Hash) : Prop where
  /-- It has the encoding of the set that is built of these elements, in any order. -/
  encoding : ∀ (elements : List (Ref Cell)) (s' : Session), Ref.hash '' {r | r ∈ elements} = E →
    (∀ r ∈ elements, r.Offers I s') → Yields (ofElements elements) s' fun c _ => t.cell.encoding = c.cell.encoding
  count : t.count.toNat = E.ncard
  /-- Each node below counts the elements that share its path. -/
  counts : ∀ n, t.node.Reaches .set s n → n.count.toNat = {h ∈ E | Digits.Shares h.bytes n.path n.depth}.ncard

/-- A set that carries some elements has exactly these. -/
theorem exactly_of_carries (injective : Set.InjOn Hash.digest I) {s : Session} {t : ContentSet} {E : Set Hash}
    (carries : t.Carries s (shown I E)) (room : E.ncard < UInt64.size) : Exactly I s t E := by
  refine ⟨?_, ?_, ?_⟩
  · rintro elements s' rfl offers
    have past : (History.ofElements elements).Allowed I s' := ⟨offers, room⟩
    refine (past.carries injective).mono ?_
    rintro c s'' ⟨-, carries'⟩
    exact carries.encoding_eq carries'
  · rw [carries.count_eq, size_shown]
  · intro n reaches
    obtain ⟨s', p, holds, keys, -⟩ := carries.holds.holds_reached reaches
    have image : p.keys = Hash.bytes '' {h ∈ E | Digits.Shares h.bytes n.path n.depth} := by
      rw [keys, shown, Content.keys_marks, Content.keys_ofHashes]
      ext k
      constructor
      · rintro ⟨⟨h, member, rfl⟩, shares⟩
        exact ⟨h, ⟨member, shares⟩, rfl⟩
      · rintro ⟨h, ⟨member, shares⟩, rfl⟩
        exact ⟨⟨h, member, rfl⟩, shares⟩
    rw [holds.count_eq, Content.size, image, Set.ncard_image_of_injective _ Content.bytes_injective]

/-- An operation on two sets succeeds and makes exactly the set of the elements that it keeps, in whatever way the
nodes of the two sets are held, if the hash has no collisions on the encodings involved. -/
theorem merge_computes (injective : Set.InjOn Hash.digest I) (op : SetOperation) {past past' : History}
    {s s' : Session} (allowed : past.Allowed I s) (allowed' : past'.Allowed I s')
    (room : (past.elements ∪ past'.elements).ncard < UInt64.size)
    (compares : Compares I op past.elements past'.elements) :
    Yields past.run s fun a sa => Yields past'.run s' fun b sb => ∀ (u : Session) (a' b' : ContentSet),
      a.node.HeldAs .set sa u a'.node → b.node.HeldAs .set sb u b'.node →
        Yields (Trie.merge op a' b') u fun t u' => Exactly I u' t (op.kept past.elements past'.elements) := by
  have finite := (allowed.offered.union allowed'.offered).finite
  have fewer := Set.ncard_le_ncard (kept_subset op past.elements past'.elements) finite
  refine (allowed.carries injective).mono ?_
  rintro a sa ⟨-, carries⟩
  refine (allowed'.carries injective).mono ?_
  rintro b sb ⟨-, carries'⟩ u a' b' held held'
  refine (carries_kept injective allowed.offered allowed'.offered compares (carries.held held) (carries'.held held')
    room).mono ?_
  rintro t u' ⟨-, kept⟩
  exact exactly_of_carries injective kept (lt_of_le_of_lt fewer room)

end ContentSet

/-! ### Two sets whose children are held in different ways -/

namespace Sample

open ContentSet

/-- A store of the leaves of all elements. -/
def shelf : MemoryStore := ⟨[two, four, seven, twelve, twin].map fun x => (x.mark, ⟨x.leaf.cell, .persisted⟩)⟩

/-- A session with a loader in front of that store, which has one leaf in its cache. -/
def near : Session := ⟨[⟨0, ⟨4, Nat.succ_pos 3, [(four.mark, four.leaf.cell)]⟩, 0, 0⟩], [.memory shelf]⟩

/-- A leaf is held directly, or its hash is left to the loader. -/
def IsLeaf (x : Sample) (r : Ref Cell) : Prop := r = x.leaf.ref ∨ r = Ref.ofMarker x.mark (some 0)

/-- How the first set holds its leaves: one is not cached, one is cached, and the last is in memory. -/
def left : Sample → Ref Cell
  | twelve => twelve.leaf.ref
  | x => Ref.ofMarker x.mark (some 0)

/-- How the second set holds its leaves: one is in memory, one is cached, and the last is not. -/
def right : Sample → Ref Cell
  | two => two.leaf.ref
  | x => Ref.ofMarker x.mark (some 0)

theorem left_leaf (x : Sample) : IsLeaf x (left x) := by
  cases x with
  | twelve => exact .inl rfl
  | _ => exact .inr rfl

theorem right_leaf (x : Sample) : IsLeaf x (right x) := by
  cases x with
  | two => exact .inl rfl
  | _ => exact .inr rfl

theorem mark_injective {x y : Sample} (same : x.mark = y.mark) : x = y := by
  cases x <;> cases y <;> first | rfl | exact absurd same (by decide)

theorem near_honest : near.Honest fun h c => ∃ x : Sample, x.mark = h ∧ x.leaf.cell = c := by
  constructor
  · intro l member e cached
    rw [List.mem_singleton.mp member] at cached
    rw [List.mem_singleton.mp cached]
    exact ⟨four, rfl, rfl⟩
  · intro loader h
    cases loader with
    | succ loader => exact .inl rfl
    | zero =>
      rw [show near.told 0 h = shelf.answer h from rfl, MemoryStore.answer]
      cases found : shelf.held.find? h with
      | none => exact .inl rfl
      | some e =>
        obtain ⟨x, -, same⟩ := List.mem_map.mp (Table.mem_of_find? found)
        cases same
        exact .inr ⟨x.leaf.cell, Loader.accept_eq_ok.mpr ⟨_, rfl, rfl, x.hash_leaf⟩, x, rfl, rfl⟩

theorem leaf_not_embeddable (x : Sample) : x.leaf.cell.embeddable = false := by
  cases x <;> rfl

/-- However a leaf is held, it is found. -/
theorem yields_leaf {x : Sample} {r : Ref Cell} (leaf : IsLeaf x r) {s : Session} (later : near.Later s) :
    Yields (Trie.resolve .set r) s fun t _ => t = x.leaf := by
  rcases leaf with rfl | rfl
  · exact (Trie.yields_resolve_direct x.leaf _ s).mono fun t _ same => same.1
  · have apart : ∀ loader, (Ref.ofMarker (α := Cell) x.mark (some 0)).target = .soft x.mark loader true →
        ∀ d, (∃ y : Sample, y.mark = x.mark ∧ y.leaf.cell = d) → d.embeddable = false := by
      rintro loader - d ⟨y, -, rfl⟩
      exact y.leaf_not_embeddable
    have soft : ∀ d, (Ref.ofMarker x.mark (some 0)).cell? = some d → ∃ y : Sample, y.mark = x.mark ∧ y.leaf.cell = d :=
      fun d direct => by cases direct
    rcases Ref.value_or_absent (near_honest.later later) soft apart with found | ⟨-, absent⟩
    · refine found.bind fun c s' both => ?_
      obtain ⟨-, y, same, rfl⟩ := both
      rw [mark_injective same]
      exact yields_liftExcept.mpr ⟨x.leaf, Trie.ofCell_cell _, rfl⟩
    · have missing := absent.of_later later
      cases x <;> cases missing

theorem mark_leaf {x : Sample} {r : Ref Cell} (leaf : IsLeaf x r) : r.mark = x.leaf.ref.mark := by
  rcases leaf with rfl | rfl
  · rfl
  · have written : x.leaf.ref.mark = ⟨x.leaf.cell.hash, none⟩ := by
      cases x <;> rfl
    rw [written, hash_leaf]
    rfl

theorem eq_of_digit {x y z : Sample} (among : y ∈ [two, four, x]) (among' : z ∈ [two, four, x])
    (same : y.digit = z.digit) : y = z := by
  cases y <;> cases z <;> first | rfl | exact absurd same (by decide) | skip
  -- two that share a digit cannot both be the third element
  all_goals
    simp only [List.mem_cons, reduceCtorEq, List.not_mem_nil, or_false, false_or] at among among'
    exact absurd (among.trans among'.symm) (by decide)

/-- However its leaves are held, it is the same set. -/
theorem heldAs_fork {hold : Sample → Ref Cell} (held : ∀ y, IsLeaf y (hold y)) (x : Sample) :
    x.whole.node.HeldAs .set away near (.branch (fork hold x)) := by
  refine .branch ?_ ?_ ?_
  · simp only [fork, Branch.map, List.map_cons, List.map_nil, mark_leaf (held _)]
  · intro d r' found s later
    obtain ⟨y, -, -, rfl⟩ := child_fork found
    obtain ⟨t, s', run, -⟩ := yields_leaf (held y) later
    exact ⟨t, s', run⟩
  · intro d r r' found found' s s' later later' t s₁ t' s₁' run run'
    obtain ⟨y, among, digit, rfl⟩ := child_fork found
    obtain ⟨z, among', digit', rfl⟩ := child_fork found'
    obtain rfl := eq_of_digit among among' (digit.symm.trans digit')
    obtain ⟨rfl, -⟩ := (Trie.yields_resolve_direct y.leaf _ s).of_result run
    obtain rfl := (yields_leaf (held y) later').of_result run'
    exact .leaf rfl

theorem run_conj {past : ContentSet.History} {t v : ContentSet} {x : Sample}
    (before : result past.run away = (.ok t, away))
    (made : result (t.insert x.key.bytes (Ref.direct x.element)) away = (.ok (some v), away)) :
    result (ContentSet.History.conj past (Ref.direct x.element)).run away = (.ok v, away) := by
  rw [ContentSet.History.run, result_bind, before]
  dsimp only
  rw [result_bind, ContentSet.conj, hash_direct, made]
  rfl

theorem run_added {x : Sample} (new : x ≠ two ∧ x ≠ four) : result (added x).run away = (.ok x.whole, away) :=
  run_conj (run_conj (run_conj rfl two.insert_empty) insert_two) (insert_pair new)

/-- Two sets have a child in common that only the second one has at hand, another one that both have cached, and one
each that the other does not have. What their union counts for the first is what the first set counts beside the
others. -/
theorem merge_computes_held : Set.InjOn Hash.digest encodings ∧ (added twelve).Allowed encodings away ∧
    (added twin).Allowed encodings away ∧ Compares encodings .union (added twelve).elements (added twin).elements ∧
    twelve.whole.node.HeldAs .set away near (.branch (fork left twelve)) ∧
    twin.whole.node.HeldAs .set away near (.branch (fork right twin)) ∧
    Yields (Trie.merge .union (Trie.ofNode .set (.branch (fork left twelve)))
      (Trie.ofNode .set (.branch (fork right twin)))) near fun t s =>
        Exactly encodings s t (SetOperation.union.kept (added twelve).elements (added twin).elements) := by
  obtain ⟨allowed, allowed', room, compares⟩ := union_allowed away
  have held := heldAs_fork left_leaf twelve
  have held' := heldAs_fork right_leaf twin
  have merged := (merge_computes encodings_injective .union allowed allowed' room compares).of_result
    (run_added (by decide))
  exact ⟨encodings_injective, allowed, allowed', compares, held, held',
    merged.of_result (run_added (by decide)) near _ _ held held'⟩

end Sample

end MerkleCells
