import MerkleCells.Proofs.History.Map
import MerkleCells.Proofs.History.Set

/-!
History independence. What a history leads to depends on what is bound or present in the end and on nothing else:
two histories that agree on that end with the same encoding, and so with the same hash.
-/
namespace MerkleCells

open MerkleCells.Action

variable {I : Set Bytes}

/-- Two actions succeed, each in its own session, with tries of the same encoding and hash. -/
def SameRoot {kind : TrieKind} (x : Action (Trie kind)) (s : Session) (y : Action (Trie kind)) (s' : Session) : Prop :=
  Yields x s fun t _ => Yields y s' fun t' _ => t.cell.encoding = t'.cell.encoding ∧ t.hash = t'.hash

/-- Actions that lead to the same content lead to the same root. -/
theorem sameRoot_of_carries {kind : TrieKind} {x y : Action (Trie kind)} {s s' : Session} {f : Content Mark}
    (left : Yields x s fun t s₁ => t.Carries s₁ f) (right : Yields y s' fun t s₁ => t.Carries s₁ f) :
    SameRoot x s y s' := by
  refine left.mono fun t s₁ carries => right.mono fun t' s₁' carries' => ?_
  have same := carries.encoding_eq carries'
  refine ⟨same, ?_⟩
  rw [Trie.hash, Trie.hash, t.cell.hash_eq, t'.cell.hash_eq, same]

/-- Histories that end with the same bindings, or with the same elements, end with the same encoding and hash, if the
hash has no collisions on the encodings involved. -/
theorem history_independence (injective : Set.InjOn Hash.digest I) :
    (∀ (past past' : KeyMap.History) (s s' : Session), past.Allowed I s → past'.Allowed I s' →
      past.bindings = past'.bindings → SameRoot past.run s past'.run s') ∧
    (∀ (past past' : ContentSet.History) (s s' : Session), past.Allowed I s → past'.Allowed I s' →
      past.elements = past'.elements → SameRoot past.run s past'.run s') := by
  constructor
  · intro past past' s s' allowed allowed' same
    have right := allowed'.carries injective
    rw [← same] at right
    exact sameRoot_of_carries (allowed.carries injective) right
  · intro past past' s s' allowed allowed' same
    have right := (allowed'.carries injective).mono fun _ _ both => both.2
    rw [← same] at right
    exact sameRoot_of_carries ((allowed.carries injective).mono fun _ _ both => both.2) right

namespace Sample

/-- A map made from its entries, two of which share a digit. -/
def bound : KeyMap.History :=
  ⟨[([0x10], Ref.direct two.element), ([0x12], Ref.direct four.element), ([0x20], Ref.direct twelve.element)], []⟩

/-- A map in which one value has been replaced, one key unbound and bound again, and one been there for a while below
another one. -/
def rebound : KeyMap.History :=
  ⟨[([0x20], Ref.direct two.element)],
    [.assoc [0x12] (Ref.direct four.element), .assoc [0x10, 0x05] (Ref.direct twin.element),
      .assoc [0x20] (Ref.direct twelve.element), .assoc [0x10] (Ref.direct two.element), .dissoc [0x10, 0x05],
      .dissoc [0x12], .assoc [0x12] (Ref.direct four.element)]⟩

/-- A set made from its elements. -/
def gathered : ContentSet.History := .ofElements ([twelve, four, two].map fun x => Ref.direct x.element)

/-- A set that is the union of two, where an element has been removed that shared a digit with another one. -/
def pruned : ContentSet.History := .disj (.merge .union (added twelve) (added twin)) twin.key

theorem bindings_bound : bound.bindings = rebound.bindings := by
  funext k
  by_cases first : k = [0x10] <;> by_cases second : k = [0x12] <;> by_cases third : k = [0x20] <;>
    by_cases longer : k = [0x10, 0x05] <;>
      simp_all [KeyMap.History.bindings, KeyMap.History.all, bound, rebound, KeyMap.bindings, KeyMap.Update.bind,
        Content.put, Content.erase, Content.none]

/-- A short history of valid updates with these elements. -/
theorem allowed_of_few {past : KeyMap.History} (few : past.all.length ≤ 8)
    (each : ∀ u ∈ past.all,
      (∃ key x, u = .assoc key (Ref.direct (element x)) ∧ KeyMap.ValidKey key) ∨ ∃ key, u = .dissoc key) :
    past.Allowed encodings away := by
  refine ⟨fun u member => ?_, fun first initial => ?_⟩
  · rcases each u member with ⟨key, x, rfl, valid⟩ | ⟨key, rfl⟩
    · exact ⟨valid, x.offers away⟩
    · trivial
  · exact lt_of_le_of_lt (((KeyMap.size_bindings_le first).2.trans initial.length_le).trans few) (by decide)

theorem bound_allowed : bound.Allowed encodings away := by
  refine allowed_of_few (by decide) fun u member => ?_
  simp only [KeyMap.History.all, bound, List.map_cons, List.map_nil, List.append_nil, List.mem_cons, List.not_mem_nil,
    or_false] at member
  rcases member with rfl | rfl | rfl <;> exact .inl ⟨_, _, rfl, by decide, by decide⟩

theorem rebound_allowed : rebound.Allowed encodings away := by
  refine allowed_of_few (by decide) fun u member => ?_
  simp only [KeyMap.History.all, rebound, List.map_cons, List.map_nil, List.cons_append, List.nil_append, List.mem_cons,
    List.not_mem_nil, or_false] at member
  rcases member with rfl | rfl | rfl | rfl | rfl | rfl | rfl | rfl <;>
    first | exact .inl ⟨_, _, rfl, by decide, by decide⟩ | exact .inr ⟨_, rfl⟩

theorem gathered_allowed : gathered.Allowed encodings away := by
  refine ⟨fun r member => ?_, ?_⟩
  · obtain ⟨x, -, rfl⟩ := List.mem_map.mp member
    exact x.offers away
  · rw [image_keys]
    exact ncard_keys (by decide)

theorem key_injective {x y : Sample} (same : x.key = y.key) : x = y := by
  cases x <;> cases y <;> first | rfl | exact absurd same (by decide)

theorem elements_pruned : gathered.elements = pruned.elements := by
  rw [gathered, pruned, ContentSet.History.elements, ContentSet.History.elements, ContentSet.History.elements,
    image_keys, elements_added, elements_added, kept_union, union_keys]
  ext h
  constructor
  · rintro ⟨x, member, rfl⟩
    refine ⟨⟨x, List.mem_append_left _ member, rfl⟩, fun same => ?_⟩
    rw [key_injective same] at member
    exact absurd member (by decide)
  · rintro ⟨⟨x, member, rfl⟩, other⟩
    refine ⟨x, ?_, rfl⟩
    have new : x ≠ twin := fun same => other (congrArg key same)
    have among : x = twelve ∨ x = four ∨ x = two ∨ x = four ∨ x = two := by simpa [new] using member
    rcases among with rfl | rfl | rfl | rfl | rfl <;> decide

theorem history_independence_pruned : Set.InjOn Hash.digest encodings ∧
    SameRoot bound.run away rebound.run away ∧ SameRoot gathered.run away pruned.run away := by
  have independent := history_independence encodings_injective
  exact ⟨encodings_injective, independent.1 _ _ _ _ bound_allowed rebound_allowed bindings_bound,
    independent.2 _ _ _ _ gathered_allowed (union_allowed away) elements_pruned⟩

end Sample

end MerkleCells
