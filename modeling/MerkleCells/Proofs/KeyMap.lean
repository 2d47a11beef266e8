import MerkleCells.Cell.Make
import MerkleCells.Proofs.Trie.Insertion
import MerkleCells.Proofs.Trie.Invariant
import MerkleCells.Proofs.Trie.Removal
import MerkleCells.KeyMap

/-!
Maps refine finite maps from keys to the hashes of their values. `KeyMap.bindings` is what some updates
bind, worked out without a trie; `KeyMap.run` makes the updates on a map; and `KeyMap.Refines` says that
a map answers and reports as the bindings say. The main statement is `run_refines`.
-/
namespace MerkleCells.KeyMap

open MerkleCells.Action

/-- An update of a map. -/
inductive Update where
  | assoc (key : Bytes) (value : Ref Cell)
  | dissoc (key : Bytes)

/-- Makes an update. A map that the update does not change stays. -/
def Update.run (m : KeyMap) : Update → Action KeyMap
  | .assoc key value => do return (← m.assoc key value).getD m
  | .dissoc key => do return (← m.dissoc key).getD m

/-- Makes some updates, starting from the empty map. -/
def run (updates : List Update) : Action KeyMap := updates.foldlM Update.run empty

/-- Keys that a map can bind. -/
def ValidKey (key : Bytes) : Prop := 0 < key.length ∧ key.length ≤ Limits.blob

/-- An update binds a valid key to a value that can be resolved, or unbinds any byte string. -/
def Update.Allowed (s : Session) : Update → Prop
  | .assoc key value => ValidKey key ∧ value.Resolves s
  | .dissoc _ => True

/-- What is bound after an update. -/
def Update.bind (f : Content Hash) : Update → Content Hash
  | .assoc key value => f.put key value.hash
  | .dissoc key => f.erase key

/-- What some updates bind, of which later ones win. The content of a value is known by its hash. -/
def bindings (updates : List Update) : Content Hash := updates.foldl Update.bind .none

/-- A map answers and reports as some bindings say, and all its nodes keep the trie invariant. -/
structure Refines (s : Session) (m : KeyMap) (f : Content Hash) : Prop where
  get : ∀ key, Yields (m.get? key) s fun r _ => r.map Ref.hash = f key
  count : m.count.toNat = f.size
  assoc : ∀ key value, ValidKey key → value.Resolves s → (f.put key value.hash).size < UInt64.size →
    Yields (m.assoc key value) s fun r _ => r = none ↔ f key = some value.hash
  dissoc : ∀ key, Yields (m.dissoc key) s fun r _ => r = none ↔ f key = none
  invariant : ∀ b : Branch (Ref Cell), m.node.Reaches .map s (.branch b) → ∃ s', s.Later s' ∧ b.Sound .map s'
  /-- Each branch counts the keys below it, which all share its path. -/
  holds : ∃ g : Content Mark, m.node.Holds .map s g ∧ ∀ key, (g key).map Mark.hash = f key

/-- A map holds bindings to the marks of values with the given hashes. -/
def Represents (s : Session) (m : KeyMap) (f : Content Hash) : Prop :=
  ∃ g : Content Mark, m.node.Holds .map s g ∧ g.Admitted .map ∧ ∀ key, (g key).map Mark.hash = f key

variable {s : Session} {m : KeyMap} {f : Content Hash} {g : Content Mark}

theorem size_eq (same : ∀ key, (g key).map Mark.hash = f key) : g.size = f.size := by
  have keys : g.keys = f.keys := by
    ext key
    rw [Content.mem_keys, Content.mem_keys, ← same key]
    simp
  rw [Content.size, Content.size, keys]

theorem map_put (same : ∀ key, (g key).map Mark.hash = f key) (key : Bytes) (c : Cell) (k : Bytes) :
    ((g.put key c.mark) k).map Mark.hash = f.put key c.hash k := by
  by_cases here : k = key
  · subst here
    simp [Content.put_self, Cell.mark]
  · rw [Content.put_of_ne here, Content.put_of_ne here, same]

theorem map_erase (same : ∀ key, (g key).map Mark.hash = f key) (key k : Bytes) :
    ((g.erase key) k).map Mark.hash = f.erase key k := by
  by_cases here : k = key
  · subst here
    simp [Content.erase_self]
  · rw [Content.erase_of_ne here, Content.erase_of_ne here, same]

theorem yields_checkKey {key : Bytes} (valid : ValidKey key) {Q : Unit → Session → Prop} (holds : Q () s) :
    Yields (liftM (checkKey key)) s Q := by
  refine yields_liftExcept.mpr ⟨(), ?_, holds⟩
  have nonempty : key.isEmpty = false := by
    rw [List.isEmpty_eq_false_iff_exists_mem]
    exact List.exists_mem_of_length_pos valid.1
  rw [checkKey, nonempty, if_neg (by decide), if_neg (not_lt.mpr valid.2)]
  rfl

theorem assoc_yields {key : Bytes} {value : Ref Cell} (holds : m.node.Holds .map s g) (admitted : g.Admitted .map)
    (valid : ValidKey key) {c : Cell} {s₁ : Session} (target : result value.value s = (.ok c, s₁))
    (named : c.hash = value.hash) (room : (g.put key c.mark).size < UInt64.size) :
    Yields (m.assoc key value) s fun r s' => s.Later s' ∧ Trie.Inserted s' g key c.mark r :=
  yields_bind.mpr (yields_checkKey valid (Trie.insert_yields target named holds admitted valid room))

/-- A map that holds bindings answers and reports as they say. -/
theorem Represents.refines (represents : Represents s m f) : Refines s m f := by
  obtain ⟨g, holds, admitted, same⟩ := represents
  refine ⟨?_, ?_, ?_, ?_, fun b reaches => holds.sound reaches rfl, g, holds, same⟩
  · intro key
    refine (Trie.get?_yields key holds admitted).mono ?_
    rintro r s' ⟨mark, -⟩
    rw [← same key, ← mark]
    cases r <;> rfl
  · exact holds.count_eq.trans (size_eq same)
  · intro key value valid resolves room
    obtain ⟨c, s₁, target, named⟩ := resolves s (.refl s)
    have room' : (g.put key c.mark).size < UInt64.size := by
      rw [size_eq (map_put same key c), named]
      exact room
    refine (assoc_yields holds admitted valid target named room').mono ?_
    rintro r s' ⟨-, inserted⟩
    cases r with
    | none =>
      obtain ⟨old, bound, equal⟩ := inserted
      simp only [true_iff]
      rw [← same key, bound, Option.map_some, equal, ← named]
      rfl
    | some t =>
      simp only [reduceCtorEq, false_iff]
      rw [← same key]
      intro bound
      obtain ⟨old, bound, equal⟩ := Option.map_eq_some_iff.mp bound
      exact inserted.1 old bound (equal.trans named.symm)
  · intro key
    refine (Trie.erase_yields key holds admitted).mono ?_
    rintro r s' ⟨-, removed⟩
    cases r with
    | none =>
      have unbound : g key = none := removed
      simp [← same key, unbound]
    | some t =>
      have bound : g key ≠ none := removed.1
      simp [← same key, bound]

theorem represents_empty (s : Session) : Represents s empty .none :=
  ⟨.none, .empty rfl, (fun _ _ bound => by cases bound), fun _ => rfl⟩

/-- An update keeps a map in step with the bindings. -/
theorem Represents.step (represents : Represents s m f) {u : Update} (allowed : u.Allowed s)
    (room : (u.bind f).size < UInt64.size) :
    Yields (u.run m) s fun m' s' => s.Later s' ∧ Represents s' m' (u.bind f) := by
  obtain ⟨g, holds, admitted, same⟩ := represents
  cases u with
  | assoc key value =>
    obtain ⟨valid, resolves⟩ := allowed
    obtain ⟨c, s₁, target, named⟩ := resolves s (.refl s)
    have bind : Update.bind f (.assoc key value) = f.put key c.hash := by rw [named]; rfl
    rw [bind] at room ⊢
    have room' : (g.put key c.mark).size < UInt64.size := by
      rw [size_eq (map_put same key c)]
      exact room
    refine (assoc_yields holds admitted valid target named room').bind ?_
    rintro r s' ⟨later, inserted⟩
    refine yields_pure.mpr ⟨later, ?_⟩
    cases r with
    | none =>
      obtain ⟨old, bound, equal⟩ := inserted
      refine ⟨g, holds.later later, admitted, fun k => ?_⟩
      by_cases here : k = key
      · subst here
        rw [Content.put_self, bound, Option.map_some, equal]
        rfl
      · rw [Content.put_of_ne here, same]
    | some t => exact ⟨g.put key c.mark, inserted.2, admitted.put valid, map_put same key c⟩
  | dissoc key =>
    refine (Trie.erase_yields key holds admitted).bind ?_
    rintro r s' ⟨later, removed⟩
    refine yields_pure.mpr ⟨later, ?_⟩
    cases r with
    | none =>
      have unbound : f key = none := by
        rw [← same key, show g key = none from removed]
        rfl
      refine ⟨g, holds.later later, admitted, fun k => ?_⟩
      by_cases here : k = key
      · subst here
        rw [same, unbound]
        exact (Content.erase_self f k).symm
      · rw [same]
        exact (Content.erase_of_ne here).symm
    | some t => exact ⟨g.erase key, removed.2, admitted.erase key, map_erase same key⟩

theorem Represents.fold (updates : List Update) {s : Session} {m : KeyMap} {f : Content Hash}
    (represents : Represents s m f) (allowed : ∀ u ∈ updates, u.Allowed s)
    (room : ∀ past, past <+: updates → (past.foldl Update.bind f).size < UInt64.size) :
    Yields (updates.foldlM Update.run m) s fun m' s' => Represents s' m' (updates.foldl Update.bind f) := by
  induction updates generalizing s m f with
  | nil => exact yields_pure.mpr represents
  | cons u rest ih =>
    have first := room [u] (List.prefix_append [u] rest)
    refine (represents.step (allowed u (by simp)) first).bind ?_
    rintro m' s' ⟨later, represents'⟩
    refine ih represents' ?_ ?_
    · intro u' member
      have before := allowed u' (List.mem_cons_of_mem u member)
      cases u' with
      | assoc key value => exact ⟨before.1, before.2.later later⟩
      | dissoc key => trivial
    · intro past initial
      exact room (u :: past) (List.prefix_cons_inj u |>.mpr initial)

theorem size_bindings_le (updates : List Update) : (bindings updates).keys.Finite ∧ (bindings updates).size ≤ updates.length := by
  induction updates using List.reverseRecOn with
  | nil => exact ⟨by rw [bindings, List.foldl_nil, Content.keys_eq_empty_iff.mpr rfl]; exact Set.finite_empty,
      Content.size_none.le⟩
  | append_singleton past u ih =>
    obtain ⟨finite, le⟩ := ih
    have last : bindings (past ++ [u]) = u.bind (bindings past) := List.foldl_concat ..
    rw [last, List.length_append, List.length_singleton]
    cases u with
    | assoc key value =>
      have keys : (Update.bind (bindings past) (.assoc key value)).keys = insert key (bindings past).keys :=
        Content.keys_put _ _ _
      refine ⟨by rw [keys]; exact finite.insert key, ?_⟩
      rw [Content.size, keys]
      exact (Set.ncard_insert_le key _).trans (Nat.succ_le_succ le)
    | dissoc key =>
      have keys : (Update.bind (bindings past) (.dissoc key)).keys = (bindings past).keys \ {key} :=
        Content.keys_erase _ _
      have sub : (Update.bind (bindings past) (.dissoc key)).keys ⊆ (bindings past).keys := by
        rw [keys]
        exact Set.sdiff_subset
      exact ⟨finite.subset sub, ((Content.size_mono finite sub).trans le).trans (Nat.le_succ _)⟩

/-- Whatever updates are made from the empty map, they all succeed, and the map that they lead to refines
what they bind, as long as there are never more keys bound than a count can tell. -/
theorem run_refines (s : Session) (updates : List Update) (allowed : ∀ u ∈ updates, u.Allowed s)
    (room : ∀ past, past <+: updates → (bindings past).size < UInt64.size) :
    Yields (run updates) s fun m s' => Refines s' m (bindings updates) :=
  (Represents.fold updates (represents_empty s) allowed room).mono fun _ _ represents => represents.refines

/-- A key, a key that it begins and a key that parts from both in the first byte are bound, and the first is
unbound again. -/
def forkAndCollapse : List Update :=
  [.assoc [1] (Ref.direct Cell.nil), .assoc [1, 2] (Ref.direct Cell.nil), .assoc [3] (Ref.direct Cell.nil), .dissoc [1]]

theorem run_refines_forkAndCollapse : (∀ u ∈ forkAndCollapse, u.Allowed ⟨[], []⟩) ∧
    (∀ past, past <+: forkAndCollapse → (bindings past).size < UInt64.size) ∧
    Yields (run forkAndCollapse) ⟨[], []⟩ fun m s' => Refines s' m (bindings forkAndCollapse) := by
  have allowed : ∀ u ∈ forkAndCollapse, u.Allowed ⟨[], []⟩ := by
    have resolves : (Ref.direct Cell.nil).Resolves ⟨[], []⟩ := Ref.resolves_direct _ Cell.nil _
    simp only [forkAndCollapse, List.mem_cons, List.not_mem_nil, or_false]
    rintro u (rfl | rfl | rfl | rfl)
    · exact ⟨⟨by decide, by decide⟩, resolves⟩
    · exact ⟨⟨by decide, by decide⟩, resolves⟩
    · exact ⟨⟨by decide, by decide⟩, resolves⟩
    · trivial
  have room : ∀ past, past <+: forkAndCollapse → (bindings past).size < UInt64.size := by
    intro past initial
    have le : past.length ≤ 4 := initial.length_le
    exact lt_of_le_of_lt ((size_bindings_le past).2.trans le) (by decide)
  exact ⟨allowed, room, run_refines _ _ allowed room⟩

end MerkleCells.KeyMap
