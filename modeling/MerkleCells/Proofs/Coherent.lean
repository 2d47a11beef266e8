import MerkleCells.Proofs.Faithful
import MerkleCells.Proofs.Honest
import MerkleCells.Proofs.Trie.Holds

/-!
Sessions whose caches are coherent: a loader has nothing in its cache but what the store behind it would answer. A load
comes to what the store's answer is worth then, whether the cache still has it or not (`Session.CoherentAt.load`), so a
reference comes to the same however much is loaded before.
-/
namespace MerkleCells

open MerkleCells.Action

namespace Session

variable {s s' : Session} {id : LoaderId} {h : Hash}

/-- The store behind a loader would give whatever the loader has cached. -/
def CoherentAt (s : Session) (id : LoaderId) : Prop :=
  ∀ l, s.loaders[id]? = some l → ∀ e ∈ l.cache.entries, Loader.accept e.1 (s.told id e.1) = .ok e.2

/-- The store behind each loader would give whatever that has cached. -/
def Coherent (s : Session) : Prop := ∀ id, s.CoherentAt id

theorem told_eq {l : Loader} {held : Store} (here : s.loaders[id]? = some l) (behind : s.stores[l.store]? = some held) :
    s.told id h = held.answer id h := by
  rw [told, here]
  simp only [answerTo, behind]

theorem loaders_load_of_ne {k : LoaderId} (other : k ≠ id) : (s.load id h).2.loaders[k]? = s.loaders[k]? := by
  rw [load]
  split
  · rfl
  · split <;> exact List.getElem?_set_ne (Ne.symm other)

namespace CoherentAt

/-- A load comes to what the store's answer is worth, from the cache as well. -/
theorem load (coherent : s.CoherentAt id) (h : Hash) :
    (s.load id h).1 = Loader.accept h (s.told id h) ∧ (s.load id h).2.CoherentAt id := by
  cases here : s.loaders[id]? with
  | none =>
    rw [Session.load, Session.told, here]
    exact ⟨rfl, coherent⟩
  | some l =>
    obtain ⟨s', run, after⟩ := Loader.load_session here h
    have told : s.told id h = s.answerTo id l h := by rw [Session.told, here]
    -- what the loader hands out and keeps, by whether it had the cell
    suffices (l.load h (s.told id h)).1 = Loader.accept h (s.told id h) ∧
        ∀ e ∈ (l.load h (s.told id h)).2.cache.entries, Loader.accept e.1 (s.told id e.1) = .ok e.2 by
      rw [told] at this
      refine ⟨by rw [run, this.1, told], fun l' here' e member => ?_⟩
      rw [run, after] at here'
      cases here'
      rw [told_load]
      exact this.2 e member
    cases found : l.cached? h with
    | some c =>
      have given := coherent l here (h, c) (Table.mem_of_find? found)
      rw [Loader.load_of_cached found]
      refine ⟨given.symm, fun e member => ?_⟩
      rcases Cache.mem_put member with rfl | old
      · exact given
      · exact coherent l here e old
    | none =>
      rw [Loader.load_of_not_cached found]
      cases accepted : Loader.accept h (s.told id h) with
      | error e =>
        rw [Loader.receive_of_refused accepted]
        exact ⟨rfl, coherent l here⟩
      | ok c =>
        rw [Loader.receive_of_accept accepted]
        refine ⟨rfl, fun e member => ?_⟩
        rcases Cache.mem_put member with rfl | old
        · exact accepted
        · exact coherent l here e old

theorem later (coherent : s.CoherentAt id) (later : s.Later s') : s'.CoherentAt id := by
  induction later with
  | refl => exact coherent
  | load k h _ ih =>
    by_cases same : k = id
    · subst same
      exact (ih.load h).2
    · intro l here e member
      rw [loaders_load_of_ne (Ne.symm same)] at here
      rw [told_load]
      exact ih l here e member

end CoherentAt

theorem Coherent.later (coherent : s.Coherent) (later : s.Later s') : s'.Coherent :=
  fun id => (coherent id).later later

end Session

/-- What a soft reference comes to is what a load comes to, where an embeddable cell may have to be refused. -/
theorem Ref.answer_value_soft (status : Status) (h : Hash) (id : LoaderId) (byMarker : Bool) (s : Session) :
    (result (Ref.value ⟨status, .soft h (some id) byMarker⟩) s).1 =
      if byMarker then Loader.asChild h (s.load id h).1 else (s.load id h).1 := by
  cases byMarker with
  | false => rfl
  | true =>
    simp only [Ref.value, ↓reduceIte, loadChild, load, result_bind, result_ofStep]
    generalize s.load id h = answer
    obtain ⟨e | c, s'⟩ := answer <;> rfl

theorem Trie.later_of_resolve {kind : TrieKind} {r : Ref Cell} {s s' : Session} {answer : Except Error (Trie kind)}
    (run : result (resolve kind r) s = (answer, s')) : s.Later s' := by
  have later : s.Later (result (resolve kind r) s).2 := later_resolve r s
  rwa [run] at later

theorem Trie.answer_resolve {kind : TrieKind} (r : Ref Cell) (s : Session) :
    (result (resolve kind r) s).1 = (result r.value s).1.bind (ofCell kind) := by
  rw [resolve, result_bind]
  generalize result r.value s = answer
  obtain ⟨e | c, s'⟩ := answer <;> rfl

namespace Session.Coherent

variable {s s' s'' : Session}

/-- A reference comes to the same now and after more has been loaded. -/
theorem value_eq (coherent : s.Coherent) (later : s.Later s') (r : Ref Cell) :
    (result r.value s').1 = (result r.value s).1 := by
  obtain ⟨status, d | ⟨h, id, byMarker⟩⟩ := r
  · rfl
  · cases id with
    | none => rfl
    | some id =>
      rw [Ref.answer_value_soft, Ref.answer_value_soft, ((coherent.later later id).load h).1, ((coherent id).load h).1,
        told_later later]

theorem resolve_eq {kind : TrieKind} (coherent : s.Coherent) (later : s.Later s') (r : Ref Cell) :
    (result (Trie.resolve kind r) s').1 = (result (Trie.resolve kind r) s).1 := by
  rw [Trie.answer_resolve, Trie.answer_resolve, coherent.value_eq later]

/-- A child that is resolved once is resolved to the same whenever it is needed again. -/
theorem resolve_again {kind : TrieKind} (coherent : s.Coherent) (later : s.Later s') (later' : s.Later s'')
    {r : Ref Cell} {t : Trie kind} {s₁ : Session} (run : result (Trie.resolve kind r) s' = (.ok t, s₁)) :
    ∃ s₂, result (Trie.resolve kind r) s'' = (.ok t, s₂) ∧ s.Later s₂ := by
  have answer : (result (Trie.resolve kind r) s'').1 = .ok t := by
    rw [coherent.resolve_eq later', ← coherent.resolve_eq later, run]
  exact ⟨_, Prod.ext answer rfl, later'.trans (Trie.later_resolve r s'')⟩

end Session.Coherent

end MerkleCells
