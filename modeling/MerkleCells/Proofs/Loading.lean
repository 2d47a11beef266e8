import MerkleCells.Proofs.Store.Recording
import MerkleCells.Proofs.Table

/-!
What loaders hand out. What is true of all cached cells, and of all cells that a store's answers are accepted for,
is true of all cells that are loaded, and stays true of all cached cells (`Session.Caches.load`). A cell in a cache
was accepted once, so it has the hash that it is held under (`Session.Named`).
-/
namespace MerkleCells

open MerkleCells.Action

/-! ### Answers -/

namespace Loader

variable {h : Hash} {answer : Answer} {c : Cell}

/-- An answer is accepted if it has the cell that was asked for. -/
theorem accept_eq_ok : accept h answer = .ok c ↔ ∃ r, answer = .ok (some r) ∧ r.cell? = some c ∧ c.hash = h := by
  constructor
  · intro accepted
    rcases answer with e | _ | r
    · cases accepted
    · cases accepted
    · simp only [accept, bind, Except.bind] at accepted
      cases held : r.cell? with
      | none =>
        rw [held] at accepted
        cases accepted
      | some d =>
        rw [held] at accepted
        dsimp only at accepted
        split at accepted
        · next named =>
          cases accepted
          exact ⟨r, rfl, held, named⟩
        · cases accepted
  · rintro ⟨r, rfl, held, named⟩
    simp only [accept, bind, Except.bind, held, if_pos named]
    rfl

/-- A cell that is found in place of a hash is taken if no parent would have written it inside. -/
theorem asChild_eq_ok {found : Except Error Cell} : asChild h found = .ok c ↔ found = .ok c ∧ c.embeddable = false := by
  rcases found with e | d
  · constructor
    · intro taken
      cases taken
    · rintro ⟨none, -⟩
      cases none
  · cases small : d.embeddable <;> constructor
    · intro taken
      simp only [asChild, bind, Except.bind, small] at taken
      cases taken
      exact ⟨rfl, small⟩
    · rintro ⟨same, -⟩
      cases same
      simp [asChild, bind, Except.bind, pure, Except.pure, small]
    · intro taken
      simp [asChild, bind, Except.bind, small] at taken
    · rintro ⟨same, large⟩
      cases same
      rw [small] at large
      cases large

theorem store_get? {l l' : Loader} (found : l.get? h = some (c, l')) : l'.store = l.store := by
  obtain ⟨hit, -, same⟩ := Option.map_eq_some_iff.mp found
  cases same
  rfl

theorem store_receive (l : Loader) (h : Hash) (answer : Answer) : (l.receive h answer).2.store = l.store := by
  rw [receive]
  cases accept h answer <;> rfl

end Loader

/-! ### Caches -/

theorem Cache.mem_put {cache : Cache} {h : Hash} {c : Cell} {e : Hash × Cell} (member : e ∈ (cache.put h c).entries) :
    e = (h, c) ∨ e ∈ cache.entries := by
  rcases List.mem_cons.mp (List.mem_of_mem_take member) with same | kept
  · exact .inl same
  · exact .inr (List.mem_filter.mp kept).1

namespace Session

variable {P : Hash → Cell → Prop} {s s' : Session}

/-- What is true of every cell in a cache and the hash that it is held under. -/
def Caches (P : Hash → Cell → Prop) (s : Session) : Prop := ∀ l ∈ s.loaders, ∀ e ∈ l.cache.entries, P e.1 e.2

/-- What is true of every cell that an answer of a store is accepted for. -/
def Answers (P : Hash → Cell → Prop) (s : Session) : Prop :=
  ∀ loader l h c, s.loaders[loader]? = some l → Loader.accept h (s.answerTo loader l h) = .ok c → P h c

theorem Caches.set (caches : s.Caches P) {id : LoaderId} {l : Loader} (holds : ∀ e ∈ l.cache.entries, P e.1 e.2) :
    Caches P { s with loaders := s.loaders.set id l } := by
  intro l' member
  rcases List.mem_or_eq_of_mem_set member with old | rfl
  · exact caches l' old
  · exact holds

/-- A cell that is loaded was cached, or the store has just given it. -/
theorem Caches.load (caches : s.Caches P) (answers : s.Answers P) (loader : LoaderId) (h : Hash) :
    (∀ c, (s.load loader h).1 = .ok c → P h c) ∧ (s.load loader h).2.Caches P := by
  rw [Session.load]
  cases at_l : s.loaders[loader]? with
  | none => exact ⟨fun c failed => (by cases failed), caches⟩
  | some l =>
    have cached := caches l (List.mem_of_getElem? at_l)
    dsimp only
    cases found : l.cache.peek? h with
    | some c =>
      have holds : P h c := cached (h, c) (Table.mem_of_find? found)
      have hit : l.get? h = some (c, { l with cache := l.cache.put h c, hits := l.hits + 1 }) := by
        rw [Loader.get?, Cache.get?, found]
        rfl
      rw [hit]
      refine ⟨fun d same => ?_, caches.set fun e member => ?_⟩
      · cases same
        exact holds
      · rcases Cache.mem_put member with rfl | old
        · exact holds
        · exact cached e old
    | none =>
      have miss : l.get? h = none := by
        rw [Loader.get?, Cache.get?, found]
        rfl
      rw [miss]
      dsimp only
      rw [Loader.receive]
      cases accepted : Loader.accept h (s.answerTo loader l h) with
      | error e => exact ⟨fun c failed => (by cases failed), caches.set cached⟩
      | ok c =>
        have holds : P h c := answers loader l h c at_l accepted
        refine ⟨fun d same => ?_, caches.set fun e member => ?_⟩
        · cases same
          exact holds
        · rcases Cache.mem_put member with rfl | old
          · exact holds
          · exact cached e old

/-- Every cached cell has the hash that it is held under. -/
def Named (s : Session) : Prop := s.Caches fun h c => c.hash = h

theorem answers_named (s : Session) : s.Answers fun h c => c.hash = h := by
  intro loader l h c _ accepted
  obtain ⟨r, -, -, named⟩ := Loader.accept_eq_ok.mp accepted
  exact named

theorem Named.load (named : s.Named) (loader : LoaderId) (h : Hash) :
    (∀ c, (s.load loader h).1 = .ok c → c.hash = h) ∧ (s.load loader h).2.Named :=
  Caches.load named s.answers_named loader h

theorem Named.later (named : s.Named) (later : s.Later s') : s'.Named := by
  induction later with
  | refl => exact named
  | load loader h _ ih => exact (ih.load loader h).2

theorem Named.storeRef (named : s.Named) {store : StoreId} (c : Cell) (own status : Status) :
    (result (storeRef store ⟨own, .direct c⟩ status) s).2.Named := by
  rw [result_storeRef]
  split <;> exact named

end Session

/-! ### References -/

namespace Ref

variable {s s' : Session} {r : Ref Cell} {c : Cell}

/-- What a soft reference gives was loaded, and is not embeddable if the hash was read from another encoding. -/
theorem load_of_value {status : Status} {h : Hash} {loader : LoaderId} {byMarker : Bool}
    (run : result (value ⟨status, .soft h (some loader) byMarker⟩) s = (.ok c, s')) :
    s.load loader h = (.ok c, s') ∧ (byMarker = true → c.embeddable = false) := by
  cases byMarker with
  | false => exact ⟨run, fun no => by cases no⟩
  | true =>
    simp only [value, ↓reduceIte, loadChild, MerkleCells.load, result_bind, result_ofStep] at run
    generalize s.load loader h = answer at run
    obtain ⟨e | d, s''⟩ := answer
    · cases run
    · change (Loader.asChild h (.ok d), s'') = (.ok c, s') at run
      obtain ⟨taken, rfl⟩ := Prod.mk.injEq .. ▸ run
      obtain ⟨same, large⟩ := Loader.asChild_eq_ok.mp taken
      cases same
      exact ⟨rfl, fun _ => large⟩

/-- A reference that can be resolved leads to a cell of its hash. -/
theorem hash_of_value (named : s.Named) (run : result r.value s = (.ok c, s')) : c.hash = r.hash := by
  obtain ⟨status, d | ⟨h, loader, byMarker⟩⟩ := r
  · cases run
    rfl
  · cases loader with
    | none => cases run
    | some loader => exact (named.load loader h).1 c (congrArg Prod.fst (load_of_value run).1)

end Ref

end MerkleCells
