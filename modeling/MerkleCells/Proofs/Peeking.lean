import MerkleCells.Proofs.Coherent
import MerkleCells.Proofs.Recency

/-!
What is at hand of a reference, against what it resolves to. A cell that is at hand is in a cache under the hash of the
reference, so resolving finds it there and asks no store (`Session.load_at_hand`). The two differ over one thing: a
reference that was read from an encoding does not resolve to an embeddable cell (`Ref.Refuses`), but such a cell is
at hand once somebody else has loaded it. The main statement, for all references and sessions, is `Ref.peek_agrees`.
-/
namespace MerkleCells

open MerkleCells.Action

/-! ### Cells at hand -/

namespace Session

variable {s : Session} {id : LoaderId} {h : Hash} {c : Cell}

/-- The counters of how often each loader has asked its store. -/
def misses (s : Session) : List UInt64 := s.loaders.map (·.misses)

/-- No store is asked on the way from one session to another. -/
def AsksNothing (s s' : Session) : Prop := s'.stores = s.stores ∧ s'.misses = s.misses

/-- What is in the cache of a loader is what it loads, and its store is not asked. -/
theorem load_at_hand (cached : s.cached? id h = some c) : ∃ s', s.load id h = (.ok c, s') ∧ s.AsksNothing s' := by
  obtain ⟨l, here, found⟩ := Option.bind_eq_some_iff.mp cached
  refine ⟨_, load_hit here found, rfl, ?_⟩
  have counted : s.misses[id]? = some l.misses := by rw [misses, List.getElem?_map, here, Option.map_some]
  obtain ⟨bound, entry⟩ := List.getElem?_eq_some_iff.mp counted
  show (s.loaders.set id { l with cache := l.cache.put h c, hits := l.hits + 1 }).map (·.misses) = s.misses
  rw [List.map_set]
  show s.misses.set id l.misses = s.misses
  rw [← entry, List.set_getElem_self]

end Session

/-! ### References -/

theorem Loader.asChild_of_embeddable {h : Hash} {c : Cell} (small : c.embeddable = true) :
    asChild h (.ok c) = .error (.format (.embeddableByHash h)) := by
  simp only [asChild, bind, Except.bind, small, ↓reduceIte]
  rfl

namespace Ref

variable {s : Session} {r : Ref Cell} {c : Cell}

/-- A reference was read from an encoding, and the cell is none that would stand there by its hash. -/
def Refuses (r : Ref Cell) (c : Cell) : Prop :=
  (∃ loader, r.target = .soft r.hash loader true) ∧ c.embeddable = true

theorem session_value_soft (status : Status) (h : Hash) (id : LoaderId) (byMarker : Bool) (s : Session) :
    (result (value ⟨status, .soft h (some id) byMarker⟩) s).2 = (s.load id h).2 := by
  cases byMarker with
  | false => rfl
  | true =>
    simp only [value, ↓reduceIte, loadChild, load, result_bind, result_ofStep]
    generalize s.load id h = answer
    obtain ⟨e | c, s'⟩ := answer <;> rfl

theorem not_refuses_of_target {target : Target Cell} {status : Status}
    (direct : ∀ h loader, target ≠ .soft h loader true) : ¬ Refuses ⟨status, target⟩ c :=
  fun ⟨⟨loader, soft⟩, _⟩ => direct _ loader soft

/-- What is at hand of a reference is what it resolves to without asking a store, unless it is refused. -/
theorem value_of_at_hand (peeked : result r.peek s = (.ok (some c), s)) :
    s.AsksNothing (result r.value s).2 ∧
      ((result r.value s).1 = .ok c ∧ ¬ r.Refuses c ∨
        (result r.value s).1 = .error (.format (.embeddableByHash r.hash)) ∧ r.Refuses c) := by
  obtain ⟨status, d | ⟨h, loader, byMarker⟩⟩ := r
  · cases peeked
    exact ⟨⟨rfl, rfl⟩, .inl ⟨rfl, not_refuses_of_target fun _ _ soft => by cases soft⟩⟩
  cases loader with
  | none => cases peeked
  | some id =>
    have cached : s.cached? id h = some c := Except.ok.inj (congrArg Prod.fst peeked)
    obtain ⟨s', loaded, quiet⟩ := Session.load_at_hand cached
    refine ⟨by rwa [session_value_soft, loaded], ?_⟩
    rw [answer_value_soft, loaded]
    cases byMarker with
    | false => exact .inl ⟨rfl, not_refuses_of_target fun _ _ soft => by cases soft⟩
    | true =>
      rw [if_pos rfl]
      cases small : c.embeddable with
      | true => exact .inr ⟨Loader.asChild_of_embeddable small, ⟨some id, rfl⟩, small⟩
      | false => exact .inl ⟨Loader.asChild_eq_ok.mpr ⟨rfl, small⟩, fun refuses => by simp [refuses.2] at small⟩

/-- Looking at what is at hand of a reference changes nothing and never fails. -/
theorem result_peek (r : Ref Cell) (s : Session) : ∃ held, result r.peek s = (.ok held, s) := by
  obtain ⟨held, run, -⟩ := r.peek_spec s
  exact ⟨held, run⟩

/-- What is at hand of a reference, and what it resolves to. If a cell is at hand, resolving the reference gives that
cell without asking a store, or refuses that cell; and if it cannot be resolved, nothing is at hand but a cell that is
refused. -/
theorem peek_agrees (r : Ref Cell) (s : Session) : ∃ held, result r.peek s = (.ok held, s) ∧
    (∀ c, held = some c → s.AsksNothing (result r.value s).2 ∧
      ((result r.value s).1 = .ok c ∧ ¬ r.Refuses c ∨
        (result r.value s).1 = .error (.format (.embeddableByHash r.hash)) ∧ r.Refuses c)) ∧
    ∀ e, (result r.value s).1 = .error e → held = none ∨
      e = .format (.embeddableByHash r.hash) ∧ ∃ c, held = some c ∧ r.Refuses c := by
  obtain ⟨held, peeked⟩ := r.result_peek s
  refine ⟨held, peeked, ?_, ?_⟩
  · rintro c rfl
    exact value_of_at_hand peeked
  · intro e failed
    cases held with
    | none => exact .inl rfl
    | some c =>
      obtain ⟨-, ⟨same, -⟩ | ⟨refused, refuses⟩⟩ := value_of_at_hand peeked
      · rw [failed] at same
        cases same
      · rw [failed] at refused
        exact .inr ⟨Except.error.inj refused, c, rfl, refuses⟩

end Ref

/-! ### A cell that is refused -/

namespace Overlooked

/-- The hash of the cell of nil. -/
def nilHash : Hash :=
  ⟨[0x2D, 0x3A, 0xDE, 0xDF, 0xF1, 0x1B, 0x61, 0xF1, 0x4C, 0x88, 0x6E, 0x35, 0xAF, 0xA0, 0x36, 0x73, 0x6D, 0xCD, 0x87,
    0xA7, 0x4D, 0x27, 0xB5, 0xC1, 0x51, 0x02, 0x25, 0xD0, 0xF5, 0x92, 0xE2, 0x13], rfl⟩

theorem hash_nil : Cell.nil.hash = nilHash := by decide +kernel

/-- A loader that has loaded nothing yet. -/
def idle : Loader := ⟨0, .empty 1 Nat.one_pos, 0, 0⟩

/-- That loader, over a store that holds the cell of nil. -/
def lent : Session := ⟨[idle], [.memory ⟨[(nilHash, ⟨.nil, .stored⟩)]⟩]⟩

/-- The same after the cell was loaded by its hash. -/
def warm : Session := (lent.load 0 nilHash).2

/-- A vector whose only child is written as the hash of the cell of nil. -/
def outer : Cell := Cell.ofValue (.vector [Ref.ofMarker nilHash (some 0)])

theorem loaded : lent.load 0 nilHash = (.ok Cell.nil, ⟨[⟨0, idle.cache.put nilHash .nil, 0, 1⟩], lent.stores⟩) := by
  have accepted : Loader.accept nilHash (lent.answerTo 0 idle nilHash) = .ok Cell.nil :=
    Loader.accept_eq_ok.mpr ⟨_, rfl, rfl, hash_nil⟩
  rw [Session.load_miss (l := idle) rfl rfl, Loader.receive_of_accept accepted]
  rfl

/-- The vector is decoded. After the cell of nil was loaded by its hash it is at hand of the child of the vector as
well, but the child cannot be resolved. -/
theorem peek_differs : decode (some 0) outer.encoding = .ok outer ∧ outer.refs = [Ref.ofMarker nilHash (some 0)] ∧
    (lent.load 0 nilHash).1 = .ok Cell.nil ∧
    result (Ref.ofMarker nilHash (some 0)).peek warm = (.ok (some Cell.nil), warm) ∧
    (result (Ref.ofMarker nilHash (some 0)).value warm).1 = .error (.format (.embeddableByHash nilHash)) := by
  have cached : warm.cached? 0 nilHash = some Cell.nil := by
    rw [warm, loaded]
    rfl
  have peeked : result (Ref.ofMarker nilHash (some 0)).peek warm = (.ok (some Cell.nil), warm) :=
    congrArg (fun held => ((.ok held, warm) : Except Error (Option Cell) × Session)) cached
  refine ⟨rfl, congrArg Value.refs (Cell.value_ofValue _), congrArg Prod.fst loaded, peeked, ?_⟩
  obtain ⟨-, ⟨-, taken⟩ | ⟨refused, -⟩⟩ := Ref.value_of_at_hand peeked
  · exact absurd ⟨⟨some 0, rfl⟩, rfl⟩ taken
  · exact refused

end Overlooked

end MerkleCells
