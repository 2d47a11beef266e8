import MerkleCells.Cell.Make
import MerkleCells.Proofs.Loading

/-!
Loaders over stores that may do anything. A call comes with what the store answers if it is asked, which can be a lie, a
failure or something else each time. Hits are not checked, so all rests on what gets into the cache: every call keeps
each cached cell under its own hash (`Loader.Named.after`), and a load that fails puts nothing there. The main statement
is `Loader.calls_faithful`.
-/
namespace MerkleCells

open MerkleCells.Action

namespace Loader

/-! ### Calls -/

/-- Loads a hash that stands inside an encoding. -/
def loadChild (l : Loader) (h : Hash) (answer : Answer) : Except Error Cell × Loader :=
  let (found, l) := l.load h answer
  (asChild h found, l)

/-- Loads the target of a soft reference. -/
def resolve (l : Loader) (h : Hash) (byMarker : Bool) (answer : Answer) : Except Error Cell × Loader :=
  if byMarker then l.loadChild h answer else l.load h answer

/-- A call of a loader, with the answer that its store gives if it is asked. -/
inductive Call where
  | load (h : Hash) (answer : Answer)
  | loadChild (h : Hash) (answer : Answer)
  | value (h : Hash) (byMarker : Bool) (answer : Answer)
  | prime (cell : Cell)
  | cached (h : Hash)
  | clear

namespace Call

/-- What a call of a loader leaves of it. -/
def after (l : Loader) : Call → Loader
  | .load h answer => (l.load h answer).2
  | .loadChild h answer => (l.loadChild h answer).2
  | .value h byMarker answer => (l.resolve h byMarker answer).2
  | .prime cell => l.prime cell
  | .cached _ => l
  | .clear => l.clear

/-- The cell that a call hands out, after the hash that it was called for. -/
def given? (l : Loader) : Call → Option (Hash × Cell)
  | .load h answer => (l.load h answer).1.toOption.map (h, ·)
  | .loadChild h answer => (l.loadChild h answer).1.toOption.map (h, ·)
  | .value h byMarker answer => (l.resolve h byMarker answer).1.toOption.map (h, ·)
  | .prime _ => none
  | .cached h => (l.cached? h).map (h, ·)
  | .clear => none

/-- A call may put a cell into the cache under a hash. -/
def Concerns (h : Hash) : Call → Prop
  | .load k _ => k = h
  | .loadChild k _ => k = h
  | .value k _ _ => k = h
  | .prime cell => cell.hash = h
  | .cached _ => False
  | .clear => False

end Call

variable {l : Loader} {h : Hash} {answer : Answer} {c : Cell} {e : Error}

/-! ### Hits and misses -/

theorem load_of_cached (cached : l.cached? h = some c) :
    l.load h answer = (.ok c, { l with cache := l.cache.put h c, hits := l.hits + 1 }) := by
  have peeked : l.cache.peek? h = some c := cached
  simp only [load, get?, Cache.get?, peeked, Option.map_some]

theorem load_of_not_cached (absent : l.cached? h = none) : l.load h answer = l.receive h answer := by
  have peeked : l.cache.peek? h = none := absent
  simp only [load, get?, Cache.get?, peeked, Option.map_none]

theorem receive_of_accept (accepted : accept h answer = .ok c) :
    l.receive h answer = (.ok c, { l with misses := l.misses + 1, cache := l.cache.put h c }) := by
  rw [receive, accepted]

theorem receive_of_refused (refused : accept h answer = .error e) :
    l.receive h answer = (.error e, { l with misses := l.misses + 1 }) := by
  rw [receive, refused]

/-- A load fails only on a miss, where the answer is not the cell that was asked for. -/
theorem load_eq_error (failed : (l.load h answer).1 = .error e) :
    l.cached? h = none ∧ accept h answer = .error e := by
  cases found : l.cached? h with
  | some c =>
    rw [load_of_cached found] at failed
    cases failed
  | none =>
    rw [load_of_not_cached found] at failed
    cases accepted : accept h answer with
    | ok c =>
      rw [receive_of_accept accepted] at failed
      cases failed
    | error e' =>
      rw [receive_of_refused accepted] at failed
      cases failed
      exact ⟨rfl, rfl⟩

/-- A load that fails changes nothing but the number of misses. -/
theorem load_failed (failed : (l.load h answer).1 = .error e) :
    (l.load h answer).2 = { l with misses := l.misses + 1 } := by
  obtain ⟨absent, refused⟩ := load_eq_error failed
  rw [load_of_not_cached absent, receive_of_refused refused]

/-- Of a child, only an embeddable cell is refused when it was found. -/
theorem loadChild_eq_error (failed : (l.loadChild h answer).1 = .error e) :
    (l.load h answer).1 = .error e ∨
      ∃ c, (l.load h answer).1 = .ok c ∧ c.embeddable = true ∧ e = .format (.embeddableByHash h) := by
  rw [loadChild] at failed
  cases found : (l.load h answer).1 with
  | error e' =>
    simp only [found] at failed
    cases failed
    exact .inl rfl
  | ok c =>
    simp only [found] at failed
    refine .inr ⟨c, rfl, ?_⟩
    cases small : c.embeddable with
    | true =>
      simp only [asChild, bind, Except.bind, small, ↓reduceIte] at failed
      cases failed
      exact ⟨rfl, rfl⟩
    | false =>
      rw [asChild_eq_ok.mpr ⟨rfl, small⟩] at failed
      cases failed

/-! ### What is cached -/

/-- Every cached cell has the hash that it is held under. -/
def Named (l : Loader) : Prop := ∀ entry ∈ l.cache.entries, entry.2.hash = entry.1

namespace Named

theorem cached (named : l.Named) (cached : l.cached? h = some c) : c.hash = h :=
  named (h, c) (Table.mem_of_find? cached)

theorem put (named : l.Named) (same : c.hash = h) (hits misses : UInt64) :
    Named { l with cache := l.cache.put h c, hits, misses } := by
  intro entry member
  rcases Cache.mem_put member with rfl | old
  · exact same
  · exact named entry old

theorem load (named : l.Named) (h : Hash) (answer : Answer) :
    (∀ c, (l.load h answer).1 = .ok c → c.hash = h) ∧ (l.load h answer).2.Named := by
  cases found : l.cached? h with
  | some d =>
    have same := named.cached found
    rw [load_of_cached found]
    refine ⟨fun c given => ?_, named.put same _ _⟩
    cases given
    exact same
  | none =>
    rw [load_of_not_cached found]
    cases accepted : accept h answer with
    | error e =>
      rw [receive_of_refused accepted]
      exact ⟨fun c failed => (by cases failed), named⟩
    | ok d =>
      obtain ⟨r, -, -, same⟩ := accept_eq_ok.mp accepted
      rw [receive_of_accept accepted]
      refine ⟨fun c given => ?_, named.put same _ _⟩
      cases given
      exact same

theorem loadChild (named : l.Named) (h : Hash) (answer : Answer) :
    (∀ c, (l.loadChild h answer).1 = .ok c → c.hash = h ∧ c.embeddable = false) ∧ (l.loadChild h answer).2.Named := by
  obtain ⟨each, named'⟩ := named.load h answer
  refine ⟨fun c given => ?_, named'⟩
  obtain ⟨found, large⟩ := asChild_eq_ok.mp given
  exact ⟨each c found, large⟩

theorem resolve (named : l.Named) (h : Hash) (byMarker : Bool) (answer : Answer) :
    (∀ c, (l.resolve h byMarker answer).1 = .ok c → c.hash = h) ∧ (l.resolve h byMarker answer).2.Named := by
  cases byMarker with
  | false => exact named.load h answer
  | true => exact ⟨fun c given => ((named.loadChild h answer).1 c given).1, (named.loadChild h answer).2⟩

/-- What a call hands out has the hash that it was called for. -/
theorem given (named : l.Named) {call : Call} (given : call.given? l = some (h, c)) : c.hash = h := by
  have of_answer : ∀ {k : Hash} {found : Except Error Cell}, found.toOption.map (k, ·) = some (h, c) →
      k = h ∧ found = .ok c := by
    rintro k (e | d) given
    · cases given
    · cases given
      exact ⟨rfl, rfl⟩
  cases call with
  | load k answer =>
    obtain ⟨rfl, found⟩ := of_answer given
    exact (named.load k answer).1 c found
  | loadChild k answer =>
    obtain ⟨rfl, found⟩ := of_answer given
    exact ((named.loadChild k answer).1 c found).1
  | value k byMarker answer =>
    obtain ⟨rfl, found⟩ := of_answer given
    exact (named.resolve k byMarker answer).1 c found
  | prime cell => cases given
  | cached k =>
    obtain ⟨d, found, same⟩ := Option.map_eq_some_iff.mp given
    cases same
    exact named.cached found
  | clear => cases given

/-- No call puts a cell into the cache under another hash than its own. -/
theorem after (named : l.Named) (call : Call) : (call.after l).Named := by
  cases call with
  | load k answer => exact (named.load k answer).2
  | loadChild k answer => exact (named.loadChild k answer).2
  | value k byMarker answer => exact (named.resolve k byMarker answer).2
  | prime cell => exact named.put rfl _ _
  | cached k => exact named
  | clear => exact fun entry none => by cases none

theorem calls (named : l.Named) (calls : List Call) : (calls.foldl Call.after l).Named := by
  induction calls generalizing l with
  | nil => exact named
  | cons call rest ih => exact ih (named.after call)

end Named

theorem named_new {store : StoreId} {capacity : Nat} (made : Loader.new store capacity = .ok l) : l.Named := by
  rw [Loader.new] at made
  split at made
  · cases made
    exact fun entry none => by cases none
  · cases made

/-! ### What is not cached -/

theorem cached?_put (absent : l.cached? h = none) {k : Hash} (other : k ≠ h) (hits misses : UInt64) :
    Loader.cached? { l with cache := l.cache.put k c, hits, misses } h = none := by
  refine Table.find?_eq_none_iff.mpr fun held => ?_
  obtain ⟨entry, member, same⟩ := List.mem_map.mp held
  rcases Cache.mem_put member with rfl | old
  · exact other same
  · exact Table.find?_eq_none_iff.mp absent (List.mem_map.mpr ⟨entry, old, same⟩)

theorem cached?_load (absent : l.cached? h = none) {k : Hash} (other : k ≠ h) (answer : Answer) :
    (l.load k answer).2.cached? h = none := by
  cases found : l.cached? k with
  | some c =>
    rw [load_of_cached found]
    exact cached?_put absent other _ _
  | none =>
    rw [load_of_not_cached found]
    cases accepted : accept k answer with
    | error e =>
      rw [receive_of_refused accepted]
      exact absent
    | ok c =>
      rw [receive_of_accept accepted]
      exact cached?_put absent other _ _

/-- Calls for other hashes do not put a cell into the cache under this one. -/
theorem cached?_after (absent : l.cached? h = none) {call : Call} (apart : ¬ call.Concerns h) :
    (call.after l).cached? h = none := by
  cases call with
  | load k answer => exact cached?_load absent apart answer
  | loadChild k answer => exact cached?_load absent apart answer
  | value k byMarker answer => cases byMarker <;> exact cached?_load absent apart answer
  | prime cell => exact cached?_put absent apart _ _
  | cached k => exact absent
  | clear => rfl

theorem cached?_calls {calls : List Call} (absent : l.cached? h = none) (apart : ∀ call ∈ calls, ¬ call.Concerns h) :
    (calls.foldl Call.after l).cached? h = none := by
  induction calls generalizing l with
  | nil => exact absent
  | cons call rest ih =>
    exact ih (cached?_after absent (apart call List.mem_cons_self)) fun other member =>
      apart other (List.mem_cons_of_mem call member)

/-! ### Loaders in sessions -/

/-- In a session a load is what the loader makes of the answer of its store. -/
theorem load_session {s : Session} {id : LoaderId} (here : s.loaders[id]? = some l) (h : Hash) :
    ∃ s', s.load id h = ((l.load h (s.answerTo id l h)).1, s') ∧
      s'.loaders[id]? = some (l.load h (s.answerTo id l h)).2 := by
  have inside := (List.getElem?_eq_some_iff.mp here).1
  rw [Session.load, here, load]
  dsimp only
  cases found : l.get? h with
  | some hit => exact ⟨_, rfl, List.getElem?_set_self inside⟩
  | none => exact ⟨_, rfl, List.getElem?_set_self inside⟩

/-- A soft reference that waits for a loader is resolved by it. -/
theorem value_session {s : Session} {id : LoaderId} (here : s.loaders[id]? = some l) (status : Status) (h : Hash)
    (byMarker : Bool) :
    ∃ s', result (Ref.value ⟨status, .soft h (some id) byMarker⟩) s =
        ((l.resolve h byMarker (s.answerTo id l h)).1, s') ∧
      s'.loaders[id]? = some (l.resolve h byMarker (s.answerTo id l h)).2 := by
  obtain ⟨s', run, after⟩ := load_session here h
  cases byMarker with
  | false => exact ⟨s', run, after⟩
  | true =>
    refine ⟨s', ?_, after⟩
    simp only [Ref.value, ↓reduceIte, MerkleCells.loadChild, MerkleCells.load, result_bind, result_ofStep, run, resolve,
      loadChild]
    cases (l.load h (s.answerTo id l h)).1 <;> rfl

/-! ### Runs -/

/-- What a loader hands out is what it is asked for, and it forgets a load that failed. -/
structure Faithful (l : Loader) : Prop where
  /-- The cell that a call hands out for a hash has an encoding of that hash. -/
  given : ∀ (call : Call) h c, call.given? l = some (h, c) → Hash.digest c.encoding = h
  /-- In place of a child no embeddable cell is handed out. -/
  child : ∀ h answer c, (l.loadChild h answer).1 = .ok c → c.embeddable = false
  /-- Loading a child fails as loading does, or because the cell is embeddable. -/
  child_failed : ∀ h answer e, (l.loadChild h answer).1 = .error e → (l.load h answer).1 = .error e ∨
    ∃ c, (l.load h answer).1 = .ok c ∧ c.embeddable = true ∧ e = .format (.embeddableByHash h)
  /-- A load that fails counts one miss and changes nothing else. -/
  failed : ∀ h answer e, (l.load h answer).1 = .error e → (l.load h answer).2 = { l with misses := l.misses + 1 }
  /-- After a load that failed, and any calls for other hashes, the store is asked again: the next load gives what the
  store's next answer has, as soon as that is the right cell. -/
  retried : ∀ h answer e, (l.load h answer).1 = .error e → ∀ calls : List Call, (∀ call ∈ calls, ¬ call.Concerns h) →
    ∀ l', l' = calls.foldl Call.after (l.load h answer).2 → ∀ answer',
      l'.load h answer' = l'.receive h answer' ∧ (l'.load h answer').2.misses = l'.misses + 1 ∧
        ∀ r c, answer' = .ok (some r) → r.cell? = some c → Hash.digest c.encoding = h →
          (l'.load h answer').1 = .ok c
  /-- In a session, whatever stores it has, references that wait for the loader are resolved by its calls. -/
  value : ∀ (s : Session) (id : LoaderId), s.loaders[id]? = some l → ∀ status h byMarker,
    ∃ s', result (Ref.value ⟨status, .soft h (some id) byMarker⟩) s =
        ((l.resolve h byMarker (s.answerTo id l h)).1, s') ∧
      s'.loaders[id]? = some (l.resolve h byMarker (s.answerTo id l h)).2

theorem misses_receive (l : Loader) (h : Hash) (answer : Answer) : (l.receive h answer).2.misses = l.misses + 1 := by
  cases accepted : accept h answer with
  | ok c => rw [receive_of_accept accepted]
  | error e => rw [receive_of_refused accepted]

/-- Whatever calls are made of a loader, and whatever its store answers to them, it goes on to be faithful. -/
theorem calls_faithful {store : StoreId} {capacity : Nat} (made : Loader.new store capacity = .ok l)
    (calls : List Call) : Faithful (calls.foldl Call.after l) := by
  have named := (named_new made).calls calls
  generalize calls.foldl Call.after l = l at named
  refine ⟨fun call h c given => ?_, fun h answer c given => ((named.loadChild h answer).1 c given).2,
    fun _ _ _ => loadChild_eq_error, fun _ _ _ => load_failed, ?_, fun _ _ here => value_session here⟩
  · rw [← Cell.hash_eq]
    exact named.given given
  · rintro h answer e failed calls apart l' rfl answer'
    have absent : (l.load h answer).2.cached? h = none := by
      rw [load_failed failed]
      exact (load_eq_error failed).1
    have asked : _ = Loader.receive _ h answer' := load_of_not_cached (cached?_calls absent apart)
    refine ⟨asked, by rw [asked, misses_receive], ?_⟩
    rintro r c rfl held same
    rw [asked, receive_of_accept (accept_eq_ok.mpr ⟨r, rfl, held, (Cell.hash_eq c).trans same⟩)]

/-- A load that the store has nothing for, one that it answers with another cell, and one of a cell that was put into
the cache, which is then cleared. -/
def mixed : List Call :=
  [.load Cell.nil.hash (.ok none), .loadChild Cell.nil.hash (.ok (some (Ref.direct (Cell.bool true)))),
    .prime (Cell.bool true), .value (Cell.bool true).hash true (.error .io), .clear]

theorem calls_faithful_mixed : ∃ l, Loader.new 0 2 = .ok l ∧ Faithful (mixed.foldl Call.after l) := by
  have made : Loader.new 0 2 = .ok ⟨0, .empty 2 (by decide), 0, 0⟩ := rfl
  exact ⟨_, made, calls_faithful made mixed⟩

end Loader

end MerkleCells
