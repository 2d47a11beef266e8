import MerkleCells.Proofs.Action

/-!
What stores do with a cell that is recorded. A file either holds it and raises its status, or appends a frame for it, or
refuses (`FileStore.records`). Recording a cell raises the status of its hash and of no other, in every kind of
store; resolving references changes none.
-/
namespace MerkleCells

open MerkleCells.Action

namespace FileStore

/-- The store after the status of a cell that it holds was raised. -/
def raise (s : FileStore) (h : Hash) (e : IndexEntry) (status : Status) : FileStore :=
  { s with index := s.index.put h { e with status := e.status.max status } }

/-- The store after a frame was appended for a cell. -/
def append (s : FileStore) (h : Hash) (frame : Bytes) (status : Status) : FileStore :=
  { s with
    image := s.image.write s.writeOffset frame
    index := s.index.put h ⟨s.writeOffset, frame.length, status⟩
    writeOffset := s.writeOffset + frame.length }

/-- What recording a cell comes to. A new frame that is too large or too far for the file is refused, and so is a cell
for which there is none. -/
inductive Records (s : FileStore) (cell : Cell) (own status : Status) : Except Error (Ref Cell) × FileStore → Prop
  | held {e : IndexEntry} (found : s.index.find? cell.hash = some e) :
      Records s cell own status
        (.ok ((Ref.direct cell).withStatus ((e.status.max status).max own)), s.raise cell.hash e status)
  | new {frame : Bytes} (absent : s.index.find? cell.hash = none)
      (made : s.codec.compress s.level cell.encoding = some frame) (small : frame.length < UInt32.size)
      (near : s.writeOffset + frame.length < placeLimit) :
      Records s cell own status
        (.ok ((Ref.direct cell).withStatus (status.max own)), s.append cell.hash frame status)
  | refused {e : Error} (absent : s.index.find? cell.hash = none) (fault : e = .io ∨ e = .invalid .frameTooLarge) :
      Records s cell own status (.error e, s)

theorem records (s : FileStore) (cell : Cell) (own status : Status) :
    s.Records cell own status (s.record cell own status) := by
  rw [record]
  cases found : s.index.find? cell.hash with
  | some e => exact .held found
  | none =>
    dsimp only
    cases made : s.codec.compress s.level cell.encoding with
    | none => exact .refused found (.inl rfl)
    | some frame =>
      dsimp only
      split
      · exact .refused found (.inr rfl)
      · next small =>
        split
        · exact .refused found (.inl rfl)
        · next near => exact .new found made (Nat.not_le.mp small) (Nat.not_le.mp near)

/-- What a store holds afterwards does not depend on the status that a reference to the cell has. -/
theorem record_own (s : FileStore) (cell : Cell) (own own' status : Status) :
    (s.record cell own status).2 = (s.record cell own' status).2 := by
  rw [record, record]
  cases s.index.find? cell.hash with
  | some e => rfl
  | none =>
    cases s.codec.compress s.level cell.encoding with
    | none => rfl
    | some frame =>
      dsimp only
      split
      · rfl
      · split <;> rfl

end FileStore

namespace Store

variable {held held' : Store} {cell : Cell} {own status : Status} {h : Hash}

/-- What recording a cell with a status makes of the status held. -/
def raised (status : Status) (held : Option Status) : Status := (held.map fun old => old.max status).getD status

theorem le_raised (status : Status) (held : Option Status) : status ≤ raised status held := by
  cases held with
  | none => exact Status.le_refl status
  | some old => exact Status.le_max_right old status

theorem le_raised_of_some {old : Status} (status : Status) : old ≤ raised status (some old) :=
  Status.le_max_left old status

/-- A status is reached by the highest of two if it is by one of them. -/
theorem le_raised_iff {a : Status} {held : Option Status} :
    a ≤ raised status held ↔ a ≤ status ∨ ∃ old, held = some old ∧ a ≤ old := by
  constructor
  · intro reached
    cases held with
    | none => exact .inl reached
    | some old =>
      simp only [raised, Option.map_some, Option.getD_some, Status.max] at reached
      split at reached
      · exact .inl reached
      · exact .inr ⟨old, rfl, reached⟩
  · rintro (reached | ⟨old, rfl, reached⟩)
    · exact Status.le_trans reached (le_raised status held)
    · exact Status.le_trans reached (le_raised_of_some status)

theorem status?_record {r : Ref Cell} (run : held.record cell own status = (.ok r, held')) (h : Hash) :
    held'.status? h = if cell.hash = h then some (raised status (held.status? h)) else held.status? h := by
  cases held with
  | memory s =>
    cases run
    exact s.status?_record cell own status h
  | untrusted s =>
    cases run
    by_cases here : cell.hash = h
    · subst here
      cases found : s.slots.find? cell.hash <;>
        simp [Store.status?, UntrustedStore.status?, raised, found]
    · simp [Store.status?, UntrustedStore.status?, here]
  | file s =>
    have records := s.records cell own status
    rw [record] at run
    generalize s.record cell own status = outcome at run records
    cases records with
    | held found =>
      cases run
      by_cases here : cell.hash = h
      · subst here
        simp [Store.status?, FileStore.status?, FileStore.raise, raised, found]
      · simp [Store.status?, FileStore.status?, FileStore.raise, here]
    | new absent =>
      cases run
      by_cases here : cell.hash = h
      · subst here
        simp [Store.status?, FileStore.status?, FileStore.append, raised, absent]
      · simp [Store.status?, FileStore.status?, FileStore.append, here]
    | refused => cases run

/-- A record that fails changes nothing. -/
theorem record_error {e : Error} (run : held.record cell own status = (.error e, held')) : held' = held := by
  cases held with
  | memory s => cases run
  | untrusted s => cases run
  | file s =>
    have records := s.records cell own status
    rw [record] at run
    generalize s.record cell own status = outcome at run records
    cases records with
    | held => cases run
    | new => cases run
    | refused =>
      cases run
      rfl

@[simp]
theorem status?_asked (held : Store) (h : Hash) : held.asked.status? h = held.status? h := by cases held <;> rfl

end Store

namespace Session

variable {s s' : Session} {store : StoreId} {h : Hash}

/-- The status that a store of a session holds for a hash. -/
def status? (s : Session) (store : StoreId) (h : Hash) : Option Status :=
  s.stores[store]?.bind fun held => held.status? h

theorem result_statusOf (s : Session) (store : StoreId) (h : Hash) :
    result (statusOf store h) s = (.ok (s.status? store h), s) := by
  rw [status?]
  simp only [statusOf, withStore, result_bind, result_get, result_pure]
  cases s.stores[store]? <;> rfl

@[simp]
theorem status?_load (s : Session) (loader : LoaderId) (k : Hash) (store : StoreId) (h : Hash) :
    (s.load loader k).2.status? store h = s.status? store h := by
  rw [load]
  cases s.loaders[loader]? with
  | none => rfl
  | some l =>
    dsimp only
    cases l.get? k with
    | some found => rfl
    | none =>
      dsimp only [status?]
      rw [List.getElem?_modify]
      cases s.stores[store]? with
      | none => rfl
      | some held =>
        dsimp only [Option.map_some, Option.bind_some]
        split
        · exact held.status?_asked h
        · rfl

theorem Later.status? (later : s.Later s') (store : StoreId) (h : Hash) : s'.status? store h = s.status? store h := by
  induction later with
  | refl => rfl
  | load loader k _ ih => rw [status?_load, ih]

variable {cell : Cell} {own status : Status}

theorem result_storeRef (s : Session) (store : StoreId) (cell : Cell) (own status : Status) :
    result (storeRef store ⟨own, .direct cell⟩ status) s =
      match s.stores[store]? with
      | none => (.error .io, s)
      | some held =>
        ((held.record cell own status).1, { s with stores := s.stores.set store (held.record cell own status).2 }) :=
  rfl

theorem returns_storeRef {s : Session} {store : StoreId} {cell : Cell} {own status : Status} :
    Returns (storeRef store ⟨own, .direct cell⟩ status) s := by
  intro endless
  rw [result_storeRef] at endless
  cases at_store : s.stores[store]? with
  | none =>
    rw [at_store] at endless
    cases endless
  | some held =>
    rw [at_store] at endless
    cases held with
    | memory s => cases endless
    | untrusted s => cases endless
    | file s =>
      have records := s.records cell own status
      have failed : (s.record cell own status).1 = .error .endless := endless
      generalize s.record cell own status = outcome at records failed
      cases records with
      | refused _ fault => rcases fault with rfl | rfl <;> cases failed
      | _ => cases failed

/-- Recording a cell raises the status of its hash and of no other. -/
theorem status?_storeRef {r : Ref Cell} (run : result (storeRef store ⟨own, .direct cell⟩ status) s = (.ok r, s'))
    (h : Hash) : s'.status? store h =
      if cell.hash = h then some (Store.raised status (s.status? store h)) else s.status? store h := by
  rw [result_storeRef] at run
  cases at_store : s.stores[store]? with
  | none =>
    rw [at_store] at run
    cases run
  | some held =>
    rw [at_store] at run
    cases recorded : held.record cell own status with
    | mk answer held' =>
      simp only [recorded] at run
      cases run
      obtain ⟨inside, -⟩ := List.getElem?_eq_some_iff.mp at_store
      simp only [Session.status?, at_store, List.getElem?_set_self inside, Option.bind_some]
      exact Store.status?_record recorded h

/-- A record that fails changes nothing. -/
theorem storeRef_error {e : Error} (run : result (storeRef store ⟨own, .direct cell⟩ status) s = (.error e, s')) :
    s' = s := by
  rw [result_storeRef] at run
  cases at_store : s.stores[store]? with
  | none =>
    rw [at_store] at run
    cases run
    rfl
  | some held =>
    rw [at_store] at run
    cases recorded : held.record cell own status with
    | mk answer held' =>
      simp only [recorded] at run
      cases run
      obtain ⟨inside, here⟩ := List.getElem?_eq_some_iff.mp at_store
      rw [Store.record_error recorded, ← here, List.set_getElem_self]

end Session

end MerkleCells
