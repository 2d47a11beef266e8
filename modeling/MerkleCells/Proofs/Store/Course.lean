import MerkleCells.Proofs.Store.Contents
import MerkleCells.Proofs.Store.Settling

/-!
Courses of calls on one store, in memory or in a file, that may be synced, closed and opened again in between. What
the store holds at the end is told by what was recorded (`Watch.Course.stocked`), and no status that was held at any
moment is lost.
-/
namespace MerkleCells

open MerkleCells.Action

/-! ### What was recorded -/

/-- What a step has recorded. -/
def Event.logged? : Event → Option (Cell × Status)
  | .recorded cell status (.ok _) => some (cell, status)
  | _ => none

/-- All that has been recorded, the earliest first. -/
def Watch.log (w : Watch) : Log := (w.past.filterMap fun m => m.event.logged?).reverse

theorem Watch.log_after (w : Watch) (m : Moment) : (w.after m).log = w.log ++ m.event.logged?.toList := by
  simp only [log, after, List.filterMap_cons]
  cases m.event.logged? <;> simp

theorem Watch.log_after_of_none {w : Watch} {m : Moment} (none : m.event.logged? = none) : (w.after m).log = w.log := by
  rw [log_after, none, Option.toList_none, List.append_nil]

/-- The highest status that was recorded is one. -/
theorem Raised.unique {log : Log} {f g : Hash → Option Status} (raised : Raised log f) (raised' : Raised log g) :
    f = g := by
  funext h
  have same : (f h).isSome = (g h).isSome := Bool.eq_iff_iff.mpr ((raised.holds h).trans (raised'.holds h).symm)
  cases at_f : f h with
  | none =>
    rw [at_f] at same
    exact (Option.not_isSome_iff_eq_none.mp (by rw [← same]; exact Bool.false_ne_true)).symm
  | some a =>
    rw [at_f] at same
    obtain ⟨b, at_g⟩ := Option.isSome_iff_exists.mp same.symm
    obtain ⟨member, above⟩ := raised.highest h a at_f
    obtain ⟨member', above'⟩ := raised'.highest h b at_g
    rw [at_g, Status.le_antisymm (above' member) (above member')]

namespace Session

variable {s s' s'' : Session} {store : StoreId} {held : Store}

/-- Every status that a store holds in one session is reached in another one. -/
def Below (store : StoreId) (s s' : Session) : Prop :=
  ∀ h old, s.status? store h = some old → ∃ now, s'.status? store h = some now ∧ old ≤ now

theorem Below.of_eq (same : ∀ h, s'.status? store h = s.status? store h) : s.Below store s' :=
  fun h old found => ⟨old, (same h).trans found, Status.le_refl old⟩

theorem Below.trans (first : s.Below store s') (second : s'.Below store s'') : s.Below store s'' := by
  intro h old found
  obtain ⟨now, found', le⟩ := first h old found
  obtain ⟨later, found'', le'⟩ := second h now found'
  exact ⟨later, found'', Status.le_trans le le'⟩

theorem below_storeRef (cell : Cell) (own status : Status) :
    s.Below store (result (storeRef store ⟨own, .direct cell⟩ status) s).2 := by
  cases run : result (storeRef store ⟨own, .direct cell⟩ status) s with
  | mk answer s' =>
    cases answer with
    | error e => exact .of_eq fun h => by rw [storeRef_error run]
    | ok r =>
      intro h old found
      rw [status?_storeRef run, found]
      by_cases here : cell.hash = h
      · rw [if_pos here]
        exact ⟨_, rfl, Store.le_raised_of_some status⟩
      · rw [if_neg here]
        exact ⟨old, rfl, Status.le_refl old⟩

/-- Loading leaves a store alone that does not count how often it is asked. -/
theorem stores_load (still : held.asked = held) (at_store : s.stores[store]? = some held) (loader : LoaderId)
    (h : Hash) :
    (s.load loader h).2.stores[store]? = some held := by
  rw [load]
  cases s.loaders[loader]? with
  | none => exact at_store
  | some l =>
    dsimp only
    cases l.get? h with
    | some found => exact at_store
    | none =>
      dsimp only
      rw [List.getElem?_modify, at_store, Option.map_eq_map, Option.map_some]
      split
      · rw [still]
      · rfl

theorem Later.stores (still : held.asked = held) (later : s.Later s') (at_store : s.stores[store]? = some held) :
    s'.stores[store]? = some held := by
  induction later with
  | refl => exact at_store
  | load loader h _ ih => exact stores_load still ih loader h

/-- A session with another store in the place of one. -/
def withStore (s : Session) (store : StoreId) (held : Store) : Session := { s with stores := s.stores.set store held }

theorem stores_withStore (at_store : s.stores[store]? = some held) (held' : Store) :
    (s.withStore store held').stores[store]? = some held' := by
  obtain ⟨inside, -⟩ := List.getElem?_eq_some_iff.mp at_store
  exact List.getElem?_set_self inside

end Session

theorem Store.Holds.still {log : Log} {held : Store} (holds : held.Holds log) : held.asked = held := by
  cases held with
  | memory s => rfl
  | untrusted s => exact holds.elim
  | file s => rfl

/-! ### Calls -/

namespace Watch

variable {store : StoreId} {w w' : Watch} {last : Option FileStore}

/-- What was recorded in a store is what it holds, and no status that it held at any moment is lost. If it is a file
that was synced with what it holds, that is what the file tells. -/
structure Stocked (store : StoreId) (w : Watch) (last : Option FileStore) : Prop where
  keeps : ∃ held, w.session.stores[store]? = some held ∧ held.Holds w.log
  rises : ∀ m ∈ w.past, m.session.Below store w.session
  written : ∀ f, last = some f → f.Written f.image

theorem Stocked.status? (stocked : w.Stocked store last) : Raised w.log (w.session.status? store) := by
  obtain ⟨held, at_store, holds⟩ := stocked.keeps
  have same : w.session.status? store = held.status? := by
    funext h
    rw [Session.status?, at_store, Option.bind_some]
  rw [same]
  exact holds.raised

/-- All that was recorded can be read. -/
def Legible (w : Watch) : Prop := ∀ e ∈ w.log, e.1.Readable

theorem Stocked.rises_after (stocked : w.Stocked store last) {s : Session} (further : w.session.Below store s) :
    ∀ m ∈ w.past, m.session.Below store s :=
  fun m member => (stocked.rises m member).trans further

theorem Stocked.step {m : Moment} (stocked : w.Stocked store last) (follows : m.Follows store w.session) :
    (w.after m).Stocked store last := by
  obtain ⟨held, at_store, holds⟩ := stocked.keeps
  have rises : w.session.Below store m.session → ∀ m' ∈ (w.after m).past, m'.session.Below store m.session := by
    intro further m' member
    rcases List.mem_cons.mp member with rfl | member
    · exact .of_eq fun _ => rfl
    · exact stocked.rises_after further m' member
  have same : m.event.logged? = none → (w.after m).log = w.log := log_after_of_none
  cases follows with
  | asked h =>
    refine ⟨⟨held, at_store, ?_⟩, rises (.of_eq fun _ => rfl), stocked.written⟩
    rwa [same rfl]
  | trusted claims =>
    refine ⟨⟨held, at_store, ?_⟩, rises (.of_eq fun _ => rfl), stocked.written⟩
    rwa [same rfl]
  | resolved r =>
    have later := r.later_value w.session
    refine ⟨⟨held, later.stores holds.still at_store, ?_⟩, rises (.of_eq (later.status? store)), stocked.written⟩
    rwa [same rfl]
  | recorded cell own status =>
    refine ⟨?_, rises (Session.below_storeRef cell own status), stocked.written⟩
    cases run : result (storeRef store ⟨own, .direct cell⟩ status) w.session with
    | mk answer s' =>
      rw [run] at same
      cases answer with
      | error e =>
        refine ⟨held, ?_, ?_⟩
        · rw [Session.storeRef_error run]
          exact at_store
        · rwa [same rfl]
      | ok r =>
        have log : (w.after ⟨.recorded cell status (.ok r), s'⟩).log = w.log ++ [(cell, status)] := log_after _ _
        rw [Session.result_storeRef, at_store] at run
        obtain ⟨inside, -⟩ := List.getElem?_eq_some_iff.mp at_store
        cases recorded : held.record cell own status with
        | mk answer held' =>
          simp only [recorded, Prod.mk.injEq] at run
          obtain ⟨rfl, rfl⟩ := run
          refine ⟨held', List.getElem?_set_self inside, ?_⟩
          rw [log]
          exact holds.record recorded

theorem Leads.stocked (leads : w.Leads store w') (stocked : w.Stocked store last) : w'.Stocked store last := by
  induction leads with
  | refl => exact stocked
  | step _ follows ih => exact ih.step follows

/-! ### Courses -/

/-- Courses of calls on one store that was new at first, in memory or in a file that is made with a codec. Calls may fail, and between them
anything may be done that leaves the store alone. A file may be synced, and it may be closed and opened again if it is
synced when it is closed, or was synced or opened and nothing was recorded after that. What stands beside the watch is
the store as it was when that last happened. -/
inductive Course (codec : Codec) (store : StoreId) : Watch → Option FileStore → Prop
  | memory {s : Session} (new : s.stores[store]? = some (.memory .empty)) : Course codec store ⟨s, []⟩ none
  | file {s : Session} {settings : Settings} {f : FileStore} (made : FileStore.create codec settings = .ok f)
      (new : s.stores[store]? = some (.file f)) : Course codec store ⟨s, []⟩ none
  | storeRef {w : Watch} {last : Option FileStore} (r : Ref Cell) (status : Status)
      (course : Course codec store w last) :
      Course codec store (w.called (storeRef store r status) (Watched.storeRef store r status)) last
  | storeCell {w : Watch} {last : Option FileStore} (cell : Cell) (course : Course codec store w last) :
      Course codec store (w.called (storeCell store cell) (Watched.storeCell store cell)) last
  | persist {w : Watch} {last : Option FileStore} (r : Ref Cell) (course : Course codec store w last) :
      Course codec store (w.called (persist store r) (Watched.persist store r)) last
  | aside {w : Watch} {last : Option FileStore} {s : Session} (course : Course codec store w last)
      (same : s.stores[store]? = w.session.stores[store]?) : Course codec store ⟨s, w.past⟩ last
  | sync {w : Watch} {last : Option FileStore} {f : FileStore} (course : Course codec store w last)
      (here : w.session.stores[store]? = some (.file f)) (done : f.sync.1 = .ok ()) :
      Course codec store ⟨w.session.withStore store (.file f.sync.2), w.past⟩ (some f.sync.2)
  | reopen {w : Watch} {last : Option FileStore} {f f' : FileStore} {settings : Settings}
      (course : Course codec store w last) (here : w.session.stores[store]? = some (.file f))
      (synced : last = some f ∨ f.syncOnDrop = true ∧ f.sync.1 = .ok ())
      (opened : FileStore.openImage f.codec settings (some f.close) = .ok f') :
      Course codec store ⟨w.session.withStore store (.file f'), w.past⟩ (some f')

theorem Stocked.reopen (stocked : w.Stocked store last) {f : FileStore}
    (here : w.session.stores[store]? = some (.file f))
    (synced : last = some f ∨ f.syncOnDrop = true ∧ f.sync.1 = .ok ()) {settings : Settings}
    (valid : settings.validate = .ok ()) :
    ∃ f', FileStore.openImage f.codec settings (some f.close) = .ok f' ∧ f'.Holds w.log ∧ f'.Written f'.image := by
  obtain ⟨held, at_store, holds⟩ := stocked.keeps
  rw [here] at at_store
  cases at_store
  exact FileStore.Holds.reopen holds (synced.imp_left (stocked.written f)) valid

/-- When the store is replaced by one that holds the same, no status is lost. -/
theorem Stocked.replace (stocked : w.Stocked store last) {f f' : FileStore}
    (here : w.session.stores[store]? = some (.file f)) (holds : f'.Holds w.log) (written : f'.Written f'.image) :
    Stocked store ⟨w.session.withStore store (.file f'), w.past⟩ (some f') where
  keeps := ⟨.file f', Session.stores_withStore here _, holds⟩
  rises := by
    refine stocked.rises_after (.of_eq fun h => ?_)
    have same : f'.status? = w.session.status? store := holds.raised.unique stocked.status?
    rw [← same, Session.status?, Session.stores_withStore here]
    rfl
  written g same := by
    cases same
    exact written

/-- What is held at the end of a course is what was recorded in it. -/
theorem Course.stocked {codec : Codec} (course : Course codec store w last) (faithful : codec.Faithful) :
    w.Stocked store last := by
  induction course with
  | memory new =>
    exact ⟨⟨_, new, MemoryStore.holds_empty⟩, fun m none => (by cases none), fun f none => by cases none⟩
  | file made new =>
    exact ⟨⟨_, new, FileStore.holds_create faithful made⟩, fun m none => (by cases none), fun f none => by cases none⟩
  | @storeRef w last r status _ ih =>
    rw [called_eq (Watched.tells_storeRef store r status)]
    exact (Watched.leads_storeRef store w r status).stocked ih
  | @storeCell w last cell _ ih =>
    rw [called_eq (Watched.tells_storeCell store cell)]
    exact (Watched.proceeds_storeCell store w cell).1.stocked ih
  | @persist w last r _ ih =>
    rw [called_eq (Watched.tells_persist store r)]
    exact (Watched.proceeds_persist store w r).1.stocked ih
  | @aside w last s _ same ih =>
    obtain ⟨⟨held, at_store, holds⟩, rises, written⟩ := ih
    have status? : ∀ h, s.status? store h = w.session.status? store h := fun h => by
      rw [Session.status?, same, Session.status?]
    exact ⟨⟨held, same.trans at_store, holds⟩, fun m member => (rises m member).trans (.of_eq status?), written⟩
  | @sync w last f _ here done ih =>
    obtain ⟨held, at_store, holds⟩ := ih.keeps
    rw [here] at at_store
    cases at_store
    have holds : f.Holds w.log := holds
    exact ih.replace here (holds.sync done) (holds.regular.written done)
  | @reopen w last f f' settings _ here synced opened ih =>
    obtain ⟨g, opened', holds, written⟩ := ih.reopen here synced (FileStore.valid_of_ok opened).1
    rw [opened] at opened'
    cases opened'
    exact ih.replace here holds written

end Watch

end MerkleCells
