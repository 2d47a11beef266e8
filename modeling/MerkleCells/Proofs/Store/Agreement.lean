import MerkleCells.Proofs.Store.Course

/-!
A store in memory and a store in a file that are given the same calls with the same references. Each call has the same
answer on both and records the same (`Watch.Parallel`), as long as the file has room for what is recorded; how many
levels a walk may take differs, but a walk that comes back does not notice. So what both hold is told by the same log
(`Watch.Together.agree`).
-/
namespace MerkleCells

open MerkleCells.Action

/-! ### Walks that come back -/

namespace Watched

variable {α β : Type} {store : StoreId}

/-- One action does the same as another one whenever that comes back. -/
def Agrees (x y : Watched α) : Prop := ∀ w, (result x w).1 ≠ .error .endless → result y w = result x w

theorem Agrees.refl (x : Watched α) : Agrees x x := fun _ _ => rfl

theorem Agrees.bind {x y : Watched α} {f g : α → Watched β} (first : Agrees x y) (second : ∀ a, Agrees (f a) (g a)) :
    Agrees (x >>= f) (y >>= g) := by
  intro w back
  rw [result_bind] at back
  have same := first w
  rw [result_bind, result_bind]
  cases run : result x w with
  | mk answer w' =>
    rw [run] at back same
    cases answer with
    | error e =>
      have back : e ≠ .endless := fun endless => back (by rw [endless])
      rw [same (by simpa using back)]
    | ok a =>
      rw [same (by simp)]
      exact second a w' back

theorem agrees_forM {ι : Type} {items : List ι} {f g : ι → Watched Unit} (each : ∀ i, Agrees (f i) (g i)) :
    Agrees (items.forM f) (items.forM g) := by
  induction items with
  | nil => exact .refl _
  | cons i rest ih => exact (each i).bind fun _ => ih

/-- A walk that comes back does the same with more levels to go. -/
theorem agrees_persistWithin {n m : Nat} (le : n ≤ m) (r : Ref Cell) :
    Agrees (persistWithin store n r) (persistWithin store m r) := by
  induction n generalizing m r with
  | zero => exact fun w back => absurd rfl back
  | succ n ih =>
    obtain ⟨m, rfl⟩ : ∃ k, m = k + 1 := ⟨m - 1, by omega⟩
    have le : n ≤ m := Nat.le_of_succ_le_succ le
    have walk : Agrees (do
        let cell ← resolve r
        cell.refs.forM fun child => do
          if !child.isEmbedded then
            let _ ← persistWithin store n child
        record store cell (Ref.direct cell).status .persisted) (do
        let cell ← resolve r
        cell.refs.forM fun child => do
          if !child.isEmbedded then
            let _ ← persistWithin store m child
        record store cell (Ref.direct cell).status .persisted) := by
      refine (Agrees.refl _).bind fun cell => .bind (agrees_forM fun child => ?_) fun _ => .refl _
      cases child.isEmbedded with
      | true => exact .refl _
      | false => exact (ih le child).bind fun _ => .refl _
    intro w back
    by_cases claims : r.status.reaches .persisted
    · rw [persistWithin_of_reaches claims, persistWithin_of_reaches claims]
    by_cases missing : w.session.Persisted store r.hash
    · obtain ⟨held, found, reaches⟩ := missing
      rw [persistWithin_of_held claims found (decide_eq_true reaches),
        persistWithin_of_held claims found (decide_eq_true reaches)]
    · rw [persistWithin_of_missing claims missing] at back ⊢
      rw [persistWithin_of_missing claims missing]
      exact walk _ back

end Watched

/-! ### Records -/

/-- A record tells the highest status that was recorded, or the reference's own if that is higher. -/
theorem Store.record_ok {held held' : Store} {cell : Cell} {own status : Status} {r : Ref Cell}
    (trusted : ∀ s, held ≠ .untrusted s) (run : held.record cell own status = (.ok r, held')) :
    r = (Ref.direct cell).withStatus ((Store.raised status (held.status? cell.hash)).max own) := by
  cases held with
  | memory s =>
    cases run
    simp only [Store.status?, MemoryStore.status?, Store.raised]
    cases s.held.find? cell.hash <;> rfl
  | untrusted s => exact absurd rfl (trusted s)
  | file s =>
    have records := s.records cell own status
    rw [Store.record] at run
    generalize s.record cell own status = outcome at run records
    simp only [Store.status?, FileStore.status?, Store.raised]
    cases records with
    | held found =>
      cases run
      rw [found]
      rfl
    | new absent =>
      cases run
      rw [absent]
      rfl
    | refused => cases run

theorem Session.storeRef_memory {store : StoreId} {s : Session} {m : MemoryStore}
    (memory : s.stores[store]? = some (.memory m)) (cell : Cell) (own status : Status) :
    ∃ r m', result (storeRef store ⟨own, .direct cell⟩ status) s = (.ok r, s.withStore store (.memory m')) ∧
      r = (Ref.direct cell).withStatus ((Store.raised status (s.status? store cell.hash)).max own) := by
  have trusted : ∀ t, Store.memory m ≠ .untrusted t := fun _ no => by cases no
  rw [result_storeRef, memory, Session.status?, memory]
  exact ⟨_, _, rfl, Store.record_ok trusted rfl⟩

theorem Session.storeRef_file {store : StoreId} {s s' : Session} {f : FileStore} {cell : Cell} {own status : Status}
    {r : Ref Cell} (file : s.stores[store]? = some (.file f))
    (run : result (storeRef store ⟨own, .direct cell⟩ status) s = (.ok r, s')) :
    (∃ f', s'.stores[store]? = some (.file f')) ∧
      r = (Ref.direct cell).withStatus ((Store.raised status (s.status? store cell.hash)).max own) := by
  rw [result_storeRef, file] at run
  obtain ⟨answered, rfl⟩ := Prod.mk.inj run
  rw [Session.status?, file]
  have trusted : ∀ t, Store.file f ≠ .untrusted t := fun _ no => by cases no
  exact ⟨⟨_, stores_withStore file _⟩, Store.record_ok trusted (Prod.ext answered rfl)⟩

/-! ### Sessions that differ in one store -/

namespace Session

/-- Sessions that have the same loaders and stores but for one, which holds the same statuses in both. A reference that
is resolved by one of the loaders is the same reference in both, since none of them asks the store that differs: through
a loader of that store it would be a reference to what this store holds, and so another one in each session. -/
structure Alike (store : StoreId) (s s' : Session) : Prop where
  loaders : s.loaders = s'.loaders
  apart : ∀ l ∈ s.loaders, l.store ≠ store
  others : ∀ i, i ≠ store → s.stores[i]? = s'.stores[i]?
  statuses : ∀ h, s.status? store h = s'.status? store h

variable {store : StoreId} {s s' : Session}

theorem Alike.load (alike : s.Alike store s') (loader : LoaderId) (h : Hash) :
    (s.load loader h).1 = (s'.load loader h).1 ∧ (s.load loader h).2.Alike store (s'.load loader h).2 := by
  obtain ⟨loaders, apart, others, statuses⟩ := alike
  have told : ∀ k, (s.load loader h).2.status? store k = (s'.load loader h).2.status? store k := fun k => by
    rw [status?_load, status?_load, statuses]
  rw [Session.load] at told ⊢
  rw [Session.load, ← loaders] at told ⊢
  cases at_l : s.loaders[loader]? with
  | none => exact ⟨rfl, loaders, apart, others, statuses⟩
  | some l =>
    rw [at_l] at told
    have other : l.store ≠ store := apart l (List.mem_of_getElem? at_l)
    have kept : ∀ l', l'.store = l.store → ∀ k ∈ s.loaders.set loader l', k.store ≠ store := by
      intro l' same k member
      rcases List.mem_or_eq_of_mem_set member with old | rfl
      · exact apart k old
      · rwa [same]
    dsimp only at told ⊢
    cases found : l.get? h with
    | some hit =>
      obtain ⟨c, l'⟩ := hit
      rw [found] at told
      exact ⟨rfl, rfl, kept l' (Loader.store_get? found), others, told⟩
    | none =>
      have asks : s.answerTo loader l h = s'.answerTo loader l h := by
        rw [answerTo, answerTo, others l.store other]
      rw [found, asks] at told
      rw [asks]
      refine ⟨rfl, rfl, kept _ (l.store_receive h _), fun i apart => ?_, told⟩
      dsimp only
      rw [List.getElem?_modify, List.getElem?_modify, others i apart]

theorem Alike.value (alike : s.Alike store s') (r : Ref Cell) :
    (result r.value s).1 = (result r.value s').1 ∧ (result r.value s).2.Alike store (result r.value s').2 := by
  obtain ⟨status, c | ⟨h, loader, byMarker⟩⟩ := r
  · exact ⟨rfl, alike⟩
  · cases loader with
    | none => exact ⟨rfl, alike⟩
    | some loader =>
      obtain ⟨same, alike⟩ := alike.load loader h
      cases byMarker with
      | false => exact ⟨same, alike⟩
      | true =>
        simp only [Ref.value, ↓reduceIte, loadChild, MerkleCells.load, result_bind, result_ofStep]
        generalize s.load loader h = answer at same alike
        generalize s'.load loader h = answer' at same alike
        obtain ⟨e | c, s₁⟩ := answer <;> obtain ⟨e' | c', s₁'⟩ := answer' <;> cases same
        · exact ⟨rfl, alike⟩
        · exact ⟨rfl, alike⟩

/-- A cell that is recorded in both sessions has the same status in both. -/
theorem Alike.storeRef (alike : s.Alike store s') {cell : Cell} {own status : Status} {r r' : Ref Cell}
    {s₁ s₁' : Session}
    (run : result (storeRef store ⟨own, .direct cell⟩ status) s = (.ok r, s₁))
    (run' : result (storeRef store ⟨own, .direct cell⟩ status) s' = (.ok r', s₁')) : s₁.Alike store s₁' := by
  have told : ∀ k, s₁.status? store k = s₁'.status? store k := fun k => by
    rw [status?_storeRef run, status?_storeRef run', alike.statuses]
  have kept : ∀ {t t₁ : Session} {a : Except Error (Ref Cell)},
      result (MerkleCells.storeRef store ⟨own, .direct cell⟩ status) t = (a, t₁) →
      t₁.loaders = t.loaders ∧ ∀ i, i ≠ store → t₁.stores[i]? = t.stores[i]? := by
    intro t t₁ a run
    rw [result_storeRef] at run
    split at run
    · cases run
      exact ⟨rfl, fun _ _ => rfl⟩
    · cases run
      exact ⟨rfl, fun i apart => List.getElem?_set_ne (Ne.symm apart)⟩
  obtain ⟨loaders, others⟩ := kept run
  obtain ⟨loaders', others'⟩ := kept run'
  refine ⟨?_, ?_, fun i apart => ?_, told⟩
  · rw [loaders, loaders', alike.loaders]
  · rw [loaders]
    exact alike.apart
  · rw [others i apart, others' i apart, alike.others i apart]

/-- Another store that holds the same statuses makes no difference. -/
theorem Alike.withStore (alike : s.Alike store s') {held : Store} (here : s'.stores[store]? = some held) {held' : Store}
    (same : held'.status? = s'.status? store) : s.Alike store (s'.withStore store held') where
  loaders := alike.loaders
  apart := alike.apart
  others i apart := by
    rw [alike.others i apart]
    exact (List.getElem?_set_ne (Ne.symm apart)).symm
  statuses h := by
    rw [alike.statuses, ← same, status?, stores_withStore here]
    rfl

end Session

/-! ### Calls on two stores -/

/-- What was to be recorded has been recorded. -/
def Roomy (past : List Moment) : Prop := ∀ cell status e s, ⟨.recorded cell status (.error e), s⟩ ∉ past

theorem Roomy.mono {past past' : List Moment} (roomy : Roomy past') (sub : past ⊆ past') : Roomy past :=
  fun cell status e s member => roomy cell status e s (sub member)

/-- Watches of which one has a store in memory and the other one the same in a file, with the same recorded. -/
structure Watch.Twins (store : StoreId) (w w' : Watch) : Prop where
  alike : w.session.Alike store w'.session
  memory : ∃ m, w.session.stores[store]? = some (.memory m)
  file : ∃ f, w'.session.stores[store]? = some (.file f)
  log : w.log = w'.log

namespace Watched

variable {α β : Type} {store : StoreId} {w w' : Watch}

/-- What was seen is not forgotten. -/
def Grows (x : Watched α) : Prop := ∀ w, w.past ⊆ (result x w).2.past

theorem grows_pure (a : α) : Grows (pure a) := fun _ _ member => member

theorem grows_seen (event : Except Error α → Event) (x : Action α) : Grows (seen event x) :=
  fun _ _ member => List.mem_cons_of_mem _ member

theorem Grows.bind {x : Watched α} {f : α → Watched β} (first : Grows x) (second : ∀ a, Grows (f a)) :
    Grows (x >>= f) := by
  intro w
  rw [result_bind]
  have before := first w
  cases run : result x w with
  | mk answer w₁ =>
    rw [run] at before
    cases answer with
    | error e => exact before
    | ok a => exact fun m member => second a w₁ (before member)

theorem grows_forM {ι : Type} {items : List ι} {f : ι → Watched Unit} (each : ∀ i, Grows (f i)) :
    Grows (items.forM f) := by
  induction items with
  | nil => exact grows_pure ()
  | cons i rest ih => exact (each i).bind fun _ => ih

theorem grows_persistWithin (fuel : Nat) (r : Ref Cell) : Grows (persistWithin store fuel r) :=
  fun _ => keeps_persistWithin.1.1.past_subset

/-- An action has the same answer on both stores and records the same, as long as there is room in the file. -/
def Parallel (store : StoreId) (x : Watched α) (w w' : Watch) : Prop :=
  Roomy (result x w').2.past →
    (result x w).1 = (result x w').1 ∧ (result x w).2.Twins store (result x w').2

theorem parallel_pure (twins : w.Twins store w') (a : α) : Parallel store (pure a) w w' := fun _ => ⟨rfl, twins⟩

theorem Parallel.bind {x : Watched α} {f : α → Watched β} (first : Parallel store x w w') (grows : ∀ a, Grows (f a))
    (second : ∀ a w₁ w₁', w₁.Twins store w₁' → Parallel store (f a) w₁ w₁') : Parallel store (x >>= f) w w' := by
  unfold Parallel at first ⊢
  rw [result_bind, result_bind]
  cases run : result x w with
  | mk answer w₁ =>
    cases run' : result x w' with
    | mk answer' w₁' =>
      rw [run, run'] at first
      cases answer' with
      | error e =>
        intro roomy
        obtain ⟨same, twins⟩ := first roomy
        cases same
        exact ⟨rfl, twins⟩
      | ok a =>
        intro roomy
        obtain ⟨same, twins⟩ := first (roomy.mono (grows a w₁'))
        cases same
        exact second a w₁ w₁' twins roomy

theorem parallel_forM {ι : Type} {items : List ι} {f : ι → Watched Unit} (grows : ∀ i, Grows (f i))
    (each : ∀ i w₁ w₁', w₁.Twins store w₁' → Parallel store (f i) w₁ w₁') (twins : w.Twins store w') :
    Parallel store (items.forM f) w w' := by
  induction items generalizing w w' with
  | nil => exact parallel_pure twins ()
  | cons i rest ih => exact (each i w w' twins).bind (fun _ => grows_forM grows) fun _ _ _ twins => ih twins

theorem parallel_resolve (twins : w.Twins store w') (r : Ref Cell) : Parallel store (resolve r) w w' := by
  intro _
  obtain ⟨alike, ⟨m, memory⟩, ⟨f, file⟩, log⟩ := twins
  obtain ⟨same, alike'⟩ := alike.value r
  refine ⟨same, alike', ⟨m, (r.later_value w.session).stores rfl memory⟩,
    ⟨f, (r.later_value w'.session).stores rfl file⟩, ?_⟩
  have still : ∀ v : Watch, (result (resolve r) v).2.log = v.log := fun v => Watch.log_after_of_none rfl
  rw [still, still, log]

theorem twins_askedFor (twins : w.Twins store w') (h : Hash) :
    (askedFor store h w).Twins store (askedFor store h w') where
  alike := twins.alike
  memory := twins.memory
  file := twins.file
  log := by
    have still : ∀ v : Watch, (askedFor store h v).log = v.log := fun v => Watch.log_after_of_none rfl
    rw [still, still, twins.log]

theorem parallel_record (twins : w.Twins store w') (cell : Cell) (own status : Status) :
    Parallel store (record store cell own status) w w' := by
  intro roomy
  obtain ⟨alike, ⟨m, memory⟩, ⟨f, file⟩, log⟩ := twins
  obtain ⟨r, m', run, told⟩ := Session.storeRef_memory memory cell own status
  rw [record, result_seen] at roomy ⊢
  rw [result_seen, run]
  cases run' : Action.result (MerkleCells.storeRef store ⟨own, .direct cell⟩ status) w'.session with
  | mk answer s' =>
    rw [run'] at roomy
    cases answer with
    | error e => exact absurd List.mem_cons_self (roomy cell status e s')
    | ok r' =>
      obtain ⟨file', told'⟩ := Session.storeRef_file file run'
      have same : r = r' := by rw [told, told', alike.statuses]
      subst same
      refine ⟨rfl, alike.storeRef run run', ⟨m', Session.stores_withStore memory _⟩, file', ?_⟩
      have logged : ∀ (v : Watch) (s : Session),
          (v.after ⟨.recorded cell status (.ok r), s⟩).log = v.log ++ [(cell, status)] :=
        fun v s => v.log_after _
      exact (logged w _).trans (log ▸ (logged w' s').symm)

theorem parallel_storeRef (twins : w.Twins store w') (r : Ref Cell) (status : Status) :
    Parallel store (storeRef store r status) w w' :=
  (parallel_resolve twins r).bind (fun _ => grows_seen _ _) fun cell _ _ twins => parallel_record twins cell _ _

theorem parallel_persistWithin (twins : w.Twins store w') (fuel : Nat) (r : Ref Cell) :
    Parallel store (persistWithin store fuel r) w w' := by
  induction fuel generalizing r w w' with
  | zero => exact fun _ => ⟨rfl, twins⟩
  | succ fuel ih =>
    have each : ∀ (child : Ref Cell) (v v' : Watch), v.Twins store v' → Parallel store (do
        if !child.isEmbedded then
          let _ ← persistWithin store fuel child) v v' := by
      intro child v v' twins
      cases child.isEmbedded with
      | true => exact parallel_pure twins ()
      | false => exact (ih twins child).bind (fun _ => grows_pure ()) fun _ _ _ twins => parallel_pure twins ()
    have grows : ∀ child : Ref Cell, Grows (do
        if !child.isEmbedded then
          let _ ← persistWithin store fuel child) := by
      intro child
      cases child.isEmbedded with
      | true => exact grows_pure ()
      | false => exact (grows_persistWithin fuel child).bind fun _ => grows_pure ()
    intro roomy
    by_cases claims : r.status.reaches .persisted
    · rw [persistWithin_of_reaches claims, persistWithin_of_reaches claims]
      have still : ∀ v : Watch, (v.after ⟨.trusted r, v.session⟩).log = v.log := fun v => Watch.log_after_of_none rfl
      exact ⟨rfl, twins.alike, twins.memory, twins.file, by rw [still, still, twins.log]⟩
    have persisted_iff : w.session.Persisted store r.hash ↔ w'.session.Persisted store r.hash := by
      rw [Session.Persisted, Session.Persisted, twins.alike.statuses]
    by_cases missing : w.session.Persisted store r.hash
    · obtain ⟨held, found, reaches⟩ := missing
      have found' : w'.session.status? store r.hash = some held := by rw [← twins.alike.statuses, found]
      rw [persistWithin_of_held claims found (decide_eq_true reaches),
        persistWithin_of_held claims found' (decide_eq_true reaches)]
      exact ⟨rfl, twins_askedFor twins r.hash⟩
    · rw [persistWithin_of_missing claims (persisted_iff.not.mp missing)] at roomy ⊢
      rw [persistWithin_of_missing claims missing]
      have walk : Parallel store (do
          let cell ← resolve r
          cell.refs.forM fun child => do
            if !child.isEmbedded then
              let _ ← persistWithin store fuel child
          record store cell (Ref.direct cell).status .persisted)
        (askedFor store r.hash w) (askedFor store r.hash w') := by
        refine (parallel_resolve (twins_askedFor twins r.hash) r).bind
          (fun cell => (grows_forM grows).bind fun _ => grows_seen _ _) fun cell v v' twins => ?_
        exact (parallel_forM grows each twins).bind (fun _ => grows_seen _ _) fun _ _ _ twins =>
          parallel_record twins cell _ _
      exact walk roomy

/-- Persisting a reference does the same on both stores if it comes back from both. -/
theorem parallel_persist (twins : w.Twins store w') (r : Ref Cell)
    (back : (result (persist store r) w).1 ≠ .error .endless)
    (back' : (result (persist store r) w').1 ≠ .error .endless) : Parallel store (persist store r) w w' := by
  have within : ∀ v : Watch, result (persist store r) v =
      result (persistWithin store (r.height + v.session.depth + 1) r) v := fun v => by
    simp only [persist, result_bind, result_get]
  have reaches : ∀ (v : Watch) (m : Nat), (result (persist store r) v).1 ≠ .error .endless →
      r.height + v.session.depth + 1 ≤ m → result (persist store r) v = result (persistWithin store m r) v := by
    intro v m back le
    rw [within] at back ⊢
    exact (agrees_persistWithin le r v back).symm
  have same := reaches w _ back (Nat.le_max_left _ (r.height + w'.session.depth + 1))
  have same' := reaches w' _ back' (Nat.le_max_right (r.height + w.session.depth + 1) _)
  rw [Parallel, same, same']
  exact parallel_persistWithin twins _ r

end Watched

/-! ### Courses on two stores -/

namespace Watch

variable {store : StoreId} {w w' : Watch} {last : Option FileStore}

/-- Two courses of the same calls with the same references, one on a store in memory and one on a store in a file,
which may be synced, closed and opened again. Every call of them returns. -/
inductive Together (codec : Codec) (store : StoreId) : Watch → Watch → Option FileStore → Prop
  | start {s s' : Session} {settings : Settings} {f : FileStore} (made : FileStore.create codec settings = .ok f)
      (memory : s.stores[store]? = some (.memory .empty)) (file : s'.stores[store]? = some (.file f))
      (alike : s.Alike store s') : Together codec store ⟨s, []⟩ ⟨s', []⟩ none
  | storeRef {w w' : Watch} {last : Option FileStore} (r : Ref Cell) (status : Status)
    (both : Together codec store w w' last) :
      Together codec store (w.called (storeRef store r status) (Watched.storeRef store r status))
        (w'.called (storeRef store r status) (Watched.storeRef store r status)) last
  | storeCell {w w' : Watch} {last : Option FileStore} (cell : Cell) (both : Together codec store w w' last) :
      Together codec store (w.called (storeCell store cell) (Watched.storeCell store cell))
        (w'.called (storeCell store cell) (Watched.storeCell store cell)) last
  | persist {w w' : Watch} {last : Option FileStore} (r : Ref Cell) (both : Together codec store w w' last)
      (returns : Returns (persist store r) w.session) (returns' : Returns (persist store r) w'.session) :
      Together codec store (w.called (persist store r) (Watched.persist store r))
        (w'.called (persist store r) (Watched.persist store r)) last
  | aside {w w' : Watch} {last : Option FileStore} {s s' : Session} (both : Together codec store w w' last)
      (same : s.stores[store]? = w.session.stores[store]?) (same' : s'.stores[store]? = w'.session.stores[store]?)
      (alike : s.Alike store s') : Together codec store ⟨s, w.past⟩ ⟨s', w'.past⟩ last
  | sync {w w' : Watch} {last : Option FileStore} {f : FileStore} (both : Together codec store w w' last)
      (here : w'.session.stores[store]? = some (.file f)) (done : f.sync.1 = .ok ()) :
      Together codec store w ⟨w'.session.withStore store (.file f.sync.2), w'.past⟩ (some f.sync.2)
  | reopen {w w' : Watch} {last : Option FileStore} {f f' : FileStore} {settings : Settings}
      (both : Together codec store w w' last) (here : w'.session.stores[store]? = some (.file f))
      (synced : last = some f ∨ f.syncOnDrop = true ∧ f.sync.1 = .ok ())
      (opened : FileStore.openImage f.codec settings (some f.close) = .ok f') :
      Together codec store w ⟨w'.session.withStore store (.file f'), w'.past⟩ (some f')

theorem Together.memory (both : Together codec store w w' last) : Course codec store w none := by
  induction both with
  | start _ memory => exact .memory memory
  | storeRef r status _ ih => exact .storeRef r status ih
  | storeCell cell _ ih => exact .storeCell cell ih
  | persist r _ _ _ ih => exact .persist r ih
  | aside _ same _ _ ih => exact .aside ih same
  | sync _ _ _ ih => exact ih
  | reopen _ _ _ _ ih => exact ih

theorem Together.file (both : Together codec store w w' last) : Course codec store w' last := by
  induction both with
  | start made _ file => exact .file made file
  | storeRef r status _ ih => exact .storeRef r status ih
  | storeCell cell _ ih => exact .storeCell cell ih
  | persist r _ _ _ ih => exact .persist r ih
  | aside _ _ same' _ ih => exact .aside ih same'
  | sync _ here done ih => exact .sync ih here done
  | reopen _ here synced opened ih => exact .reopen ih here synced opened

theorem Together.twins (both : Together codec store w w' last) (faithful : codec.Faithful) (roomy : Roomy w'.past) :
    w.Twins store w' := by
  induction both with
  | start _ memory file alike => exact ⟨alike, ⟨_, memory⟩, ⟨_, file⟩, rfl⟩
  | @storeRef w w' last r status both ih =>
    rw [called_eq (Watched.tells_storeRef store r status)] at roomy ⊢
    rw [called_eq (Watched.tells_storeRef store r status)]
    have leads := Watched.leads_storeRef store w' r status
    have before := ih (roomy.mono leads.past_subset)
    exact (Watched.parallel_storeRef before r status roomy).2
  | @storeCell w w' last cell both ih =>
    rw [called_eq (Watched.tells_storeCell store cell)] at roomy ⊢
    rw [called_eq (Watched.tells_storeCell store cell)]
    have leads := (Watched.proceeds_storeCell store w' cell).1
    have before := ih (roomy.mono leads.past_subset)
    exact (Watched.parallel_storeRef before (Ref.direct cell) .stored roomy).2
  | @persist w w' last r both returns returns' ih =>
    rw [Returns, ← Watched.tells_persist store r w] at returns
    rw [Returns, ← Watched.tells_persist store r w'] at returns'
    rw [called_eq (Watched.tells_persist store r)] at roomy ⊢
    rw [called_eq (Watched.tells_persist store r)]
    have leads := (Watched.proceeds_persist store w' r).1
    have before := ih (roomy.mono leads.past_subset)
    exact (Watched.parallel_persist before r returns returns' roomy).2
  | @aside w w' last s s' both same same' alike ih =>
    obtain ⟨-, ⟨m, memory⟩, ⟨f, file⟩, log⟩ := ih roomy
    exact ⟨alike, ⟨m, same.trans memory⟩, ⟨f, same'.trans file⟩, log⟩
  | @sync w w' last f both here done ih =>
    obtain ⟨alike, memory, -, log⟩ := ih roomy
    have same : (Store.file f.sync.2).status? = w'.session.status? store := by
      funext h
      rw [FileStore.sync_of_near (FileStore.near_of_sync done), Session.status?, here]
      rfl
    exact ⟨alike.withStore here same, memory, ⟨_, Session.stores_withStore here _⟩, log⟩
  | @reopen w w' last f f' settings both here synced opened ih =>
    obtain ⟨alike, memory, -, log⟩ := ih roomy
    have stocked := both.file.stocked faithful
    obtain ⟨g, opened', holds, -⟩ := stocked.reopen here synced (FileStore.valid_of_ok opened).1
    rw [opened] at opened'
    cases opened'
    have same : (Store.file f').status? = w'.session.status? store := holds.raised.unique stocked.status?
    exact ⟨alike.withStore here same, memory, ⟨_, Session.stores_withStore here _⟩, log⟩

end Watch

/-! ### What a store tells -/

/-- Two stores hold the same hashes with the same statuses and encodings. -/
structure Store.Matches (held held' : Store) : Prop where
  status : ∀ h, held.status? h = held'.status? h
  size : held.size = held'.size
  read : ∀ h, held.read h = held'.read h

theorem Store.Holds.matches {log : Log} {held held' : Store} (holds : held.Holds log) (holds' : held'.Holds log)
    (readable : ∀ e ∈ log, e.1.Readable) : held.Matches held' where
  status h := congrFun (holds.raised.unique holds'.raised) h
  size := by rw [(holds.reflects readable).size, (holds'.reflects readable).size]
  read h := by rw [(holds.reflects readable).read, (holds'.reflects readable).read]

namespace Reopened

/-- A watch of nothing but one file, in which everything has been recorded that was to be. -/
structure Stage (w : Watch) (f : FileStore) (log : Log) : Prop where
  session : w.session = ⟨[], [.file f]⟩
  log : w.log = log
  roomy : Roomy w.past

section Stage

variable {w : Watch} {f : FileStore} {log : Log}

theorem Stage.store (stage : Stage w f log) (c : Cell) (status : Status)
    (taken : (f.record c (Ref.direct c).status status).1.isOk = true) :
    Stage (w.called (storeRef 0 (Ref.direct c) status) (Watched.storeRef 0 (Ref.direct c) status))
      (f.record c .unknown status).2 (log ++ [(c, status)]) := by
  obtain ⟨s, past⟩ := w
  obtain ⟨rfl, rfl, roomy⟩ := stage
  have left : Watch.called ⟨⟨[], [.file f]⟩, past⟩ (storeRef 0 (Ref.direct c) status)
      (Watched.storeRef 0 (Ref.direct c) status) =
      (Watch.after ⟨⟨[], [.file f]⟩, past⟩ ⟨.resolved (Ref.direct c) (.ok c), ⟨[], [.file f]⟩⟩).after
        ⟨.recorded c status (f.record c (Ref.direct c).status status).1,
          ⟨[], [.file (f.record c (Ref.direct c).status status).2]⟩⟩ := rfl
  rw [left, f.record_own c .unknown (Ref.direct c).status]
  cases run : (f.record c (Ref.direct c).status status).1 with
  | error e =>
    rw [run] at taken
    cases taken
  | ok r =>
    refine ⟨rfl, ?_, ?_⟩
    · rw [Watch.log_after, Watch.log_after]
      exact congrArg (· ++ [(c, status)]) (List.append_nil _)
    · intro cell status e s member
      rcases List.mem_cons.mp member with no | member
      · cases no
      rcases List.mem_cons.mp member with no | member
      · cases no
      · exact roomy cell status e s member

theorem Stage.storeCell (stage : Stage w f log) (c : Cell)
    (taken : (f.record c (Ref.direct c).status .stored).1.isOk = true) :
    Stage (w.called (MerkleCells.storeCell 0 c) (Watched.storeCell 0 c)) (f.record c .unknown .stored).2
      (log ++ [(c, .stored)]) :=
  stage.store c .stored taken

theorem Stage.here (stage : Stage w f log) : w.session.stores[0]? = some (.file f) := by
  rw [stage.session]
  rfl

theorem Stage.replace (stage : Stage w f log) (f' : FileStore) :
    Stage ⟨w.session.withStore 0 (.file f'), w.past⟩ f' log :=
  ⟨by rw [stage.session]; rfl, stage.log, stage.roomy⟩

end Stage

/-- A session with an empty store in memory. -/
def vacant : Session := ⟨[], [.memory .empty]⟩

/-- A session with a new store in a file. -/
def fresh : Session := ⟨[], [.file FileStore.empty]⟩

theorem alike : vacant.Alike 0 fresh where
  loaders := rfl
  apart l none := by cases none
  others i apart := by
    obtain ⟨i, rfl⟩ := Nat.exists_eq_succ_of_ne_zero apart
    rfl
  statuses h := rfl

/-- What is recorded in both stores: two cells, one of them with a higher status later, and one more cell. -/
def record : Log := [(.integer 2, .stored), (.integer 1, .stored), (.integer 1, .persisted), (.integer 3, .stored)]

theorem open_pair : FileStore.openImage FileStore.pair.synced.codec FileStore.unsynced
    (some FileStore.pair.synced.close) = .ok FileStore.resumed := by
  have kept : FileStore.pair.synced.syncOnDrop = false := by decide +kernel
  have same : FileStore.pair.synced.close = FileStore.pair.synced.image := by
    rw [FileStore.close, kept]
    rfl
  rw [same, (FileStore.run_pair.tracks Frame.codec_faithful).codec_eq]
  exact FileStore.open_pair

end Reopened

end MerkleCells
