import Mathlib.Data.Finset.Card
import Mathlib.Data.List.Nodup
import MerkleCells.Proofs.Faithful

/-!
A loader's cache is what its uses make of it: it holds the hashes that were used last, as many as it has room for. A use
is a prime, or a load that gives the right cell; the cache as a list is the history with each hash where it was used
last, cut off (`Loader.Recalls`). One request keeps that true, adds one to the hits or the misses if it loads, and asks
the store exactly if it misses. The main statement, for all courses of requests, is `Ledger.run_accounts`.
-/
namespace MerkleCells

open MerkleCells.Action

/-! ### Histories -/

/-- The hashes of a history whose latest use comes first, each where it was used last. -/
def recent : List Hash → List Hash
  | [] => []
  | h :: earlier => h :: (recent earlier).filter (· ≠ h)

/-- A hash of a history whose latest use comes first is among the `k` that were used last: fewer other hashes have been
used since. -/
def AmongLast (k : Nat) (uses : List Hash) (h : Hash) : Prop :=
  ∃ later earlier, uses = later ++ h :: earlier ∧ h ∉ later ∧ later.toFinset.card < k

section Recent

variable {h : Hash} {uses : List Hash}

theorem mem_recent : h ∈ recent uses ↔ h ∈ uses := by
  induction uses with
  | nil => rfl
  | cons k earlier ih =>
    rw [recent, List.mem_cons, List.mem_cons, List.mem_filter, ih]
    by_cases same : h = k <;> simp [same]

theorem nodup_recent (uses : List Hash) : (recent uses).Nodup := by
  induction uses with
  | nil => exact List.nodup_nil
  | cons k earlier ih => exact List.nodup_cons.mpr ⟨by simp, ih.filter _⟩

theorem length_recent (uses : List Hash) : (recent uses).length = uses.toFinset.card := by
  rw [← List.toFinset_card_of_nodup (nodup_recent uses)]
  congr 1
  ext k
  rw [List.mem_toFinset, List.mem_toFinset, mem_recent]

/-- Behind the hashes of the later part of a history stand those of the earlier part that the later does not have. -/
theorem recent_append (later earlier : List Hash) :
    recent (later ++ earlier) = recent later ++ (recent earlier).filter (· ∉ later) := by
  induction later with
  | nil => simp [recent]
  | cons k later ih =>
    rw [List.cons_append, recent, ih, recent, List.filter_append, List.filter_filter, List.cons_append]
    congr 2
    refine List.filter_congr fun j _ => ?_
    simp [not_or]

theorem mem_take_recent_iff (k : Nat) : h ∈ (recent uses).take k ↔ AmongLast k uses h := by
  constructor
  · intro taken
    obtain ⟨later, earlier, split, new⟩ := List.eq_append_cons_of_mem (mem_recent.mp (List.mem_of_mem_take taken))
    refine ⟨later, earlier, split, new, ?_⟩
    rw [split, recent_append] at taken
    by_contra full
    rw [not_lt, ← length_recent] at full
    rw [List.take_append_of_le_length full] at taken
    exact new (mem_recent.mp (List.mem_of_mem_take taken))
  · rintro ⟨later, earlier, rfl, new, room⟩
    rw [← length_recent] at room
    have kept : (recent (h :: earlier)).filter (· ∉ later) =
        h :: ((recent earlier).filter (· ≠ h)).filter (· ∉ later) := by
      rw [recent, List.filter_cons_of_pos (by simpa using new)]
    obtain ⟨more, rfl⟩ : ∃ more, k = (recent later).length + (more + 1) := ⟨k - (recent later).length - 1, by omega⟩
    rw [recent_append, kept, List.take_length_add_append, List.take_succ_cons]
    exact List.mem_append_right _ List.mem_cons_self

/-- Cutting a history off before it moves a hash to its front makes no difference to what is in front. -/
theorem take_cons_filter_take {hashes : List Hash} (distinct : hashes.Nodup) (h : Hash) (k : Nat) :
    (h :: (hashes.take k).filter (· ≠ h)).take k = (h :: hashes.filter (· ≠ h)).take k := by
  -- one hash at most is taken out of the front, so one place at most is left for what was behind it
  have front : ∀ k, ((hashes.take (k + 1)).filter (· ≠ h)).take k = (hashes.filter (· ≠ h)).take k := by
    induction distinct with
    | nil => simp
    | @cons j rest fresh _ ih =>
      intro k
      rw [List.take_succ_cons]
      by_cases same : j = h
      · have rest_eq : rest.filter (· ≠ h) = rest :=
          List.filter_eq_self.mpr fun i member => by simpa [same] using (fresh i member).symm
        have front_eq : (rest.take k).filter (· ≠ h) = rest.take k :=
          List.filter_eq_self.mpr fun i member => by simpa [same] using (fresh i (List.mem_of_mem_take member)).symm
        rw [List.filter_cons_of_neg (by simpa using same), List.filter_cons_of_neg (by simpa using same), rest_eq,
          front_eq, List.take_take, Nat.min_self]
      · rw [List.filter_cons_of_pos (by simpa using same), List.filter_cons_of_pos (by simpa using same)]
        cases k with
        | zero => rfl
        | succ k => rw [List.take_succ_cons, List.take_succ_cons, ih k]
  cases k with
  | zero => rfl
  | succ k => rw [List.take_succ_cons, List.take_succ_cons, front k]

end Recent

/-! ### Caches -/

theorem Cache.keys_put (cache : Cache) (h : Hash) (c : Cell) :
    (cache.put h c).entries.keys = (h :: cache.entries.keys.filter (· ≠ h)).take cache.capacity := by
  have others : (cache.entries.erase h).keys = cache.entries.keys.filter (· ≠ h) := by
    rw [Table.keys, Table.keys, Table.erase, List.filter_map]
    rfl
  rw [← others, put, Table.keys, List.map_take]
  rfl

/-- The cache of a loader holds the cells of the hashes that were used last. -/
structure Loader.Recalls (l : Loader) (uses : List Hash) : Prop where
  named : l.Named
  keys_eq : l.cache.entries.keys = (recent uses).take l.cache.capacity

namespace Loader.Recalls

variable {l : Loader} {uses : List Hash} {h : Hash} {c : Cell}

/-- A use comes first in the history. -/
theorem put (recalls : l.Recalls uses) (same : c.hash = h) (hits misses : UInt64) :
    Recalls { l with cache := l.cache.put h c, hits, misses } (h :: uses) := by
  refine ⟨recalls.named.put same hits misses, ?_⟩
  show (l.cache.put h c).entries.keys = (recent (h :: uses)).take l.cache.capacity
  rw [Cache.keys_put, recalls.keys_eq, take_cons_filter_take (nodup_recent uses), recent]

theorem cached_iff (recalls : l.Recalls uses) (h : Hash) :
    (l.cached? h).isSome ↔ AmongLast l.cache.capacity uses h := by
  rw [← mem_take_recent_iff, ← recalls.keys_eq, Option.isSome_iff_ne_none, ne_eq]
  exact Table.find?_eq_none_iff.not_left

theorem size_eq (recalls : l.Recalls uses) : l.cache.size = min l.cache.capacity uses.toFinset.card := by
  have length : l.cache.size = l.cache.entries.keys.length := (List.length_map _).symm
  rw [length, recalls.keys_eq, List.length_take, length_recent]

end Loader.Recalls

/-! ### Loads in sessions -/

namespace Session

variable {s : Session} {id : LoaderId} {l : Loader} {h : Hash} {c : Cell}

/-- On a hit the stores are left alone. -/
theorem load_hit (here : s.loaders[id]? = some l) (cached : l.cached? h = some c) :
    s.load id h = (.ok c,
      { s with loaders := s.loaders.set id { l with cache := l.cache.put h c, hits := l.hits + 1 } }) := by
  have peeked : l.cache.peek? h = some c := cached
  rw [load, here]
  simp only [Loader.get?, Cache.get?, peeked, Option.map_some]

/-- On a miss the store is asked once. -/
theorem load_miss (here : s.loaders[id]? = some l) (absent : l.cached? h = none) :
    s.load id h = ((l.receive h (s.answerTo id l h)).1,
      ⟨s.loaders.set id (l.receive h (s.answerTo id l h)).2, s.stores.modify l.store Store.asked⟩) := by
  have peeked : l.cache.peek? h = none := absent
  rw [load, here]
  simp only [Loader.get?, Cache.get?, peeked, Option.map_none]

/-- How often a store was asked, if it counts that. -/
def fetches? (s : Session) (store : StoreId) : Option Nat :=
  s.stores[store]?.bind fun held =>
    match held with
    | .untrusted u => some u.fetches
    | _ => none

theorem fetches?_asked (s : Session) (loaders : List Loader) (store : StoreId) :
    fetches? ⟨loaders, s.stores.modify store Store.asked⟩ store = (s.fetches? store).map (· + 1) := by
  rw [fetches?, fetches?, List.getElem?_modify_eq]
  cases s.stores[store]? with
  | none => rfl
  | some held => cases held <;> rfl

end Session

/-! ### Requests -/

/-- Whatever else may happen to a session while a loader is left alone and nobody else asks its store. -/
structure Change (id : LoaderId) (store : StoreId) where
  apply : Session → Session
  loader : ∀ s, (apply s).loaders[id]? = s.loaders[id]?
  fetches : ∀ s, (apply s).fetches? store = s.fetches? store

/-- A request to a loader in front of a store, or something else that happens. -/
inductive Request (id : LoaderId) (store : StoreId) where
  | load (h : Hash)
  | loadChild (h : Hash)
  /-- Resolves a soft reference that waits for the loader. -/
  | value (status : Status) (h : Hash) (byMarker : Bool)
  /-- Looks for the target of such a reference without asking the store. -/
  | peek (status : Status) (h : Hash) (byMarker : Bool)
  | cached (h : Hash)
  | prime (cell : Cell)
  | clear
  | elsewhere (change : Change id store)

namespace Request

variable {id : LoaderId} {store : StoreId}

/-- The session that a request leaves. -/
def after (s : Session) : Request id store → Session
  | .load h => (result (MerkleCells.load id h) s).2
  | .loadChild h => (result (MerkleCells.loadChild id h) s).2
  | .value status h byMarker => (result (Ref.value ⟨status, .soft h (some id) byMarker⟩) s).2
  | .peek status h byMarker => (result (Ref.peek ⟨status, .soft h (some id) byMarker⟩) s).2
  | .cached _ => s
  | .prime cell => { s with loaders := s.loaders.modify id fun l => l.prime cell }
  | .clear => { s with loaders := s.loaders.modify id Loader.clear }
  | .elsewhere change => change.apply s

/-- The hash that a request attempts to load. -/
def loads? : Request id store → Option Hash
  | .load h => some h
  | .loadChild h => some h
  | .value _ h _ => some h
  | _ => none

/-- The hash that a request uses: a cell is primed, or a load gives the right one, whether or not it may then stand
where a child stands. -/
def use? (s : Session) (r : Request id store) : Option Hash :=
  match r with
  | .prime cell => some cell.hash
  | r => r.loads?.bind fun h => (s.load id h).1.toOption.bind fun c => if c.hash = h then some h else none

/-- The history since the last clear, after a request. -/
def remember (s : Session) (uses : List Hash) (r : Request id store) : List Hash :=
  match r with
  | .clear => []
  | r => (r.use? s).toList ++ uses

/-- A request that attempts to load does to a session what the load does. -/
theorem after_of_loads {r : Request id store} {h : Hash} (loads : r.loads? = some h) (s : Session) :
    r.after s = (s.load id h).2 := by
  have child : (result (MerkleCells.loadChild id h) s).2 = (s.load id h).2 := by
    rw [MerkleCells.loadChild, MerkleCells.load, result_bind, result_ofStep]
    rcases s.load id h with ⟨_ | c, s'⟩ <;> rfl
  cases r with
  | load => cases loads; rfl
  | loadChild => cases loads; exact child
  | value status h' byMarker =>
    cases loads
    cases byMarker with
    | false => rfl
    | true => exact child
  | _ => cases loads

/-- A request that is no attempt to load leaves the stores alone. -/
theorem stores_after {r : Request id store} (quiet : r.loads? = none) (here : ∀ change, r ≠ .elsewhere change)
    (s : Session) : (r.after s).stores = s.stores := by
  cases r with
  | elsewhere change => exact absurd rfl (here change)
  | load => cases quiet
  | loadChild => cases quiet
  | value => cases quiet
  | _ => rfl

end Request

/-! ### Courses -/

/-- A session, with the uses of a loader since its last clear, the latest first, and the numbers of attempts to load, of
those for what was cached and of those for what was not. -/
structure Ledger where
  session : Session
  uses : List Hash
  attempts : Nat
  hits : Nat
  misses : Nat

namespace Ledger

variable {id : LoaderId} {store : StoreId} {capacity : Nat} {fetched : Option Nat} {ledger : Ledger}

/-- After a request that is no attempt to load. -/
def passed (ledger : Ledger) (r : Request id store) : Ledger :=
  { ledger with session := r.after ledger.session, uses := r.remember ledger.session ledger.uses }

def step (ledger : Ledger) (r : Request id store) : Ledger :=
  match r.loads? with
  | none => ledger.passed r
  | some h =>
    if (ledger.session.cached? id h).isSome then
      { ledger.passed r with attempts := ledger.attempts + 1, hits := ledger.hits + 1 }
    else { ledger.passed r with attempts := ledger.attempts + 1, misses := ledger.misses + 1 }

def run (s : Session) (requests : List (Request id store)) : Ledger := requests.foldl step ⟨s, [], 0, 0, 0⟩

/-- After a load, which is a use if it gives the right cell. -/
def loaded (ledger : Ledger) (id : LoaderId) (h : Hash) : Ledger :=
  ⟨(ledger.session.load id h).2,
    ((ledger.session.load id h).1.toOption.bind fun c => if c.hash = h then some h else none).toList ++ ledger.uses,
    ledger.attempts + 1,
    if (ledger.session.cached? id h).isSome then ledger.hits + 1 else ledger.hits,
    if (ledger.session.cached? id h).isSome then ledger.misses else ledger.misses + 1⟩

theorem step_of_loads {r : Request id store} {h : Hash} (loads : r.loads? = some h) :
    ledger.step r = ledger.loaded id h := by
  have uses : r.remember ledger.session ledger.uses = (ledger.loaded id h).uses := by
    cases r <;> cases loads <;> rfl
  rw [step, loads, passed, uses, r.after_of_loads loads]
  dsimp only
  split
  · next hit => simp only [loaded, if_pos hit]
  · next miss => simp only [loaded, if_neg miss]

/-- The cache of a loader is what its history makes of it, and its counters add up. The store had been asked `fetched`
times before the loader was made. -/
structure Accounts (id : LoaderId) (store : StoreId) (capacity : Nat) (fetched : Option Nat) (ledger : Ledger)
    (l : Loader) : Prop where
  here : ledger.session.loaders[id]? = some l
  cached_iff : ∀ h, (ledger.session.cached? id h).isSome ↔ AmongLast capacity ledger.uses h
  size_eq : l.cache.size = min capacity ledger.uses.toFinset.card
  attempts_eq : ledger.hits + ledger.misses = ledger.attempts
  /-- The counters of the loader have the hits and the misses, as far as they can hold them. -/
  counters_eq : l.hits = UInt64.ofNat ledger.hits ∧ l.misses = UInt64.ofNat ledger.misses
  /-- A store that counts how often it is asked has counted the misses. -/
  fetches_eq : ledger.session.fetches? store = fetched.map (· + ledger.misses)
  /-- No store is asked on a hit. -/
  hit : ∀ (r : Request id store) h, r.loads? = some h → (ledger.session.cached? id h).isSome →
    (r.after ledger.session).stores = ledger.session.stores ∧
      ∃ l', (r.after ledger.session).loaders[id]? = some l' ∧ l'.hits = l.hits + 1 ∧ l'.misses = l.misses
  /-- The store is asked once on a miss. -/
  miss : ∀ (r : Request id store) h, r.loads? = some h → ledger.session.cached? id h = none →
    (r.after ledger.session).stores = ledger.session.stores.modify store Store.asked ∧
      ∃ l', (r.after ledger.session).loaders[id]? = some l' ∧ l'.hits = l.hits ∧ l'.misses = l.misses + 1
  /-- Nor is it asked by a request that is no attempt to load. -/
  quiet : ∀ r : Request id store, r.loads? = none → (∀ change, r ≠ .elsewhere change) →
    (r.after ledger.session).stores = ledger.session.stores

/-- What every request keeps true of a loader. -/
structure Keeps (id : LoaderId) (store : StoreId) (capacity : Nat) (fetched : Option Nat) (ledger : Ledger)
    (l : Loader) : Prop where
  here : ledger.session.loaders[id]? = some l
  store_eq : l.store = store
  capacity_eq : l.cache.capacity = capacity
  recalls : l.Recalls ledger.uses
  attempts_eq : ledger.hits + ledger.misses = ledger.attempts
  counters_eq : l.hits = UInt64.ofNat ledger.hits ∧ l.misses = UInt64.ofNat ledger.misses
  fetches_eq : ledger.session.fetches? store = fetched.map (· + ledger.misses)

namespace Keeps

variable {l : Loader}

theorem cached_eq (keeps : ledger.Keeps id store capacity fetched l) (h : Hash) :
    ledger.session.cached? id h = l.cached? h := by
  rw [Session.cached?, keeps.here]
  rfl

theorem inside (keeps : ledger.Keeps id store capacity fetched l) : id < ledger.session.loaders.length :=
  (List.getElem?_eq_some_iff.mp keeps.here).1

theorem here_modify (keeps : ledger.Keeps id store capacity fetched l) (f : Loader → Loader) :
    (ledger.session.loaders.modify id f)[id]? = some (f l) := by
  rw [List.getElem?_modify_eq, keeps.here]
  rfl

/-- A load that finds the cell is a use. -/
theorem hit (keeps : ledger.Keeps id store capacity fetched l) {h : Hash} {c : Cell} (found : l.cached? h = some c) :
    ∃ l', (ledger.loaded id h).Keeps id store capacity fetched l' := by
  have named := keeps.recalls.named.cached found
  have attempts_eq := keeps.attempts_eq
  obtain ⟨hits_eq, misses_eq⟩ := keeps.counters_eq
  have cached : (ledger.session.cached? id h).isSome := by rw [keeps.cached_eq, found, Option.isSome_some]
  have hits : (ledger.loaded id h).hits = ledger.hits + 1 := if_pos cached
  have misses : (ledger.loaded id h).misses = ledger.misses := if_pos cached
  have uses : (ledger.loaded id h).uses = h :: ledger.uses := by
    rw [loaded, Session.load_hit keeps.here found]
    simp [Except.toOption, named]
  have session : (ledger.loaded id h).session = _ := congrArg Prod.snd (Session.load_hit keeps.here found)
  refine ⟨{ l with cache := l.cache.put h c, hits := l.hits + 1 }, ?_, keeps.store_eq, keeps.capacity_eq, ?_, ?_, ?_, ?_⟩
  · rw [session]
    exact List.getElem?_set_self keeps.inside
  · rw [uses]
    exact keeps.recalls.put named _ _
  · rw [hits, misses]
    show ledger.hits + 1 + ledger.misses = ledger.attempts + 1
    omega
  · rw [hits, misses]
    exact ⟨by rw [hits_eq, UInt64.ofNat_add]; rfl, misses_eq⟩
  · rw [session, misses]
    exact keeps.fetches_eq

/-- A load that has to ask the store is a use if the store gives the right cell. -/
theorem miss (keeps : ledger.Keeps id store capacity fetched l) {h : Hash} (absent : l.cached? h = none) :
    ∃ l', (ledger.loaded id h).Keeps id store capacity fetched l' := by
  have attempts_eq := keeps.attempts_eq
  obtain ⟨hits_eq, misses_eq⟩ := keeps.counters_eq
  have uncached : ¬ (ledger.session.cached? id h).isSome := by
    rw [keeps.cached_eq, absent]
    exact Bool.false_ne_true
  have hits : (ledger.loaded id h).hits = ledger.hits := if_neg uncached
  have misses : (ledger.loaded id h).misses = ledger.misses + 1 := if_neg uncached
  have missed := Session.load_miss keeps.here absent
  rw [keeps.store_eq] at missed
  have session : (ledger.loaded id h).session = _ := congrArg Prod.snd missed
  have fetches_eq : (ledger.loaded id h).session.fetches? store = fetched.map (· + (ledger.loaded id h).misses) := by
    rw [session, misses, Session.fetches?_asked, keeps.fetches_eq, Option.map_map]
    rfl
  have attempts : (ledger.loaded id h).hits + (ledger.loaded id h).misses = (ledger.loaded id h).attempts := by
    rw [hits, misses]
    show ledger.hits + (ledger.misses + 1) = ledger.attempts + 1
    omega
  have counters : l.hits = UInt64.ofNat (ledger.loaded id h).hits ∧
      l.misses + 1 = UInt64.ofNat (ledger.loaded id h).misses := by
    rw [hits, misses]
    exact ⟨hits_eq, by rw [misses_eq, UInt64.ofNat_add]; rfl⟩
  cases accepted : Loader.accept h (ledger.session.answerTo id l h) with
  | ok c =>
    obtain ⟨-, -, -, named⟩ := Loader.accept_eq_ok.mp accepted
    rw [Loader.receive_of_accept accepted] at missed session
    have uses : (ledger.loaded id h).uses = h :: ledger.uses := by
      rw [loaded, missed]
      simp [Except.toOption, named]
    refine ⟨{ l with misses := l.misses + 1, cache := l.cache.put h c }, ?_, keeps.store_eq, keeps.capacity_eq,
      ?_, attempts, counters, fetches_eq⟩
    · rw [session]
      exact List.getElem?_set_self keeps.inside
    · rw [uses]
      exact keeps.recalls.put named _ _
  | error e =>
    rw [Loader.receive_of_refused accepted] at missed session
    have uses : (ledger.loaded id h).uses = ledger.uses := by
      rw [loaded, missed]
      rfl
    refine ⟨{ l with misses := l.misses + 1 }, ?_, keeps.store_eq, keeps.capacity_eq, ?_, attempts, counters,
      fetches_eq⟩
    · rw [session]
      exact List.getElem?_set_self keeps.inside
    · rw [uses]
      exact ⟨keeps.recalls.named, keeps.recalls.keys_eq⟩

theorem load (keeps : ledger.Keeps id store capacity fetched l) {r : Request id store} {h : Hash}
    (loads : r.loads? = some h) : ∃ l', (ledger.step r).Keeps id store capacity fetched l' := by
  rw [step_of_loads loads]
  cases found : l.cached? h with
  | some c => exact keeps.hit found
  | none => exact keeps.miss found

theorem step (keeps : ledger.Keeps id store capacity fetched l) (r : Request id store) :
    ∃ l', (ledger.step r).Keeps id store capacity fetched l' := by
  cases r with
  | load h => exact keeps.load rfl
  | loadChild h => exact keeps.load rfl
  | value status h byMarker => exact keeps.load rfl
  | peek status h byMarker => exact ⟨l, keeps⟩
  | cached h => exact ⟨l, keeps⟩
  | prime cell =>
    exact ⟨l.prime cell, keeps.here_modify fun l => l.prime cell, keeps.store_eq, keeps.capacity_eq,
      keeps.recalls.put rfl l.hits l.misses, keeps.attempts_eq, keeps.counters_eq, keeps.fetches_eq⟩
  | clear =>
    refine ⟨l.clear, keeps.here_modify Loader.clear, keeps.store_eq, keeps.capacity_eq, ⟨?_, ?_⟩, keeps.attempts_eq,
      keeps.counters_eq, keeps.fetches_eq⟩
    · exact fun entry none => by cases none
    · show [] = (recent []).take _
      rw [recent, List.take_nil]
  | elsewhere change =>
    refine ⟨l, ?_, keeps.store_eq, keeps.capacity_eq, keeps.recalls, keeps.attempts_eq, keeps.counters_eq, ?_⟩
    · exact (change.loader ledger.session).trans keeps.here
    · exact (change.fetches ledger.session).trans keeps.fetches_eq

theorem steps (keeps : ledger.Keeps id store capacity fetched l) (requests : List (Request id store)) :
    ∃ l', (requests.foldl Ledger.step ledger).Keeps id store capacity fetched l' := by
  induction requests generalizing ledger l with
  | nil => exact ⟨l, keeps⟩
  | cons r rest ih =>
    obtain ⟨l', keeps'⟩ := keeps.step r
    exact ih keeps'

theorem accounts (keeps : ledger.Keeps id store capacity fetched l) : ledger.Accounts id store capacity fetched l := by
  refine ⟨keeps.here, fun h => ?_, ?_, keeps.attempts_eq, keeps.counters_eq, keeps.fetches_eq, fun r h loads cached => ?_,
    fun r h loads absent => ?_, fun r quiet here => r.stores_after quiet here ledger.session⟩
  · rw [keeps.cached_eq, ← keeps.capacity_eq]
    exact keeps.recalls.cached_iff h
  · rw [← keeps.capacity_eq]
    exact keeps.recalls.size_eq
  · rw [keeps.cached_eq] at cached
    obtain ⟨c, found⟩ := Option.isSome_iff_exists.mp cached
    rw [r.after_of_loads loads, Session.load_hit keeps.here found]
    exact ⟨rfl, _, List.getElem?_set_self keeps.inside, rfl, rfl⟩
  · rw [keeps.cached_eq] at absent
    rw [r.after_of_loads loads, Session.load_miss keeps.here absent, keeps.store_eq]
    refine ⟨rfl, _, List.getElem?_set_self keeps.inside, ?_, Loader.misses_receive l h _⟩
    rw [Loader.receive]
    cases Loader.accept h (ledger.session.answerTo id l h) <;> rfl

end Keeps

/-- Whatever is requested of a loader, its cache holds the hashes that were used last, and its store has been asked once
for each miss. -/
theorem run_accounts {s : Session} {l : Loader} (made : Loader.new store capacity = .ok l)
    (here : s.loaders[id]? = some l) (requests : List (Request id store)) :
    ∃ l', (run s requests).Accounts id store capacity (s.fetches? store) l' := by
  have start : Ledger.Keeps id store capacity (s.fetches? store) ⟨s, [], 0, 0, 0⟩ l := by
    have named := Loader.named_new made
    rw [Loader.new] at made
    split at made
    · cases made
      refine ⟨here, rfl, rfl, ⟨named, ?_⟩, rfl, ⟨rfl, rfl⟩, ?_⟩
      · show [] = (recent []).take _
        rw [recent, List.take_nil]
      · exact Option.map_id'.symm
    · cases made
  obtain ⟨l', keeps⟩ := start.steps requests
  exact ⟨l', keeps.accounts⟩

/-- A loader with room for two cells. -/
def pair : Loader := ⟨0, .empty 2 Nat.two_pos, 0, 0⟩

/-- A session with this loader in front of a store that has nothing. -/
def bare : Session := ⟨[pair], [.untrusted .empty]⟩

/-- Two cells are primed; the first is loaded again, and a third that the store does not have is not; then the third is
primed, for which the second has to go. -/
def evicting : List (Request 0 0) :=
  [.prime Cell.nil, .prime (Cell.bool true), .load Cell.nil.hash, .loadChild (Cell.bool false).hash,
    .cached (Cell.bool true).hash, .prime (Cell.bool false)]

theorem run_accounts_evicting : Loader.new 0 2 = .ok pair ∧ bare.loaders[0]? = some pair ∧
    ∃ l, (run bare evicting).Accounts 0 0 2 (some 0) l ∧ l.hits = 1 ∧ l.misses = 1 ∧
      (run bare evicting).session.cached? 0 (Cell.bool true).hash = none := by
  have made : Loader.new 0 2 = .ok pair := rfl
  have here : bare.loaders[0]? = some pair := rfl
  obtain ⟨l, accounts⟩ := run_accounts made here evicting
  have counters : (run bare evicting).session.loaders[0]?.map (fun l => (l.hits, l.misses)) = some (1, 1) := by
    decide +kernel
  have gone : ((run bare evicting).session.cached? 0 (Cell.bool true).hash).isNone = true := by decide +kernel
  rw [accounts.here, Option.map_some, Option.some.injEq, Prod.mk.injEq] at counters
  exact ⟨made, here, l, accounts, counters.1, counters.2, Option.isNone_iff_eq_none.mp gone⟩

end Ledger

end MerkleCells
