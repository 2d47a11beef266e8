import MerkleCells.Proofs.Failing
import MerkleCells.Proofs.Obtained
import MerkleCells.Proofs.Store.Writing

/-!
Walks that come to their end. A walk down from a reference passes through cells that are held directly, one below the
other, and through cells that it resolves. It never comes back to a hash that it came from, so each hash is resolved once
on any way down, and each time from what a store held or a loader cached when the walk began (`Session.Measured`): what
the walk itself records is persisted, and so is not looked at again. Hence the levels on any way down are at most those of
all cells at hand (`remaining`), and a call fails only if a reference cannot be resolved or a cell cannot be recorded
(`Ref.Stuck`). All that is said of such a call is put together in `Ref.Plain.persist_thrifty`.
-/
namespace MerkleCells

open MerkleCells.Action

/-! ### Heights -/

namespace Cell

variable {c : Cell} {n : Nat}

theorem height_le_iff : c.height ≤ n + 1 ↔ ∀ r ∈ c.refs, r.height ≤ n := by
  have below : ∀ (heights : List Nat) a, heights.foldl max a ≤ n ↔ a ≤ n ∧ ∀ x ∈ heights, x ≤ n := by
    intro heights
    induction heights with
    | nil => simp
    | cons x rest ih =>
      intro a
      simp only [List.foldl_cons, ih, Nat.max_le, List.forall_mem_cons, and_assoc]
  have same : c.height = 1 + (c.refs.map Ref.height).foldl max 0 := congrArg Facts.height (facts_eq c)
  rw [same, Nat.add_comm, Nat.add_le_add_iff_right, below]
  simp

/-- Whatever a cell holds directly has fewer levels. -/
theorem height_lt {r : Ref Cell} (member : r ∈ c.refs) : r.height < c.height := by
  have positive : 0 < c.height := by
    rw [show c.height = _ from congrArg Facts.height (facts_eq c)]
    exact Nat.lt_of_lt_of_le Nat.zero_lt_one (Nat.le_add_right 1 _)
  obtain ⟨n, same⟩ := Nat.exists_eq_succ_of_ne_zero positive.ne'
  rw [same]
  exact Nat.lt_succ_of_le (height_le_iff.mp (Nat.le_of_eq same) r member)

/-- Each level of a cell that was read takes two bytes at least. -/
theorem Accepted.height_le {loader : Option LoaderId} (accepted : c.Accepted loader)
    (short : c.encoding.length ≤ Limits.encoding) : 2 * c.height ≤ c.encoding.length + 1 := by
  induction accepted with
  | intro c value refs children ih =>
    have showing := (Accepted.intro c value refs children).readable short |>.showing
    have bound : c.height ≤ (c.encoding.length - 1) / 2 + 1 := by
      refine height_le_iff.mpr fun r member => ?_
      have inside := Value.length_le_encode member showing
      rw [← encoding_eq] at inside
      rcases refs r member with ⟨d, rfl, small⟩ | marker
      · have le := length_le_of_embeddable small
        have below := ih _ member d rfl (le.trans (by decide))
        rw [Ref.written, Ref.inlined?_direct small, Option.getD_some] at inside
        show d.height ≤ _
        omega
      · rw [marker]
        exact Nat.zero_le _
    have nonempty : 0 < c.encoding.length := by
      rw [encoding_eq_cons]
      exact Nat.succ_pos _
    omega

/-- What is written inside a cell is short, so a cell that was read has no more levels than a reader allows. -/
theorem Accepted.height_le_depth {loader : Option LoaderId} (accepted : c.Accepted loader) : c.height ≤ Limits.depth := by
  refine height_le_iff.mpr fun r member => ?_
  rcases accepted.decoded member with ⟨d, rfl, small⟩ | marker
  · have le := length_le_of_embeddable small
    have below := (accepted.held member rfl).height_le (le.trans (by decide))
    show d.height ≤ _
    simp only [Limits.embedded] at le
    omega
  · rw [marker]
    exact Nat.zero_le _

end Cell

/-! ### Levels at hand -/

/-- A table with a number for each entry. -/
def Table.measured {α : Type} (f : α → Nat) (t : Table α) : Table Nat := t.map fun e => (e.1, f e.2)

@[simp]
theorem Table.find?_measured {α : Type} (f : α → Nat) (t : Table α) (h : Hash) :
    (t.measured f).find? h = (t.find? h).map f := by
  induction t with
  | nil => rfl
  | cons e rest ih =>
    rw [measured, List.map_cons, find?, find?, ← measured, ih]
    split <;> rfl

theorem Table.sum_measured {α : Type} (f : α → Nat) (t : Table α) :
    ((t.measured f).map (·.2)).sum = t.foldr (fun e n => f e.2 + n) 0 := by
  induction t with
  | nil => rfl
  | cons e rest ih => rw [measured, List.map_cons, List.map_cons, List.sum_cons, ← measured, ih, List.foldr_cons]

namespace Store

variable {held : Store} {h : Hash}

/-- The hashes that a store has, each with a number that is larger than the height of any cell that the store may give
for it. -/
def levels : Store → Table Nat
  | .memory s => s.held.measured fun e => e.cell.height + 1
  | .untrusted s => s.slots.measured fun _ => Limits.depth + 1
  | .file s => s.index.measured fun _ => Limits.depth + 1

theorem depth_eq (held : Store) : held.depth = (held.levels.map (·.2)).sum := by
  cases held with
  | memory s => exact (Table.sum_measured (fun e : Held => e.cell.height + 1) s.held).symm
  | untrusted s => simp [depth, levels, Table.measured, UntrustedStore.size, Function.comp_def, Nat.mul_comm]
  | file s => simp [depth, levels, Table.measured, FileStore.size, Function.comp_def, Nat.mul_comm]

/-- Whatever a store answers with has fewer levels than that. -/
theorem height_of_answer {loader : LoaderId} {r : Ref Cell} {c : Cell} (given : held.answer loader h = .ok (some r))
    (at_hand : r.cell? = some c) : ∃ n, held.levels.find? h = some n ∧ c.height < n := by
  have gives : held.Gives loader c := by
    have ends := held.ends_answer loader h
    rw [given] at ends
    exact ends r rfl c at_hand
  cases held with
  | memory s =>
    obtain ⟨e, found, rfl⟩ := Option.map_eq_some_iff.mp (Except.ok.inj given)
    cases at_hand
    exact ⟨_, by rw [levels, Table.find?_measured, found]; rfl, Nat.lt_succ_self _⟩
  | untrusted s =>
    rcases gives with accepted | ⟨m, other, -⟩
    · cases found : s.slots.find? h with
      | none =>
        rw [answer, UntrustedStore.answer, found] at given
        cases given
      | some slot =>
        exact ⟨_, by rw [levels, Table.find?_measured, found]; rfl, Nat.lt_succ_of_le accepted.height_le_depth⟩
    · cases other
  | file s =>
    rcases gives with accepted | ⟨m, other, -⟩
    · cases found : s.index.find? h with
      | none =>
        rw [answer, FileStore.answer, FileStore.status?, found] at given
        cases given
      | some e =>
        exact ⟨_, by rw [levels, Table.find?_measured, found]; rfl, Nat.lt_succ_of_le accepted.height_le_depth⟩
    · cases other

@[simp]
theorem levels_asked (held : Store) : held.asked.levels = held.levels := by cases held <;> rfl

/-- Recording a cell changes what a store may give for its hash only. -/
theorem find?_levels_record {cell : Cell} {own status : Status} (other : h ≠ cell.hash) :
    (held.record cell own status).2.levels.find? h = held.levels.find? h := by
  have apart : ¬ cell.hash = h := Ne.symm other
  cases held with
  | memory s => simp [record, MemoryStore.record, levels, apart]
  | untrusted s => simp [record, UntrustedStore.record, levels, apart]
  | file s =>
    have records := s.records cell own status
    rw [record]
    generalize s.record cell own status = outcome at records ⊢
    cases records with
    | held => simp [levels, FileStore.raise, apart]
    | new => simp [levels, FileStore.append, apart]
    | refused => rfl

end Store

namespace Session

/-- The hashes of the caches and of the stores, each with a number that is larger than the height of what is there. -/
def levels (s : Session) : List (Hash × Nat) :=
  s.stores.flatMap Store.levels ++ s.loaders.flatMap fun l => l.cache.entries.measured fun c => c.height + 1

theorem depth_eq (s : Session) : s.depth = (s.levels.map (·.2)).sum := by
  have stores : s.stores.foldr (fun store n => store.depth + n) 0 = ((s.stores.flatMap Store.levels).map (·.2)).sum := by
    induction s.stores with
    | nil => rfl
    | cons held rest ih => simp only [List.foldr_cons, ih, held.depth_eq, List.flatMap_cons, List.map_append, List.sum_append]
  have loaders : s.loaders.foldr (fun l n => l.cache.depth + n) 0 =
      ((s.loaders.flatMap fun l => l.cache.entries.measured fun c => c.height + 1).map (·.2)).sum := by
    induction s.loaders with
    | nil => rfl
    | cons l rest ih =>
      rw [List.foldr_cons, ih, Cache.depth, List.flatMap_cons, List.map_append, List.sum_append, Table.sum_measured]
  rw [depth, levels, stores, loaders, List.map_append, List.sum_append]

end Session

/-- The levels of an entry, unless its hash has been passed. -/
def unpassed (passed : List Hash) (e : Hash × Nat) : Nat := if e.1 ∈ passed then 0 else e.2

theorem unpassed_cons_le (h : Hash) (passed : List Hash) (e : Hash × Nat) :
    unpassed (h :: passed) e ≤ unpassed passed e := by
  by_cases inside : e.1 ∈ passed
  · rw [unpassed, if_pos (List.mem_cons_of_mem h inside)]
    exact Nat.zero_le _
  · rw [unpassed, unpassed, if_neg inside]
    split
    · exact Nat.zero_le _
    · exact Nat.le_refl _

/-- The levels that are left when the cells of some hashes have been passed. -/
def remaining (entries : List (Hash × Nat)) (passed : List Hash) : Nat := (entries.map (unpassed passed)).sum

theorem remaining_nil (entries : List (Hash × Nat)) : remaining entries [] = (entries.map (·.2)).sum :=
  congrArg List.sum (List.map_congr_left fun _ _ => if_neg List.not_mem_nil)

/-- A cell that is passed for the first time takes its levels from those that are left. -/
theorem add_remaining_le {entries : List (Hash × Nat)} {passed : List Hash} {h : Hash} {n : Nat} (member : (h, n) ∈ entries)
    (fresh : h ∉ passed) : n + remaining entries (h :: passed) ≤ remaining entries passed := by
  induction entries with
  | nil => cases member
  | cons e rest ih =>
    simp only [remaining, List.map_cons, List.sum_cons] at ih ⊢
    rcases List.mem_cons.mp member with rfl | member
    · have fewer := List.sum_le_sum fun e (_ : e ∈ rest) => unpassed_cons_le h passed e
      have now : unpassed (h :: passed) (h, n) = 0 := if_pos List.mem_cons_self
      have before : unpassed passed (h, n) = n := if_neg fresh
      omega
    · have more := ih member
      have less := unpassed_cons_le h passed e
      omega

/-! ### What a walk has at hand -/

namespace Session

variable {I : Set Bytes} {store : StoreId} {s₀ s s' : Session}

/-- Unless it has been persisted since, what is at hand for a hash was so in the session `s₀`, or has fewer levels than
something that was. -/
structure Measured (store : StoreId) (s₀ s : Session) : Prop where
  stores : ∀ held ∈ s.stores, ∀ h n, held.levels.find? h = some n → s.Persisted store h ∨ (h, n) ∈ s₀.levels
  caches : s.Caches fun h c => s.Persisted store h ∨ ∃ n, (h, n) ∈ s₀.levels ∧ c.height < n

theorem measured_refl (store : StoreId) (s : Session) : s.Measured store s where
  stores _ member _ _ found :=
    .inr (List.mem_append_left _ (List.mem_flatMap_of_mem member (Table.mem_of_find? found)))
  caches l member e inside := by
    refine .inr ⟨_, List.mem_append_right _ (List.mem_flatMap_of_mem member ?_), Nat.lt_succ_self _⟩
    exact List.mem_map_of_mem inside

namespace Measured

theorem answers (measured : s₀.Measured store s) :
    s.Answers fun h c => s.Persisted store h ∨ ∃ n, (h, n) ∈ s₀.levels ∧ c.height < n := by
  intro loader l h c at_l accepted
  obtain ⟨r, given, at_hand, -⟩ := Loader.accept_eq_ok.mp accepted
  rw [answerTo] at given
  cases behind : s.stores[l.store]? with
  | none =>
    rw [behind] at given
    cases given
  | some held =>
    rw [behind] at given
    obtain ⟨n, found, lower⟩ := held.height_of_answer given at_hand
    exact (measured.stores held (List.mem_of_getElem? behind) h n found).imp_right fun member => ⟨n, member, lower⟩

/-- Loading asks stores, and caches what they answer. -/
theorem load (measured : s₀.Measured store s) (loader : LoaderId) (h : Hash) :
    s₀.Measured store (s.load loader h).2 where
  stores := by
    have same : ∀ held ∈ (s.load loader h).2.stores, ∃ before ∈ s.stores, held.levels = before.levels := by
      rw [Session.load]
      split
      · exact fun held member => ⟨held, member, rfl⟩
      · split
        · exact fun held member => ⟨held, member, rfl⟩
        · intro held member
          obtain ⟨i, inside, rfl⟩ := List.mem_iff_getElem.mp member
          rw [List.length_modify] at inside
          refine ⟨s.stores[i], List.getElem_mem inside, ?_⟩
          rw [List.getElem_modify]
          split
          · exact Store.levels_asked _
          · rfl
    intro held member k n found
    obtain ⟨before, member, same⟩ := same held member
    rw [same] at found
    exact (measured.stores before member k n found).imp_left (persisted_load loader h).mpr
  caches := by
    have caches := (measured.caches.load measured.answers loader h).2
    exact fun l member e inside => (caches l member e inside).imp_left (persisted_load loader h).mpr

theorem later (measured : s₀.Measured store s) (later : s.Later s') : s₀.Measured store s' := by
  induction later with
  | refl => exact measured
  | load loader h _ ih => exact ih.load loader h

/-- A cell that is recorded is persisted from then on. -/
theorem record (measured : s₀.Measured store s) (c : Cell) :
    s₀.Measured store (result (storeRef store (Ref.direct c) .persisted) s).2 := by
  cases run : result (storeRef store (Ref.direct c) .persisted) s with
  | mk answer s' =>
    cases answer with
    | error e => exact storeRef_error run ▸ measured
    | ok r =>
      have persisted : ∀ h, s'.Persisted store h ↔ h = c.hash ∧ _ ∨ s.Persisted store h := fun _ => persisted_storeRef run
      rw [Ref.direct, result_storeRef] at run
      cases at_store : s.stores[store]? with
      | none =>
        rw [at_store] at run
        cases run
      | some held =>
        rw [at_store] at run
        obtain ⟨-, rfl⟩ := Prod.mk.injEq .. ▸ run
        refine ⟨fun held' member h n found => ?_, fun l member e inside => ?_⟩
        · by_cases here : h = c.hash
          · exact .inl ((persisted h).mpr (.inl ⟨here, Status.le_refl _⟩))
          have before : s.Persisted store h ∨ (h, n) ∈ s₀.levels := by
            rcases List.mem_or_eq_of_mem_set member with old | rfl
            · exact measured.stores held' old h n found
            · rw [Store.find?_levels_record here] at found
              exact measured.stores held (List.mem_of_getElem? at_store) h n found
          exact before.imp_left fun before => (persisted h).mpr (.inr before)
        · exact (measured.caches l member e inside).imp_left fun before => (persisted e.1).mpr (.inr before)

/-- What a reference comes to that names no persisted hash has as many levels as the reference, or fewer than something
that was at hand for its hash. -/
theorem height_of_value (measured : s₀.Measured store s) {q : Ref Cell} {c : Cell} (missing : ¬ s.Persisted store q.hash)
    (run : result q.value s = (.ok c, s')) : c.height = q.height ∨ ∃ n, (q.hash, n) ∈ s₀.levels ∧ c.height < n := by
  obtain ⟨status, d | ⟨h, loader, byMarker⟩⟩ := q
  · cases run
    exact .inl rfl
  · cases loader with
    | none => cases run
    | some loader =>
      have loaded := congrArg Prod.fst (Ref.load_of_value run).1
      exact .inr (((measured.caches.load measured.answers loader h).1 c loaded).resolve_left missing)

end Measured

end Session

/-! ### The end of a walk -/

namespace Ref

variable {I : Set Bytes} {store : StoreId} {s₀ s : Session} {r q : Ref Cell} {fuel : Nat} {passed : List Hash}

/-- The errors that stop a walk: a reference that it comes to cannot be resolved, or a cell cannot be recorded. -/
inductive Stuck (I : Set Bytes) (store : StoreId) (s : Session) (r : Ref Cell) : Error → Prop
  | lost {q : Ref Cell} {e : Error} {s₁ : Session} (exposed : r.Exposed I store s q) (onward : s.Onward I store s₁)
      (failed : (result q.value s₁).1 = .error e) : Stuck I store s r e
  | full {c : Cell} {e : Error} {s₁ : Session} (involved : c.Involved I) (onward : s.Onward I store s₁)
      (failed : (result (storeRef store (Ref.direct c) .persisted) s₁).1 = .error e) : Stuck I store s r e

/-- A session that is left after loading and persisting, with no more at hand. -/
def Tracks (I : Set Bytes) (store : StoreId) (s₀ s s' : Session) : Prop :=
  s.Onward I store s' ∧ (s₀.Measured store s → s₀.Measured store s')

theorem Tracks.refl (s : Session) : Tracks I store s₀ s s := ⟨.refl s, id⟩

theorem Tracks.trans {a b c : Session} (first : Tracks I store s₀ a b) (second : Tracks I store s₀ b c) :
    Tracks I store s₀ a c :=
  ⟨first.1.trans second.1, second.2 ∘ first.2⟩

/-- A walk down from a reference ends before its fuel does, if that is more than the levels that the reference holds
and those that are left. -/
theorem Plain.runs_persistWithin (plain : q.Plain I store s₀)
    (exposed : ¬ s₀.Persisted store q.hash → r.Exposed I store s₀ q) (onward : s₀.Onward I store s)
    (measured : s₀.Measured store s) (above : ∀ h ∈ passed, Relation.TransGen (Hash.Refers I) h q.hash)
    (enough : q.height + remaining s₀.levels passed < fuel) :
    Runs (Tracks I store s₀) (r.Stuck I store s₀) (persistWithin store fuel q) s fun _ _ => True := by
  induction fuel generalizing q s passed with
  | zero => exact absurd enough (Nat.not_lt_zero _)
  | succ fuel ih =>
    have doubted := plain.doubted q (.self q)
    by_cases missing : s.Persisted store q.hash
    · obtain ⟨held, found, reaches⟩ := missing
      rw [Runs, persistWithin_of_held doubted found (decide_eq_true reaches)]
      exact ⟨.refl s, trivial⟩
    refine .congr ?_ (persistWithin_of_missing doubted missing)
    have entered : r.Exposed I store s₀ q := exposed fun before => missing (onward.persisted before)
    have target : Runs (Tracks I store s₀) (r.Stuck I store s₀) q.value s fun _ _ => True := by
      refine ⟨⟨(q.later_value s).onward, fun measured => measured.later (q.later_value s)⟩, ?_⟩
      cases found : (result q.value s).1 with
      | ok c => exact trivial
      | error e => exact .lost entered onward found
    refine target.bind .trans fun c s₁ found track _ => ?_
    obtain ⟨involved, named⟩ := plain.target onward found
    -- the hashes passed on the way to the children, and the levels that are left below them
    obtain ⟨passed', above', left⟩ : ∃ passed', (∀ k ∈ c.markers, ∀ h ∈ passed', Relation.TransGen (Hash.Refers I) h k) ∧
        c.height + remaining s₀.levels passed' ≤ q.height + remaining s₀.levels passed := by
      rcases measured.height_of_value missing found with same | ⟨n, member, lower⟩
      · exact ⟨passed, fun k mark h member => (above h member).tail (plain.refers onward found mark), by rw [same]⟩
      · have fresh : q.hash ∉ passed := fun again => by
          obtain ⟨k, refers, below⟩ := Relation.TransGen.head'_iff.mp (above q.hash again)
          exact plain.not_below refers below
        have fewer := add_remaining_le member fresh
        refine ⟨q.hash :: passed, fun k mark h member => ?_, by omega⟩
        rcases List.mem_cons.mp member with rfl | member
        · exact .single (plain.refers onward found mark)
        · exact (above h member).tail (plain.refers onward found mark)
    have children : Runs (Tracks I store s₀) (r.Stuck I store s₀) (c.refs.forM fun child => do
        if !child.isEmbedded then
          let _ ← persistWithin store fuel child) s₁ fun _ _ => True := by
      refine runs_forM .refl .trans fun p member s₂ track' => ?_
      cases apart : p.isEmbedded with
      | true => exact runs_pure .refl trivial
      | false =>
        have lower := Cell.height_lt member
        have walk := ih (plain.child onward found member apart)
          (fun new => .child entered onward found member apart new) (onward.trans (track.trans track').1)
          ((track.trans track').2 measured) (above' p.hash (Cell.mem_markers member apart)) (by omega)
        exact walk.bind .trans fun _ s₃ _ _ _ => runs_pure .refl trivial
    refine children.bind .trans fun _ s₂ _ track' _ => ?_
    refine ⟨⟨.record _ involved (.refl s₂), fun measured => measured.record c⟩, ?_⟩
    cases recorded : (result (storeRef store (Ref.direct c) .persisted) s₂).1 with
    | ok a => exact trivial
    | error e => exact .full involved (onward.trans (track.trans track').1) recorded

/-- A call that persists a reference fails only because a reference cannot be resolved or a cell cannot be recorded. -/
theorem Plain.stuck_of_error {s : Session} (plain : r.Plain I store s) {e : Error}
    (failed : (result (persist store r) s).1 = .error e) : r.Stuck I store s e := by
  have runs : Runs (Tracks I store s) (r.Stuck I store s) (persist store r) s fun _ _ => True := by
    simp only [Runs, persist, result_bind, result_get]
    have enough : r.height + remaining s.levels [] < r.height + s.depth + 1 := by
      rw [remaining_nil, ← s.depth_eq]
      exact Nat.lt_succ_self _
    exact plain.runs_persistWithin .self (.refl s) (s.measured_refl store) (fun _ none => by cases none) enough
  have ends := runs.2
  rwa [failed] at ends

/-- A call that persists a reference returns, whether it succeeds or not. -/
theorem Plain.returns {s : Session} (plain : r.Plain I store s) : Returns (persist store r) s := by
  intro endless
  cases plain.stuck_of_error endless with
  | @lost q _ s₁ _ _ failed =>
    have error := (q.runs_value s₁).2
    rw [failed] at error
    exact error.ne_endless rfl
  | full _ _ failed => exact Session.returns_storeRef failed

/-- Whatever a walk comes to can be resolved whenever it may be come to. -/
def Resolvable (I : Set Bytes) (store : StoreId) (s : Session) (r : Ref Cell) : Prop :=
  ∀ q, r.Exposed I store s q → ∀ s₁, s.Onward I store s₁ → ∃ c, (result q.value s₁).1 = .ok c

end Ref

/-- A store can record whatever a walk may have to record. -/
def Session.Takes (I : Set Bytes) (store : StoreId) (s : Session) : Prop :=
  ∀ c, c.Involved I → ∀ s₁, s.Onward I store s₁ → ∃ r, (result (storeRef store (Ref.direct c) .persisted) s₁).1 = .ok r

/-- A store in memory can record everything. -/
theorem Session.takes_of_memory {I : Set Bytes} {store : StoreId} {s : Session} {m : MemoryStore}
    (memory : s.stores[store]? = some (.memory m)) : s.Takes I store := by
  intro c _ s₁ onward
  obtain ⟨m', memory'⟩ : ∃ m', s₁.stores[store]? = some (.memory m') := by
    induction onward with
    | refl => exact ⟨m, memory⟩
    | @load s' loader h _ ih =>
      obtain ⟨m', memory'⟩ := ih
      rw [Session.load]
      split
      · exact ⟨m', memory'⟩
      · split
        · exact ⟨m', memory'⟩
        · refine ⟨m', ?_⟩
          rw [List.getElem?_modify, memory']
          simp [Store.asked]
    | @record s' d status _ _ ih =>
      obtain ⟨m', memory'⟩ := ih
      rw [Ref.direct, Session.result_storeRef, memory']
      exact ⟨_, List.getElem?_set_self (List.getElem?_eq_some_iff.mp memory').1⟩
  rw [Ref.direct, Session.result_storeRef, memory']
  exact ⟨_, rfl⟩

/-- However the cells below a reference are shared, persisting it records every hash once that was not persisted, after
all that the hash refers to, and nothing else; also if the call fails on its way, except that some are not recorded
then. It does not fail if all that it comes to can be resolved and recorded. -/
theorem Ref.Plain.persist_thrifty {I : Set Bytes} {store : StoreId} {s : Session} {r : Ref Cell}
    (injective : Set.InjOn Hash.digest I) (plain : r.Plain I store s) :
    (Watch.persisting store s r).Thrifty I store s r ∧
      (∀ r', (result (persist store r) s).1 = .ok r' → (Watch.persisting store s r).Complete I store s r) ∧
      (r.Resolvable I store s → s.Takes I store → ∃ r', (result (persist store r) s).1 = .ok r') := by
  obtain ⟨steady, succeeds⟩ := plain.steady_persisting
  refine ⟨steady.thrifty, fun r' run => ?_, fun resolvable takes => ?_⟩
  · obtain ⟨current, persisted⟩ := succeeds r' run
    exact current.complete injective plain persisted
  · cases answer : (result (persist store r) s).1 with
    | ok r' => exact ⟨r', rfl⟩
    | error e =>
      cases plain.stuck_of_error answer with
      | @lost q _ s₁ exposed onward failed =>
        obtain ⟨c, found⟩ := resolvable q exposed s₁ onward
        rw [failed] at found
        cases found
      | @full c _ s₁ involved onward failed =>
        obtain ⟨r', taken⟩ := takes c involved s₁ onward
        rw [failed] at taken
        cases taken

/-! ### A cell that is reached on two ways -/

namespace Diamond

open Claimed Halfway

/-- A direct reference is plain if all that it holds is. -/
theorem plain_direct {I : Set Bytes} {store : StoreId} {s : Session} {c : Cell} (injective : Set.InjOn Hash.digest I)
    (named : s.Named) (involved : c.Involved I) (children : ∀ q ∈ c.refs, q.Plain I store s) : (Ref.direct c).Plain I store s where
  named := named
  leads p meets d s₁ s₂ onward target := by
    rcases meets.of_direct with rfl | ⟨q, member, meets⟩
    · cases target
      exact involved
    · exact (children q member).leads p meets d s₁ s₂ onward target
  doubted p meets := by
    rcases meets.of_direct with rfl | ⟨q, member, meets⟩
    · exact doubted c
    · exact (children q member).doubted p meets
  finite := by
    refine ⟨_, fun k refers => ?_⟩
    obtain ⟨q, member, -, rfl⟩ := (Cell.marks_iff.mpr (Hash.Refers.markers injective refers involved)).exists_apart
    exact (children q member).finite

/-- A direct reference is resolvable if all that it holds is. -/
theorem resolvable_direct {I : Set Bytes} {store : StoreId} {s : Session} {c : Cell}
    (children : ∀ q ∈ c.refs, q.Resolvable I store s) : (Ref.direct c).Resolvable I store s := by
  intro q exposed s₁ onward
  rcases exposed.of_direct with rfl | ⟨p, member, exposed⟩
  · exact ⟨c, rfl⟩
  · exact children p member q exposed s₁ onward

/-- A cell that refers to another cell, and to a child of that one. -/
def top : Cell := Cell.ofValue (.vector [Ref.direct parent, Ref.direct large])

/-- A cell above that refers to the same child once more. -/
def crown : Cell := Cell.ofValue (.vector [Ref.direct top, Ref.direct large])

def encodings : Set Bytes := { e | e ∈ [large.encoding, parent.encoding, top.encoding, crown.encoding] }

theorem encodings_injective : Set.InjOn Hash.digest encodings := by
  have apart : ([large.encoding, parent.encoding, top.encoding, crown.encoding].map Hash.digest).Nodup := by
    simp only [List.map_cons, List.map_nil, ← Cell.hash_eq]
    decide +kernel
  exact fun x inside y inside' same => List.inj_on_of_nodup_map apart inside inside' same

theorem refs_pair (c d : Cell) : (Cell.ofValue (.vector [Ref.direct c, Ref.direct d])).refs =
    [Ref.direct c, Ref.direct d] := by
  rw [Cell.refs, Cell.value_ofValue]
  rfl

theorem readable_pair {c d : Cell} (readable : c.Readable) (readable' : d.Readable) :
    (Cell.ofValue (.vector [Ref.direct c, Ref.direct d])).Readable := by
  refine .ofItems (v := .vector [Ref.direct c, Ref.direct d]) (show 2 ≤ Limits.fields by decide) rfl ?_
  intro r member
  rcases List.mem_pair.mp member with rfl | rfl
  · exact ⟨c, readable, rfl⟩
  · exact ⟨d, readable', rfl⟩

theorem large_refs : large.refs = [] := by
  rw [Cell.refs, large, Cell.value_ofValue]
  rfl

theorem large_involved : large.Involved encodings := ⟨large_readable, .head _⟩

theorem parent_involved : parent.Involved encodings := ⟨parent_readable, .tail _ (.head _)⟩

theorem top_involved : top.Involved encodings := ⟨readable_pair parent_readable large_readable, .tail _ (.tail _ (.head _))⟩

theorem crown_involved : crown.Involved encodings :=
  ⟨readable_pair top_involved.readable large_readable, .tail _ (.tail _ (.tail _ (.head _)))⟩

/-- What is true of a direct reference if it is of all that its target holds is true of the one above. -/
theorem forall_below {P : Ref Cell → Prop}
    (step : ∀ c, c.Involved encodings → (∀ q ∈ c.refs, P q) → P (Ref.direct c)) : P (Ref.direct crown) := by
  have leaf : P (Ref.direct large) := step large large_involved fun q member => by
    rw [large_refs] at member
    cases member
  have inner : P (Ref.direct parent) := step parent parent_involved fun q member => by
    rw [parent_refs, List.mem_singleton] at member
    exact member ▸ leaf
  have outer : P (Ref.direct top) := step top top_involved fun q member => by
    rw [top, refs_pair] at member
    rcases List.mem_pair.mp member with rfl | rfl
    · exact inner
    · exact leaf
  refine step crown crown_involved fun q member => ?_
  rw [crown, refs_pair] at member
  rcases List.mem_pair.mp member with rfl | rfl
  · exact outer
  · exact leaf

theorem plain_crown {s : Session} (named : s.Named) : (Ref.direct crown).Plain encodings 0 s :=
  forall_below fun _ involved => plain_direct encodings_injective named involved

theorem resolvable_crown (s : Session) : (Ref.direct crown).Resolvable encodings 0 s :=
  forall_below fun _ _ => resolvable_direct

theorem named_one (c : Cell) : (one c).Named := fun l none => by cases none

theorem persisted_one (c : Cell) : (one c).Persisted 0 c.hash := by
  refine ⟨.persisted, ?_, Status.le_refl _⟩
  simp [one, Session.status?, Store.status?, MemoryStore.status?, Table.find?]

/-- The store holds `parent`. Of the other cells each is recorded once, and the one that is reached on two ways before
both that refer to it, so that one is resolved. -/
theorem calls_crown : (Watch.persisting 0 (one parent) (Ref.direct crown)).recorded.map Cell.hash =
      [crown.hash, top.hash, large.hash] ∧
    ((Watch.persisting 0 (one parent) (Ref.direct crown)).past.any fun m => match m.event with
      | .resolved q _ => q.hash == large.hash
      | _ => false) = true := by
  decide +kernel

theorem thrifty_crown : (one parent).Persisted 0 parent.hash ∧
    (Watch.persisting 0 (one parent) (Ref.direct crown)).Thrifty encodings 0 (one parent) (Ref.direct crown) ∧
    (Watch.persisting 0 (one parent) (Ref.direct crown)).Complete encodings 0 (one parent) (Ref.direct crown) ∧
    (Watch.persisting 0 (one parent) (Ref.direct crown)).recorded.map Cell.hash = [crown.hash, top.hash, large.hash] := by
  obtain ⟨thrifty, complete, succeeds⟩ := Ref.Plain.persist_thrifty encodings_injective (plain_crown (named_one parent))
  obtain ⟨r', run⟩ := succeeds (resolvable_crown (one parent)) (Session.takes_of_memory rfl)
  exact ⟨persisted_one parent, thrifty, complete r' run, calls_crown.1⟩

/-- What is below a cell that was persisted beforehand is resolved if it is also come to on another way, and was not
persisted itself. -/
theorem resolves_below : (Ref.direct crown).Plain encodings 0 (one parent) ∧
    (Ref.direct crown).Resolvable encodings 0 (one parent) ∧ (one parent).Persisted 0 parent.hash ∧
    Hash.Refers encodings parent.hash large.hash ∧
    ∃ q answer s', q.hash = large.hash ∧
      ⟨.resolved q answer, s'⟩ ∈ (Watch.persisting 0 (one parent) (Ref.direct crown)).past := by
  obtain ⟨⟨event, s'⟩, member, resolved⟩ := List.any_eq_true.mp calls_crown.2
  refine ⟨plain_crown (named_one parent), resolvable_crown (one parent), persisted_one parent, ?_, ?_⟩
  · have member : Ref.direct large ∈ parent.refs := by rw [parent_refs]; exact List.mem_singleton_self _
    have same : ∀ c : Cell, (Ref.direct c).hash = c.hash := fun _ => rfl
    have mark := Cell.mem_markers member large_apart
    rw [same] at mark
    exact ⟨parent, parent_involved, rfl, mark⟩
  · cases event with
    | resolved q answer => exact ⟨q, answer, s', eq_of_beq resolved, member⟩
    | _ => cases resolved

end Diamond

end MerkleCells
