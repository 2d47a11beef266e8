import MerkleCells.Proofs.Markers
import MerkleCells.Proofs.Store.Settling

/-!
What one walk writes. Persisting keeps no list of the cells that it has been to; a store that is asked again about a
cell it has just recorded is what ends a second visit. So every hash is recorded once, after all that its encoding
refers to, however the cells below are shared (`InTurn`), and the walk resolves only what it can come to without
passing through a hash that was persisted beforehand (`Ref.Exposed`). All this is said of the calls in the order in
which they were made, also if one of them fails (`Ref.Plain.steady_persisting`). A cell is never below itself, because
the cells below a reference come to an end (`Ref.Plain`): otherwise a walk would record it on the way down as well.
-/
namespace MerkleCells

open MerkleCells.Action

/-- Recording a cell changes no status of another hash, and none in another store. -/
theorem Session.status?_storeRef_of_apart {s : Session} {store other : StoreId} {c : Cell} {own status : Status} {h : Hash}
    (apart : other ≠ store ∨ h ≠ c.hash) :
    (result (storeRef store ⟨own, .direct c⟩ status) s).2.status? other h = s.status? other h := by
  rcases eq_or_ne other store with rfl | elsewhere
  · cases run : result (storeRef other ⟨own, .direct c⟩ status) s with
    | mk answer s' =>
      cases answer with
      | error e => rw [storeRef_error run]
      | ok r => exact (status?_storeRef run h).trans (if_neg (Ne.symm (apart.resolve_left fun no => no rfl)))
  · rw [result_storeRef]
    cases s.stores[store]? with
    | none => rfl
    | some held => simp only [Session.status?, List.getElem?_set_ne elsewhere.symm]

theorem Session.Later.persisted {s s' : Session} {store : StoreId} {h : Hash} (later : s.Later s') :
    s'.Persisted store h ↔ s.Persisted store h := by
  rw [Persisted, later.status? store h, Persisted]

theorem Session.Onward.named {I : Set Bytes} {store : StoreId} {s s' : Session} (onward : s.Onward I store s')
    (named : s.Named) : s'.Named := by
  induction onward with
  | refl => exact named
  | load loader h _ ih => exact (ih.load loader h).2
  | record status _ _ ih => exact ih.storeRef _ _ status

/-! ### Turns -/

/-- The cells that were recorded, the latest first. Each was neither held beforehand nor recorded earlier, and whatever
its encoding refers to was one or the other. -/
inductive InTurn (held : Hash → Prop) : List Cell → Prop
  | nil : InTurn held []
  | cons {c : Cell} {earlier : List Cell} (turns : InTurn held earlier) (missing : ¬ held c.hash)
      (first : c.hash ∉ earlier.map Cell.hash)
      (children : ∀ k, c.Marks k → held k ∨ k ∈ earlier.map Cell.hash) : InTurn held (c :: earlier)

namespace InTurn

variable {held : Hash → Prop} {cells later earlier : List Cell} {c : Cell}

theorem nodup (turns : InTurn held cells) : (cells.map Cell.hash).Nodup := by
  induction turns with
  | nil => exact List.nodup_nil
  | cons _ _ first _ ih => exact List.nodup_cons.mpr ⟨first, ih⟩

theorem of_append (turns : InTurn held (later ++ earlier)) : InTurn held earlier := by
  induction later with
  | nil => exact turns
  | cons _ _ ih =>
    cases turns with
    | cons turns _ _ _ => exact ih turns

theorem missing_of_mem (turns : InTurn held cells) (member : c ∈ cells) : ¬ held c.hash := by
  obtain ⟨later, earlier, rfl⟩ := List.append_of_mem member
  cases turns.of_append with
  | cons _ missing _ _ => exact missing

theorem children_of_eq (turns : InTurn held cells) (split : cells = later ++ c :: earlier) {k : Hash}
    (marks : c.Marks k) : held k ∨ k ∈ earlier.map Cell.hash := by
  subst split
  cases turns.of_append with
  | cons _ _ _ children => exact children k marks

/-- Whatever a recorded cell refers to was held or is recorded. -/
theorem children_of_mem (turns : InTurn held cells) (member : c ∈ cells) {k : Hash} (marks : c.Marks k) :
    held k ∨ k ∈ cells.map Cell.hash := by
  obtain ⟨later, earlier, split⟩ := List.append_of_mem member
  refine (turns.children_of_eq split marks).imp_right fun inside => ?_
  rw [split, List.map_append, List.map_cons]
  exact List.mem_append_right _ (List.mem_cons_of_mem _ inside)

end InTurn

/-- The cell that a store was told to record. -/
def Event.recorded? : Event → Option Cell
  | .recorded c _ _ => some c
  | _ => none

/-- The cells that stores were told to record, the latest first. -/
def Watch.recorded (w : Watch) : List Cell := w.past.filterMap fun m => m.event.recorded?

/-! ### References -/

namespace Ref

variable {I : Set Bytes} {store : StoreId} {s : Session} {r q : Ref Cell}

/-- Below a reference are finitely many cells, all of which can be read, and no reference to them claims to be
persisted. What the loaders have in their caches is found under its own hash. -/
structure Plain (I : Set Bytes) (store : StoreId) (s : Session) (r : Ref Cell) : Prop where
  named : s.Named
  leads : ∀ q, r.Meets I store s q → ∀ c s₁ s₂, s.Onward I store s₁ → result q.value s₁ = (.ok c, s₂) → c.Involved I
  doubted : ∀ q, r.Meets I store s q → ¬ q.status.reaches .persisted
  finite : Acc (fun k h : Hash => h.Refers I k) r.hash

/-- What a walk comes to by way of cells none of which was persisted when it started. What is written inside its parent
is not looked at. -/
inductive Exposed (I : Set Bytes) (store : StoreId) (s : Session) (r : Ref Cell) : Ref Cell → Prop
  | self (missing : ¬ s.Persisted store r.hash) : Exposed I store s r r
  | child {p q : Ref Cell} {c : Cell} {s₁ s₂ : Session} (exposed : Exposed I store s r p)
      (onward : s.Onward I store s₁) (target : result p.value s₁ = (.ok c, s₂)) (member : q ∈ c.refs)
      (apart : q.isEmbedded = false) (missing : ¬ s.Persisted store q.hash) : Exposed I store s r q

theorem Exposed.missing (exposed : r.Exposed I store s q) : ¬ s.Persisted store q.hash := by
  cases exposed with
  | self missing => exact missing
  | child _ _ _ _ _ missing => exact missing

/-- What a direct reference leads to by such a way is itself, or below what its target holds. -/
theorem Exposed.of_direct {c : Cell} (exposed : (Ref.direct c).Exposed I store s q) :
    q = Ref.direct c ∨ ∃ p ∈ c.refs, p.Exposed I store s q := by
  induction exposed with
  | self => exact .inl rfl
  | child _ onward target member apart missing ih =>
    rcases ih with rfl | ⟨p, inside, exposed⟩
    · cases target
      exact .inr ⟨_, member, .self missing⟩
    · exact .inr ⟨p, inside, exposed.child onward target member apart missing⟩

namespace Plain

theorem target (plain : r.Plain I store s) {c : Cell} {s₁ s₂ : Session} (onward : s.Onward I store s₁)
    (target : result r.value s₁ = (.ok c, s₂)) : c.Involved I ∧ c.hash = r.hash :=
  ⟨plain.leads r (.self r) c s₁ s₂ onward target, hash_of_value (onward.named plain.named) target⟩

theorem refers (plain : r.Plain I store s) {c : Cell} {s₁ s₂ : Session} (onward : s.Onward I store s₁)
    (target : result r.value s₁ = (.ok c, s₂)) {k : Hash} (member : k ∈ c.markers) : r.hash.Refers I k := by
  obtain ⟨involved, named⟩ := plain.target onward target
  exact ⟨c, involved, named, member⟩

theorem child (plain : r.Plain I store s) {c : Cell} {s₁ s₂ : Session} (onward : s.Onward I store s₁)
    (target : result r.value s₁ = (.ok c, s₂)) (member : q ∈ c.refs) (apart : q.isEmbedded = false) :
    q.Plain I store s where
  named := plain.named
  leads p meets := plain.leads p (.child (plain.doubted r (.self r)) onward target member apart meets)
  doubted p meets := plain.doubted p (.child (plain.doubted r (.self r)) onward target member apart meets)
  finite := plain.finite.inv (plain.refers onward target (Cell.mem_markers member apart))

theorem exposed (plain : r.Plain I store s) (exposed : r.Exposed I store s q) : q.Plain I store s := by
  induction exposed with
  | self => exact plain
  | child _ onward target member apart _ ih => exact ih.child onward target member apart

/-- Nothing that the target of a reference refers to has the target below it. -/
theorem not_below (plain : r.Plain I store s) {k : Hash} (refers : r.hash.Refers I k) :
    ¬ Relation.ReflTransGen (Hash.Refers I) k r.hash := by
  have finite := plain.finite
  generalize r.hash = h at refers finite
  -- a circle through `h` is one through `k` too, which is below it
  induction finite generalizing k with
  | intro h _ ih =>
    intro below
    rcases Relation.ReflTransGen.cases_head below with rfl | ⟨k', refers', below'⟩
    · exact ih k refers refers .refl
    · exact ih k refers refers' (below'.tail refers)

end Plain

end Ref

namespace Watch

variable {I : Set Bytes} {store : StoreId} {s : Session} {r q : Ref Cell} {w : Watch}

/-! ### What is true all the way -/

/-- What a walk down from `r` that started in `s` has done so far, even if it has just failed. -/
structure Steady (I : Set Bytes) (store : StoreId) (s : Session) (r : Ref Cell) (w : Watch) : Prop where
  turns : InTurn (s.Persisted store) w.recorded
  entered : ∀ q answer s', ⟨.resolved q answer, s'⟩ ∈ w.past → r.Exposed I store s q
  own : ∀ c ∈ w.recorded, ∃ q s', r.Exposed I store s q ∧ ⟨.resolved q (.ok c), s'⟩ ∈ w.past
  involved : ∀ c ∈ w.recorded, c.Involved I
  statuses : ∀ other h, other ≠ store ∨ h ∉ w.recorded.map Cell.hash →
    w.session.status? other h = s.status? other h

/-- As long as it has not failed, the store holds as persisted what it held so before and what it was told to record. -/
structure Current (I : Set Bytes) (store : StoreId) (s : Session) (r : Ref Cell) (w : Watch) : Prop
    extends Steady I store s r w where
  onward : s.Onward I store w.session
  held : ∀ h, w.session.Persisted store h ↔ s.Persisted store h ∨ h ∈ w.recorded.map Cell.hash

namespace Current

theorem start (s : Session) (r : Ref Cell) : Current I store s r ⟨s, []⟩ where
  turns := .nil
  entered _ _ _ seen := by cases seen
  own _ member := by cases member
  involved _ member := by cases member
  statuses _ _ _ := rfl
  onward := .refl s
  held h := by
    constructor
    · exact .inl
    · rintro (persisted | member)
      · exact persisted
      · cases member

/-- What is persisted stays so, because nothing that was seen is forgotten. -/
theorem stays {w' : Watch} (current : w.Current I store s r) (current' : w'.Current I store s r)
    (seen : w.past ⊆ w'.past) {h : Hash} (persisted : w.session.Persisted store h) : w'.session.Persisted store h :=
  (current'.held h).mpr (((current.held h).mp persisted).imp_right fun member =>
    List.map_subset _ (List.filterMap_subset _ seen) member)

/-- A step that records nothing, and resolves nothing but what is exposed. -/
theorem noted (current : w.Current I store s r) {m : Moment} (later : w.session.Later m.session)
    (silent : m.event.recorded? = none)
    (exposed : ∀ q answer, m.event = .resolved q answer → r.Exposed I store s q) :
    (w.after m).Current I store s r := by
  have same : (w.after m).recorded = w.recorded := List.filterMap_cons_none silent
  constructor
  · constructor
    · rw [same]
      exact current.turns
    · intro q answer s' seen
      rcases List.mem_cons.mp seen with rfl | seen
      · exact exposed q answer rfl
      · exact current.entered q answer s' seen
    · intro c member
      obtain ⟨q, s', exposed, seen⟩ := current.own c (same ▸ member)
      exact ⟨q, s', exposed, List.mem_cons_of_mem _ seen⟩
    · exact fun c member => current.involved c (same ▸ member)
    · exact fun other h aside => (later.status? other h).trans (current.statuses other h (same ▸ aside))
  · exact current.onward.trans later.onward
  · intro h
    rw [same]
    exact later.persisted.trans (current.held h)

theorem asked (current : w.Current I store s r) (h : Hash) : (Watched.askedFor store h w).Current I store s r :=
  current.noted (.refl _) rfl fun _ _ seen => by cases seen

/-- A reference may be resolved if it is exposed. -/
theorem resolved (current : w.Current I store s r) (exposed : r.Exposed I store s q) :
    (Watched.result (Watched.resolve q) w).2.Current I store s r :=
  current.noted (m := ⟨.resolved q _, _⟩) (q.later_value w.session) rfl fun p answer seen => by
    cases seen
    exact exposed

variable {c : Cell}

/-- A cell may be recorded if it is not held as persisted and all that it refers to is, whether that fails or not. -/
theorem told (current : w.Current I store s r) {s' : Session} (exposed : r.Exposed I store s q)
    (target : ⟨.resolved q (.ok c), s'⟩ ∈ w.past) (involved : c.Involved I) (missing : ¬ w.session.Persisted store c.hash)
    (children : ∀ k, c.Marks k → w.session.Persisted store k) {m : Moment} (recorded : m.event.recorded? = some c)
    (silent : ∀ p answer, m.event ≠ .resolved p answer)
    (aside : ∀ other h, other ≠ store ∨ h ≠ c.hash → m.session.status? other h = w.session.status? other h) :
    (w.after m).Steady I store s r := by
  have more : (w.after m).recorded = c :: w.recorded := List.filterMap_cons_some recorded
  constructor
  · rw [more]
    exact .cons current.turns (fun held => missing ((current.held _).mpr (.inl held)))
      (fun member => missing ((current.held _).mpr (.inr member))) fun k marks => (current.held k).mp (children k marks)
  · intro p answer s'' seen
    rcases List.mem_cons.mp seen with rfl | seen
    · exact absurd rfl (silent p answer)
    · exact current.entered p answer s'' seen
  · intro d member
    rw [more] at member
    rcases List.mem_cons.mp member with rfl | member
    · exact ⟨q, s', exposed, List.mem_cons_of_mem _ target⟩
    · obtain ⟨p, s'', exposed, seen⟩ := current.own d member
      exact ⟨p, s'', exposed, List.mem_cons_of_mem _ seen⟩
  · intro d member
    rw [more] at member
    rcases List.mem_cons.mp member with rfl | member
    · exact involved
    · exact current.involved d member
  · intro other h apart
    rw [more, List.map_cons, List.mem_cons, not_or, or_and_left] at apart
    exact (aside other h apart.1).trans (current.statuses other h apart.2)

end Current

end Watch

/-! ### The walk -/

namespace Watched

section Runs

variable {α β ι : Type} {E : Watch → Prop} {x : Watched α} {f : α → Watched β} {w : Watch} {P : α → Watch → Prop}
  {Q : β → Watch → Prop}

/-- `Q` is true of what a watched action comes to and of the watch that it leaves, or `E` is of the watch if it
fails. -/
def Runs (E : Watch → Prop) (x : Watched α) (w : Watch) (Q : α → Watch → Prop) : Prop :=
  (∀ e, (result x w).1 = .error e → E (result x w).2) ∧ ∀ a, (result x w).1 = .ok a → Q a (result x w).2

theorem runs_pure {a : α} (holds : P a w) : Runs E (pure a) w P :=
  ⟨fun _ failed => (by cases failed), fun _ same => by cases same; exact holds⟩

theorem Runs.congr {y : Watched α} {w' : Watch} (runs : Runs E y w' P) (same : result x w = result y w') :
    Runs E x w P := by
  rwa [Runs, same]

theorem Runs.bind (first : Runs E x w P) (second : ∀ a w', P a w' → Runs E (f a) w' Q) : Runs E (x >>= f) w Q := by
  rw [Runs, result_bind]
  obtain ⟨fails, holds⟩ := first
  cases run : result x w with
  | mk answer w' =>
    rw [run] at fails holds
    cases answer with
    | error e => exact ⟨fun _ _ => fails e rfl, fun _ same => by cases same⟩
    | ok a => exact second a w' (holds a rfl)

/-- A watched action on each of some items. `J` tells how far it has come, by the items that are left. -/
theorem runs_forM {items : List ι} {act : ι → Watched Unit} {J : List ι → Watch → Prop} (start : J items w)
    (each : ∀ i rest w', J (i :: rest) w' → Runs E (act i) w' fun _ w'' => J rest w'') :
    Runs E (items.forM act) w fun _ w' => J [] w' := by
  induction items generalizing w with
  | nil => exact runs_pure start
  | cons i rest ih => exact (each i rest w start).bind fun _ _ before => ih before

end Runs

variable {I : Set Bytes} {store : StoreId} {s : Session} {r q : Ref Cell} {w : Watch} {fuel : Nat} {c : Cell}

theorem runs_resolve (current : w.Current I store s r) (exposed : r.Exposed I store s q) :
    Runs (Watch.Steady I store s r) (resolve q) w fun c w' => w'.Current I store s r ∧ w.past ⊆ w'.past ∧
      ⟨.resolved q (.ok c), w'.session⟩ ∈ w'.past ∧ Action.result q.value w.session = (.ok c, w'.session) := by
  have after := current.resolved exposed
  refine ⟨fun _ _ => after.toSteady, fun c found => ⟨after, List.subset_cons_self _ _, ?_, Prod.ext found rfl⟩⟩
  rw [resolve, result_seen] at found ⊢
  rw [show (Action.result q.value w.session).1 = .ok c from found]
  exact List.mem_cons_self

/-- Recording a cell tells a store of that cell only. -/
theorem runs_record (current : w.Current I store s r) {s' : Session} (exposed : r.Exposed I store s q)
    (target : ⟨.resolved q (.ok c), s'⟩ ∈ w.past) (involved : c.Involved I) (missing : ¬ w.session.Persisted store c.hash)
    (children : ∀ k, c.Marks k → w.session.Persisted store k) :
    Runs (Watch.Steady I store s r) (record store c (Ref.direct c).status .persisted) w fun _ w' =>
      w'.Current I store s r ∧ w.past ⊆ w'.past ∧
        ∀ h, w'.session.Persisted store h ↔ h = c.hash ∨ w.session.Persisted store h := by
  have after : Watch.Steady I store s r (result (record store c (Ref.direct c).status .persisted) w).2 :=
    current.told exposed target involved missing children (m := ⟨.recorded c .persisted _, _⟩) rfl
      (fun _ _ seen => by cases seen) fun other h aside => Session.status?_storeRef_of_apart aside
  refine ⟨fun _ _ => after, fun a recorded => ?_⟩
  have persisted : ∀ h, (result (record store c (Ref.direct c).status .persisted) w).2.session.Persisted store h ↔
      h = c.hash ∨ w.session.Persisted store h := fun h =>
    (Session.persisted_storeRef (Prod.ext recorded rfl)).trans (by rw [and_iff_left (Status.le_refl _)])
  refine ⟨⟨after, .record .persisted involved current.onward, fun h => ?_⟩, List.subset_cons_self _ _, persisted⟩
  have more : (result (record store c (Ref.direct c).status .persisted) w).2.recorded = c :: w.recorded := rfl
  rw [persisted h, current.held h, more, List.map_cons, List.mem_cons]
  exact or_left_comm

/-- What a walk down from a hash adds: it forgets nothing that was seen, and what it persists is that hash or below. -/
structure Adds (I : Set Bytes) (store : StoreId) (top : Hash) (w w' : Watch) : Prop where
  seen : w.past ⊆ w'.past
  spread : ∀ h, w'.session.Persisted store h → w.session.Persisted store h ∨ Relation.ReflTransGen (Hash.Refers I) top h

/-- How far the children of a cell have come that was resolved when the watch was `w`, if some of them are left. -/
structure Midway (I : Set Bytes) (store : StoreId) (s : Session) (r : Ref Cell) (c : Cell) (w : Watch)
    (rest : List (Ref Cell)) (w' : Watch) : Prop where
  current : w'.Current I store s r
  seen : w.past ⊆ w'.past
  spread : ∀ h, w'.session.Persisted store h →
    w.session.Persisted store h ∨ ∃ k ∈ c.markers, Relation.ReflTransGen (Hash.Refers I) k h
  sub : rest ⊆ c.refs
  done : ∀ q ∈ c.refs, q.isEmbedded = false → q ∈ rest ∨ w'.session.Persisted store q.hash

namespace Midway

variable {w' w'' : Watch} {rest : List (Ref Cell)}

theorem start (current : w.Current I store s r) (c : Cell) : Midway I store s r c w c.refs w :=
  ⟨current, List.Subset.refl _, fun _ => .inl, List.Subset.refl _, fun _ member _ => .inl member⟩

/-- A child that is written inside the cell is left out. -/
theorem embedded (midway : Midway I store s r c w (q :: rest) w') (inlined : q.isEmbedded = true) :
    Midway I store s r c w rest w' where
  current := midway.current
  seen := midway.seen
  spread := midway.spread
  sub := (List.cons_subset.mp midway.sub).2
  done p member apart := by
    refine (midway.done p member apart).imp_left fun left => (List.mem_cons.mp left).resolve_left ?_
    rintro rfl
    rw [inlined] at apart
    cases apart

theorem persisted (midway : Midway I store s r c w (q :: rest) w') (apart : q.isEmbedded = false)
    (current : w''.Current I store s r) (adds : Adds I store q.hash w' w'')
    (persisted : w''.session.Persisted store q.hash) : Midway I store s r c w rest w'' where
  current := current
  seen := List.Subset.trans midway.seen adds.seen
  spread h now := by
    rcases adds.spread h now with before | below
    · exact midway.spread h before
    · exact .inr ⟨q.hash, Cell.mem_markers (List.cons_subset.mp midway.sub).1 apart, below⟩
  sub := (List.cons_subset.mp midway.sub).2
  done p member outside := by
    rcases midway.done p member outside with left | before
    · rcases List.mem_cons.mp left with rfl | left
      · exact .inr persisted
      · exact .inl left
    · exact .inr (midway.current.stays current adds.seen before)

/-- Once no child is left, all that the cell refers to is persisted. -/
theorem children (midway : Midway I store s r c w [] w') {k : Hash} (marks : c.Marks k) :
    w'.session.Persisted store k := by
  obtain ⟨q, member, apart, rfl⟩ := marks.exists_apart
  exact (midway.done q member apart).resolve_left List.not_mem_nil

end Midway

theorem runs_children (current : w.Current I store s r)
    (each : ∀ q ∈ c.refs, q.isEmbedded = false → ∀ w', w'.Current I store s r →
      Runs (Watch.Steady I store s r) (persistWithin store fuel q) w' fun _ w'' =>
        w''.Current I store s r ∧ Adds I store q.hash w' w'' ∧ w''.session.Persisted store q.hash) :
    Runs (Watch.Steady I store s r) (c.refs.forM fun child => do
      if !child.isEmbedded then
        let _ ← persistWithin store fuel child) w fun _ w' => Midway I store s r c w [] w' := by
  refine runs_forM (J := Midway I store s r c w) (.start current c) fun q rest w' midway => ?_
  cases apart : q.isEmbedded with
  | true => exact runs_pure (midway.embedded apart)
  | false =>
    have walk := each q (midway.sub List.mem_cons_self) apart w' midway.current
    exact walk.bind fun _ w'' ⟨current, adds, persisted⟩ => runs_pure (midway.persisted apart current adds persisted)

/-- A walk down from an exposed reference records the target last, when all below it is persisted; and it has not come
to the target on its way down. -/
theorem runs_persistWithin (current : w.Current I store s r) (plain : q.Plain I store s)
    (exposed : ¬ s.Persisted store q.hash → r.Exposed I store s q) :
    Runs (Watch.Steady I store s r) (persistWithin store fuel q) w fun _ w' =>
      w'.Current I store s r ∧ Adds I store q.hash w w' ∧ w'.session.Persisted store q.hash := by
  induction fuel generalizing q w with
  | zero => exact ⟨fun _ _ => current.toSteady, fun _ failed => by cases failed⟩
  | succ fuel ih =>
    have doubted := plain.doubted q (.self q)
    have asked := current.asked q.hash
    by_cases missing : w.session.Persisted store q.hash
    · obtain ⟨held, found, reaches⟩ := missing
      have adds : Adds I store q.hash w (askedFor store q.hash w) := ⟨List.subset_cons_self _ _, fun _ => .inl⟩
      rw [Runs, persistWithin_of_held doubted found (decide_eq_true reaches)]
      exact ⟨fun _ failed => (by cases failed), fun _ _ => ⟨asked, adds, held, found, reaches⟩⟩
    refine .congr ?_ (persistWithin_of_missing doubted missing)
    have entered : r.Exposed I store s q := exposed fun before => missing ((current.held _).mpr (.inl before))
    refine (runs_resolve asked entered).bind fun c w₁ ⟨current₁, seen₁, seen, target⟩ => ?_
    obtain ⟨involved, named⟩ := plain.target asked.onward target
    have refers : ∀ k ∈ c.markers, q.hash.Refers I k := fun k => plain.refers asked.onward target
    have later : w.session.Later w₁.session := by
      have later := q.later_value (askedFor store q.hash w).session
      rwa [target] at later
    have children := runs_children (c := c) current₁ fun p member apart w' current' =>
      ih current' (plain.child asked.onward target member apart) fun new =>
        .child entered asked.onward target member apart new
    refine children.bind fun _ w₂ midway => ?_
    have still : ¬ w₂.session.Persisted store c.hash := by
      rw [named]
      intro persisted
      rcases midway.spread q.hash persisted with before | ⟨k, member, below⟩
      · exact missing (later.persisted.mp before)
      · exact plain.not_below (refers k member) below
    have recorded := runs_record midway.current entered (midway.seen seen) involved still fun k => midway.children
    refine ⟨recorded.1, fun a run => ?_⟩
    obtain ⟨current₃, seen₃, persisted⟩ := recorded.2 a run
    refine ⟨current₃, ⟨?_, fun h now => ?_⟩, (persisted _).mpr (.inl named.symm)⟩
    · exact List.Subset.trans (List.subset_cons_self _ _) (List.Subset.trans seen₁ (List.Subset.trans midway.seen seen₃))
    · rcases (persisted h).mp now with rfl | now
      · exact .inr (named ▸ .refl)
      · rcases midway.spread h now with before | ⟨k, member, below⟩
        · exact .inl (later.persisted.mp before)
        · exact .inr (.head (refers k member) below)

end Watched

/-! ### A call -/

/-- All that is seen of a call that persists a reference. -/
def Watch.persisting (store : StoreId) (s : Session) (r : Ref Cell) : Watch :=
  (⟨s, []⟩ : Watch).called (persist store r) (Watched.persist store r)

/-- A call that persists `r` in a store of `s` wrote nothing that it need not write, and looked at nothing that it need
not look at. -/
structure Watch.Thrifty (I : Set Bytes) (store : StoreId) (s : Session) (r : Ref Cell) (w : Watch) : Prop where
  /-- No hash is recorded twice. -/
  once : (w.recorded.map Cell.hash).Nodup
  /-- Whatever an encoding refers to was persisted beforehand or is recorded earlier. -/
  ordered : ∀ later c earlier, w.recorded = later ++ c :: earlier → ∀ k, c.Marks k →
    s.Persisted store k ∨ k ∈ earlier.map Cell.hash
  missing : ∀ c ∈ w.recorded, ¬ s.Persisted store c.hash
  /-- Nothing is resolved but what can be come to without passing through a hash that was persisted beforehand. -/
  entered : ∀ q answer s', ⟨.resolved q answer, s'⟩ ∈ w.past → r.Exposed I store s q
  /-- What is recorded is the target of the reference, or of a child that is not written inside its parent. -/
  own : ∀ c ∈ w.recorded, ∃ q s', r.Exposed I store s q ∧ ⟨.resolved q (.ok c), s'⟩ ∈ w.past
  statuses : ∀ other h, other ≠ store ∨ h ∉ w.recorded.map Cell.hash →
    w.session.status? other h = s.status? other h

/-- Nothing is left to be written. -/
structure Watch.Complete (I : Set Bytes) (store : StoreId) (s : Session) (r : Ref Cell) (w : Watch) : Prop where
  every : ∀ q, r.Exposed I store s q → q.hash ∈ w.recorded.map Cell.hash
  held : ∀ h, w.session.Persisted store h ↔ s.Persisted store h ∨ h ∈ w.recorded.map Cell.hash

section Call

variable {I : Set Bytes} {store : StoreId} {s : Session} {r : Ref Cell} {w : Watch}

theorem Watch.Steady.thrifty (steady : w.Steady I store s r) : w.Thrifty I store s r where
  once := steady.turns.nodup
  ordered _ _ _ split _ := steady.turns.children_of_eq split
  missing _ := steady.turns.missing_of_mem
  entered := steady.entered
  own := steady.own
  statuses := steady.statuses

/-- If the target is persisted, so is all that a walk can come to: what a recorded cell refers to is what any cell of
its hash refers to. -/
theorem Watch.Current.complete (injective : Set.InjOn Hash.digest I) (current : w.Current I store s r)
    (plain : r.Plain I store s) (persisted : w.session.Persisted store r.hash) : w.Complete I store s r where
  every q exposed := by
    induction exposed with
    | self missing => exact ((current.held _).mp persisted).resolve_left missing
    | child exposed onward target member apart missing ih =>
      obtain ⟨d, recorded, same⟩ := List.mem_map.mp ih
      have refers := (plain.exposed exposed).refers onward target (Cell.mem_markers member apart)
      have marks := Cell.marks_iff.mpr ((same ▸ refers).markers injective (current.involved d recorded))
      exact (current.turns.children_of_mem recorded marks).resolve_left missing
  held := current.held

/-- A call that persists a reference is steady all the way, and if it succeeds the target is persisted. -/
theorem Ref.Plain.steady_persisting (plain : r.Plain I store s) : (Watch.persisting store s r).Steady I store s r ∧
    ∀ r', (result (persist store r) s).1 = .ok r' → (Watch.persisting store s r).Current I store s r ∧
      (Watch.persisting store s r).session.Persisted store r.hash := by
  have runs : Watched.Runs (Watch.Steady I store s r) (Watched.persist store r) ⟨s, []⟩ fun _ w =>
      w.Current I store s r ∧ Watched.Adds I store r.hash ⟨s, []⟩ w ∧ w.session.Persisted store r.hash := by
    simp only [Watched.Runs, Watched.persist, Watched.result_bind, Watched.result_get]
    exact Watched.runs_persistWithin (.start s r) plain .self
  have same := Watched.tells_persist store r ⟨s, []⟩
  rw [Watch.persisting, Watch.called_eq (Watched.tells_persist store r), ← same]
  obtain ⟨fails, holds⟩ := runs
  cases answer : (Watched.result (Watched.persist store r) ⟨s, []⟩).1 with
  | error e => exact ⟨fails e answer, fun _ run => by cases run⟩
  | ok a =>
    obtain ⟨current, -, persisted⟩ := holds a answer
    exact ⟨current.toSteady, fun _ _ => ⟨current, persisted⟩⟩

end Call

end MerkleCells
