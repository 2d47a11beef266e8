import MerkleCells.Proofs.Persisting

/-!
Calls on a store, watched. A watched call does what the call does (`tells_storeRef`, `tells_persist`) and takes a note
of every step: what it was and what session it left (`Moment`). So what is true at every point inside a call can be
said of its moments. Each moment comes from the session before it by the one step that it tells of (`Watch.Leads`).
-/
namespace MerkleCells

/-- A step that a call on a store takes, with what came of it. -/
inductive Event where
  /-- The store was asked for the status of a hash. -/
  | asked (h : Hash) (answer : Except Error (Option Status))
  /-- A reference was believed to be persisted, because it says so. -/
  | trusted (r : Ref Cell)
  | resolved (r : Ref Cell) (answer : Except Error Cell)
  /-- A cell was to be recorded with at least a status. -/
  | recorded (cell : Cell) (status : Status) (answer : Except Error (Ref Cell))

/-- A step and the session that it left. -/
structure Moment where
  event : Event
  session : Session

/-- A session, and all that was seen before, the latest first. -/
structure Watch where
  session : Session
  past : List Moment

/-- An action whose steps are seen. -/
abbrev Watched (α : Type) := ExceptT Error (StateM Watch) α

namespace Watched

variable {α β : Type}

/-- The answer of a watched action, and the session that it leaves with all that was seen. -/
def result (x : Watched α) (w : Watch) : Except Error α × Watch := Id.run ((ExceptT.run x).run w)

/-- An action that is seen as one step. -/
def seen (event : Except Error α → Event) (x : Action α) : Watched α :=
  ExceptT.mk (StateT.mk fun w =>
    let (answer, s) := Action.result x w.session
    (answer, ⟨s, ⟨event answer, s⟩ :: w.past⟩))

/-- Believes a reference that says it is persisted. -/
def trust (r : Ref Cell) : Watched (Ref Cell) := seen (fun _ => .trusted r) (pure r)

def resolve (r : Ref Cell) : Watched Cell := seen (.resolved r) r.value

def statusOf (store : StoreId) (h : Hash) : Watched (Option Status) := seen (.asked h) (MerkleCells.statusOf store h)

/-- Records a cell that came from a reference of status `own`. -/
def record (store : StoreId) (cell : Cell) (own status : Status) : Watched (Ref Cell) :=
  seen (.recorded cell status) (MerkleCells.storeRef store ⟨own, .direct cell⟩ status)

def storeRef (store : StoreId) (r : Ref Cell) (status : Status) : Watched (Ref Cell) := do
  let cell ← resolve r
  record store cell r.status status

def storeCell (store : StoreId) (cell : Cell) : Watched (Ref Cell) := storeRef store (Ref.direct cell) .stored

def persistWithin (store : StoreId) : (fuel : Nat) → Ref Cell → Watched (Ref Cell)
  | 0, _ => throw .endless
  | fuel + 1, r => do
    if r.status.reaches .persisted then return ← trust r
    match ← statusOf store r.hash with
    | some held => if held.reaches .persisted then return r.withStatus held
    | none => pure ()
    let cell ← resolve r
    cell.refs.forM fun child => do
      if !child.isEmbedded then
        let _ ← persistWithin store fuel child
    record store cell (Ref.direct cell).status .persisted

def persist (store : StoreId) (r : Ref Cell) : Watched (Ref Cell) := do
  persistWithin store (r.height + (← get).session.depth + 1) r

/-! ### Results -/

@[simp]
theorem result_pure (a : α) (w : Watch) : result (pure a) w = (.ok a, w) := rfl

@[simp]
theorem result_throw (e : Error) (w : Watch) : result (throw e : Watched α) w = (.error e, w) := rfl

@[simp]
theorem result_get (w : Watch) : result (get : Watched Watch) w = (.ok w, w) := rfl

theorem result_bind (x : Watched α) (f : α → Watched β) (w : Watch) :
    result (x >>= f) w = match result x w with
      | (.ok a, w') => result (f a) w'
      | (.error e, w') => (.error e, w') := by
  show Id.run ((ExceptT.run (x >>= f)).run w) = _
  simp only [ExceptT.run_bind, StateT.run_bind, result]
  generalize (ExceptT.run x).run w = answer
  obtain ⟨_ | a, w'⟩ := answer <;> rfl

theorem result_seen (event : Except Error α → Event) (x : Action α) (w : Watch) :
    result (seen event x) w = ((Action.result x w.session).1,
      ⟨(Action.result x w.session).2,
        ⟨event (Action.result x w.session).1, (Action.result x w.session).2⟩ :: w.past⟩) :=
  rfl

/-! ### Watching changes nothing -/

/-- A watched action has the answer of an action and leaves the session that it leaves. -/
def Tells (x : Watched α) (y : Action α) : Prop :=
  ∀ w, ((result x w).1, (result x w).2.session) = Action.result y w.session

theorem tells_pure (a : α) : Tells (pure a) (pure a) := fun _ => rfl

theorem tells_seen (event : Except Error α → Event) (x : Action α) : Tells (seen event x) x := fun _ => rfl

theorem Tells.bind {x : Watched α} {y : Action α} {f : α → Watched β} {g : α → Action β} (first : Tells x y)
    (second : ∀ a, Tells (f a) (g a)) : Tells (x >>= f) (y >>= g) := by
  intro w
  have same := first w
  rw [result_bind, Action.result_bind, ← same]
  generalize result x w = answer
  obtain ⟨_ | a, w'⟩ := answer
  · rfl
  · exact second a w'

theorem tells_forM {ι : Type} {items : List ι} {f : ι → Watched Unit} {g : ι → Action Unit}
    (each : ∀ i, Tells (f i) (g i)) : Tells (items.forM f) (items.forM g) := by
  induction items with
  | nil => exact tells_pure ()
  | cons i rest ih => exact (each i).bind fun _ => ih

theorem tells_storeRef (store : StoreId) (r : Ref Cell) (status : Status) :
    Tells (storeRef store r status) (MerkleCells.storeRef store r status) :=
  (tells_seen _ _).bind fun _ => tells_seen _ _

theorem tells_storeCell (store : StoreId) (c : Cell) : Tells (storeCell store c) (MerkleCells.storeCell store c) :=
  tells_storeRef store (Ref.direct c) .stored

theorem tells_persistWithin (store : StoreId) (fuel : Nat) (r : Ref Cell) :
    Tells (persistWithin store fuel r) (MerkleCells.persistWithin store fuel r) := by
  induction fuel generalizing r with
  | zero => exact fun _ => rfl
  | succ fuel ih =>
    have walk : Tells (do
        let cell ← resolve r
        cell.refs.forM fun child => do
          if !child.isEmbedded then
            let _ ← persistWithin store fuel child
        record store cell (Ref.direct cell).status .persisted) (do
        let cell ← r.value
        cell.refs.forM fun child => do
          if !child.isEmbedded then
            let _ ← MerkleCells.persistWithin store fuel child
        MerkleCells.storeRef store (Ref.direct cell) .persisted) := by
      refine (tells_seen _ _).bind fun cell => .bind (tells_forM fun child => ?_) fun _ => tells_seen _ _
      cases child.isEmbedded with
      | true => exact tells_pure ()
      | false => exact (ih child).bind fun _ => tells_pure ()
    rw [persistWithin, MerkleCells.persistWithin]
    by_cases claims : r.status.reaches .persisted
    · rw [if_pos claims, if_pos claims]
      exact fun _ => rfl
    · rw [if_neg claims, if_neg claims]
      refine (tells_seen _ _).bind fun held => ?_
      cases held with
      | none => exact walk
      | some held =>
        by_cases reaches : held.reaches .persisted
        · simp only [if_pos reaches]
          exact tells_pure _
        · simp only [if_neg reaches]
          exact walk

theorem tells_persist (store : StoreId) (r : Ref Cell) : Tells (persist store r) (MerkleCells.persist store r) := by
  intro w
  simp only [persist, MerkleCells.persist, result_bind, result_get, Action.result_bind, Action.result_get]
  exact tells_persistWithin store _ r w

/-! ### What is true of the watch that is left -/

/-- Whatever a watched action comes to, `R` leads to the watch that it leaves, and `Q` is true if it succeeds. -/
def Keeps (R : Watch → Watch → Prop) (x : Watched α) (w : Watch) (Q : α → Watch → Prop) : Prop :=
  R w (result x w).2 ∧ ∀ a, (result x w).1 = .ok a → Q a (result x w).2

section Keeps

variable {R : Watch → Watch → Prop} {x : Watched α} {f : α → Watched β} {w : Watch} {P : α → Watch → Prop}
  {Q : β → Watch → Prop}

theorem Keeps.mono {Q : α → Watch → Prop} (keeps : Keeps R x w P) (sub : ∀ a w', R w w' → P a w' → Q a w') :
    Keeps R x w Q :=
  ⟨keeps.1, fun a run => sub a _ keeps.1 (keeps.2 a run)⟩

theorem Keeps.bind (trans : ∀ {a b c}, R a b → R b c → R a c) (first : Keeps R x w P)
    (second : ∀ a w', R w w' → P a w' → Keeps R (f a) w' Q) : Keeps R (x >>= f) w Q := by
  obtain ⟨related, holds⟩ := first
  rw [Keeps, result_bind]
  cases run : result x w with
  | mk answer w' =>
    rw [run] at related holds
    cases answer with
    | error e => exact ⟨related, fun b failed => by cases failed⟩
    | ok a =>
      obtain ⟨related', holds'⟩ := second a w' related (holds a rfl)
      exact ⟨trans related related', holds'⟩

/-- A watched action on each of some items, if what was true of an item stays true while the others are seen to. -/
theorem keeps_forM {ι : Type} {items : List ι} {act : ι → Watched Unit} {P : ι → Watch → Prop} (refl : ∀ a, R a a)
    (trans : ∀ {a b c}, R a b → R b c → R a c) (stays : ∀ i {w' w''}, R w' w'' → P i w' → P i w'')
    (each : ∀ i ∈ items, ∀ w', R w w' → Keeps R (act i) w' fun _ w'' => P i w'') :
    Keeps R (items.forM act) w fun _ w' => ∀ i ∈ items, P i w' := by
  induction items generalizing w with
  | nil => exact ⟨refl w, fun _ _ i member => by cases member⟩
  | cons i rest ih =>
    show Keeps R (act i >>= fun _ => rest.forM act) w _
    refine (each i List.mem_cons_self w (refl w)).bind trans fun _ w' related done => ?_
    have others := ih fun j member w'' related' =>
      each j (List.mem_cons_of_mem _ member) w'' (trans related related')
    refine others.mono fun _ w'' related' all j member => ?_
    rcases List.mem_cons.mp member with rfl | member
    · exact stays j related' done
    · exact all j member

end Keeps

end Watched

/-! ### What the moments tell -/

/-- The steps that can come next in a session, each with the session that it leaves. -/
inductive Moment.Follows (store : StoreId) (s : Session) : Moment → Prop
  | asked (h : Hash) : Follows store s ⟨.asked h (.ok (s.status? store h)), s⟩
  | trusted {r : Ref Cell} (claims : r.status.reaches .persisted) : Follows store s ⟨.trusted r, s⟩
  | resolved (r : Ref Cell) :
      Follows store s ⟨.resolved r (Action.result r.value s).1, (Action.result r.value s).2⟩
  | recorded (cell : Cell) (own status : Status) :
      Follows store s ⟨.recorded cell status (Action.result (storeRef store ⟨own, .direct cell⟩ status) s).1,
        (Action.result (storeRef store ⟨own, .direct cell⟩ status) s).2⟩

namespace Watch

variable {store : StoreId} {w w' w'' : Watch}

/-- What is left of a watch when a call was made and watched. -/
def called {α : Type} (w : Watch) (call : Action α) (watched : Watched α) : Watch :=
  ⟨(Action.result call w.session).2, (Watched.result watched w).2.past⟩

theorem called_eq {α : Type} {call : Action α} {watched : Watched α} (tells : Watched.Tells watched call) (w : Watch) :
    w.called call watched = (Watched.result watched w).2 := by
  rw [called, ← tells w]

/-- The watch after one more moment. -/
def after (w : Watch) (m : Moment) : Watch := ⟨m.session, m :: w.past⟩

/-- A watch that comes from another one by steps on a store, each of which was seen. -/
inductive Leads (store : StoreId) (w : Watch) : Watch → Prop
  | refl : Leads store w w
  | step {w' : Watch} {m : Moment} (leads : Leads store w w') (follows : m.Follows store w'.session) :
      Leads store w (w'.after m)

theorem Leads.trans (first : w.Leads store w') (second : w'.Leads store w'') : w.Leads store w'' := by
  induction second with
  | refl => exact first
  | step _ follows ih => exact ih.step follows

theorem Leads.single {m : Moment} (follows : m.Follows store w.session) : w.Leads store (w.after m) :=
  .step .refl follows

/-- What was seen before is not forgotten. -/
theorem Leads.past_subset (leads : w.Leads store w') : w.past ⊆ w'.past := by
  induction leads with
  | refl => exact List.Subset.refl _
  | step _ _ ih => exact fun m member => List.mem_cons_of_mem _ (ih member)

end Watch

namespace Watched

variable {store : StoreId} {w : Watch}

theorem leads_resolve (r : Ref Cell) : w.Leads store (result (resolve r) w).2 := .single (.resolved r)

theorem leads_record (cell : Cell) (own status : Status) : w.Leads store (result (record store cell own status) w).2 :=
  .single (.recorded cell own status)

theorem leads_storeRef (store : StoreId) (w : Watch) (r : Ref Cell) (status : Status) :
    w.Leads store (result (storeRef store r status) w).2 := by
  rw [storeRef, result_bind]
  have resolved : w.Leads store (result (resolve r) w).2 := leads_resolve r
  cases run : result (resolve r) w with
  | mk answer w' =>
    rw [run] at resolved
    cases answer with
    | error e => exact resolved
    | ok cell => exact resolved.trans (leads_record cell r.status status)

/-! ### Walks -/

section Walk

variable {r : Ref Cell} {fuel : Nat}

/-- The watch after a store was asked for a hash. -/
def askedFor (store : StoreId) (h : Hash) (w : Watch) : Watch :=
  w.after ⟨.asked h (.ok (w.session.status? store h)), w.session⟩

theorem result_statusOf (h : Hash) :
    result (statusOf store h) w = (.ok (w.session.status? store h), askedFor store h w) := by
  rw [statusOf, result_seen, Session.result_statusOf]
  rfl

theorem persistWithin_of_reaches (claims : r.status.reaches .persisted) :
    result (persistWithin store (fuel + 1) r) w = (.ok r, w.after ⟨.trusted r, w.session⟩) := by
  rw [persistWithin, if_pos claims]
  rfl

theorem persistWithin_of_held (claims : ¬ r.status.reaches .persisted) {held : Status}
    (found : w.session.status? store r.hash = some held) (reaches : held.reaches .persisted) :
    result (persistWithin store (fuel + 1) r) w = (.ok (r.withStatus held), askedFor store r.hash w) := by
  rw [persistWithin, if_neg claims]
  simp only [result_bind, result_statusOf, found, if_pos reaches, result_pure]

theorem persistWithin_of_missing (claims : ¬ r.status.reaches .persisted)
    (missing : ¬ w.session.Persisted store r.hash) :
    result (persistWithin store (fuel + 1) r) w = result (do
      let cell ← resolve r
      cell.refs.forM fun child => do
        if !child.isEmbedded then
          let _ ← persistWithin store fuel child
      record store cell (Ref.direct cell).status .persisted) (askedFor store r.hash w) := by
  rw [persistWithin, if_neg claims, result_bind, result_statusOf]
  cases found : w.session.status? store r.hash with
  | none => rfl
  | some held =>
    have low : ¬ held.reaches .persisted := fun reaches => missing ⟨held, found, of_decide_eq_true reaches⟩
    simp only [if_neg low]

end Walk

end Watched

end MerkleCells
