import MerkleCells.Session

/-!
What actions come to. `Action.result` is the answer of an action and the session that it leaves,
`Action.Yields` says that an action succeeds and what is true of its value and of the session left, and
`Action.Keeps` what is true of the session left whether it succeeds or not. `Action.Runs` also says what is true of
the error if an action fails, as `Ends` does of a computation.
Resolving references does nothing to a session but load (`Session.Later`), and a reference
`Resolves` in a session if it leads to the cell it names there and however much is loaded later.
-/
namespace MerkleCells

section Ends

variable {α β : Type} {F : Error → Prop} {P : α → Prop} {Q : β → Prop} {x : Except Error α} {f : α → Except Error β}

/-- A computation ends with a value of which `Q` is true, or with an error of which `F` is. -/
def Ends (F : Error → Prop) (Q : α → Prop) : Except Error α → Prop
  | .ok a => Q a
  | .error e => F e

theorem Ends.mono {F' : Error → Prop} {P' : α → Prop} (ends : Ends F P x) (errors : ∀ e, F e → F' e)
    (values : ∀ a, P a → P' a) : Ends F' P' x := by
  cases x with
  | error e => exact errors e ends
  | ok a => exact values a ends

theorem Ends.bind (first : Ends F P x) (second : ∀ a, P a → Ends F Q (f a)) : Ends F Q (x >>= f) := by
  cases x with
  | error e => exact first
  | ok a => exact second a first

end Ends

namespace Action

variable {α β : Type}

/-- The answer of an action and the session that it leaves. -/
def result (x : Action α) (s : Session) : Except Error α × Session := Id.run ((ExceptT.run x).run s)

@[simp]
theorem result_pure (a : α) (s : Session) : result (pure a) s = (.ok a, s) := rfl

@[simp]
theorem result_throw (e : Error) (s : Session) : result (throw e : Action α) s = (.error e, s) := rfl

theorem result_bind (x : Action α) (f : α → Action β) (s : Session) :
    result (x >>= f) s = match result x s with
      | (.ok a, s') => result (f a) s'
      | (.error e, s') => (.error e, s') := by
  show Id.run ((ExceptT.run (x >>= f)).run s) = _
  simp only [ExceptT.run_bind, StateT.run_bind, result]
  generalize (ExceptT.run x).run s = answer
  obtain ⟨_ | a, s'⟩ := answer <;> rfl

@[simp]
theorem result_liftExcept (e : Except Error α) (s : Session) :
    result (liftM e : Action α) s = (e, s) := rfl

@[simp]
theorem result_get (s : Session) : result (get : Action Session) s = (.ok s, s) := rfl

@[simp]
theorem result_ofStep (step : Session → Except Error α × Session) (s : Session) :
    result (ofStep step) s = step s := rfl

/-- An action returns, with a value or an error: no walk that it makes goes on without an end. -/
def Returns (x : Action α) (s : Session) : Prop := (result x s).1 ≠ .error .endless

/-- An action succeeds, with a value and a session of which `Q` is true. -/
def Yields (x : Action α) (s : Session) (Q : α → Session → Prop) : Prop :=
  ∃ a s', result x s = (.ok a, s') ∧ Q a s'

variable {x : Action α} {f : α → Action β} {s : Session}

theorem yields_pure {a : α} {Q : α → Session → Prop} : Yields (pure a) s Q ↔ Q a s := by
  constructor
  · rintro ⟨a', s', run, holds⟩
    cases run
    exact holds
  · intro holds
    exact ⟨a, s, rfl, holds⟩

theorem yields_bind {Q : β → Session → Prop} :
    Yields (x >>= f) s Q ↔ Yields x s fun a s' => Yields (f a) s' Q := by
  unfold Yields
  rw [result_bind]
  constructor
  · rintro ⟨b, s'', run, holds⟩
    generalize result x s = answer at run
    obtain ⟨_ | a, s'⟩ := answer
    · cases run
    · exact ⟨a, s', rfl, b, s'', run, holds⟩
  · rintro ⟨a, s', first, b, s'', run, holds⟩
    rw [first]
    exact ⟨b, s'', run, holds⟩

theorem yields_liftExcept {e : Except Error α} {Q : α → Session → Prop} :
    Yields (liftM e) s Q ↔ ∃ a, e = .ok a ∧ Q a s := by
  constructor
  · rintro ⟨a, s', run, holds⟩
    cases run
    exact ⟨a, rfl, holds⟩
  · rintro ⟨a, rfl, holds⟩
    exact ⟨a, s, rfl, holds⟩

theorem Yields.mono {P Q : α → Session → Prop} (yields : Yields x s P) (sub : ∀ a s', P a s' → Q a s') :
    Yields x s Q := by
  obtain ⟨a, s', run, holds⟩ := yields
  exact ⟨a, s', run, sub a s' holds⟩

theorem Yields.bind {P : α → Session → Prop} {Q : β → Session → Prop} (first : Yields x s P)
    (second : ∀ a s', P a s' → Yields (f a) s' Q) : Yields (x >>= f) s Q :=
  yields_bind.mpr (first.mono second)

theorem Yields.lift_bind {e : Except Error α} {a : α} {Q : β → Session → Prop} (given : e = .ok a)
    (rest : Yields (f a) s Q) : Yields (liftM e >>= f) s Q :=
  yields_bind.mpr (yields_liftExcept.mpr ⟨a, given, rest⟩)

theorem Yields.of_result {Q : α → Session → Prop} (yields : Yields x s Q) {a : α} {s' : Session}
    (run : result x s = (.ok a, s')) : Q a s' := by
  obtain ⟨b, s'', run', holds⟩ := yields
  rw [run] at run'
  cases run'
  exact holds

/-- Whatever an action comes to, `R` leads to the session that it leaves, and `Q` is true if it succeeds. -/
def Keeps (R : Session → Session → Prop) (x : Action α) (s : Session) (Q : α → Session → Prop) : Prop :=
  R s (result x s).2 ∧ ∀ a, (result x s).1 = .ok a → Q a (result x s).2

section Keeps

variable {R : Session → Session → Prop} {P : α → Session → Prop} {Q : β → Session → Prop}

theorem Keeps.mono {Q : α → Session → Prop} (keeps : Keeps R x s P) (sub : ∀ a s', R s s' → P a s' → Q a s') :
    Keeps R x s Q :=
  ⟨keeps.1, fun a run => sub a _ keeps.1 (keeps.2 a run)⟩

theorem Keeps.congr {y : Action α} (same : result x s = result y s) (keeps : Keeps R y s P) : Keeps R x s P := by
  rwa [Keeps, same]

theorem Keeps.bind (trans : ∀ {a b c}, R a b → R b c → R a c) (first : Keeps R x s P)
    (second : ∀ a s', result x s = (.ok a, s') → R s s' → P a s' → Keeps R (f a) s' Q) : Keeps R (x >>= f) s Q := by
  obtain ⟨related, holds⟩ := first
  rw [Keeps, result_bind]
  cases run : result x s with
  | mk answer s' =>
    rw [run] at related holds
    cases answer with
    | error e => exact ⟨related, fun b failed => by cases failed⟩
    | ok a =>
      obtain ⟨related', holds'⟩ := second a s' run related (holds a rfl)
      exact ⟨trans related related', holds'⟩

/-- An action on each of some items, if what was true of an item stays true while the others are seen to. -/
theorem keeps_forM {ι : Type} {items : List ι} {act : ι → Action Unit} {P : ι → Session → Prop}
    (refl : ∀ a, R a a) (trans : ∀ {a b c}, R a b → R b c → R a c)
    (stays : ∀ i {s' s''}, R s' s'' → P i s' → P i s'')
    (each : ∀ i ∈ items, ∀ s', R s s' → Keeps R (act i) s' fun _ s'' => P i s'') :
    Keeps R (items.forM act) s fun _ s' => ∀ i ∈ items, P i s' := by
  induction items generalizing s with
  | nil => exact ⟨refl s, fun _ _ i member => by cases member⟩
  | cons i rest ih =>
    show Keeps R (act i >>= fun _ => rest.forM act) s _
    refine (each i (by simp) s (refl s)).bind trans fun _ s' _ related done => ?_
    have others := ih fun j member s'' related' => each j (by simp [member]) s'' (trans related related')
    refine others.mono fun _ s'' related' all j member => ?_
    rcases List.mem_cons.mp member with rfl | member
    · exact stays j related' done
    · exact all j member

end Keeps

/-- `R` leads to the session that an action leaves. `Q` is true of the value that it comes to and of that session, or `F`
is of the error that it fails by. -/
def Runs (R : Session → Session → Prop) (F : Error → Prop) (x : Action α) (s : Session) (Q : α → Session → Prop) : Prop :=
  R s (result x s).2 ∧ Ends F (fun a => Q a (result x s).2) (result x s).1

section Runs

variable {R : Session → Session → Prop} {F : Error → Prop} {P : α → Session → Prop} {Q : β → Session → Prop}

theorem Runs.mono {F' : Error → Prop} {P' : α → Session → Prop} (runs : Runs R F x s P) (errors : ∀ e, F e → F' e)
    (values : ∀ a s', P a s' → P' a s') : Runs R F' x s P' :=
  ⟨runs.1, runs.2.mono errors fun a => values a _⟩

theorem Runs.congr {y : Action α} (runs : Runs R F y s P) (same : result x s = result y s) : Runs R F x s P := by
  rwa [Runs, same]

theorem Keeps.runs (keeps : Keeps R x s P) : Runs R (fun _ => True) x s P := by
  refine ⟨keeps.1, ?_⟩
  cases run : (result x s).1 with
  | error e => exact trivial
  | ok a => exact keeps.2 a run

theorem Runs.keeps (runs : Runs R F x s P) : Keeps R x s P := by
  refine ⟨runs.1, fun a run => ?_⟩
  have ends := runs.2
  rwa [run] at ends

theorem runs_pure (refl : ∀ s, R s s) {a : α} (holds : P a s) : Runs R F (pure a) s P := ⟨refl s, holds⟩

theorem runs_throw (refl : ∀ s, R s s) {e : Error} (error : F e) : Runs R F (throw e) s P := ⟨refl s, error⟩

theorem runs_lift (refl : ∀ s, R s s) {e : Except Error α} (ends : Ends F (fun a => P a s) e) :
    Runs R F (liftM e) s P :=
  ⟨refl s, ends⟩

theorem Runs.bind (trans : ∀ {a b c}, R a b → R b c → R a c) (first : Runs R F x s P)
    (second : ∀ a s', result x s = (.ok a, s') → R s s' → P a s' → Runs R F (f a) s' Q) : Runs R F (x >>= f) s Q := by
  obtain ⟨related, ends⟩ := first
  rw [Runs, result_bind]
  cases run : result x s with
  | mk answer s' =>
    rw [run] at related ends
    cases answer with
    | error e => exact ⟨related, ends⟩
    | ok a =>
      obtain ⟨related', ends'⟩ := second a s' run related ends
      exact ⟨trans related related', ends'⟩

/-- What each step on some items keeps, with the items that are done, is kept by all of them. -/
theorem runs_foldlM {ι : Type} {items : List ι} {step : α → ι → Action α} {I : List ι → α → Session → Prop} {a : α}
    (refl : ∀ s, R s s) (trans : ∀ {a b c}, R a b → R b c → R a c) (start : I [] a s)
    (next : ∀ done i rest, done ++ i :: rest = items → ∀ a s', R s s' → I done a s' →
      Runs R F (step a i) s' (I (done ++ [i]))) : Runs R F (items.foldlM step a) s (I items) := by
  have all : ∀ rest done a s', done ++ rest = items → R s s' → I done a s' →
      Runs R F (rest.foldlM step a) s' (I items) := by
    intro rest
    induction rest with
    | nil =>
      intro done a s' split _ holds
      rw [List.append_nil] at split
      exact runs_pure refl (split ▸ holds)
    | cons i rest ih =>
      intro done a s' split related holds
      rw [List.foldlM_cons]
      refine (next done i rest split a s' related holds).bind trans fun a' s'' _ related' holds' => ?_
      have split' : (done ++ [i]) ++ rest = items := by rw [List.append_assoc, List.singleton_append, split]
      exact ih (done ++ [i]) a' s'' split' (trans related related') holds'
  exact all items [] a s rfl (refl s) start

theorem runs_forM {ι : Type} {items : List ι} {act : ι → Action Unit} (refl : ∀ s, R s s)
    (trans : ∀ {a b c}, R a b → R b c → R a c)
    (each : ∀ i ∈ items, ∀ s', R s s' → Runs R F (act i) s' fun _ _ => True) :
    Runs R F (items.forM act) s fun _ _ => True := by
  induction items generalizing s with
  | nil => exact runs_pure refl trivial
  | cons i rest ih =>
    refine (each i List.mem_cons_self s (refl s)).bind trans fun _ s' _ related _ => ?_
    exact ih fun j member s'' related' => each j (List.mem_cons_of_mem i member) s'' (trans related related')

end Runs

end Action

namespace Session

/-- A session that is left when nothing has happened but loading. -/
inductive Later : Session → Session → Prop
  | refl (s : Session) : Later s s
  | load {s s' : Session} (loader : LoaderId) (h : Hash) : Later s s' → Later s (s'.load loader h).2

theorem Later.trans {a b c : Session} (first : a.Later b) (second : b.Later c) : a.Later c := by
  induction second with
  | refl => exact first
  | load loader h _ ih => exact .load loader h ih

theorem later_load (s : Session) (loader : LoaderId) (h : Hash) : s.Later (s.load loader h).2 :=
  .load loader h (.refl s)

theorem load_of_cached {s : Session} {loader : LoaderId} {h : Hash} {c : Cell} (cached : s.cached? loader h = some c) :
    ∃ s', s.load loader h = (.ok c, s') := by
  obtain ⟨l, at_l, cached⟩ := Option.bind_eq_some_iff.mp cached
  have peeked : l.cache.peek? h = some c := cached
  have found : l.get? h = some (c, { l with cache := l.cache.put h c, hits := l.hits + 1 }) := by
    rw [Loader.get?, Cache.get?, peeked]
    rfl
  exact ⟨_, by rw [load, at_l]; simp only [found]; rfl⟩

end Session

open MerkleCells.Action

namespace Ref

/-- Resolving a reference does nothing but load. -/
theorem later_value (r : Ref Cell) (s : Session) : s.Later (result r.value s).2 := by
  obtain ⟨status, cell | ⟨h, loader, byMarker⟩⟩ := r
  · exact .refl s
  · cases loader with
    | none => exact .refl s
    | some loader =>
      cases byMarker with
      | false => exact s.later_load loader h
      | true =>
        have later := s.later_load loader h
        simp only [value, ↓reduceIte, loadChild, load, result_bind, result_ofStep]
        generalize s.load loader h = answer at later
        obtain ⟨_ | cell, s'⟩ := answer <;> exact later

theorem result_value_direct (status : Status) (cell : Cell) (s : Session) :
    result (value ⟨status, .direct cell⟩) s = (.ok cell, s) := rfl

/-- What can be had of a reference without a store is what resolving it gives. -/
theorem peek_spec (r : Ref Cell) (s : Session) : ∃ held, result r.peek s = (.ok held, s) ∧
    ∀ c, held = some c → ∀ c' s', result r.value s = (.ok c', s') → c' = c := by
  obtain ⟨status, cell | ⟨h, loader, byMarker⟩⟩ := r
  · refine ⟨some cell, rfl, ?_⟩
    rintro c ⟨⟩ c' s' run
    cases run
    rfl
  · cases loader with
    | none => exact ⟨none, rfl, fun c none => by cases none⟩
    | some loader =>
      refine ⟨s.cached? loader h, rfl, ?_⟩
      intro c cached c' s' run
      obtain ⟨s'', loaded⟩ := Session.load_of_cached cached
      cases byMarker with
      | false =>
        have run : s.load loader h = (.ok c', s') := run
        rw [loaded] at run
        cases run
        rfl
      | true =>
        simp only [value, ↓reduceIte, loadChild, load, result_bind, result_ofStep, loaded] at run
        rw [Loader.asChild] at run
        by_cases small : c.embeddable
        · simp [small, bind, Except.bind] at run
        · simp [small, bind, Except.bind, pure, Except.pure] at run
          exact run.1.symm

/-- A reference leads to the cell that it names, now and however much is loaded later. -/
def Resolves (r : Ref Cell) (s : Session) : Prop :=
  ∀ s', s.Later s' → Yields r.value s' fun cell _ => cell.hash = r.hash

theorem Resolves.later {r : Ref Cell} {s s' : Session} (resolves : r.Resolves s) (later : s.Later s') :
    r.Resolves s' :=
  fun _ later' => resolves _ (later.trans later')

theorem resolves_direct (status : Status) (cell : Cell) (s : Session) : Resolves ⟨status, .direct cell⟩ s :=
  fun s' _ => ⟨cell, s', rfl, rfl⟩

end Ref

theorem yields_stepsBelow (root : Cell) (s : Session) : Yields (stepsBelow root) s fun _ s' => s' = s :=
  ⟨_, s, rfl, rfl⟩

end MerkleCells
