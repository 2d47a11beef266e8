import MerkleCells.Store.Basic

/-!
Sessions: the loaders and stores at hand. An `Action` may resolve references, which moves caches
and counters; what it has changed stays changed when it fails. This module resolves references
through the loaders and records cells in the stores of a session.
-/
namespace MerkleCells

/-- The loaders and stores at hand, each by its number. -/
structure Session where
  loaders : List Loader
  stores : List Store

/-- A computation that may resolve references and fail. -/
abbrev Action (α : Type) := ExceptT Error (StateM Session) α

namespace Session

/-- What a loader's store would answer to a hash. -/
def answerTo (s : Session) (loader : LoaderId) (l : Loader) (h : Hash) : Answer :=
  match s.stores[l.store]? with
  | none => .ok none
  | some store => store.answer loader h

/-- Resolves a hash through a loader. Its store is asked only if the cache does not have it. -/
def load (s : Session) (loader : LoaderId) (h : Hash) : Except Error Cell × Session :=
  match s.loaders[loader]? with
  | none => (.error (.missing h), s)
  | some l =>
    match l.get? h with
    | some (cell, l) => (.ok cell, { s with loaders := s.loaders.set loader l })
    | none =>
      let (result, l') := l.receive h (s.answerTo loader l h)
      (result, { loaders := s.loaders.set loader l', stores := s.stores.modify l.store Store.asked })

def cached? (s : Session) (loader : LoaderId) (h : Hash) : Option Cell :=
  s.loaders[loader]?.bind fun l => l.cached? h

/-- Whether a loader still has a store in use after everybody else has let go of the session. -/
def inUse (s : Session) (store : StoreId) : Bool :=
  s.loaders.zipIdx.any fun (l, id) => l.store == store && l.keepsItself id

/-- The store files that are left when everybody has let go of the session. A store that is still in
use is never closed. -/
def files (s : Session) : List Image :=
  s.stores.zipIdx.filterMap fun (held, id) =>
    match held with
    | .file f => some (if s.inUse id then f.image else f.close)
    | _ => none

/-- A bound on the levels of cells that a walk can pass through by asking for each hash once. -/
def depth (s : Session) : Nat :=
  s.stores.foldr (fun store n => store.depth + n) 0 + s.loaders.foldr (fun l n => l.cache.depth + n) 0

end Session

/-- Runs a step of a session as an action. -/
def Action.ofStep {α : Type} (step : Session → Except Error α × Session) : Action α :=
  ExceptT.mk (StateT.mk step)

def load (loader : LoaderId) (h : Hash) : Action Cell := .ofStep fun s => s.load loader h

/-- Resolves a hash that stands inside an encoding. -/
def loadChild (loader : LoaderId) (h : Hash) : Action Cell := do
  let cell ← load loader h
  Loader.asChild h (.ok cell)

def withStore {α : Type} (id : StoreId) (f : Store → α) : Action (Option α) := do
  return (← get).stores[id]?.map f

/-- A store's own answer to a hash. No cache is looked at. -/
def askStore (store : StoreId) (loader : LoaderId) (h : Hash) : Action (Option (Ref Cell)) :=
  .ofStep fun s =>
    match s.stores[store]? with
    | none => (.ok none, s)
    | some held => (held.answer loader h, { s with stores := s.stores.set store held.asked })

/-- The status that a store holds for a hash. -/
def statusOf (store : StoreId) (h : Hash) : Action (Option Status) := do
  return (← withStore store fun s => s.status? h).join

namespace Ref

/-- The target, resolved if need be. -/
def value (r : Ref Cell) : Action Cell :=
  match r.target with
  | .direct cell => return cell
  | .soft h none _ => throw (.missing h)
  | .soft h (some loader) byMarker => if byMarker then loadChild loader h else load loader h

/-- The target if it is at hand without asking a store. -/
def peek (r : Ref Cell) : Action (Option Cell) :=
  match r.target with
  | .direct cell => return some cell
  | .soft _ none _ => return none
  | .soft h (some loader) _ => return (← get).cached? loader h

/-- The reference as a parent holds it: what is embeddable is held directly. -/
def canonical (r : Ref Cell) : Action (Ref Cell) :=
  match r.target with
  | .direct _ => return r
  | .soft .. => do
    let cell ← r.value
    if cell.embeddable then return (Ref.direct cell).withStatus r.status
    return r

/-- The same reference with its target held directly. -/
def toDirect (r : Ref Cell) : Action (Ref Cell) :=
  match r.target with
  | .direct _ => return r
  | .soft .. => return ⟨r.status, .direct (← r.value)⟩

end Ref

/-- Records the target of a reference in a store with at least `status`. -/
def storeRef (store : StoreId) (r : Ref Cell) (status : Status) : Action (Ref Cell) := do
  let cell ← r.value
  .ofStep fun s =>
    match s.stores[store]? with
    | none => (.error .io, s)
    | some held =>
      let (answer, held) := held.record cell r.status status
      (answer, { s with stores := s.stores.set store held })

/-- Records one cell as stored. Its children are left alone. -/
def storeCell (store : StoreId) (cell : Cell) : Action (Ref Cell) := storeRef store (Ref.direct cell) .stored

/-- The steps that a walk down from a cell may take before it must have come back to a hash that it
came from. -/
def stepsBelow (root : Cell) : Action Nat := do
  return root.height + (← get).depth + 1

end MerkleCells
