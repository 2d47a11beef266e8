import MerkleCells.Cache
import MerkleCells.Error

/-!
Loaders. A loader looks into its cache first and asks a store otherwise. What the store answers is
an argument here, so nothing depends on what kind of store it is or on its telling the truth:
`receive` keeps an answer only if it is the cell that was asked for.
-/
namespace MerkleCells

namespace Cell

/-- Whether a reference below a cell waits for a loader, in at most `fuel` levels. -/
def waitsWithin (loader : LoaderId) : (fuel : Nat) → Cell → Bool
  | 0, _ => false
  | fuel + 1, c => c.refs.any fun r =>
    match r.target with
    | .direct child => waitsWithin loader fuel child
    | .soft _ waiting _ => waiting == some loader

/-- Whether a reference below a cell, as far as cells are held directly, waits for a loader. -/
def waits (c : Cell) (loader : LoaderId) : Bool := c.waitsWithin loader c.height

end Cell

/-- The number of a store in a session. -/
abbrev StoreId := Nat

/-- What a store says when it is asked for a hash. -/
abbrev Answer := Except Error (Option (Ref Cell))

/-- A cache in front of a store. -/
structure Loader where
  store : StoreId
  cache : Cache
  /-- How often the cache had what was asked for, modulo 2⁶⁴. -/
  hits : UInt64
  /-- How often the store was asked, modulo 2⁶⁴. -/
  misses : UInt64

namespace Loader

/-- A loader that has loaded nothing yet and caches up to `capacity` cells. -/
def new (store : StoreId) (capacity : Nat) : Except Error Loader :=
  if h : 0 < capacity then .ok ⟨store, .empty capacity h, 0, 0⟩
  else .error (.settings .loaderCapacity)

/-- Looks a hash up in the cache, as a use of it. -/
def get? (l : Loader) (h : Hash) : Option (Cell × Loader) :=
  (l.cache.get? h).map fun (cell, cache) => (cell, { l with cache, hits := l.hits + 1 })

/-- The cell in a store's answer, if it is the one that was asked for. -/
def accept (h : Hash) (answer : Answer) : Except Error Cell := do
  match ← answer with
  | none => throw (.missing h)
  | some r =>
    match r.cell? with
    | none => throw (.corruption (.unresolved h))
    | some cell => if cell.hash = h then return cell else throw (.corruption (.mismatch h cell.hash))

/-- Takes the store's answer to a hash that the cache did not have. -/
def receive (l : Loader) (h : Hash) (answer : Answer) : Except Error Cell × Loader :=
  let l := { l with misses := l.misses + 1 }
  match accept h answer with
  | .ok cell => (.ok cell, { l with cache := l.cache.put h cell })
  | .error e => (.error e, l)

def load (l : Loader) (h : Hash) (answer : Answer) : Except Error Cell × Loader :=
  match l.get? h with
  | some (cell, l) => (.ok cell, l)
  | none => l.receive h answer

/-- A cell that was found where a hash stands inside an encoding. An embeddable cell may not
stand there. -/
def asChild (h : Hash) (found : Except Error Cell) : Except Error Cell := do
  let cell ← found
  if cell.embeddable then throw (.format (.embeddableByHash h))
  return cell

/-- The cell that the cache holds under a hash. -/
def cached? (l : Loader) (h : Hash) : Option Cell := l.cache.peek? h

def prime (l : Loader) (cell : Cell) : Loader := { l with cache := l.cache.put cell.hash cell }

def clear (l : Loader) : Loader := { l with cache := l.cache.clear }

/-- Whether a loader of this number keeps itself in use: a reference that waits for it is in its own
cache. -/
def keepsItself (l : Loader) (id : LoaderId) : Bool := l.cache.entries.any fun e => e.2.waits id

end Loader

end MerkleCells
