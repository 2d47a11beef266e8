import MerkleCells.Cell.Reader
import MerkleCells.Loader

/-!
Stores of encodings that are taken on trust: any bytes can stand under any hash, or nothing but
the statement that the hash is known. Only the loader's checks stand between them and a reader.
-/
namespace MerkleCells

/-- What stands under a hash: bytes, or only that the hash is known. -/
structure Slot where
  encoding : Option Bytes
  status : Status

/-- A store of encodings that nobody has checked. -/
structure UntrustedStore where
  slots : Table Slot
  /-- How often the store was asked. -/
  fetches : Nat

namespace UntrustedStore

def empty : UntrustedStore := ⟨[], 0⟩

def status? (s : UntrustedStore) (h : Hash) : Option Status := (s.slots.find? h).map (·.status)

/-- The answer to a request for a hash by a loader. -/
def answer (s : UntrustedStore) (loader : LoaderId) (h : Hash) : Answer := do
  match s.slots.find? h with
  | none => return none
  | some ⟨none, _⟩ => return some (Ref.detached h)
  | some ⟨some bytes, status⟩ =>
    let cell ← decode (some loader) bytes
    return some ((Ref.direct cell).withStatus status)

/-- The store after it was asked once more. -/
def asked (s : UntrustedStore) : UntrustedStore := { s with fetches := s.fetches + 1 }

/-- Records a cell with at least `status`. Bytes that are held already stay. -/
def record (s : UntrustedStore) (cell : Cell) (status : Status) : Ref Cell × UntrustedStore :=
  let slot : Slot := match s.slots.find? cell.hash with
    | some slot => { slot with status := slot.status.max status }
    | none => ⟨some cell.encoding, status⟩
  ((Ref.direct cell).withStatus slot.status, { s with slots := s.slots.put cell.hash slot })

/-- Puts a slot under a hash, whatever was there. -/
def plant (s : UntrustedStore) (h : Hash) (slot : Slot) : UntrustedStore :=
  { s with slots := s.slots.put h slot }

/-- Takes the slot of a hash out. -/
def uproot (s : UntrustedStore) (h : Hash) : UntrustedStore := { s with slots := s.slots.erase h }

def size (s : UntrustedStore) : Nat := s.slots.length

end UntrustedStore

end MerkleCells
