import MerkleCells.Loader

/-!
Stores that hold cells in memory, each with the highest status recorded for it.
-/
namespace MerkleCells

/-- A cell and its status in a store. -/
structure Held where
  cell : Cell
  status : Status

/-- A store of cells in memory. -/
structure MemoryStore where
  held : Table Held

namespace MemoryStore

def empty : MemoryStore := ⟨[]⟩

def status? (s : MemoryStore) (h : Hash) : Option Status := (s.held.find? h).map (·.status)

def answer (s : MemoryStore) (h : Hash) : Answer :=
  .ok ((s.held.find? h).map fun e => (Ref.direct e.cell).withStatus e.status)

/-- Records a cell with at least `status`. The answer carries the status held, or `own` if that is
higher. -/
def record (s : MemoryStore) (cell : Cell) (own status : Status) : Ref Cell × MemoryStore :=
  let entry : Held := match s.held.find? cell.hash with
    | some e => { e with status := e.status.max status }
    | none => ⟨cell, status⟩
  ((Ref.direct cell).withStatus (entry.status.max own), ⟨s.held.put cell.hash entry⟩)

def size (s : MemoryStore) : Nat := s.held.length

/-- Recording raises the status of one hash, and of no other. -/
theorem status?_record (s : MemoryStore) (cell : Cell) (own status : Status) (h : Hash) :
    (s.record cell own status).2.status? h =
      if cell.hash = h then some (((s.status? h).map fun held => held.max status).getD status)
      else s.status? h := by
  by_cases here : cell.hash = h
  · subst here
    cases found : s.held.find? cell.hash <;> simp [record, status?, found]
  · simp [record, status?, here]

end MemoryStore

end MerkleCells
