import MerkleCells.Cell.Basic
import MerkleCells.Table

/-!
Bounded caches of cells. The entries are kept most recently used first; looking without using
(`peek?`) leaves the order alone, and what no longer fits is the least recently used.
-/
namespace MerkleCells

structure Cache where
  /-- The most entries that are kept. -/
  capacity : Nat
  capacity_pos : 0 < capacity
  /-- The entries, most recently used first. -/
  entries : Table Cell

namespace Cache

def empty (capacity : Nat) (h : 0 < capacity) : Cache := ⟨capacity, h, []⟩

/-- The cell held under a hash. This is no use of it. -/
def peek? (c : Cache) (h : Hash) : Option Cell := c.entries.find? h

/-- Uses a hash: `cell` is held under it, and it is the most recent. -/
def put (c : Cache) (h : Hash) (cell : Cell) : Cache :=
  { c with entries := ((h, cell) :: c.entries.erase h).take c.capacity }

/-- Finds the cell held under a hash, and counts that as a use. -/
def get? (c : Cache) (h : Hash) : Option (Cell × Cache) :=
  (c.peek? h).map fun cell => (cell, c.put h cell)

def clear (c : Cache) : Cache := { c with entries := [] }

def size (c : Cache) : Nat := c.entries.length

/-- A bound on the levels of cells that can be passed through while each entry is used once. -/
def depth (c : Cache) : Nat := c.entries.foldr (fun e n => e.2.height + 1 + n) 0

theorem size_put_le (c : Cache) (h : Hash) (cell : Cell) : (c.put h cell).size ≤ c.capacity := by
  simp only [size, put, List.length_take]
  exact Nat.min_le_left ..

end Cache

end MerkleCells
