import MerkleCells.Store.File
import MerkleCells.Store.Memory
import MerkleCells.Store.Untrusted

/-!
Stores of any of the three kinds. Each answers requests for hashes, records cells with a status
that never falls, and tells the status of a hash.
-/
namespace MerkleCells

inductive Store where
  | memory (store : MemoryStore)
  | untrusted (store : UntrustedStore)
  | file (store : FileStore)

namespace Store

/-- The status of a hash, if it is held. -/
def status? : Store → Hash → Option Status
  | .memory s, h => s.status? h
  | .untrusted s, h => s.status? h
  | .file s, h => s.status? h

def contains (s : Store) (h : Hash) : Bool := (s.status? h).isSome

/-- The answer to a request for a hash. Children of the cell in it that are read from a hash are
to be resolved by `loader`. -/
def answer : Store → (loader : LoaderId) → Hash → Answer
  | .memory s, _, h => s.answer h
  | .untrusted s, loader, h => s.answer loader h
  | .file s, loader, h => s.answer loader h

/-- The store after it was asked once more. -/
def asked : Store → Store
  | .untrusted s => .untrusted s.asked
  | s => s

/-- Records a cell with at least `status`; `own` is the status of the reference it came from. -/
def record (cell : Cell) (own status : Status) : Store → Except Error (Ref Cell) × Store
  | .memory s =>
    let (r, s) := s.record cell own status
    (.ok r, .memory s)
  | .untrusted s =>
    let (r, s) := s.record cell status
    (.ok r, .untrusted s)
  | .file s =>
    let (r, s) := s.record cell own status
    (r, .file s)

def size : Store → Nat
  | .memory s => s.size
  | .untrusted s => s.size
  | .file s => s.size

/-- A bound on the levels of cells that can be passed through while each hash is asked for once. -/
def depth : Store → Nat
  | .memory s => s.held.foldr (fun e n => e.2.cell.height + 1 + n) 0
  | .untrusted s => (Limits.depth + 1) * s.size
  | .file s => (Limits.depth + 1) * s.size

end Store

end MerkleCells
