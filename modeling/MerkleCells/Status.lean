/-!
Storage statuses: how far the target of a reference is known to have travelled towards durable
storage. They are linearly ordered by `rank`, and a status is only ever raised.
-/
namespace MerkleCells

/-- How far a cell is known to have travelled towards durable storage. -/
inductive Status where
  | unknown
  | embedded
  | stored
  | persisted
  | verified
  deriving DecidableEq, Inhabited

namespace Status

def all : List Status := [.unknown, .embedded, .stored, .persisted, .verified]

/-- The place of a status in the order, which is also the byte that stands for it in a file. -/
def rank : Status → Nat
  | .unknown => 0
  | .embedded => 1
  | .stored => 2
  | .persisted => 3
  | .verified => 4

instance : LE Status := ⟨fun a b => a.rank ≤ b.rank⟩

instance (a b : Status) : Decidable (a ≤ b) := inferInstanceAs (Decidable (a.rank ≤ b.rank))

instance : Ord Status := ⟨fun a b => compare a.rank b.rank⟩

/-- The higher of two statuses. -/
def max (a b : Status) : Status := if a ≤ b then b else a

instance : Max Status := ⟨max⟩

/-- `a.reaches b` if `a` is at least `b`. -/
def reaches (a b : Status) : Bool := decide (b ≤ a)

/-- The byte that stands for a status. -/
def toByte (s : Status) : UInt8 := UInt8.ofNat s.rank

/-- The status that a byte stands for. -/
def ofByte? (b : UInt8) : Option Status := all.find? fun s => s.toByte == b

def name : Status → String
  | .unknown => "unknown"
  | .embedded => "embedded"
  | .stored => "stored"
  | .persisted => "persisted"
  | .verified => "verified"

def ofName? (name : String) : Option Status := all.find? fun s => s.name == name

theorem le_refl (a : Status) : a ≤ a := Nat.le_refl _

theorem le_trans {a b c : Status} (h : a ≤ b) (h' : b ≤ c) : a ≤ c := Nat.le_trans h h'

theorem le_total (a b : Status) : a ≤ b ∨ b ≤ a := Nat.le_total _ _

theorem le_antisymm {a b : Status} (h : a ≤ b) (h' : b ≤ a) : a = b := by
  have same : a.rank = b.rank := Nat.le_antisymm h h'
  revert same
  cases a <;> cases b <;> decide

theorem le_max_left (a b : Status) : a ≤ max a b := by
  unfold max
  split
  · assumption
  · exact le_refl a

theorem le_max_right (a b : Status) : b ≤ max a b := by
  unfold max
  split
  · exact le_refl b
  · rename_i h
    exact (le_total a b).resolve_left h

theorem max_le {a b c : Status} (h : a ≤ c) (h' : b ≤ c) : max a b ≤ c := by
  unfold max
  split <;> assumption

theorem ofByte?_toByte (s : Status) : ofByte? s.toByte = some s := by cases s <;> rfl

theorem ofName?_name (s : Status) : ofName? s.name = some s := by cases s <;> rfl

end Status

end MerkleCells
