import MerkleCells.Error

/-!
Operations on two sets, each given by what it does with an element that is found on the left only,
on the right only or on both sides.
-/
namespace MerkleCells

/-- Where an element is found. -/
inductive Presence where
  | left
  | right
  | both
  deriving DecidableEq

/-- What becomes of an element. -/
inductive Outcome where
  | keepLeft
  | keepRight
  /-- Both sides hold it; the left one stands for both. -/
  | keepEither
  | drop
  deriving DecidableEq

/-- An operation on two sets. -/
inductive SetOperation where
  | union
  | intersect
  /-- What is on the left but not on the right. -/
  | difference
  /-- What is on the right but not on the left. -/
  | rightDifference
  deriving DecidableEq

namespace SetOperation

/-- What an operation does with an element. -/
def outcome : SetOperation → Presence → Outcome
  | .union, .left => .keepLeft
  | .union, .right => .keepRight
  | .union, .both => .keepEither
  | .intersect, .both => .keepEither
  | .intersect, _ => .drop
  | .difference, .left => .keepLeft
  | .difference, _ => .drop
  | .rightDifference, .right => .keepRight
  | .rightDifference, _ => .drop

/-- Whether an operation keeps an element. -/
def keeps (op : SetOperation) (presence : Presence) : Bool := op.outcome presence != .drop

def code : SetOperation → UInt8
  | .union => 0
  | .intersect => 1
  | .difference => 2
  | .rightDifference => 3

def ofCode (code : UInt8) : Except Error SetOperation :=
  if code = 0 then .ok .union
  else if code = 1 then .ok .intersect
  else if code = 2 then .ok .difference
  else if code = 3 then .ok .rightDifference
  else .error (.unknownSetOperation code)

end SetOperation

end MerkleCells
