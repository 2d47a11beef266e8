import MerkleCells.Bytes

/-!
Variable-length quantities. Each byte carries seven bits, most significant group first, and every
byte but the last has its high bit set. Counts are unsigned; longs are in two's complement with
the sign in the second highest bit of their first byte. A reader accepts only the shortest
form of a value, so each value has one encoding.
-/
namespace MerkleCells.Quantity

/-- Most bytes of a quantity, enough for 64 bits. -/
def maxLength : Nat := 10

/-- The two kinds of quantity. -/
inductive Kind where
  | count
  | long
  deriving DecidableEq

/-- What is wrong with the bytes of a quantity. -/
inductive Cause where
  | truncated
  | overflow
  | notMinimal
  | tooLong
  deriving DecidableEq

/-- Why bytes begin with no quantity of a kind. -/
structure Fault where
  kind : Kind
  cause : Cause
  deriving DecidableEq

def Fault.message (f : Fault) : String :=
  let name := match f.kind with
    | .count => "VLQ count"
    | .long => "VLQ long"
  match f.cause with
  | .truncated => "truncated " ++ name
  | .overflow => name ++ " overflows 64 bits"
  | .notMinimal => "non-minimal " ++ name
  | .tooLong => name ++ " longer than " ++ toString maxLength ++ " bytes"

/-- Significant bits of a natural number. -/
def bitLength (n : Nat) : Nat := if n = 0 then 0 else n.log2 + 1

/-- Groups of seven that hold `bits` bits, at least one. -/
def groupsFor (bits : Nat) : Nat := max 1 ((bits + 6) / 7)

def countLength (value : UInt64) : Nat := groupsFor (bitLength value.toNat)

/-- Bytes of a long: its magnitude's bits and one for the sign. -/
def longLength (value : Int64) : Nat :=
  let i := value.toInt
  groupsFor (bitLength (if i < 0 then (-i - 1).toNat else i.toNat) + 1)

/-- The seven bits of `value` at place `i`, where place 0 is the least significant. -/
def group (value : Int) (i : Nat) : Nat := ((value >>> (7 * i)) % 128).toNat

/-- The `n` lowest groups of a value, highest first, all but the last marked to be continued. -/
def writeGroups (value : Int) : (n : Nat) → Bytes
  | 0 => []
  | 1 => [UInt8.ofNat (group value 0)]
  | n + 2 => UInt8.ofNat (128 + group value (n + 1)) :: writeGroups value (n + 1)

def writeCount (value : UInt64) : Bytes := writeGroups value.toNat (countLength value)

def writeLong (value : Int64) : Bytes := writeGroups value.toInt (longLength value)

/-- Reads groups onto `high` until one is not to be continued, at most `room` of them: the value,
the number of groups and the bytes after them. -/
def readGroups (high : Int) : (room : Nat) → Bytes → Except Cause (Int × Nat × Bytes)
  | 0, _ => .error .tooLong
  | _ + 1, [] => .error .truncated
  | room + 1, b :: rest =>
    let value := high * 128 + (b.toNat % 128 : Nat)
    if b.toNat < 128 then .ok (value, 1, rest)
    else (readGroups value room rest).map fun (v, n, rest) => (v, n + 1, rest)

/-- Reads a count: its value and the bytes after it. -/
def readCount (bytes : Bytes) : Except Fault (UInt64 × Bytes) :=
  match readGroups 0 maxLength bytes with
  | .error cause => .error ⟨.count, cause⟩
  | .ok (value, used, rest) =>
    if value < UInt64.size then
      let count := UInt64.ofNat value.toNat
      if countLength count = used then .ok (count, rest) else .error ⟨.count, .notMinimal⟩
    else .error ⟨.count, .overflow⟩

/-- The value that the sign of a first byte stands for. -/
def signOf (first : UInt8) : Int := if first.toNat / 64 % 2 = 1 then -1 else 0

/-- Reads a long: its value and the bytes after it. -/
def readLong (bytes : Bytes) : Except Fault (Int64 × Bytes) :=
  match readGroups (signOf (bytes.headD 0)) maxLength bytes with
  | .error cause => .error ⟨.long, cause⟩
  | .ok (value, used, rest) =>
    if Int64.minValue.toInt ≤ value ∧ value ≤ Int64.maxValue.toInt then
      let long := Int64.ofInt value
      if longLength long = used then .ok (long, rest) else .error ⟨.long, .notMinimal⟩
    else .error ⟨.long, .overflow⟩

end MerkleCells.Quantity
