import MerkleCells.Cell.Basic
import MerkleCells.Error

/-!
Reading cells. A `Reader` takes bytes from the front of its input. `Reader.value` and `Reader.ref` are
given a reader of the cells inside, and `Reader.cell` ties the knot down to a fixed depth. What they
accept is the canonical encoding of what they return; `decode` also asks that nothing is left over.
-/
namespace MerkleCells

/-- A computation that takes bytes from the front of its input or fails. -/
abbrev Reader (α : Type) := StateT Bytes (Except Error) α

namespace Reader

/-- Fails for a reason of format. -/
def fault {α : Type} (f : FormatFault) : Reader α := throw (.format f)

/-- The next byte, which stays in the input. -/
def peek : Reader UInt8 := do
  match ← get with
  | [] => fault .endOfInput
  | b :: _ => return b

def byte : Reader UInt8 := do
  match ← get with
  | [] => fault .endOfInput
  | b :: rest =>
    set rest
    return b

def bytes (n : Nat) : Reader Bytes := do
  let input ← get
  if input.length < n then fault (.beyondInput n input.length)
  set (input.drop n)
  return input.take n

def count : Reader UInt64 := do
  match Quantity.readCount (← get) with
  | .error e => fault (.quantity e)
  | .ok (value, rest) =>
    set rest
    return value

def long : Reader Int64 := do
  match Quantity.readLong (← get) with
  | .error e => fault (.quantity e)
  | .ok (value, rest) =>
    set rest
    return value

/-- A count that is at most `limit`. -/
def length (limit : Nat) : Reader Nat := do
  let n ← count
  if n.toNat > limit then fault (.overLimit n.toNat limit)
  return n.toNat

def hash : Reader Hash := do
  match Hash.ofBytes? (← bytes Hash.size) with
  | some h => return h
  | none => fault .endOfInput

/-- Bytes after their number, which is at most `limit`. -/
def blob (limit : Nat) : Reader Bytes := do bytes (← length limit)

/-- A text of at most `limit` bytes. -/
def text (limit : Nat) : Reader String := do
  match (← blob limit).toText? with
  | some text => return text
  | none => fault .badText

/-- The name of a symbol or keyword. -/
def name : Reader String := do
  let name ← text Limits.symbol
  if name.isEmpty then fault .emptyName
  return name

/-- A double. Of the bits that stand for no number only `Value.nanBits` are allowed. -/
def double : Reader UInt64 := do
  let bits := UInt64.ofNat (Bytes.ofBigEndian (← bytes 8))
  if Value.isNaN bits && bits != Value.nanBits then fault .badNaN
  return bits

/-- A child: the hash after `Tag.ref`, or a cell that is small enough to stand here. -/
def ref (loader : Option LoaderId) (cell : Reader Cell) : Reader (Ref Cell) := do
  if (← peek) = Tag.ref then
    let _ ← byte
    return Ref.ofMarker (← hash) loader
  else
    let c ← cell
    if !c.embeddable then fault (.inlineTooLarge c.value.tag)
    return (Ref.direct c).withStatus .embedded

/-- `n` things in a row. -/
def replicate {α : Type} (item : Reader α) : (n : Nat) → Reader (List α)
  | 0 => return []
  | n + 1 => do
    let a ← item
    return a :: (← replicate item n)

/-- At most `Limits.fields` children. -/
def refs (child : Reader (Ref Cell)) : Reader (List (Ref Cell)) := do
  replicate child (← length Limits.fields)

/-- The children of the digits whose bits are set in a mask. -/
def children (child : Reader (Ref Cell)) (mask : Nat) : List Digit → Reader (List (Digit × Ref Cell))
  | [] => return []
  | d :: rest =>
    if mask.testBit d.val then do
      let r ← child
      return (d, r) :: (← children child mask rest)
    else children child mask rest

end Reader

/-- The sum of two counts, or the largest count if the sum is larger. -/
def addSaturating (a b : UInt64) : UInt64 := UInt64.ofNat (min (a.toNat + b.toNat) (UInt64.size - 1))

namespace Branch

/-- Number of places of a branch that are taken. -/
def occupants {ρ : Type} (b : Branch ρ) : Nat := b.entry.toList.length + b.children.length

/-- Adds the entries below a child to a total, for a child that is held directly: it is a node of
the same kind, not empty, and extends the branch at its own digit. -/
def addChild (kind : TrieKind) (b : Branch (Ref Cell)) (total : UInt64) (child : Digit × Ref Cell) :
    Except FormatFault UInt64 :=
  match child.2.cell? with
  | none => return total
  | some cell =>
    match cell.value with
    | .trie kind' node =>
      if kind' ≠ kind then throw .branchChildAlien
      else if node.isEmpty then throw .branchChildEmpty
      else if node.depth ≤ b.depth ∨ !Digits.beginsWith node.path b.path b.depth ∨
          Digits.digit? node.path b.depth ≠ some child.1 then throw .branchChildAstray
      else return addSaturating total node.count
    | _ => throw .branchChildAlien

/-- Looks at all children that are held directly. If none is missing, their entries and the
branch's own make up its count. -/
def checkChildren (kind : TrieKind) (b : Branch (Ref Cell)) : Except FormatFault Unit := do
  let own : UInt64 := if b.entry.isSome then 1 else 0
  let total ← b.children.foldlM (addChild kind b) own
  if b.children.all (·.2.isDirect) && total != b.count then
    throw (.branchCountWrong b.count.toNat total.toNat)

end Branch

namespace Reader

/-- The own entry of a branch, after a flag. Only maps have one, and only where a key can end. -/
def branchEntry (kind : TrieKind) (depth : Nat) (child : Reader (Ref Cell)) : Reader (Option (Ref Cell)) := do
  match kind with
  | .set => return none
  | .map =>
    let flag ← byte
    if flag = 0 then return none
    else if flag = 1 then
      if depth = 0 ∨ depth % 2 = 1 then fault .branchEntryDepth
      return some (← child)
    else fault (.branchEntryFlag flag)

/-- A branch, after its count. -/
def branch (kind : TrieKind) (child : Reader (Ref Cell)) (count : UInt64) : Reader (Branch (Ref Cell)) := do
  let depth := (← Reader.count).toNat
  if depth > kind.maxDepth then fault (.branchTooDeep depth)
  let path ← bytes ((depth + 1) / 2)
  if depth % 2 = 1 ∧ (path.getLastD 0).toNat % 16 ≠ 0 then fault .branchPadding
  let mask := Bytes.ofBigEndian (← bytes 2)
  let entry ← branchEntry kind depth child
  let children ← children child mask (List.finRange 16)
  let b : Branch (Ref Cell) := { depth, path, entry, children, count }
  if b.children.isEmpty ∨ b.occupants < 2 then fault .branchTooFew
  if count.toNat < b.occupants then fault (.branchCountLow count.toNat b.occupants)
  match b.checkChildren kind with
  | .error e => fault e
  | .ok () => return b

/-- A node of a trie, after its tag. An entry of a set is its element, whose hash is the key. -/
def node (kind : TrieKind) (child : Reader (Ref Cell)) : Reader (Node (Ref Cell)) := do
  let count ← count
  if count = 0 then return .empty
  else if count = 1 then
    match kind with
    | .map =>
      let n ← length Limits.blob
      if n = 0 then fault .emptyKey
      let key ← bytes n
      return .leaf key (← child)
    | .set =>
      let r ← child
      return .leaf r.hash.bytes r
  else return .branch (← branch kind child count)

/-- A tag and what it announces. -/
def value (child : Reader (Ref Cell)) : Reader (Value (Ref Cell)) := do
  let tag ← byte
  if tag = Tag.null then return .nil
  else if tag = Tag.false_ then return .bool false
  else if tag = Tag.true_ then return .bool true
  else if tag = Tag.integer then return .integer (← long)
  else if tag = Tag.double then return .double (← double)
  else if tag = Tag.string then return .string (← text Limits.blob)
  else if tag = Tag.blob then return .blob (← blob Limits.blob)
  else if tag = Tag.symbol then return .symbol (← name)
  else if tag = Tag.keyword then return .keyword (← name)
  else if tag = Tag.vector then return .vector (← refs child)
  else if tag = Tag.map then return .trie .map (← node .map child)
  else if tag = Tag.set then return .trie .set (← node .set child)
  else if (Digits.high tag).val = 0xA then return .record (Digits.low tag) (← refs child)
  else if (Digits.high tag).val = 0xC then return .code (Digits.low tag) (← refs child)
  else if (Digits.high tag).val = 0xE then return .extension (Digits.low tag) (← count)
  else if tag = Tag.ref then fault .markerAsValue
  else fault (.unknownTag tag)

/-- A cell with at most `depth` levels of cells inside each other. -/
def cell (loader : Option LoaderId) : (depth : Nat) → Reader Cell
  | 0 => fault .tooDeep
  | depth + 1 => do return Cell.ofValue (← value (ref loader (cell loader depth)))

end Reader

/-- The cell with this encoding. Children that are written as their hash are soft references to be
resolved by `loader`, or detached if there is none. -/
def decode (loader : Option LoaderId) (bytes : Bytes) : Except Error Cell := do
  if bytes.isEmpty then throw (.format .emptyEncoding)
  if bytes.length > Limits.encoding then throw (.format (.encodingTooLong bytes.length))
  let (c, rest) ← (Reader.cell loader Limits.depth).run bytes
  if !rest.isEmpty then throw (.format (.trailing rest.length))
  if c.encoding ≠ bytes then throw (.format .notCanonical)
  return c

end MerkleCells
