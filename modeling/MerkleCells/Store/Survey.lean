import MerkleCells.Store.File

/-!
Looking at a store file as it lies on disk, whether or not it can be opened: the parts of its header,
and the index if the header points into the file. Nothing is checked but that the bytes are there.
-/
namespace MerkleCells

/-- An index entry as it lies in a file. -/
structure RawEntry where
  hash : Bytes
  offset : Nat
  size : Nat
  status : UInt8

/-- The index of a file, from the place that the header names to the end. -/
structure IndexSurvey where
  /-- The whole entries, in the order of the file. -/
  entries : List RawEntry
  /-- Bytes after the last whole entry. -/
  spare : Nat
  /-- Where the index begins. -/
  place : Nat

/-- The parts of a store file. -/
structure Survey where
  /-- Magic bytes, version and flags. -/
  head : Bytes
  /-- The number of entries that the header names. -/
  count : Nat
  /-- The bytes of the header that are kept for later. -/
  reserved : Bytes
  /-- Where the header says that the index begins, or 0. -/
  indexPlace : Nat
  index : Option IndexSurvey

namespace RawEntry

/-- The entry that 45 bytes hold. -/
def ofBytes (bytes : Bytes) : RawEntry where
  hash := bytes.take 32
  offset := Bytes.ofLittleEndian (bytes.slice 32 8)
  size := Bytes.ofLittleEndian (bytes.slice 40 4)
  status := bytes.getLastD 0

end RawEntry

namespace IndexSurvey

/-- The frames of some entries follow each other from `start` to `stop`. -/
def tiles (start stop : Nat) : List RawEntry → Bool
  | [] => start == stop
  | e :: rest => e.offset == start && tiles (start + e.size) stop rest

/-- The frames of the entries fill the file between the header and the index. -/
def packed (s : IndexSurvey) : Bool :=
  tiles FileStore.headerSize s.place (s.entries.mergeSort fun a b => decide (a.offset ≤ b.offset))

/-- Cuts bytes into `count` entries. -/
def entriesOf : (count : Nat) → Bytes → List RawEntry
  | 0, _ => []
  | count + 1, bytes => .ofBytes (bytes.take FileStore.entrySize) :: entriesOf count (bytes.drop FileStore.entrySize)

/-- The index of a file that begins at a place. -/
def ofImage (image : Image) (place : Nat) : IndexSurvey :=
  let bytes := image.toEnd place
  { entries := entriesOf (bytes.length / FileStore.entrySize) bytes
    spare := bytes.length % FileStore.entrySize
    place }

end IndexSurvey

namespace Survey

/-- The parts of a file that has a header at least. -/
def ofImage? (image : Image) : Option Survey := do
  let header ← image.read? 0 FileStore.headerSize
  let place := Bytes.ofLittleEndian (header.slice 24 8)
  some {
    head := header.take 16
    count := Bytes.ofLittleEndian (header.slice 16 8)
    reserved := header.slice 32 32
    indexPlace := place
    index := if FileStore.headerSize ≤ place ∧ place ≤ image.size then some (.ofImage image place) else none }

end Survey

end MerkleCells
