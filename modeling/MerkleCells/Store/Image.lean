import MerkleCells.Bytes

/-!
The contents of a file: a length and the writes that made it, newest first, so that a write far
beyond the end costs nothing. `Image.byte` is the view; a byte that was never written is zero.
-/
namespace MerkleCells

/-- Bytes written at a place of a file. -/
structure Extent where
  start : Nat
  data : Array UInt8

structure Image where
  size : Nat
  /-- The writes, newest first. -/
  extents : List Extent

namespace Extent

/-- The byte that an extent has at a place of the file. -/
def byte? (e : Extent) (i : Nat) : Option UInt8 := if e.start ≤ i then e.data[i - e.start]? else none

/-- The part of an extent before a place of the file. -/
def before (e : Extent) (stop : Nat) : Extent := { e with data := e.data.extract 0 (stop - e.start) }

end Extent

namespace Image

def ofBytes (bytes : Bytes) : Image := ⟨bytes.length, [⟨0, bytes.toArray⟩]⟩

def byte (img : Image) (i : Nat) : UInt8 := (img.extents.findSome? fun e => e.byte? i).getD 0

/-- `count` bytes from a place on, if the file has them all. -/
def read? (img : Image) (start count : Nat) : Option Bytes :=
  if start + count ≤ img.size then some ((List.range count).map fun i => img.byte (start + i)) else none

/-- The bytes from a place to the end. -/
def toEnd (img : Image) (start : Nat) : Bytes :=
  (List.range (img.size - start)).map fun i => img.byte (start + i)

/-- Writes bytes at a place. The file grows to hold them, with zeros before them if need be. -/
def write (img : Image) (start : Nat) (bytes : Bytes) : Image :=
  if bytes.isEmpty then img
  else ⟨max img.size (start + bytes.length), ⟨start, bytes.toArray⟩ :: img.extents⟩

/-- Gives a file another size: what lies beyond is lost, what is gained is zero. -/
def resize (img : Image) (size : Nat) : Image :=
  if img.size ≤ size then { img with size }
  else ⟨size, (img.extents.map fun e => e.before size).filter fun e => !e.data.isEmpty⟩

/-- A write is what is read where it was made, and changes nothing elsewhere. -/
theorem byte_write (img : Image) (start : Nat) (bytes : Bytes) (i : Nat) :
    (img.write start bytes).byte i =
      if start ≤ i then (bytes[i - start]?).getD (img.byte i) else img.byte i := by
  unfold write
  split
  · rename_i none
    rw [List.isEmpty_iff.mp none]
    simp
  · simp only [byte, List.findSome?_cons, Extent.byte?]
    by_cases here : start ≤ i
    · rw [if_pos here, if_pos here]
      cases found : bytes[i - start]? with
      | none => simp [found]
      | some b => simp [found]
    · rw [if_neg here, if_neg here]

theorem size_write_of_ne_nil (img : Image) (start : Nat) {bytes : Bytes} (h : bytes ≠ []) :
    (img.write start bytes).size = max img.size (start + bytes.length) := by
  unfold write
  rw [if_neg (by simpa using h)]

theorem length_of_read? {img : Image} {start count : Nat} {bytes : Bytes} (h : img.read? start count = some bytes) :
    bytes.length = count := by
  unfold read? at h
  split at h
  · rw [← Option.some.inj h]
    simp
  · contradiction

end Image

end MerkleCells
