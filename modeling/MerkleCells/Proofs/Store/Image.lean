import MerkleCells.Store.Image

/-!
What stands in a file. `Image.Has` says that some bytes stand at a place; a write puts its bytes there and leaves
alone what lies before or after them, and cutting a file leaves alone what lies before the cut.
-/
namespace MerkleCells

theorem Extent.byte?_before (e : Extent) {i stop : Nat} (lt : i < stop) : (e.before stop).byte? i = e.byte? i := by
  simp only [byte?, before, Array.getElem?_extract, Nat.zero_add]
  split
  · by_cases held : i - e.start < e.data.size
    · rw [if_pos (by omega)]
    · rw [if_neg (by omega), Array.getElem?_eq_none (by omega)]
  · rfl

namespace Image

variable {img : Image} {place start size : Nat} {bytes data : Bytes}

/-- The bytes before the end of a file that is cut are what they were. -/
theorem byte_resize (img : Image) {i size : Nat} (lt : i < size) : (img.resize size).byte i = img.byte i := by
  unfold resize
  split
  · rfl
  · show Option.getD _ 0 = Option.getD _ 0
    congr 1
    induction img.extents with
    | nil => rfl
    | cons e rest ih =>
      rw [List.map_cons, List.filter_cons, List.findSome?_cons, ← e.byte?_before lt]
      split
      · rw [List.findSome?_cons, ih]
      · next none =>
        have empty : (e.before size).data = #[] := by simpa using none
        have absent : (e.before size).byte? i = Option.none := by simp [Extent.byte?, empty]
        rw [absent, ih]

@[simp]
theorem size_resize (img : Image) (size : Nat) : (img.resize size).size = size := by
  unfold resize
  split <;> rfl

/-- Some bytes stand at a place of a file. -/
structure Has (img : Image) (place : Nat) (bytes : Bytes) : Prop where
  inside : place + bytes.length ≤ img.size
  byte : ∀ i (h : i < bytes.length), img.byte (place + i) = bytes[i]

theorem Has.read? (has : img.Has place bytes) : img.read? place bytes.length = some bytes := by
  rw [Image.read?, if_pos has.inside, Option.some.injEq]
  refine List.ext_getElem (by simp) fun i _ h => ?_
  simpa using has.byte i h

theorem has_of_read? {count : Nat} (read : img.read? place count = some bytes) : img.Has place bytes := by
  have length := length_of_read? read
  unfold Image.read? at read
  split at read
  · next inside =>
    cases read
    exact ⟨by rwa [length], fun i h => by simp⟩
  · cases read

/-- What is read from a place on has what stands there. -/
theorem Has.slice {count : Nat} {piece : Bytes} (has : img.Has place bytes) (read : img.read? start count = some piece)
    (before : start ≤ place) (fits : place + bytes.length ≤ start + count) :
    piece.slice (place - start) bytes.length = bytes := by
  have length := length_of_read? read
  have whole := has_of_read? read
  refine List.ext_getElem (by simp [Bytes.slice]; omega) fun i _ h => ?_
  have same := whole.byte (place - start + i) (by omega)
  rw [show start + (place - start + i) = place + i by omega, has.byte i h] at same
  simp [Bytes.slice, same]

theorem has_append : img.Has place (bytes ++ data) ↔ img.Has place bytes ∧ img.Has (place + bytes.length) data := by
  constructor
  · rintro ⟨inside, byte⟩
    rw [List.length_append] at inside
    refine ⟨⟨by omega, fun i h => ?_⟩, ⟨by omega, fun i h => ?_⟩⟩
    · rw [byte i (by simp; omega), List.getElem_append_left]
    · rw [Nat.add_assoc, byte _ (by simp; omega), List.getElem_append_right (by omega)]
      simp
  · rintro ⟨first, second⟩
    refine ⟨by rw [List.length_append, ← Nat.add_assoc]; exact second.inside, fun i h => ?_⟩
    by_cases left : i < bytes.length
    · rw [List.getElem_append_left left, first.byte i left]
    · rw [List.getElem_append_right (by omega), ← second.byte (i - bytes.length) (by simp at h; omega)]
      congr 1
      omega

theorem size_write_le (img : Image) (start : Nat) (data : Bytes) : img.size ≤ (img.write start data).size := by
  unfold write
  split
  · exact Nat.le_refl _
  · exact Nat.le_max_left _ _

theorem has_write (img : Image) (start : Nat) (nonempty : data ≠ []) : (img.write start data).Has start data := by
  refine ⟨?_, fun i h => ?_⟩
  · rw [img.size_write_of_ne_nil start nonempty]
    exact Nat.le_max_right _ _
  · rw [byte_write, if_pos (by omega), Nat.add_sub_cancel_left, List.getElem?_eq_getElem h, Option.getD_some]

/-- A write leaves alone what lies before or after it. -/
theorem Has.write (has : img.Has place bytes) (apart : place + bytes.length ≤ start ∨ start + data.length ≤ place) :
    (img.write start data).Has place bytes := by
  refine ⟨Nat.le_trans has.inside (size_write_le _ _ _), fun i h => ?_⟩
  rw [byte_write, ← has.byte i h]
  split
  · rw [List.getElem?_eq_none (by omega), Option.getD_none]
  · rfl

/-- Cutting a file leaves alone what lies before the cut. -/
theorem Has.resize (has : img.Has place bytes) (before : place + bytes.length ≤ size) :
    (img.resize size).Has place bytes := by
  refine ⟨by rwa [size_resize], fun i h => ?_⟩
  rw [img.byte_resize (by omega), has.byte i h]

theorem has_ofBytes (before data after : Bytes) : (Image.ofBytes (before ++ data ++ after)).Has before.length data := by
  refine ⟨by simp [ofBytes], fun i h => ?_⟩
  have found : (before ++ data ++ after)[before.length + i]? = some data[i] := by
    rw [List.append_assoc, List.getElem?_append_right (by omega), Nat.add_sub_cancel_left,
      List.getElem?_append_left h, List.getElem?_eq_getElem h]
  simp only [Image.byte, ofBytes, List.findSome?_cons, Extent.byte?, Nat.zero_le, ↓reduceIte, Nat.sub_zero,
    List.getElem?_toArray, found, Option.getD_some]

end Image

end MerkleCells
