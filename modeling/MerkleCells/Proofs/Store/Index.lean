import MerkleCells.Proofs.Store.Image
import MerkleCells.Proofs.Table
import MerkleCells.Store.File

/-!
The header and the index of a store file. Entries are read as they were written if their numbers fit the fields
(`readEntry_entryBytes`), so an index is read back as the table that it was written from, and what opening a file
gives is told by the counters in its header (`openImage_of_header`).
-/
namespace MerkleCells

/-- The numbers of an index entry fit their fields. -/
structure IndexEntry.Fits (e : IndexEntry) : Prop where
  offset : e.offset < UInt64.size
  size : e.size < UInt32.size

namespace FileStore

/-- Places in a file fit the fields that tell them. -/
theorem placeLimit_lt : placeLimit < UInt64.size := by decide

variable {img : Image} {h : Hash} {e : IndexEntry}

/-! ### Entries -/

theorem length_entryBytes (h : Hash) (e : IndexEntry) : (entryBytes h e).length = entrySize := by
  simp [entryBytes, h.length_eq, Bytes.length_littleEndian, entrySize]

theorem readEntry_entryBytes (fits : e.Fits) : readEntry (entryBytes h e) = .ok (h, e) := by
  have offset : Bytes.ofLittleEndian (Bytes.littleEndian 8 e.offset) = e.offset :=
    Bytes.ofLittleEndian_littleEndian fits.offset
  have size : Bytes.ofLittleEndian (Bytes.littleEndian 4 e.size) = e.size :=
    Bytes.ofLittleEndian_littleEndian fits.size
  have hash : (entryBytes h e).take 32 = h.bytes := by
    simp [entryBytes, h.length_eq]
  have second : (entryBytes h e).slice 32 8 = Bytes.littleEndian 8 e.offset := by
    simp [Bytes.slice, entryBytes, h.length_eq, Bytes.length_littleEndian, List.append_assoc]
  have third : (entryBytes h e).slice 40 4 = Bytes.littleEndian 4 e.size := by
    rw [entryBytes, Bytes.slice, List.append_assoc, List.drop_left' (by
      simp [h.length_eq, Bytes.length_littleEndian]), List.take_left' (Bytes.length_littleEndian 4 e.size)]
  have last : (entryBytes h e).getLastD 0 = e.status.toByte := by simp [entryBytes]
  have whole : Hash.ofBytes? h.bytes = some h := dif_pos h.length_eq
  simp only [readEntry, hash, whole, last, Status.ofByte?_toByte, second, third, offset, size]
  rfl

/-- The bytes of the entries of a table. -/
def bytesOf (t : Table IndexEntry) : Bytes := t.flatMap fun e => entryBytes e.1 e.2

theorem length_bytesOf (t : Table IndexEntry) : (bytesOf t).length = entrySize * t.length := by
  induction t with
  | nil => rfl
  | cons e rest ih =>
    rw [bytesOf, List.flatMap_cons, List.length_append, length_entryBytes, List.length_cons, Nat.mul_succ, Nat.add_comm]
    exact congrArg (· + entrySize) ih

/-- An index is read back entry by entry. -/
theorem readIndex_of_has {t : Table IndexEntry} {place : Nat} (has : img.Has place (bytesOf t))
    (fits : ∀ e ∈ t, e.2.Fits) (index : Table IndexEntry) :
    readIndex img place t.length index = .ok (t.foldl (fun t e => t.put e.1 e.2) index) := by
  induction t generalizing place index with
  | nil => rfl
  | cons e rest ih =>
    obtain ⟨first, others⟩ := Image.has_append.mp has
    have read := first.read?
    rw [length_entryBytes] at read others
    rw [List.length_cons, readIndex, read]
    simp only [readEntry_entryBytes (fits e List.mem_cons_self)]
    exact ih others (fun e member => fits e (List.mem_cons_of_mem _ member)) _

/-! ### Headers -/

/-- A file begins as a store file does. -/
structure Headed (img : Image) : Prop where
  size : headerSize ≤ img.size
  magic : img.Has 0 magic
  version : img.Has 8 (Bytes.littleEndian 4 fileVersion)

/-- The two numbers in a header: how many entries the index has, and where it begins. -/
def counters (count offset : Nat) : Bytes := Bytes.littleEndian 8 count ++ Bytes.littleEndian 8 offset

theorem length_counters (count offset : Nat) : (counters count offset).length = 16 := by
  simp [counters, Bytes.length_littleEndian]

/-- A write after the header leaves it alone, except for what it is made for. -/
theorem Headed.write (headed : Headed img) {start : Nat} (after : 12 ≤ start) (data : Bytes) :
    Headed (img.write start data) where
  size := Nat.le_trans headed.size (Image.size_write_le _ _ _)
  magic := headed.magic.write (.inl (by simp only [FileStore.magic, List.length_cons, List.length_nil]; omega))
  version := headed.version.write (.inl (by rw [Bytes.length_littleEndian]; omega))

theorem Headed.resize (headed : Headed img) {size : Nat} (enough : headerSize ≤ size) : Headed (img.resize size) where
  size := by rwa [Image.size_resize]
  magic := headed.magic.resize (Nat.le_trans (by decide) enough)
  version := headed.version.resize (Nat.le_trans (by rw [Bytes.length_littleEndian]; decide) enough)

/-- The store that opening a file gives. -/
def opened (codec : Codec) (settings : Settings) (img : Image) (offset : Nat) (index : Table IndexEntry) :
    FileStore where
  image := img
  index := index
  writeOffset := if offset = 0 then img.size else offset
  codec := codec
  level := settings.compressionLevel.toInt
  syncOnDrop := settings.syncOnDrop

/-- Opening a file goes by the counters in its header. -/
theorem openImage_of_header {codec : Codec} {settings : Settings} {count offset : Nat}
    (valid : settings.validate = .ok ())
    (headed : Headed img) (counts : img.Has 16 (counters count offset)) (count_lt : count < UInt64.size)
    (offset_lt : offset < UInt64.size) :
    openImage codec settings (some img) =
      (if offset = 0 ∨ count = 0 then .ok []
        else if placeLimit ≤ offset then .error .io
        else readIndex img offset count []).map (opened codec settings img offset) := by
  obtain ⟨header, read⟩ : ∃ header, img.read? 0 headerSize = some header := ⟨_, if_pos (by simpa using headed.size)⟩
  obtain ⟨first, second⟩ := Image.has_append.mp counts
  rw [Bytes.length_littleEndian] at second
  have magic : header.take 8 = FileStore.magic := headed.magic.slice read (Nat.zero_le _) (by decide)
  have version : header.slice 8 4 = Bytes.littleEndian 4 fileVersion :=
    headed.version.slice read (Nat.zero_le _) (by decide)
  have counted : header.slice 16 8 = Bytes.littleEndian 8 count := by
    have slice := first.slice read (Nat.zero_le _) (by rw [Bytes.length_littleEndian]; decide)
    rwa [Bytes.length_littleEndian] at slice
  have placed : header.slice 24 8 = Bytes.littleEndian 8 offset := by
    have slice := second.slice read (Nat.zero_le _) (by rw [Bytes.length_littleEndian]; decide)
    rwa [Bytes.length_littleEndian] at slice
  have version_eq : Bytes.ofLittleEndian (Bytes.littleEndian 4 fileVersion) = fileVersion := by decide
  have count_eq : Bytes.ofLittleEndian (Bytes.littleEndian 8 count) = count :=
    Bytes.ofLittleEndian_littleEndian count_lt
  have offset_eq : Bytes.ofLittleEndian (Bytes.littleEndian 8 offset) = offset :=
    Bytes.ofLittleEndian_littleEndian offset_lt
  simp only [openImage, valid, read, magic, version, counted, placed, version_eq, count_eq, offset_eq, ne_eq,
    not_true_eq_false, ↓reduceIte]
  by_cases none : offset = 0 ∨ count = 0
  · rw [if_pos none, if_pos none]
    rfl
  · rw [if_neg none, if_neg none]
    by_cases far : placeLimit ≤ offset
    · rw [if_pos far, if_pos far]
      rfl
    · rw [if_neg far, if_neg far]
      cases readIndex img offset count [] <;> rfl

end FileStore

end MerkleCells
