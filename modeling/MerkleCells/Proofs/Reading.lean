import MerkleCells.Cell.Reader
import MerkleCells.Proofs.Quantity

/-!
Readers that give back what was written. `Reader.Reads x enc a` says that a reader takes `enc` from the
front of its input and gives `a`, whatever comes after; a reader made of several reads one part after the
other.
-/
namespace MerkleCells.Reader

variable {α β : Type}

/-- A reader takes `enc` from the front of any input and gives `a`. -/
def Reads (x : Reader α) (enc : Bytes) (a : α) : Prop :=
  ∀ rest, StateT.run x (enc ++ rest) = .ok (a, rest)

namespace Reads

variable {x : Reader α} {f : α → Reader β} {enc enc' : Bytes} {a : α} {b : β}

theorem done (a : α) : Reads (pure a) [] a := fun _ => rfl

theorem bind (first : Reads x enc a) (second : Reads (f a) enc' b) : Reads (x >>= f) (enc ++ enc') b := by
  intro rest
  rw [StateT.run_bind, List.append_assoc, first]
  exact second rest

theorem map (first : Reads x enc a) (g : α → β) : Reads (x >>= fun a => pure (g a)) enc (g a) := by
  have both := first.bind (f := fun a => pure (g a)) (done (g a))
  rwa [List.append_nil] at both

theorem last (first : Reads x enc a) (second : Reads (f a) [] b) : Reads (x >>= f) enc b := by
  have both := first.bind second
  rwa [List.append_nil] at both

theorem unique {a' : α} (left : Reads x enc a) (right : Reads x enc a') : a = a' := by
  have same := (left []).symm.trans (right [])
  cases same
  rfl

end Reads

theorem reads_byte (b : UInt8) : Reads byte [b] b := fun _ => rfl

theorem reads_bytes {data : Bytes} {n : Nat} (length : data.length = n) : Reads (bytes n) data data := by
  subst length
  intro rest
  simp only [bytes, StateT.run_bind, StateT.run_get, pure_bind]
  rw [if_neg (by simp)]
  simp [StateT.run_set]
  rfl

theorem reads_count (value : UInt64) : Reads count (Quantity.writeCount value) value := by
  intro rest
  simp only [count, StateT.run_bind, StateT.run_get, pure_bind, Quantity.readCount_writeCount]
  rfl

theorem reads_long (value : Int64) : Reads long (Quantity.writeLong value) value := by
  intro rest
  simp only [long, StateT.run_bind, StateT.run_get, pure_bind, Quantity.readLong_writeLong]
  rfl

theorem reads_length {n limit : Nat} (le : n ≤ limit) (room : n < UInt64.size) :
    Reads (length limit) (Quantity.writeCount (UInt64.ofNat n)) n := by
  have value : (UInt64.ofNat n).toNat = n := by
    rw [UInt64.toNat_ofNat']
    exact Nat.mod_eq_of_lt room
  refine (reads_count (UInt64.ofNat n)).last ?_
  dsimp only
  rw [value, if_neg (not_lt.mpr le)]
  exact .done n

theorem reads_hash (h : Hash) : Reads hash h.bytes h := by
  refine (reads_bytes h.length_eq).last ?_
  have whole : Hash.ofBytes? h.bytes = some h := dif_pos h.length_eq
  rw [whole]
  exact .done h

theorem reads_blob {data : Bytes} {limit : Nat} (le : data.length ≤ limit) (room : limit < UInt64.size) :
    Reads (blob limit) (writeBlob data) data :=
  (reads_length le (by omega)).bind (reads_bytes rfl)

theorem length_ofText (text : String) : (Bytes.ofText text).length = text.utf8ByteSize := rfl

theorem toText?_ofText (text : String) : (Bytes.ofText text).toText? = some text := by
  have bytes : (⟨(Bytes.ofText text).toArray⟩ : ByteArray) = text.toByteArray := rfl
  rw [Bytes.toText?, bytes, String.fromUTF8?, dif_pos text.isValidUTF8]
  rfl

theorem reads_text {text : String} {limit : Nat} (le : text.utf8ByteSize ≤ limit) (room : limit < UInt64.size) :
    Reads (Reader.text limit) (writeBlob (Bytes.ofText text)) text := by
  refine (reads_blob (by rw [length_ofText]; exact le) room).last ?_
  rw [toText?_ofText]
  exact .done text

theorem reads_name {name : String} (nonempty : name.isEmpty = false) (le : name.utf8ByteSize ≤ Limits.symbol) :
    Reads Reader.name (writeBlob (Bytes.ofText name)) name := by
  refine (reads_text le (by decide)).last ?_
  dsimp only
  rw [nonempty, if_neg (by decide)]
  exact .done name

theorem reads_double {bits : UInt64} (canonical : Value.isNaN bits → bits = Value.nanBits) :
    Reads double (Bytes.bigEndian 8 bits.toNat) bits := by
  refine (reads_bytes (Bytes.length_bigEndian 8 _)).last ?_
  have value : UInt64.ofNat (Bytes.ofBigEndian (Bytes.bigEndian 8 bits.toNat)) = bits := by
    rw [Bytes.ofBigEndian_bigEndian (by simpa using bits.toNat_lt), UInt64.ofNat_toNat]
  have allowed : (Value.isNaN bits && bits != Value.nanBits) = false := by
    by_cases nan : Value.isNaN bits
    · simp [canonical nan]
    · simp [nan]
  dsimp only
  rw [value, allowed, if_neg (by decide)]
  exact .done bits

theorem reads_replicate {σ : Type} {item : Reader α} {write : σ → Bytes} {image : σ → α} {items : List σ}
    (each : ∀ i ∈ items, Reads item (write i) (image i)) :
    Reads (replicate item items.length) (items.flatMap write) (items.map image) := by
  induction items with
  | nil => exact .done []
  | cons i rest ih =>
    rw [List.length_cons, replicate, List.flatMap_cons, List.map_cons]
    refine (each i (by simp)).bind ?_
    exact (ih fun j member => each j (by simp [member])).map (image i :: ·)

theorem reads_refs {child : Reader (Ref Cell)} {image : Ref Cell → Ref Cell} {items : List (Ref Cell)}
    (each : ∀ r ∈ items, Reads child r.written (image r)) (le : items.length ≤ Limits.fields) :
    Reads (refs child) (writeRefs items) (items.map image) :=
  (reads_length le (lt_of_le_of_lt le (by decide))).bind (reads_replicate each)

end MerkleCells.Reader
