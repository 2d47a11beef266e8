import MerkleCells.Proofs.Reading
import MerkleCells.Proofs.Trie.Reading

/-!
Cells that are decoded as they were encoded. `Cell.Readable` says that a cell's encoding is read back as a
cell that shows the same marks, with its children held in the form that decoding gives them; it follows
for a value from the same of the children that are written inside it, since these are shorter by two bytes
at least for each level.
-/
namespace MerkleCells

open Reader

/-! ### Encodings depend on marks alone -/

/-- A reference with a given mark. -/
def Mark.ref (m : Mark) : Ref Facts :=
  match m.inlined with
  | some encoding => ⟨.embedded, .direct ⟨encoding, m.hash, true, 1⟩⟩
  | none => ⟨.unknown, .soft m.hash none false⟩

theorem Ref.written_ref_mark (r : Ref Cell) : r.mark.ref.written = r.written := by
  have parts : r.written = r.inlined?.getD (Tag.ref :: r.hash.bytes) := rfl
  rw [show r.mark = ⟨r.hash, r.inlined?⟩ from rfl, parts]
  cases r.inlined? <;> rfl

section Written

variable {α β : Type} [Addressed α] [Addressed β] {g : Ref α → Ref β} (same : ∀ r, (g r).written = r.written)
include same

theorem Node.payload_of_written (kind : TrieKind) (n : Node (Ref α)) : (n.map g).payload kind = n.payload kind := by
  cases n with
  | empty => rfl
  | leaf key value => simp only [Node.map, Node.payload, Node.count, same]
  | branch b =>
    have branch : (b.map g).payload kind = b.payload kind := by
      cases b with
      | mk _ _ entry _ _ =>
        cases kind <;> cases entry <;>
          simp [Branch.payload, Branch.map, Branch.mask, List.foldr_map, List.flatMap_map, same]
    simp only [Node.map, Node.payload, Node.count, branch]
    rfl

/-- An encoding depends on how the children are written and on nothing else of them. -/
theorem Value.encode_of_written (v : Value (Ref α)) : (v.map g).encode = v.encode := by
  have refs : ∀ items : List (Ref α), writeRefs (items.map g) = writeRefs items := fun items => by
    simp only [writeRefs, List.length_map, List.flatMap_map, same]
  have payload : (v.map g).payload = v.payload := by
    cases v with
    | vector items => exact refs items
    | record kind fields => exact refs fields
    | code opcode operands => exact refs operands
    | trie kind node => exact Node.payload_of_written same kind node
    | _ => rfl
  simp only [encode, tag_map, payload]

end Written

/-- Two cells show the same value with children of the same marks. -/
def Cell.Shows (c' c : Cell) : Prop := c'.value.map Ref.mark = c.value.map Ref.mark

namespace Cell.Shows

variable {c c' : Cell}

theorem encoding_eq (shows : c'.Shows c) : c'.encoding = c.encoding := by
  have all : ∀ c : Cell, c.encoding = ((c.value.map Ref.mark).map Mark.ref).encode := fun c => by
    rw [Cell.encoding_eq, Value.map_map]
    exact (Value.encode_of_written Ref.written_ref_mark c.value).symm
  rw [all c', all c, show c'.value.map Ref.mark = c.value.map Ref.mark from shows]

theorem refs_eq (shows : c'.Shows c) : c'.refs.map Ref.mark = c.refs.map Ref.mark := by
  rw [Cell.refs, Cell.refs, ← Value.refs_map, ← Value.refs_map, show c'.value.map Ref.mark = _ from shows]

theorem embeddable_eq (shows : c'.Shows c) : c'.embeddable = c.embeddable := by
  have all : ∀ c : Cell, c.refs.all Ref.isEmbedded = (c.refs.map Ref.mark).all (·.inlined.isSome) := fun c => by
    rw [List.all_map]
    rfl
  rw [Cell.embeddable_eq, Cell.embeddable_eq, shows.encoding_eq, all c', all c, shows.refs_eq]

theorem mark_eq (shows : c'.Shows c) : c'.mark = c.mark := by
  rw [Cell.mark, Cell.mark, shows.encoding_eq, shows.embeddable_eq, Cell.hash_eq, Cell.hash_eq, shows.encoding_eq]

end Cell.Shows

/-! ### Lengths -/

theorem Ref.inlined?_eq_some {r : Ref Cell} {e : Bytes} (inlined : r.inlined? = some e) :
    ∃ c, r.cell? = some c ∧ c.embeddable ∧ c.encoding = e ∧ c.hash = r.hash := by
  obtain ⟨status, c | ⟨h, loader, byMarker⟩⟩ := r
  · simp only [Ref.inlined?] at inlined
    by_cases small : c.embeddable
    · rw [if_pos (show (facts c).embeddable = true from small)] at inlined
      cases inlined
      exact ⟨c, rfl, small, rfl, rfl⟩
    · rw [if_neg (show ¬ (facts c).embeddable = true from small)] at inlined
      cases inlined
  · cases inlined

theorem Cell.length_le_of_embeddable {c : Cell} (small : c.embeddable) : c.encoding.length ≤ Limits.embedded := by
  rw [Cell.embeddable_eq, Bool.and_eq_true, decide_eq_true_eq] at small
  exact small.2

theorem Ref.length_inlined_le {r : Ref Cell} {e : Bytes} (inlined : r.inlined? = some e) :
    e.length ≤ Limits.embedded := by
  obtain ⟨c, -, small, rfl, -⟩ := Ref.inlined?_eq_some inlined
  exact Cell.length_le_of_embeddable small

theorem Ref.length_written_le (r : Ref Cell) : r.written.length ≤ Limits.embedded := by
  cases inlined : r.inlined? with
  | none =>
    rw [written, inlined, Option.getD_none, List.length_cons, r.hash.length_eq]
    decide
  | some e =>
    rw [written, inlined, Option.getD_some]
    exact Ref.length_inlined_le inlined

theorem length_flatMap_le {α : Type} (items : List α) (write : α → Bytes) (bound : Nat)
    (each : ∀ i ∈ items, (write i).length ≤ bound) : (items.flatMap write).length ≤ bound * items.length := by
  induction items with
  | nil => exact Nat.le_refl 0
  | cons i rest ih =>
    have first := each i (by simp)
    have others := ih fun j member => each j (by simp [member])
    rw [List.flatMap_cons, List.length_append, List.length_cons, Nat.mul_succ]
    omega

theorem length_le_flatMap {α : Type} {items : List α} (write : α → Bytes) {i : α} (member : i ∈ items) :
    (write i).length ≤ (items.flatMap write).length := by
  induction items with
  | nil => cases member
  | cons j rest ih =>
    rw [List.flatMap_cons, List.length_append]
    rcases List.mem_cons.mp member with rfl | member
    · omega
    · have := ih member
      omega

theorem length_le_writeRefs {items : List (Ref Cell)} {r : Ref Cell} (member : r ∈ items) :
    r.written.length + 1 ≤ (writeRefs items).length := by
  have pos := Quantity.length_writeCount_pos (UInt64.ofNat items.length)
  have le := length_le_flatMap Ref.written member
  rw [writeRefs, List.length_append]
  omega

theorem Branch.length_le_payload {kind : TrieKind} {b : Branch (Ref Cell)} {r : Ref Cell}
    (member : r ∈ b.refs) (may : b.entry.isSome → kind = .map) : r.written.length ≤ (b.payload kind).length := by
  rw [Branch.payload_eq]
  simp only [List.length_append]
  rcases List.mem_append.mp member with own | below
  · have own : b.entry = some r := by simpa using own
    obtain rfl := may (by rw [own]; rfl)
    rw [own, entryBytes, List.length_cons]
    omega
  · obtain ⟨c, at_c, rfl⟩ := List.mem_map.mp below
    have := length_le_flatMap (fun c : Digit × Ref Cell => c.2.written) at_c
    omega

/-- An entry of its own is written by a branch of a map only. -/
def Value.Showing : Value (Ref Cell) → Prop
  | .trie kind (.branch b) => b.entry.isSome → kind = .map
  | _ => True

/-- A child that is written inside a cell is shorter by two bytes at least. -/
theorem Value.length_le_encode {v : Value (Ref Cell)} {r : Ref Cell} (member : r ∈ v.refs) (showing : v.Showing) :
    r.written.length + 2 ≤ v.encode.length := by
  rw [encode, List.length_cons]
  suffices r.written.length + 1 ≤ v.payload.length by omega
  cases v with
  | vector items => exact length_le_writeRefs member
  | record kind fields => exact length_le_writeRefs member
  | code opcode operands => exact length_le_writeRefs member
  | trie kind node =>
    have pos := Quantity.length_writeCount_pos node.count
    simp only [payload, Node.payload, List.length_append]
    cases node with
    | empty => cases member
    | leaf key value =>
      obtain rfl : r = value := by simpa [refs, Node.refs] using member
      simp only [List.length_append]
      omega
    | branch b =>
      have le : r.written.length ≤ (b.payload kind).length := Branch.length_le_payload member showing
      simp only
      omega
  | _ => cases member

/-! ### Values -/

/-- What the reader of values asks of a value, nodes of tries apart. -/
def Value.Readable {ρ : Type} : Value ρ → Prop
  | .double bits => isNaN bits → bits = nanBits
  | .string text => text.utf8ByteSize ≤ Limits.blob
  | .blob bytes => bytes.length ≤ Limits.blob
  | .symbol name => name.isEmpty = false ∧ name.utf8ByteSize ≤ Limits.symbol
  | .keyword name => name.isEmpty = false ∧ name.utf8ByteSize ≤ Limits.symbol
  | .vector items => items.length ≤ Limits.fields
  | .record _ fields => fields.length ≤ Limits.fields
  | .code _ operands => operands.length ≤ Limits.fields
  | _ => True

theorem length_writeBlob_le {data : Bytes} (le : data.length ≤ Limits.blob) :
    (writeBlob data).length ≤ Limits.blob + 2 := by
  have count : (Quantity.writeCount (UInt64.ofNat data.length)).length ≤ 2 :=
    Quantity.length_writeCount_le_two (lt_of_le_of_lt le (by decide))
  rw [writeBlob, List.length_append]
  omega

theorem length_writeRefs_le {items : List (Ref Cell)} (le : items.length ≤ Limits.fields) :
    (writeRefs items).length ≤ Limits.embedded * Limits.fields + 2 := by
  have count : (Quantity.writeCount (UInt64.ofNat items.length)).length ≤ 2 :=
    Quantity.length_writeCount_le_two (lt_of_le_of_lt le (by decide))
  have each := length_flatMap_le items Ref.written Limits.embedded fun r _ => r.length_written_le
  have total := Nat.mul_le_mul_left Limits.embedded le
  rw [writeRefs, List.length_append]
  omega

/-- Encodings of what readers take are no longer than what decoders take. -/
theorem Value.length_encode_le {v : Value (Ref Cell)} (readable : v.Readable)
    (trie : ∀ kind n, v = .trie kind n → (n.payload kind).length < Limits.encoding) :
    v.encode.length ≤ Limits.encoding := by
  rw [encode, List.length_cons]
  suffices v.payload.length < Limits.encoding by omega
  have name : ∀ name : String, name.utf8ByteSize ≤ Limits.symbol →
      (writeBlob (Bytes.ofText name)).length < Limits.encoding := fun name le =>
    lt_of_le_of_lt (length_writeBlob_le (by rw [length_ofText]; exact le.trans (by decide))) (by decide)
  cases v with
  | integer i => exact lt_of_le_of_lt (Quantity.length_writeLong_le i) (by decide)
  | extension kind value => exact lt_of_le_of_lt (Quantity.length_writeCount_le value) (by decide)
  | double bits =>
    rw [payload, Bytes.length_bigEndian]
    decide
  | string text =>
    exact lt_of_le_of_lt (length_writeBlob_le (by rw [length_ofText]; exact readable)) (by decide)
  | blob data => exact lt_of_le_of_lt (length_writeBlob_le readable) (by decide)
  | symbol text => exact name text readable.2
  | keyword text => exact name text readable.2
  | vector items => exact lt_of_le_of_lt (length_writeRefs_le readable) (by decide)
  | record kind fields => exact lt_of_le_of_lt (length_writeRefs_le readable) (by decide)
  | code opcode operands => exact lt_of_le_of_lt (length_writeRefs_le readable) (by decide)
  | trie kind n => exact trie kind n rfl
  | _ => exact (by decide : 0 < Limits.encoding)

/-- The tag that stands for a child's hash begins no encoding. -/
theorem Value.tag_ne_ref {ρ : Type} (v : Value ρ) : v.tag ≠ Tag.ref := by
  cases v with
  | bool b => cases b <;> simp only [tag] <;> decide
  | record kind fields =>
    have all : ∀ d : Digit, Tag.record + UInt8.ofNat d.val ≠ Tag.ref := by decide
    exact all kind
  | code opcode operands =>
    have all : ∀ d : Digit, Tag.code + UInt8.ofNat d.val ≠ Tag.ref := by decide
    exact all opcode
  | extension kind value =>
    have all : ∀ d : Digit, Tag.extension + UInt8.ofNat d.val ≠ Tag.ref := by decide
    exact all kind
  | trie kind node => cases kind <;> simp only [tag] <;> decide
  | _ => simp only [tag]; decide

namespace Reader

variable {child : Reader (Ref Cell)} {image : Ref Cell → Ref Cell}

/-- What the reader of values does after a tag that carries a digit. -/
def valueOfDigit (child : Reader (Ref Cell)) (tag : UInt8) : Reader (Value (Ref Cell)) :=
  if (Digits.high tag).val = 0xA then do return .record (Digits.low tag) (← refs child)
  else if (Digits.high tag).val = 0xC then do return .code (Digits.low tag) (← refs child)
  else if (Digits.high tag).val = 0xE then do return .extension (Digits.low tag) (← count)
  else if tag = Tag.ref then fault .markerAsValue
  else fault (.unknownTag tag)

theorem reads_value_of_digit {tag : UInt8} {enc : Bytes} {v : Value (Ref Cell)}
    (carries : (Digits.high tag).val ∈ [0xA, 0xC, 0xE]) (reads : Reads (valueOfDigit child tag) enc v) :
    Reads (value child) (tag :: enc) v := by
  have other : ∀ t : UInt8, (Digits.high t).val ∉ [0xA, 0xC, 0xE] → tag ≠ t := by
    rintro t none rfl
    exact none carries
  show Reads _ ([tag] ++ enc) _
  refine (reads_byte tag).bind ?_
  rw [if_neg (other Tag.null (by decide)), if_neg (other Tag.false_ (by decide)),
    if_neg (other Tag.true_ (by decide)), if_neg (other Tag.integer (by decide)),
    if_neg (other Tag.double (by decide)), if_neg (other Tag.string (by decide)),
    if_neg (other Tag.blob (by decide)), if_neg (other Tag.symbol (by decide)),
    if_neg (other Tag.keyword (by decide)), if_neg (other Tag.vector (by decide)),
    if_neg (other Tag.map (by decide)), if_neg (other Tag.set (by decide))]
  exact reads

theorem reads_value {v : Value (Ref Cell)} (readable : v.Readable)
    (each : ∀ r ∈ v.refs, Reads child r.written (image r))
    (trie : ∀ kind n, v = .trie kind n → Reads (node kind child) (n.payload kind) (n.map image)) :
    Reads (value child) v.encode (v.map image) := by
  cases v with
  | nil => exact (reads_byte Tag.null).last (.done _)
  | bool b => cases b <;> exact (reads_byte _).last (.done _)
  | integer i => exact (reads_byte Tag.integer).bind ((reads_long i).map Value.integer)
  | double bits => exact (reads_byte Tag.double).bind ((reads_double readable).map Value.double)
  | string text => exact (reads_byte Tag.string).bind ((reads_text readable (by decide)).map Value.string)
  | blob data => exact (reads_byte Tag.blob).bind ((reads_blob readable (by decide)).map Value.blob)
  | symbol name => exact (reads_byte Tag.symbol).bind ((reads_name readable.1 readable.2).map Value.symbol)
  | keyword name => exact (reads_byte Tag.keyword).bind ((reads_name readable.1 readable.2).map Value.keyword)
  | vector items => exact (reads_byte Tag.vector).bind ((reads_refs each readable).map Value.vector)
  | record kind fields =>
    have high : (Digits.high (Value.record kind fields : Value (Ref Cell)).tag).val = 0xA :=
      (by decide : ∀ d : Digit, (Digits.high (Tag.record + UInt8.ofNat d.val)).val = 0xA) kind
    have low : Digits.low (Value.record kind fields : Value (Ref Cell)).tag = kind :=
      (by decide : ∀ d : Digit, Digits.low (Tag.record + UInt8.ofNat d.val) = d) kind
    refine reads_value_of_digit (by rw [high]; decide) ?_
    rw [valueOfDigit, high, low, if_pos rfl]
    exact (reads_refs each readable).map (Value.record kind)
  | code opcode operands =>
    have high : (Digits.high (Value.code opcode operands : Value (Ref Cell)).tag).val = 0xC :=
      (by decide : ∀ d : Digit, (Digits.high (Tag.code + UInt8.ofNat d.val)).val = 0xC) opcode
    have low : Digits.low (Value.code opcode operands : Value (Ref Cell)).tag = opcode :=
      (by decide : ∀ d : Digit, Digits.low (Tag.code + UInt8.ofNat d.val) = d) opcode
    refine reads_value_of_digit (by rw [high]; decide) ?_
    rw [valueOfDigit, high, low, if_neg (by decide), if_pos rfl]
    exact (reads_refs each readable).map (Value.code opcode)
  | extension kind value =>
    have high : (Digits.high (Value.extension kind value : Value (Ref Cell)).tag).val = 0xE :=
      (by decide : ∀ d : Digit, (Digits.high (Tag.extension + UInt8.ofNat d.val)).val = 0xE) kind
    have low : Digits.low (Value.extension kind value : Value (Ref Cell)).tag = kind :=
      (by decide : ∀ d : Digit, Digits.low (Tag.extension + UInt8.ofNat d.val) = d) kind
    refine reads_value_of_digit (by rw [high]; decide) ?_
    rw [valueOfDigit, high, low, if_neg (by decide), if_neg (by decide), if_pos rfl]
    exact (reads_count value).map (Value.extension kind)
  | trie kind n =>
    cases kind with
    | map => exact (reads_byte Tag.map).bind ((trie .map n rfl).map (Value.trie .map))
    | set => exact (reads_byte Tag.set).bind ((trie .set n rfl).map (Value.trie .set))

end Reader

/-! ### Cells -/

/-- The form in which a decoder holds a child: directly if it is written inside its parent, and otherwise by its
hash. -/
def Ref.Decoded (loader : Option LoaderId) (r : Ref Cell) : Prop :=
  (∃ c : Cell, r = ⟨.embedded, .direct c⟩ ∧ c.embeddable) ∨ r = Ref.ofMarker r.hash loader

/-- A cell's encoding can be read back. -/
structure Cell.Readable (c : Cell) : Prop where
  showing : c.value.Showing
  short : c.encoding.length ≤ Limits.encoding
  /-- It is read as a cell that shows the same, if there are as many levels left as the children that are written
  inside it may need. -/
  reads : ∀ loader depth, (∀ r ∈ c.refs, ∀ e, r.inlined? = some e → e.length ≤ 2 * depth) →
    ∃ c' : Cell, Reads (Reader.cell loader (depth + 1)) c.encoding c' ∧ c'.Shows c ∧ ∀ r ∈ c'.refs, r.Decoded loader

/-- What a mark shows of a cell that is written inside its parent can be read back. -/
def Mark.Readable (m : Mark) : Prop :=
  ∀ e, m.inlined = some e → ∃ c : Cell, c.Readable ∧ c.encoding = e ∧ c.embeddable

theorem Cell.Readable.mark {c : Cell} (readable : c.Readable) : c.mark.Readable := by
  intro e inlined
  by_cases small : c.embeddable
  · rw [Cell.mark, if_pos small] at inlined
    cases inlined
    exact ⟨c, readable, rfl, small⟩
  · rw [Cell.mark, if_neg small] at inlined
    cases inlined

namespace Cell

variable {loader : Option LoaderId} {depth : Nat} {c : Cell}

theorem encoding_eq_cons (c : Cell) : c.encoding = c.value.tag :: c.value.payload := encoding_eq c

/-- A cell that fits into the levels that are left is read, and so is what is written inside it. -/
theorem Readable.reads_within (readable : c.Readable) (loader : Option LoaderId) (fits : c.encoding.length ≤ 2 * depth) :
    ∃ c' : Cell, Reads (Reader.cell loader depth) c.encoding c' ∧ c'.Shows c ∧ ∀ r ∈ c'.refs, r.Decoded loader := by
  cases depth with
  | zero =>
    rw [encoding_eq_cons, List.length_cons] at fits
    omega
  | succ depth =>
    refine readable.reads loader depth fun r member e inlined => ?_
    have le := Value.length_le_encode (v := c.value) member readable.showing
    rw [← encoding_eq, Ref.written, inlined, Option.getD_some] at le
    omega

end Cell

namespace Reader

variable {loader : Option LoaderId} {depth : Nat}

theorem reads_marker (h : Hash) (cell : Reader Cell) :
    Reads (ref loader cell) (Tag.ref :: h.bytes) (Ref.ofMarker h loader) := by
  intro rest
  have read := (reads_byte Tag.ref).bind (f := fun _ => do return Ref.ofMarker (← hash) loader)
    ((reads_hash h).map fun h => (Ref.ofMarker h loader : Ref Cell)) rest
  exact read

/-- A cell that is written inside its parent is read where the tag of a hash does not stand. -/
theorem reads_inlined {cell : Reader Cell} {c c' : Cell} (read : Reads cell c.encoding c') (small : c'.embeddable) :
    Reads (ref loader cell) c.encoding ⟨.embedded, .direct c'⟩ := by
  have form : (Ref.direct c').withStatus .embedded = ⟨.embedded, .direct c'⟩ := by
    rw [Ref.direct, small]
    rfl
  have later : Reads (do
      let c ← cell
      if !c.embeddable then fault (.inlineTooLarge c.value.tag)
      return (Ref.direct c).withStatus .embedded) c.encoding ⟨.embedded, .direct c'⟩ := by
    refine read.last ?_
    dsimp only
    rw [small, form, if_neg (by decide)]
    exact .done _
  intro rest
  have read' := later rest
  rw [c.encoding_eq_cons, List.cons_append] at read' ⊢
  rw [ref, StateT.run_bind]
  show StateT.run (if c.value.tag = Tag.ref then _ else _) _ = _
  rw [if_neg c.value.tag_ne_ref]
  exact read'

theorem reads_ref {r : Ref Cell} (readable : r.mark.Readable) (fits : ∀ e, r.inlined? = some e → e.length ≤ 2 * depth) :
    ∃ r', Reads (ref loader (cell loader depth)) r.written r' ∧ r'.mark = r.mark ∧ r'.Decoded loader := by
  have mark : r.mark = ⟨r.hash, r.inlined?⟩ := rfl
  cases inlined : r.inlined? with
  | none =>
    refine ⟨Ref.ofMarker r.hash loader, ?_, ?_, .inr rfl⟩
    · rw [Ref.written, inlined, Option.getD_none]
      exact reads_marker r.hash _
    · rw [mark, inlined]
      rfl
  | some e =>
    obtain ⟨c, reads, rfl, small⟩ := readable e inlined
    obtain ⟨c', read, shows, -⟩ := reads.reads_within loader (fits _ inlined)
    obtain ⟨held, -, -, encoding, hash⟩ := Ref.inlined?_eq_some inlined
    have small' : c'.embeddable = true := shows.embeddable_eq.trans small
    refine ⟨⟨.embedded, .direct c'⟩, ?_, ?_, .inl ⟨c', rfl, small'⟩⟩
    · rw [Ref.written, inlined, Option.getD_some]
      exact reads_inlined read small'
    · rw [Ref.mark_direct, shows.mark_eq, Cell.mark, if_pos small, mark, inlined, ← hash, held.hash_eq, encoding,
        c.hash_eq]

/-- A child that is held directly after it has been read shows what was written. -/
theorem shows_of_reads_ref {r r' : Ref Cell} {c c' : Cell} (read : Reads (ref loader (cell loader depth)) r.written r')
    (fits : ∀ e, r.inlined? = some e → e.length ≤ 2 * depth) (mark : r.mark = c.mark) (readable : c.Readable)
    (held : r'.cell? = some c') : c'.Shows c := by
  have inlined_eq : r.inlined? = c.mark.inlined := congrArg Mark.inlined mark
  by_cases small : c.embeddable
  · have inlined : r.inlined? = some c.encoding := by rw [inlined_eq, Cell.mark, if_pos small]
    obtain ⟨c'', read', shows, -⟩ := readable.reads_within loader (fits _ inlined)
    rw [Ref.written, inlined, Option.getD_some] at read
    rw [read.unique (reads_inlined read' (shows.embeddable_eq.trans small))] at held
    cases held
    exact shows
  · have soft : r.inlined? = none := by rw [inlined_eq, Cell.mark, if_neg small]
    rw [Ref.written, soft, Option.getD_none] at read
    rw [read.unique (reads_marker r.hash _)] at held
    cases held

end Reader

theorem Value.map_congr {ρ σ : Type} {f g : ρ → σ} {v : Value ρ} (same : ∀ r ∈ v.refs, f r = g r) :
    v.map f = v.map g := by
  rw [← pmap_eq_map (P := fun r => f r = g r) f v same, ← pmap_eq_map (P := fun r => f r = g r) g v same]
  congr 1
  funext r agree
  exact agree

/-- A node is read as it is written if its children are. -/
def Node.Reads (kind : TrieKind) (n : Node (Ref Cell)) : Prop :=
  ∀ loader depth image, (∀ r ∈ n.refs, ∀ e, r.inlined? = some e → e.length ≤ 2 * depth) →
    (∀ r ∈ n.refs, Reader.Reads (ref loader (cell loader depth)) r.written (image r)) →
    (∀ r ∈ n.refs, (image r).mark = r.mark) →
    Reader.Reads (node kind (ref loader (cell loader depth))) (n.payload kind) (n.map image)

namespace Cell

variable {c c₁ c₂ : Cell}

/-- A cell can be read if its value can, down to what is written inside it. -/
theorem Readable.ofValue (value : c.value.Readable) (showing : c.value.Showing)
    (short : c.encoding.length ≤ Limits.encoding) (refs : ∀ r ∈ c.refs, r.mark.Readable)
    (trie : ∀ kind n, c.value = .trie kind n → n.Reads kind) : c.Readable := by
  refine ⟨showing, short, fun loader depth fits => ?_⟩
  have each : ∀ r, ∃ r', r ∈ c.refs →
      Reads (ref loader (cell loader depth)) r.written r' ∧ r'.mark = r.mark ∧ r'.Decoded loader := by
    intro r
    by_cases member : r ∈ c.refs
    · obtain ⟨r', read⟩ := reads_ref (refs r member) (fits r member)
      exact ⟨r', fun _ => read⟩
    · exact ⟨r, fun member' => absurd member' member⟩
  choose image reads using each
  refine ⟨Cell.ofValue (c.value.map image), ?_, ?_, ?_⟩
  · rw [encoding_eq, Reader.cell]
    refine Reader.Reads.map (reads_value value (fun r member => (reads r member).1) fun kind n shape => ?_) Cell.ofValue
    have same : n.refs = c.refs := by rw [Cell.refs, shape]; rfl
    exact trie kind n shape loader depth image (same ▸ fits) (fun r member => (reads r (same ▸ member)).1)
      fun r member => (reads r (same ▸ member)).2.1
  · rw [Shows, value_ofValue, Value.map_map]
    exact Value.map_congr fun r member => (reads r member).2.1
  · intro r member
    rw [Cell.refs, value_ofValue, Value.refs_map] at member
    obtain ⟨r', held, rfl⟩ := List.mem_map.mp member
    exact (reads r' held).2.2

/-- Cells that can be read and have the same encoding show the same. -/
theorem Readable.shows (readable₁ : c₁.Readable) (readable₂ : c₂.Readable) (same : c₁.encoding = c₂.encoding) :
    c₁.Shows c₂ := by
  obtain ⟨c₁', read₁, shows₁, -⟩ := readable₁.reads none Limits.embedded fun r _ e inlined => by
    have := Ref.length_inlined_le inlined
    omega
  obtain ⟨c₂', read₂, shows₂, -⟩ := readable₂.reads none Limits.embedded fun r _ e inlined => by
    have := Ref.length_inlined_le inlined
    omega
  rw [same] at read₁
  have equal : c₁' = c₂' := read₁.unique read₂
  subst equal
  exact shows₁.symm.trans shows₂

/-- Decoding an encoding that can be read back gives a cell that shows the same. -/
theorem Readable.decode (readable : c.Readable) (loader : Option LoaderId) :
    ∃ c' : Cell, decode loader c.encoding = .ok c' ∧ c'.Shows c ∧ ∀ r ∈ c'.refs, r.Decoded loader := by
  obtain ⟨c', read, shows, decoded⟩ := readable.reads loader (Limits.depth - 1) fun r _ e inlined => by
    have := Ref.length_inlined_le inlined
    simp only [Limits.embedded, Limits.depth] at this ⊢
    omega
  refine ⟨c', ?_, shows, decoded⟩
  have run := read []
  rw [List.append_nil] at run
  have nonempty : c.encoding.isEmpty = false := by rw [encoding_eq_cons]; rfl
  rw [MerkleCells.decode, nonempty, if_neg (by decide), if_neg (not_lt.mpr readable.short)]
  beta_reduce
  rw [show Limits.depth = Limits.depth - 1 + 1 from rfl, run]
  simp [bind, Except.bind, shows.encoding_eq, pure, Except.pure]

end Cell

end MerkleCells
