import MerkleCells.Proofs.Decoding
import MerkleCells.Proofs.Trie.Accepting

/-!
The reader alone is canonical: what it reads as a cell is that cell's encoding. A child that is read from its hash
is written as its hash again, and one that was written inside its parent is small enough to be written there.
-/
namespace MerkleCells

/-- What the reader of values asks of a value. -/
def Value.Accepted (v : Value (Ref Cell)) : Prop := v.Readable ∧ ∀ kind n, v = .trie kind n → n.Accepted kind

theorem Value.Readable.accepted {v : Value (Ref Cell)} (readable : v.Readable) (plain : v.isTrie = false) : v.Accepted := by
  refine ⟨readable, fun kind n same => ?_⟩
  rw [same] at plain
  cases plain

namespace Reader

variable {child : Reader (Ref Cell)} {P : Ref Cell → Prop}

/-- A digit is what is left of a tag if the tag's high half is known. -/
theorem tag_eq {tag first : UInt8} {half : Nat} (high : (Digits.high tag).val = half) (first_eq : first.toNat = 16 * half) :
    first + UInt8.ofNat (Digits.low tag).val = tag := by
  apply UInt8.toNat_inj.mp
  have fits := tag.toNat_lt
  have high : tag.toNat / 16 = half := high
  have low : (Digits.low tag).val = tag.toNat % 16 := rfl
  rw [UInt8.toNat_add, UInt8.toNat_ofNat', low, first_eq]
  omega

theorem takes_valueOfDigit (each : Takes child fun enc r => enc = r.written ∧ P r) (tag : UInt8) :
    Takes (valueOfDigit child tag) fun enc v => tag :: enc = v.encode ∧ v.Accepted ∧ ∀ r ∈ v.refs, P r := by
  rw [valueOfDigit]
  by_cases isRecord : (Digits.high tag).val = 0xA
  · rw [if_pos isRecord]
    refine (takes_refs each).map (Value.record (Digits.low tag)) ?_
    rintro _ fields ⟨rfl, le, all⟩
    refine ⟨?_, Value.Readable.accepted le rfl, all⟩
    rw [Value.encode, Value.tag, tag_eq isRecord rfl, Value.payload]
  rw [if_neg isRecord]
  by_cases isCode : (Digits.high tag).val = 0xC
  · rw [if_pos isCode]
    refine (takes_refs each).map (Value.code (Digits.low tag)) ?_
    rintro _ operands ⟨rfl, le, all⟩
    refine ⟨?_, Value.Readable.accepted le rfl, all⟩
    rw [Value.encode, Value.tag, tag_eq isCode rfl, Value.payload]
  rw [if_neg isCode]
  by_cases isExtension : (Digits.high tag).val = 0xE
  · rw [if_pos isExtension]
    refine takes_count.map (Value.extension (Digits.low tag)) ?_
    rintro _ value rfl
    refine ⟨?_, Value.Readable.accepted trivial rfl, by simp [Value.refs]⟩
    rw [Value.encode, Value.tag, tag_eq isExtension rfl, Value.payload]
  rw [if_neg isExtension]
  split <;> exact .fault (by simp)

theorem takes_value (each : Takes child fun enc r => enc = r.written ∧ P r) :
    Takes (value child) fun enc v => enc = v.encode ∧ v.Accepted ∧ ∀ r ∈ v.refs, P r := by
  have plain : ∀ v : Value (Ref Cell), v.Readable → v.isTrie = false → v.refs = [] →
      v.Accepted ∧ ∀ r ∈ v.refs, P r := by
    intro v readable plain none
    rw [none]
    exact ⟨readable.accepted plain, by simp⟩
  refine takes_byte.bind ?_
  rintro _ tag rfl
  refine .ite (fun is => ?null) fun _ => .ite (fun is => ?false) fun _ => .ite (fun is => ?true) fun _ =>
    .ite (fun is => ?integer) fun _ => .ite (fun is => ?double) fun _ => .ite (fun is => ?string) fun _ =>
    .ite (fun is => ?blob) fun _ => .ite (fun is => ?symbol) fun _ => .ite (fun is => ?keyword) fun _ =>
    .ite (fun is => ?vector) fun _ => .ite (fun is => ?map) fun _ => .ite (fun is => ?set) fun _ =>
    takes_valueOfDigit each tag
  all_goals subst is
  case null => exact .done ⟨rfl, plain _ trivial rfl rfl⟩
  case false => exact .done ⟨rfl, plain _ trivial rfl rfl⟩
  case true => exact .done ⟨rfl, plain _ trivial rfl rfl⟩
  case integer =>
    refine takes_long.map Value.integer ?_
    rintro _ i rfl
    exact ⟨rfl, plain _ trivial rfl rfl⟩
  case double =>
    refine takes_double.map Value.double ?_
    rintro _ bits ⟨rfl, canonical⟩
    exact ⟨rfl, plain _ canonical rfl rfl⟩
  case string =>
    refine (takes_text Limits.blob).map Value.string ?_
    rintro _ text ⟨rfl, le⟩
    exact ⟨rfl, plain _ le rfl rfl⟩
  case blob =>
    refine (takes_blob Limits.blob).map Value.blob ?_
    rintro _ data ⟨rfl, le⟩
    exact ⟨rfl, plain _ le rfl rfl⟩
  case symbol =>
    refine takes_name.map Value.symbol ?_
    rintro _ name ⟨rfl, limits⟩
    exact ⟨rfl, plain _ limits rfl rfl⟩
  case keyword =>
    refine takes_name.map Value.keyword ?_
    rintro _ name ⟨rfl, limits⟩
    exact ⟨rfl, plain _ limits rfl rfl⟩
  case vector =>
    refine (takes_refs each).map Value.vector ?_
    rintro _ items ⟨rfl, le, all⟩
    exact ⟨rfl, Value.Readable.accepted le rfl, all⟩
  case map =>
    refine (takes_node each).map (Value.trie .map) ?_
    rintro _ n ⟨rfl, accepted, all⟩
    refine ⟨rfl, ⟨trivial, ?_⟩, all⟩
    rintro kind n' ⟨⟩
    exact accepted
  case set =>
    refine (takes_node each).map (Value.trie .set) ?_
    rintro _ n ⟨rfl, accepted, all⟩
    refine ⟨rfl, ⟨trivial, ?_⟩, all⟩
    rintro kind n' ⟨⟩
    exact accepted

end Reader

theorem Ref.inlined?_direct {c : Cell} {status : Status} (small : c.embeddable) :
    Ref.inlined? ⟨status, .direct c⟩ = some c.encoding := if_pos small

/-- What readers of cells make of an input: each value is one that they accept, and so are the cells that are
written inside it. -/
inductive Cell.Accepted (loader : Option LoaderId) : Cell → Prop where
  | intro (c : Cell) (value : c.value.Accepted) (refs : ∀ r ∈ c.refs, r.Decoded loader)
      (children : ∀ r ∈ c.refs, ∀ d, r.cell? = some d → Accepted loader d) : Accepted loader c

namespace Cell.Accepted

variable {loader : Option LoaderId} {c : Cell} {r : Ref Cell}

theorem value (accepted : c.Accepted loader) : c.value.Accepted := by
  cases accepted with
  | intro _ value => exact value

theorem decoded (accepted : c.Accepted loader) (member : r ∈ c.refs) : r.Decoded loader := by
  cases accepted with
  | intro _ _ refs => exact refs r member

theorem held (accepted : c.Accepted loader) (member : r ∈ c.refs) {d : Cell} (held : r.cell? = some d) :
    d.Accepted loader := by
  cases accepted with
  | intro _ _ _ children => exact children r member d held

end Cell.Accepted

namespace Reader

variable {loader : Option LoaderId} {cell : Reader Cell}

/-- A child is written back in the form in which it was read. -/
theorem takes_ref (each : Takes cell fun enc c => enc = c.encoding ∧ c.Accepted loader) :
    Takes (ref loader cell) fun enc r =>
      enc = r.written ∧ r.Decoded loader ∧ ∀ d, r.cell? = some d → d.Accepted loader := by
  refine takes_peek fun tag => .ite (fun marked => ?_) fun _ => ?_
  · subst marked
    refine takes_byte.bind ?_
    rintro _ first rfl
    refine takes_hash.map (Ref.ofMarker · loader) ?_
    rintro _ h rfl
    refine ⟨first, h.bytes, rfl, ?_⟩
    rintro rfl
    exact ⟨rfl, .inr rfl, fun d held => by cases held⟩
  · refine each.bind ?_
    rintro _ c ⟨rfl, accepted⟩
    refine .check (by simp) fun unfit => ?_
    have small : c.embeddable = true := by simpa using unfit
    have form : (Ref.direct c).withStatus .embedded = ⟨.embedded, .direct c⟩ := by
      rw [Ref.direct, small]
      rfl
    have written : Ref.written ⟨.embedded, .direct c⟩ = c.encoding := by
      rw [Ref.written, Ref.inlined?_direct small]
      rfl
    rw [form]
    refine .done ⟨c.value.tag, c.value.payload, ?_, fun _ => ⟨?_, .inl ⟨c, rfl, small⟩, ?_⟩⟩
    · rw [List.append_nil, c.encoding_eq_cons]
    · rw [List.append_nil, written]
    · rintro d ⟨⟩
      exact accepted

theorem takes_cell (loader : Option LoaderId) (depth : Nat) :
    Takes (Reader.cell loader depth) fun enc c => enc = c.encoding ∧ c.Accepted loader := by
  induction depth with
  | zero => exact .fault (by simp)
  | succ depth ih =>
    refine (takes_value (takes_ref ih)).map Cell.ofValue ?_
    rintro _ v ⟨rfl, accepted, all⟩
    have value : (Cell.ofValue v).value = v := Cell.value_ofValue v
    refine ⟨?_, .intro _ ?_ ?_ ?_⟩
    · rw [Cell.encoding_eq, value]
    · rw [value]
      exact accepted
    · rw [Cell.refs, value]
      exact fun r member => (all r member).1
    · rw [Cell.refs, value]
      exact fun r member => (all r member).2

end Reader

/-- A decoder fails for a reason of format, which is not the last one, or gives an accepted cell with the encoding that it
was given. -/
theorem decode_split (loader : Option LoaderId) (bytes : Bytes) :
    (∃ reason, decode loader bytes = .error (.format reason) ∧ reason ≠ .notCanonical) ∨
      ∃ c, decode loader bytes = .ok c ∧ c.encoding = bytes ∧ c.Accepted loader := by
  rw [decode]
  by_cases empty : bytes.isEmpty
  · exact .inl ⟨_, if_pos empty, by simp⟩
  rw [if_neg empty]
  by_cases long : bytes.length > Limits.encoding
  · exact .inl ⟨_, if_pos long, by simp⟩
  rw [if_neg long]
  have found := Reader.takes_cell loader Limits.depth bytes
  cases run : StateT.run (Reader.cell loader Limits.depth) bytes with
  | error e =>
    rw [run] at found
    obtain ⟨reason, rfl, other⟩ := found
    exact .inl ⟨reason, rfl, other⟩
  | ok answer =>
    obtain ⟨c, rest⟩ := answer
    rw [run] at found
    obtain ⟨_, split, rfl, accepted⟩ := found
    cases rest with
    | cons b rest => exact .inl ⟨.trailing (b :: rest).length, rfl, by simp⟩
    | nil =>
      rw [List.append_nil] at split
      refine .inr ⟨c, ?_, split.symm, accepted⟩
      simp [bind, Except.bind, pure, Except.pure, split]

/-- A decoder fails for another reason than the last, or gives an accepted cell with the encoding that it was given. -/
theorem decode_cases (loader : Option LoaderId) (bytes : Bytes) :
    (∃ e, decode loader bytes = .error e ∧ e ≠ .format .notCanonical) ∨
      ∃ c, decode loader bytes = .ok c ∧ c.encoding = bytes ∧ c.Accepted loader := by
  rcases decode_split loader bytes with ⟨reason, failed, other⟩ | found
  · exact .inl ⟨.format reason, failed, fun same => other (Error.format.inj same)⟩
  · exact .inr found

theorem of_decode {loader : Option LoaderId} {bytes : Bytes} {c : Cell} (decoded : decode loader bytes = .ok c) :
    c.encoding = bytes ∧ c.Accepted loader := by
  rcases decode_cases loader bytes with ⟨e, failed, -⟩ | ⟨c', given, found⟩
  · rw [failed] at decoded
    cases decoded
  · rw [given] at decoded
    cases decoded
    exact found

/-- A cell is written back just as it was read, wherever it stood, so a decoder never finds that an encoding is not
canonical after it has read it. -/
theorem Reader.cell_canonical (loader : Option LoaderId) (depth : Nat) (bytes : Bytes) :
    (∀ p ≤ bytes.length, ∀ c rest, StateT.run (Reader.cell loader depth) (bytes.drop p) = .ok (c, rest) →
      ∃ q, p ≤ q ∧ q ≤ bytes.length ∧ rest = bytes.drop q ∧ c.encoding = bytes.slice p (q - p)) ∧
    ((∃ e, decode loader bytes = .error e ∧ e ≠ .format .notCanonical) ∨
      ∃ c, decode loader bytes = .ok c ∧ c.encoding = bytes) := by
  constructor
  · intro p le c rest run
    obtain ⟨_, split, rfl, -⟩ := (takes_cell loader depth).of_ok run
    have length := congrArg List.length split
    rw [List.length_drop, List.length_append] at length
    refine ⟨p + c.encoding.length, by omega, by omega, ?_, ?_⟩
    · rw [← List.drop_drop, split, List.drop_left]
    · rw [Bytes.slice, split, Nat.add_sub_cancel_left, List.take_left]
  · rcases decode_cases loader bytes with failed | ⟨c, decoded, encoding, -⟩
    · exact .inl failed
    · exact .inr ⟨c, decoded, encoding⟩

theorem Reader.cell_canonical_inside : ∃ c : Cell,
    StateT.run (Reader.cell none 2) (([0x00, 0x80, 0x01, 0x10, 0x05] : Bytes).drop 1) = .ok (c, []) ∧
      c.encoding = [0x80, 0x01, 0x10, 0x05] := by
  have run : StateT.run (Reader.cell none 2) (([0x00, 0x80, 0x01, 0x10, 0x05] : Bytes).drop 1) =
      .ok (Cell.ofValue (.vector [⟨.embedded, .direct (.ofValue (.integer 5))⟩]), []) := rfl
  obtain ⟨q, -, le, ends, same⟩ := (Reader.cell_canonical none 2 _).1 1 (by decide) _ _ run
  have whole : 5 ≤ q := List.drop_eq_nil_iff.mp ends.symm
  obtain rfl : q = 5 := Nat.le_antisymm le whole
  exact ⟨_, run, same⟩

end MerkleCells
