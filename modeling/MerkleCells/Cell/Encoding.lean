import MerkleCells.Quantity
import MerkleCells.Ref
import MerkleCells.Value

/-!
The canonical encoding of a value: a tag and a payload. A child is written inside its parent if it
is held directly and its own encoding is short, and otherwise as its hash after `Tag.ref`. So the
encoding needs only some `Facts` of each child, which are in turn what `Facts.of` says of a value.
-/
namespace MerkleCells

/-- What a parent, a store or a comparison needs to know of a cell. -/
structure Facts where
  /-- The canonical encoding. -/
  encoding : Bytes
  /-- The address of the encoding. -/
  hash : Hash
  /-- Whether a parent writes the encoding inside its own. -/
  embeddable : Bool
  /-- Levels of cells that are held directly, this one included. -/
  height : Nat
  deriving DecidableEq

/-- Things of which the facts are known. -/
class Addressed (α : Type) where
  facts : α → Facts

instance : Addressed Facts := ⟨id⟩

export Addressed (facts)

variable {α β : Type} [Addressed α] [Addressed β]

namespace Ref

/-- The hash of the target. -/
def hash (r : Ref α) : Hash :=
  match r.target with
  | .direct cell => (facts cell).hash
  | .soft hash .. => hash

/-- The target's encoding, if a parent writes it inside its own. -/
def inlined? (r : Ref α) : Option Bytes :=
  match r.target with
  | .direct cell => if (facts cell).embeddable then some (facts cell).encoding else none
  | .soft .. => none

/-- Whether a parent writes the target's encoding inside its own. -/
def isEmbedded (r : Ref α) : Bool := r.inlined?.isSome

/-- The form in which a parent writes a child. -/
def written (r : Ref α) : Bytes := r.inlined?.getD (Tag.ref :: r.hash.bytes)

/-- Levels of cells that are held directly below a parent. -/
def height (r : Ref α) : Nat :=
  match r.target with
  | .direct cell => (facts cell).height
  | .soft .. => 0

end Ref

/-- Bytes after their number. -/
def writeBlob (bytes : Bytes) : Bytes := Quantity.writeCount (UInt64.ofNat bytes.length) ++ bytes

/-- Children after their number. -/
def writeRefs (refs : List (Ref α)) : Bytes :=
  Quantity.writeCount (UInt64.ofNat refs.length) ++ refs.flatMap Ref.written

/-- What follows the count of a branch. -/
def Branch.payload (kind : TrieKind) (b : Branch (Ref α)) : Bytes :=
  Quantity.writeCount (UInt64.ofNat b.depth) ++ b.path ++ Bytes.bigEndian 2 b.mask ++
    (match kind, b.entry with
      | .set, _ => []
      | .map, none => [0]
      | .map, some value => 1 :: value.written) ++
    b.children.flatMap fun c => c.2.written

/-- What follows the tag of a trie. -/
def Node.payload (kind : TrieKind) (n : Node (Ref α)) : Bytes :=
  Quantity.writeCount n.count ++
    match n with
    | .empty => []
    | .leaf key value =>
      (match kind with
        | .map => writeBlob key
        | .set => []) ++ value.written
    | .branch b => b.payload kind

namespace Value

/-- What follows the tag of a value. -/
def payload : Value (Ref α) → Bytes
  | .nil => []
  | .bool _ => []
  | .integer i => Quantity.writeLong i
  | .double bits => Bytes.bigEndian 8 bits.toNat
  | .string text => writeBlob (Bytes.ofText text)
  | .blob bytes => writeBlob bytes
  | .symbol name => writeBlob (Bytes.ofText name)
  | .keyword name => writeBlob (Bytes.ofText name)
  | .vector items => writeRefs items
  | .record _ fields => writeRefs fields
  | .code _ operands => writeRefs operands
  | .extension _ value => Quantity.writeCount value
  | .trie kind node => node.payload kind

/-- The canonical encoding of a value. -/
def encode (v : Value (Ref α)) : Bytes := v.tag :: v.payload

end Value

/-- The facts of a cell with this value. -/
def Facts.of (v : Value (Ref α)) : Facts :=
  let encoding := v.encode
  { encoding
    hash := Hash.digest encoding
    embeddable := v.refs.all Ref.isEmbedded && decide (encoding.length ≤ Limits.embedded)
    height := 1 + (v.refs.map Ref.height).foldl max 0 }

/-! ### Encodings depend on facts alone -/

namespace Ref

variable {f : α → β} (same : ∀ a, facts (f a) = facts a)
include same

theorem hash_map (r : Ref α) : (r.map f).hash = r.hash := by
  rcases r with ⟨_, cell | _⟩
  · exact congrArg Facts.hash (same cell)
  · rfl

theorem inlined?_map (r : Ref α) : (r.map f).inlined? = r.inlined? := by
  rcases r with ⟨_, cell | _⟩
  · simp only [map, inlined?, same cell]
  · rfl

theorem isEmbedded_map (r : Ref α) : (r.map f).isEmbedded = r.isEmbedded := by
  simp only [isEmbedded, inlined?_map same]

theorem written_map (r : Ref α) : (r.map f).written = r.written := by
  simp only [written, inlined?_map same, hash_map same]

theorem height_map (r : Ref α) : (r.map f).height = r.height := by
  rcases r with ⟨_, cell | _⟩
  · exact congrArg Facts.height (same cell)
  · rfl

end Ref

theorem writeRefs_map {f : α → β} (same : ∀ a, facts (f a) = facts a) (refs : List (Ref α)) :
    writeRefs (refs.map (Ref.map f)) = writeRefs refs := by
  simp only [writeRefs, List.length_map, List.flatMap_map, Ref.written_map same]

theorem Branch.payload_map {f : α → β} (same : ∀ a, facts (f a) = facts a) (kind : TrieKind) (b : Branch (Ref α)) :
    (b.map (Ref.map f)).payload kind = b.payload kind := by
  cases b with
  | mk _ _ entry _ _ =>
    cases kind <;> cases entry <;>
      simp [Branch.payload, Branch.map, Branch.mask, List.foldr_map, List.flatMap_map, Ref.written_map same]

theorem Node.payload_map {f : α → β} (same : ∀ a, facts (f a) = facts a) (kind : TrieKind) (n : Node (Ref α)) :
    (n.map (Ref.map f)).payload kind = n.payload kind := by
  cases n with
  | empty => rfl
  | leaf key value => simp only [Node.map, Node.payload, Node.count, Ref.written_map same]
  | branch b => simp only [Node.map, Node.payload, Node.count, Branch.payload_map same]; rfl

namespace Value

variable {ρ σ : Type}

theorem tag_map (f : ρ → σ) (v : Value ρ) : (v.map f).tag = v.tag := by
  cases v with
  | bool b => cases b <;> rfl
  | _ => rfl

theorem encode_map {f : α → β} (same : ∀ a, facts (f a) = facts a) (v : Value (Ref α)) :
    (v.map (Ref.map f)).encode = v.encode := by
  have payload : (v.map (Ref.map f)).payload = v.payload := by
    cases v with
    | vector items => exact writeRefs_map same items
    | record kind fields => exact writeRefs_map same fields
    | code opcode operands => exact writeRefs_map same operands
    | trie kind node => exact Node.payload_map same kind node
    | _ => rfl
  simp only [encode, tag_map, payload]

end Value

theorem Facts.of_map {f : α → β} (same : ∀ a, facts (f a) = facts a) (v : Value (Ref α)) :
    Facts.of (v.map (Ref.map f)) = Facts.of v := by
  simp only [Facts.of, Value.encode_map same, Value.refs_map, List.all_map, List.map_map, Function.comp_def,
    Ref.isEmbedded_map same, Ref.height_map same]

end MerkleCells
