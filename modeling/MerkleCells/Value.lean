import MerkleCells.Trie.Node

/-!
The values that a cell can have. The type of references to other cells is a parameter; `refs` lists
them in the order of the encoding.
-/
namespace MerkleCells

/-- The value of a cell. -/
inductive Value (ρ : Type) where
  | nil
  | bool (b : Bool)
  | integer (i : Int64)
  /-- A floating point number by the bits of its IEEE 754 double format. -/
  | double (bits : UInt64)
  | string (text : String)
  | blob (bytes : Bytes)
  | symbol (name : String)
  | keyword (name : String)
  | vector (items : List ρ)
  | record (kind : Digit) (fields : List ρ)
  | code (opcode : Digit) (operands : List ρ)
  | extension (kind : Digit) (value : UInt64)
  | trie (kind : TrieKind) (node : Node ρ)

namespace Value

variable {ρ σ τ : Type}

/-- The bits that every number that is none has. -/
def nanBits : UInt64 := 0x7FF8000000000000

/-- Whether bits stand for no number: the exponent is full and the fraction is not zero. -/
def isNaN (bits : UInt64) : Bool := decide ((bits &&& 0x7FFFFFFFFFFFFFFF) > 0x7FF0000000000000)

def tag : Value ρ → UInt8
  | .nil => Tag.null
  | .bool false => Tag.false_
  | .bool true => Tag.true_
  | .integer _ => Tag.integer
  | .double _ => Tag.double
  | .string _ => Tag.string
  | .blob _ => Tag.blob
  | .symbol _ => Tag.symbol
  | .keyword _ => Tag.keyword
  | .vector _ => Tag.vector
  | .record kind _ => Tag.record + UInt8.ofNat kind.val
  | .code opcode _ => Tag.code + UInt8.ofNat opcode.val
  | .extension kind _ => Tag.extension + UInt8.ofNat kind.val
  | .trie kind _ => kind.tag

/-- The name of a value's form, for messages. -/
def typeName : Value ρ → String
  | .nil => "nil"
  | .bool _ => "boolean"
  | .integer _ => "integer"
  | .double _ => "double"
  | .string _ => "string"
  | .blob _ => "blob"
  | .symbol _ => "symbol"
  | .keyword _ => "keyword"
  | .vector _ => "vector"
  | .record .. => "record"
  | .code .. => "code"
  | .extension .. => "extension"
  | .trie .map _ => "map"
  | .trie .set _ => "set"

def integer? : Value ρ → Option Int64
  | .integer i => some i
  | _ => none

def bool? : Value ρ → Option Bool
  | .bool b => some b
  | _ => none

/-- The text of a string, symbol or keyword. -/
def text? : Value ρ → Option String
  | .string text => some text
  | .symbol name => some name
  | .keyword name => some name
  | _ => none

/-- The bytes of a blob. -/
def blob? : Value ρ → Option Bytes
  | .blob bytes => some bytes
  | _ => none

/-- Whether a value is a node of a trie. -/
def isTrie : Value ρ → Bool
  | .trie .. => true
  | _ => false

/-- All references of a value, in the order of its encoding. -/
def refs : Value ρ → List ρ
  | .vector items => items
  | .record _ fields => fields
  | .code _ operands => operands
  | .trie _ node => node.refs
  | _ => []

/-- The same value with other references. -/
def map (f : ρ → σ) : Value ρ → Value σ
  | .nil => .nil
  | .bool b => .bool b
  | .integer i => .integer i
  | .double bits => .double bits
  | .string text => .string text
  | .blob bytes => .blob bytes
  | .symbol name => .symbol name
  | .keyword name => .keyword name
  | .vector items => .vector (items.map f)
  | .record kind fields => .record kind (fields.map f)
  | .code opcode operands => .code opcode (operands.map f)
  | .extension kind value => .extension kind value
  | .trie kind node => .trie kind (node.map f)

/-- Like `map`, for a function that needs a fact about each reference. -/
def pmap {P : ρ → Prop} (f : ∀ r, P r → σ) : (v : Value ρ) → (∀ r ∈ v.refs, P r) → Value σ
  | .nil, _ => .nil
  | .bool b, _ => .bool b
  | .integer i, _ => .integer i
  | .double bits, _ => .double bits
  | .string text, _ => .string text
  | .blob bytes, _ => .blob bytes
  | .symbol name, _ => .symbol name
  | .keyword name, _ => .keyword name
  | .vector items, h => .vector (items.pmap f h)
  | .record kind fields, h => .record kind (fields.pmap f h)
  | .code opcode operands, h => .code opcode (operands.pmap f h)
  | .extension kind value, _ => .extension kind value
  | .trie kind node, h => .trie kind (node.pmap f h)

theorem refs_map (f : ρ → σ) (v : Value ρ) : (v.map f).refs = v.refs.map f := by
  cases v with
  | trie kind node => exact Node.refs_map f node
  | _ => rfl

theorem map_id (v : Value ρ) : v.map id = v := by
  cases v with
  | trie kind node => exact congrArg (Value.trie kind) (Node.map_id node)
  | _ => simp [map]

theorem map_map (f : ρ → σ) (g : σ → τ) (v : Value ρ) : (v.map f).map g = v.map (g ∘ f) := by
  cases v with
  | trie kind node => exact congrArg (Value.trie kind) (Node.map_map f g node)
  | _ => simp [map]

theorem map_pmap {P : ρ → Prop} (f : ∀ r, P r → σ) (g : σ → τ) (v : Value ρ) (h : ∀ r ∈ v.refs, P r) :
    (v.pmap f h).map g = v.pmap (fun r hr => g (f r hr)) h := by
  cases v with
  | vector items => exact congrArg Value.vector (List.map_pmap ..)
  | record kind fields => exact congrArg (Value.record kind) (List.map_pmap ..)
  | code opcode operands => exact congrArg (Value.code opcode) (List.map_pmap ..)
  | trie kind node => exact congrArg (Value.trie kind) (Node.map_pmap f g node h)
  | _ => rfl

theorem pmap_eq_map {P : ρ → Prop} (f : ρ → σ) (v : Value ρ) (h : ∀ r ∈ v.refs, P r) :
    v.pmap (fun r _ => f r) h = v.map f := by
  cases v with
  | vector items => exact congrArg Value.vector (List.pmap_eq_map ..)
  | record kind fields => exact congrArg (Value.record kind) (List.pmap_eq_map ..)
  | code opcode operands => exact congrArg (Value.code opcode) (List.pmap_eq_map ..)
  | trie kind node => exact congrArg (Value.trie kind) (Node.pmap_eq_map f node h)
  | _ => rfl

theorem pmap_map {P : σ → Prop} (f : ∀ s, P s → τ) (g : ρ → σ) (v : Value ρ) (h : ∀ s ∈ (v.map g).refs, P s) :
    (v.map g).pmap f h = v.pmap (fun r hr => f (g r) hr)
      (fun r hr => h (g r) (by rw [refs_map]; exact List.mem_map_of_mem hr)) := by
  cases v with
  | vector items => exact congrArg Value.vector (List.pmap_map ..)
  | record kind fields => exact congrArg (Value.record kind) (List.pmap_map ..)
  | code opcode operands => exact congrArg (Value.code opcode) (List.pmap_map ..)
  | trie kind node => exact congrArg (Value.trie kind) (Node.pmap_map f g node h)
  | _ => rfl

/-- A function that gives every reference back gives the value back. -/
theorem pmap_eq_self {P : ρ → Prop} {f : ∀ r, P r → ρ} (v : Value ρ) (h : ∀ r ∈ v.refs, P r)
    (same : ∀ r hr, f r hr = r) : v.pmap f h = v := by
  have eq : f = fun r _ => id r := by
    funext r hr
    exact same r hr
  subst eq
  exact (pmap_eq_map id v h).trans (map_id v)

end Value

end MerkleCells
