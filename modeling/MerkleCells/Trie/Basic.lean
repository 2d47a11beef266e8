import MerkleCells.Session

/-!
Tries: cells whose value is a trie node of a given kind. Operations take and give whole tries; the
children of a branch are references, to be resolved with `Trie.resolve` on the way down.
-/
namespace MerkleCells

/-- A cell that holds a trie node of a kind, and the node. -/
structure Trie (kind : TrieKind) where
  cell : Cell
  node : Node (Ref Cell)
  value_eq : cell.value = .trie kind node

/-- A key and its value. -/
structure Entry where
  key : Bytes
  value : Ref Cell

namespace Trie

variable {kind : TrieKind}

/-- The trie with a node at its root. -/
def ofNode (kind : TrieKind) (node : Node (Ref Cell)) : Trie kind :=
  ⟨.ofValue (.trie kind node), node, Cell.value_ofValue _⟩

/-- The trie in a cell, if it holds one of this kind. -/
def ofCell (kind : TrieKind) (cell : Cell) : Except Error (Trie kind) :=
  match h : cell.value with
  | .trie found node =>
    if same : found = kind then .ok ⟨cell, node, by rw [h, same]⟩
    else .error (.invalid (.wrongKind kind (Value.typeName (.trie found node))))
  | other => .error (.invalid (.wrongKind kind other.typeName))

def empty (kind : TrieKind) : Trie kind := ofNode kind .empty

def leaf (kind : TrieKind) (key : Bytes) (value : Ref Cell) : Trie kind := ofNode kind (.leaf key value)

def count (t : Trie kind) : UInt64 := t.node.count

def isEmpty (t : Trie kind) : Bool := t.count == 0

def hash (t : Trie kind) : Hash := t.cell.hash

def ref (t : Trie kind) : Ref Cell := Ref.direct t.cell

/-- The trie that a reference to a child leads to. -/
def resolve (kind : TrieKind) (r : Ref Cell) : Action (Trie kind) := do
  let cell ← r.value
  ofCell kind cell

/-- The digit of a key at a place. Every place that is asked for exists. -/
def digitAt (key : Bytes) (i : Nat) : Except Error Digit :=
  match Digits.digit? key i with
  | some d => .ok d
  | none => .error .outOfRange

/-- The first digits of a key. Every number that is asked for exists. -/
def leadingOf (key : Bytes) (depth : Nat) : Except Error Bytes :=
  match Digits.leading? key depth with
  | some path => .ok path
  | none => .error .outOfRange

/-- The sum of two counts. -/
def addCounts (a b : UInt64) : Except Error UInt64 :=
  if a.toNat + b.toNat < UInt64.size then return a + b else throw .overflow

/-- The sum of the counts of some things, which are told one after the other. -/
def sumOf {α : Type} (count : α → Action UInt64) (items : List α) : Action UInt64 :=
  items.foldlM (fun total item => do addCounts total (← count item)) 0

/-- Levels that a walk down from a trie can have. A well-formed trie has no more levels than keys
have digits; other data may go on for as long as there are cells. -/
def levels (t : Trie kind) : Action Nat := do
  return kind.maxDepth + 2 + (← stepsBelow t.cell)

end Trie

end MerkleCells
