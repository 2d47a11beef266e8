import MerkleCells.Trie.Basic

/-!
Entries in the order of their keys: all of them, the one at a place, and those whose key begins
with given bytes. A branch's own entry comes before its children's, whose digits ascend.
-/
namespace MerkleCells

/-- What a walk has come across, and the error that ended it if one did. -/
structure Listing (α : Type) where
  items : List α
  failure : Option Error

namespace Listing

variable {α : Type}

/-- The listing of no items. -/
def nil : Listing α := ⟨[], none⟩

/-- One listing after another, which comes to nothing if the first has failed. -/
def append (first : Listing α) (second : Listing α) : Listing α :=
  if first.failure.isSome then first else ⟨first.items ++ second.items, second.failure⟩

/-- The items, if nothing ended the walk early. -/
def toExcept (l : Listing α) : Except Error (List α) :=
  match l.failure with
  | none => .ok l.items
  | some e => .error e

/-- The listing of one item, or of its failure. -/
def ofExcept : Except Error α → Listing α
  | .ok a => ⟨[a], none⟩
  | .error e => ⟨[], some e⟩

end Listing

namespace Trie

variable {kind : TrieKind} {α : Type}

/-- Walks through children from left to right, until one cannot be resolved or ends the walk. -/
def listChildren (visit : Trie kind → StateM Session (Listing α)) :
    List (Digit × Ref Cell) → StateM Session (Listing α)
  | [] => return .nil
  | c :: rest => do
    match ← (resolve kind c.2).run with
    | .error e => return ⟨[], some e⟩
    | .ok child =>
      let first ← visit child
      if first.failure.isSome then return first
      return first.append (← listChildren visit rest)

/-- Walks through a node's entries in at most `fuel` levels, until a child cannot be resolved or
`f` refuses an entry. -/
def listWithin (kind : TrieKind) (f : Entry → Except Error α) : (fuel : Nat) → Node (Ref Cell) →
    StateM Session (Listing α)
  | 0, _ => return ⟨[], some .endless⟩
  | fuel + 1, node =>
    match node with
    | .empty => return .nil
    | .leaf key value => return .ofExcept (f ⟨key, value⟩)
    | .branch b => do
      let own : Listing α := match b.entry with
        | none => .nil
        | some value => .ofExcept (f ⟨b.path, value⟩)
      if own.failure.isSome then return own
      return own.append (← listChildren (fun (child : Trie kind) => listWithin kind f fuel child.node) b.children)

/-- All entries, each put through `f`. -/
def listWith (t : Trie kind) (f : Entry → Except Error α) : StateM Session (Listing α) := do
  match ← t.levels.run with
  | .error e => return ⟨[], some e⟩
  | .ok fuel => listWithin kind f fuel t.node

def list (t : Trie kind) : StateM Session (Listing Entry) := t.listWith .ok

/-- All entries of whatever trie a cell holds. -/
def listIn (kind : TrieKind) (root : Cell) : StateM Session (Listing Entry) :=
  match ofCell kind root with
  | .error e => return ⟨[], some e⟩
  | .ok t => t.list

/-- All entries, or the error that ended the walk. -/
def entries (t : Trie kind) : Action (List Entry) := do (← t.list).toExcept

/-- The child in which the entry at a place lies, and its place there. Earlier children are
resolved for their counts. -/
def childAt (kind : TrieKind) : List (Digit × Ref Cell) → (index : UInt64) → Action (Trie kind × UInt64)
  | [], _ => throw (.corruption .countAboveChildren)
  | c :: rest, index => do
    let child ← resolve kind c.2
    if index < child.count then return (child, index)
    childAt kind rest (index - child.count)

/-- The entry at a place, found in at most `fuel` levels. -/
def entryAtWithin (kind : TrieKind) : (fuel : Nat) → Node (Ref Cell) → (index : UInt64) → Action (Option Entry)
  | 0, _, _ => throw .endless
  | fuel + 1, node, index =>
    if node.count ≤ index then return none
    else match node with
      | .empty => return none
      | .leaf key value => return some ⟨key, value⟩
      | .branch b => do
        let descend (index : UInt64) : Action (Option Entry) := do
          let (child, index) ← childAt kind b.children index
          entryAtWithin kind fuel child.node index
        match b.entry with
        | none => descend index
        | some value => if index = 0 then return some ⟨b.path, value⟩ else descend (index - 1)

/-- The entry at a place in the order of keys, counted from 0. -/
def entryAt? (t : Trie kind) (index : UInt64) : Action (Option Entry) := do
  entryAtWithin kind (← t.levels) t.node index

/-- The entries whose key begins with given bytes, found in at most `fuel` levels. -/
def startingWithin (kind : TrieKind) (start : Bytes) : (fuel : Nat) → Node (Ref Cell) → Action (List Entry)
  | 0, _ => throw .endless
  | fuel + 1, node =>
    match node with
    | .empty => return []
    | .leaf key value => return if start.isPrefixOf key then [⟨key, value⟩] else []
    | .branch b => do
      let wanted := Digits.count start
      let limit := min wanted b.depth
      if Digits.common start b.path limit < limit then return []
      if wanted ≤ b.depth then (← listWithin kind .ok (fuel + 1) node).toExcept
      else match b.child? (← digitAt start b.depth) with
        | none => return []
        | some r => startingWithin kind start fuel (← resolve kind r).node

/-- The entries whose key begins with given bytes, in the order of keys. -/
def entriesStarting (t : Trie kind) (start : Bytes) : Action (List Entry) := do
  startingWithin kind start (← t.levels) t.node

def first? (t : Trie kind) : Action (Option Entry) := t.entryAt? 0

def last? (t : Trie kind) : Action (Option Entry) :=
  if t.count = 0 then return none else t.entryAt? (t.count - 1)

end Trie

end MerkleCells
