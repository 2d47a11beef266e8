import MerkleCells.Trie.Lookup
import MerkleCells.Trie.Merge
import MerkleCells.Trie.Order
import MerkleCells.Trie.Update

/-!
Sets of cells, as tries whose keys are the hashes of the elements. An update gives `none` if it
changes nothing; two sets with the same elements have the same hash, however they were made.
-/
namespace MerkleCells

/-- A set of cells. -/
abbrev ContentSet := Trie .set

namespace ContentSet

def empty : ContentSet := Trie.empty .set

/-- The set in a cell. -/
def ofCell (cell : Cell) : Except Error ContentSet := Trie.ofCell .set cell

/-- The set that a reference leads to. -/
def ofRef (r : Ref Cell) : Action ContentSet := Trie.resolve .set r

def conj (s : ContentSet) (element : Ref Cell) : Action (Option ContentSet) := s.insert element.hash.bytes element

/-- Removes the element with a hash. -/
def disj (s : ContentSet) (h : Hash) : Action (Option ContentSet) := s.erase h.bytes

def ofElements (elements : List (Ref Cell)) : Action ContentSet :=
  elements.foldlM (fun s r => return (← s.conj r).getD s) empty

/-- The element with a hash. -/
def find? (s : ContentSet) (h : Hash) : Action (Option (Ref Cell)) := s.get? h.bytes

/-- Whether there is an element with a hash. -/
def contains (s : ContentSet) (h : Hash) : Action Bool := do return (← s.find? h).isSome

/-- Whether every element is one of another set. -/
def isSubset (s other : ContentSet) : Action Bool := do return (← Trie.merge .difference s other).isEmpty

/-- The hash that the key of an entry is. -/
def keyHash (e : Entry) : Except Error Hash :=
  match Hash.ofBytes? e.key with
  | some h => .ok h
  | none => .error (.corruption .keyNotHash)

/-- The hashes of all elements, ascending. -/
def hashes (s : ContentSet) : Action (List Hash) := do (← s.listWith keyHash).toExcept

/-- All elements in the order of their hashes, up to the first that cannot be reached. -/
def elements (s : ContentSet) : StateM Session (Listing (Ref Cell)) := s.listWith fun e => .ok e.value

end ContentSet

end MerkleCells
