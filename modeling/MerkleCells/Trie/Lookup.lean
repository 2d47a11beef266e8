import MerkleCells.Trie.Basic

/-!
Looking up a key in a trie.
-/
namespace MerkleCells.Trie

variable {kind : TrieKind}

/-- The value of a key, found in at most `fuel` levels. -/
def getWithin (kind : TrieKind) (key : Bytes) : (fuel : Nat) → Node (Ref Cell) → Action (Option (Ref Cell))
  | 0, _ => throw .endless
  | fuel + 1, node =>
    match node with
    | .empty => return none
    | .leaf k value => return if k = key then some value else none
    | .branch b => do
      if !Digits.beginsWith key b.path b.depth then return none
      if Digits.count key = b.depth then return b.entry
      match b.child? (← digitAt key b.depth) with
      | none => return none
      | some r => getWithin kind key fuel (← resolve kind r).node

def get? (t : Trie kind) (key : Bytes) : Action (Option (Ref Cell)) := do
  getWithin kind key (← t.levels) t.node

end MerkleCells.Trie
