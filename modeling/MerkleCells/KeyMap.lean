import MerkleCells.Trie.Lookup
import MerkleCells.Trie.Order
import MerkleCells.Trie.Update

/-!
Maps from byte keys to cells, as tries. Keys have 1 to 4096 bytes. An update gives `none` if it
changes nothing; two maps with the same entries have the same hash, however they were made.
-/
namespace MerkleCells

/-- A map from byte keys to cells. -/
abbrev KeyMap := Trie .map

namespace KeyMap

def empty : KeyMap := Trie.empty .map

/-- The map in a cell. -/
def ofCell (cell : Cell) : Except Error KeyMap := Trie.ofCell .map cell

/-- The map that a reference leads to. -/
def ofRef (r : Ref Cell) : Action KeyMap := Trie.resolve .map r

/-- Refuses keys that are empty or too long. -/
def checkKey (key : Bytes) : Except Error Unit :=
  if key.isEmpty then throw (.invalid .emptyMapKey)
  else if key.length > Limits.blob then throw (.invalid (.mapKeyTooLong key.length Limits.blob))
  else return ()

def assoc (m : KeyMap) (key : Bytes) (value : Ref Cell) : Action (Option KeyMap) := do
  checkKey key
  m.insert key value

def dissoc (m : KeyMap) (key : Bytes) : Action (Option KeyMap) := m.erase key

/-- The map of some entries, of which later ones win. -/
def ofEntries (entries : List (Bytes × Ref Cell)) : Action KeyMap :=
  entries.foldlM (fun m e => return (← m.assoc e.1 e.2).getD m) empty

def keys (m : KeyMap) : Action (List Bytes) := do return (← m.entries).map (·.key)

end KeyMap

end MerkleCells
