import MerkleCells.Limits
import MerkleCells.Tag

/-!
The two kinds of trie. Both branch on the digits of byte keys.
-/
namespace MerkleCells

/-- Whether a trie is a map, from byte keys to values, or a set, whose keys are its elements'
hashes. -/
inductive TrieKind where
  | map
  | set
  deriving DecidableEq

namespace TrieKind

def tag : TrieKind → UInt8
  | .map => Tag.map
  | .set => Tag.set

/-- The deepest branch of this kind, in digits: a map's may end a key, a set's leaves one digit
of the hash. -/
def maxDepth : TrieKind → Nat
  | .map => 2 * Limits.blob
  | .set => 63

def name : TrieKind → String
  | .map => "Map"
  | .set => "Set"

end TrieKind

end MerkleCells
