import MerkleCells.Error

/-!
Settings of loaders and store files, and the rules that usable settings keep.
-/
namespace MerkleCells

/-- Settings of a loader and of a store file. -/
structure Settings where
  /-- The most cells in a loader's cache. -/
  cacheCapacity : UInt64 := 10000
  /-- How hard a store file compresses its frames. -/
  compressionLevel : Int32 := 3
  /-- Whether closing a store file writes its index. -/
  syncOnDrop : Bool := true
  deriving DecidableEq, Inhabited

namespace Settings

/-- Whether settings can be used. The capacity is looked at first. -/
def validate (s : Settings) : Except Error Unit := do
  if s.cacheCapacity = 0 then throw (.settings .cacheCapacity)
  let level := s.compressionLevel.toInt
  if level < 1 ∨ 22 < level then throw (.settings (.compressionLevel level))

/-- The settings as an indented JSON text. -/
def toJson (s : Settings) : String :=
  "\x7b\n  \"cache_capacity\": " ++ toString s.cacheCapacity.toNat ++
    ",\n  \"compression_level\": " ++ toString s.compressionLevel.toInt ++
    ",\n  \"sync_on_drop\": " ++ (if s.syncOnDrop then "true" else "false") ++ "\n\x7d"

end Settings

end MerkleCells
