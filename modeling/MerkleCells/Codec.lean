import MerkleCells.Bytes

/-!
Codecs: what store files compress the encodings of cells with. A store file works with whatever codec it is
opened with; `Frame.codec` is the one at hand.
-/
namespace MerkleCells

/-- How bytes are compressed to a frame and how the bytes in a frame are read. Both may fail. -/
structure Codec where
  compress : (level : Int) → Bytes → Option Bytes
  decompress : (frame : Bytes) → Option Bytes

/-- Decompressing inverts compressing, and no frame is empty. -/
structure Codec.Faithful (codec : Codec) : Prop where
  ne_nil : ∀ {level : Int} {data frame : Bytes}, codec.compress level data = some frame → frame ≠ []
  inverse : ∀ {level : Int} {data frame : Bytes}, codec.compress level data = some frame →
    codec.decompress frame = some data

end MerkleCells
