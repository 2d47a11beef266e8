import MerkleCells.Frame.Literals
import MerkleCells.Frame.Matches

/-!
Blocks of a frame: literals and sequences of copies. A block's contents follow those of the blocks
before it, whose tables and distances it may use again; the blocks written here do without.
-/
namespace MerkleCells.Frame

/-- The most bytes of a block. -/
def blockLimit : Nat := 131072

/-- Fewer bytes than this are not compressed. -/
def fewestBytes : Nat := 7

/-- What a block needs of those before it. -/
structure Context where
  distances : Sequence.Distances
  code : Option Huffman.Lengths
  tables : Sequence.Tables

/-- The context of the first block. -/
def Context.initial : Context := ⟨.initial, none, ⟨none, none, none⟩⟩

/-- The literals and sequences of some bytes, unless that saves too little. -/
def compress? (data : Bytes) : Option Bytes := do
  if data.length < fewestBytes then none
  else
    let sequences := Matches.sequences data.toArray
    let written := Literals.write (Matches.literalsOf sequences data) ++ (← Sequence.write? sequences)
    if data.length ≤ written.length + Literals.leastGain data.length then none else some written

/-- Appends the contents of a compressed block to what is there. -/
def expand? (c : Context) (block : Bytes) (out : Array UInt8) : Option (Array UInt8 × Context) := do
  let part ← Literals.read? c.code block
  if blockLimit < part.literals.length then none
  else
    let (sequences, tables) ← Sequence.read? c.tables part.rest
    let (out, distances) ← Sequence.follow sequences part.literals c.distances out
    some (out, { distances, code := part.code, tables })

end MerkleCells.Frame
