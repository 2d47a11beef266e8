import MerkleCells.Frame.Huffman

/-!
The literals of a block: bytes that are not copied from earlier ones. They are written as they are,
as one byte that is repeated, or in a Huffman code, in one stream or four.
-/
namespace MerkleCells.Frame.Literals

/-- Fewer literals than this are not compressed. -/
def fewest : Nat := 64

/-- From this many literals on there are four streams. -/
def manyStreams : Nat := 256

/-- What compression must save to be worth while. -/
def leastGain (size : Nat) : Nat := size / 64 + 2

/-- The head of literals that are not compressed: their kind, 0 or 1, and their number. -/
def plainHead (kind size : Nat) : Bytes :=
  if size < 32 then Bytes.littleEndian 1 (kind + 8 * size)
  else if size < 4096 then Bytes.littleEndian 2 (kind + 4 + 16 * size)
  else Bytes.littleEndian 3 (kind + 12 + 16 * size)

/-- The head of compressed literals: their number, their size and whether there are four streams. -/
def codedHead (size coded : Nat) (four : Bool) : Bytes :=
  if size < 1024 then Bytes.littleEndian 3 (2 + (if four then 4 else 0) + 16 * size + 16384 * coded)
  else if size < 16384 then Bytes.littleEndian 4 (2 + 8 + 16 * size + 262144 * coded)
  else Bytes.littleEndian 5 (2 + 12 + 16 * size + 4194304 * coded)

/-- Cuts symbols into four parts, the first three of one size. -/
def quarters {α : Type} (symbols : List α) : List (List α) :=
  let size := (symbols.length + 3) / 4
  [symbols.take size, (symbols.drop size).take size, (symbols.drop (2 * size)).take size, symbols.drop (3 * size)]

/-- Four streams after the sizes of the first three. -/
def encodeFour (lengths : Huffman.Lengths) (literals : Bytes) : Bytes :=
  let streams := (quarters literals).map (Huffman.encode lengths)
  (streams.dropLast.flatMap fun s => Bytes.littleEndian 2 s.length) ++ streams.flatten

/-- The description of a code for some literals and their streams in it. There is none if no byte is
much more frequent than others or if the description alone is too long. -/
def code? (literals : Bytes) : Option Bytes := do
  let size := literals.length
  let counts := Huffman.histogram (literals.map UInt8.toNat)
  if counts.foldl max 0 ≤ size / 128 + 4 then none
  else
    let limit := Fse.tableLog Huffman.writtenLimit size counts.length 1
    let lengths ← Huffman.lengthsFor limit counts
    let head ← Huffman.describe lengths
    if size ≤ head.length + 12 then none
    else
      let streams := if size < manyStreams then Huffman.encode lengths literals else encodeFour lengths literals
      let coded := head ++ streams
      if size ≤ coded.length + 1 then none else some coded

def write (literals : Bytes) : Bytes :=
  let size := literals.length
  let plain := plainHead 0 size ++ literals
  if size < fewest then plain
  else match literals with
    | [] => plain
    | first :: rest =>
      if rest.all (· == first) then plainHead 1 size ++ [first]
      else match code? literals with
        | none => plain
        | some coded =>
          if size ≤ coded.length + leastGain size then plain
          else codedHead size coded.length (decide (manyStreams ≤ size)) ++ coded

/-- The first `size` bytes, and those after them. -/
def split? (size : Nat) (bytes : Bytes) : Option (Bytes × Bytes) :=
  if bytes.length < size then none else some (bytes.take size, bytes.drop size)

/-- Reads four streams. -/
def decodeFour? (lengths : Huffman.Lengths) (size : Nat) (bytes : Bytes) : Option Bytes := do
  let (sizes, rest) ← split? 6 bytes
  let (a, rest) ← split? (Bytes.ofLittleEndian (sizes.take 2)) rest
  let (b, rest) ← split? (Bytes.ofLittleEndian (sizes.slice 2 2)) rest
  let (c, d) ← split? (Bytes.ofLittleEndian (sizes.drop 4)) rest
  let part := (size + 3) / 4
  if size < 3 * part then none
  else some ((← Huffman.decode? lengths part a) ++ (← Huffman.decode? lengths part b) ++
    (← Huffman.decode? lengths part c) ++ (← Huffman.decode? lengths (size - 3 * part) d))

/-- Literals that were read, the code for literals that repeat it, and the bytes after them. -/
structure Section where
  literals : Bytes
  code : Option Huffman.Lengths
  rest : Bytes

/-- Reads compressed literals, in a new code or in that of earlier ones. -/
def readCoded? (code : Option Huffman.Lengths) (again four : Bool) (size coded : Nat) (input : Bytes) :
    Option Section := do
  let (bytes, rest) ← split? coded input
  let (lengths, streams) ← if again then code.map fun lengths => (lengths, bytes) else Huffman.readLengths? bytes
  let literals ← if four then decodeFour? lengths size streams else Huffman.decode? lengths size streams
  some { literals, code := some lengths, rest }

/-- Reads literals; `code` is that of earlier ones. -/
def read? (code : Option Huffman.Lengths) (input : Bytes) : Option Section := do
  let head ← input.head?
  let kind := head.toNat % 4
  let format := head.toNat / 4 % 4
  if kind < 2 then
    let width := if format % 2 = 0 then 1 else if format = 1 then 2 else 3
    let (head, rest) ← split? width input
    let size := Bytes.ofLittleEndian head / (if format % 2 = 0 then 8 else 16)
    if kind = 0 then
      let (literals, rest) ← split? size rest
      some { literals, code, rest }
    else
      let (byte, rest) ← split? 1 rest
      some { literals := List.replicate size (byte.headD 0), code, rest }
  else
    let width := max 3 (format + 2)
    let bits := if format < 2 then 10 else if format = 2 then 14 else 18
    let (head, rest) ← split? width input
    let sizes := Bytes.ofLittleEndian head / 16
    readCoded? code (kind == 3) (format != 0) (sizes % twoPow bits) (sizes / twoPow bits) rest

end MerkleCells.Frame.Literals
