import MerkleCells.Codec
import MerkleCells.Frame.Block
import MerkleCells.Frame.Checksum

/-!
Frames: the form in which store files hold encodings. A frame is a head and blocks, which are bytes as
they are, one byte that is repeated, or compressed. `Frame.decode` reads frames one after the
other and nothing else; `Frame.encode` writes one frame, whose block is compressed only if that
saves enough and reads back as what it was made from.
-/
namespace MerkleCells.Frame

/-- The four bytes that begin a frame. -/
def magic : Bytes := [0x28, 0xB5, 0x2F, 0xFD]

/-! ### Writing -/

/-- The size of the window that a level works with, as a power of two. -/
def windowLog (level : Nat) : Nat :=
  if level ≤ 1 then 19
  else if level = 2 then 20
  else if level ≤ 8 then 21
  else if level ≤ 16 then 22
  else if level ≤ 19 then 23
  else level + 5

/-- The head of a frame that does not tell its size. -/
def head (level : Nat) : Bytes := magic ++ [0, UInt8.ofNat (8 * (windowLog level - 10))]

/-- The three bytes before a block: its size, its kind and whether it is the last. -/
def blockHead (last : Bool) (kind size : Nat) : Bytes := Bytes.littleEndian 3 (8 * size + 2 * kind + last.toNat)

/-- Blocks of bytes as they are. -/
def plainBlocks : (fuel : Nat) → Bytes → Bytes
  | 0, data => blockHead true 0 data.length ++ data
  | fuel + 1, data =>
    if data.length ≤ blockLimit then blockHead true 0 data.length ++ data
    else blockHead false 0 blockLimit ++ data.take blockLimit ++ plainBlocks fuel (data.drop blockLimit)

/-- The frame of some bytes that are not compressed. -/
def plain (level : Nat) (data : Bytes) : Bytes := head level ++ plainBlocks data.length data

/-- The frame of some bytes in one compressed block, if that saves enough. -/
def compressed? (level : Nat) (data : Bytes) : Option Bytes :=
  if blockLimit < data.length then none
  else (compress? data).map fun block => head level ++ blockHead true 2 block.length ++ block

/-! ### Reading -/

/-- What the head of a frame says. -/
structure Head where
  /-- The most bytes that its blocks can have. -/
  limit : Nat
  /-- The number of bytes in the frame. -/
  size : Option Nat
  /-- Whether a checksum follows the blocks. -/
  checked : Bool

/-- The size of a window: a power of two and some eighths of it. -/
def windowSize (b : UInt8) : Nat :=
  let base := twoPow (10 + b.toNat / 8)
  base + base / 8 * (b.toNat % 8)

/-- The largest window that is read. -/
def windowLimit : Nat := 134217729

/-- Reads what follows the magic bytes of a frame. Frames that need a dictionary are not read. -/
def readHead? (bytes : Bytes) : Option (Head × Bytes) := do
  match bytes with
  | [] => none
  | descriptor :: rest =>
    let n := descriptor.toNat
    let single := n / 32 % 2 = 1
    if n / 8 % 2 = 1 then none
    else
      let (window, rest) ← if single then some ([], rest) else Literals.split? 1 rest
      let (dictionary, rest) ← Literals.split? ([0, 1, 2, 4].getD (n % 4) 0) rest
      let width := if n / 64 = 0 then (if single then 1 else 0) else twoPow (n / 64)
      let (field, rest) ← Literals.split? width rest
      let size := Bytes.ofLittleEndian field + (if width = 2 then 256 else 0)
      let window := if single then size else windowSize (window.headD 0)
      if Bytes.ofLittleEndian dictionary ≠ 0 ∨ windowLimit < window then none
      else some ({ limit := min window blockLimit
                   size := if width = 0 then none else some size
                   checked := n / 4 % 2 = 1 }, rest)

/-- Reads blocks up to the last onto what is there, at most `fuel` of them. -/
def readBlocks (limit : Nat) : (fuel : Nat) → Context → (out : Array UInt8) → Bytes → Option (Array UInt8 × Bytes)
  | 0, _, _, _ => none
  | fuel + 1, c, out, bytes => do
    let (front, rest) ← Literals.split? 3 bytes
    let n := Bytes.ofLittleEndian front
    let size := n / 8
    let next (c : Context) (out : Array UInt8) (rest : Bytes) : Option (Array UInt8 × Bytes) :=
      if n % 2 = 1 then some (out, rest) else readBlocks limit fuel c out rest
    if limit < size then none
    else match n / 2 % 4 with
      | 0 => do
        let (content, rest) ← Literals.split? size rest
        next c (out ++ content.toArray) rest
      | 1 => do
        let (byte, rest) ← Literals.split? 1 rest
        next c (out ++ Array.replicate size (byte.headD 0)) rest
      | 2 => do
        let (block, rest) ← Literals.split? size rest
        let (longer, c) ← expand? c block out
        if limit < longer.size - out.size then none else next c longer rest
      | _ => none

/-- Reads a frame after its magic bytes. -/
def readFrame? (bytes : Bytes) : Option (Bytes × Bytes) := do
  let (head, rest) ← readHead? bytes
  let (out, rest) ← readBlocks head.limit (rest.length + 1) .initial #[] rest
  let content := out.toList
  let (check, rest) ← Literals.split? (if head.checked then 4 else 0) rest
  if head.size.any (· != content.length) then none
  else if head.checked && check != Bytes.littleEndian 4 (Checksum.digest content).toNat then none
  else some (content, rest)

/-- Reads frames one after the other, at most `fuel` of them. Some frames are there to be skipped. -/
def readFrames : (fuel : Nat) → Bytes → Option Bytes
  | _, [] => some []
  | 0, _ => none
  | fuel + 1, bytes => do
    let (front, rest) ← Literals.split? 4 bytes
    if front = magic then
      let (content, rest) ← readFrame? rest
      (readFrames fuel rest).map (content ++ ·)
    else if Bytes.ofLittleEndian front / 16 = 0x184D2A5 then
      let (size, rest) ← Literals.split? 4 rest
      let (_, rest) ← Literals.split? (Bytes.ofLittleEndian size) rest
      readFrames fuel rest
    else none

/-- The contents of frames. -/
def decode (frames : Bytes) : Option Bytes := readFrames frames.length frames

def encode (level : Nat) (data : Bytes) : Bytes :=
  match compressed? level data with
  | none => plain level data
  | some frame => if decode frame = some data then frame else plain level data

/-- Frames as a codec. A level above the highest one stands for that. -/
def codec : Codec where
  compress level data := some (encode (min level.toNat 22) data)
  decompress := decode

end MerkleCells.Frame
