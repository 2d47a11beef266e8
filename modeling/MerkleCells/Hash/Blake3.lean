import MerkleCells.Bytes

/-!
The BLAKE3 hash function, unkeyed and with 32 bytes of output. `compress` mixes one block of 64
bytes into a chaining value, `chunkOutput` runs it over a chunk of 1024 bytes, and `digest` joins
the chunks of a message in a tree whose root is finalised under a flag of its own.
-/
namespace MerkleCells.Blake3

/-- Eight words carried from block to block. -/
abbrev ChainingValue := Vector UInt32 8

/-- Sixteen words: a block of the message or the working state of `compress`. -/
abbrev Block := Vector UInt32 16

/-- The initial chaining value of every chunk. -/
def initial : ChainingValue :=
  #v[0x6A09E667, 0xBB67AE85, 0x3C6EF372, 0xA54FF53A, 0x510E527F, 0x9B05688C, 0x1F83D9AB, 0x5BE0CD19]

def blockLength : Nat := 64

def chunkLength : Nat := 1024

/-- Marks the first block of a chunk. -/
def chunkStart : UInt32 := 1

/-- Marks the last block of a chunk. -/
def chunkEnd : UInt32 := 2

/-- Marks a block that joins two chaining values. -/
def parent : UInt32 := 4

/-- Marks the block whose output is the digest. -/
def root : UInt32 := 8

/-- Rotation towards the low end, by fewer bits than a word has. -/
def rotateRight (w n : UInt32) : UInt32 := (w >>> n) ||| (w <<< (32 - n))

/-- Mixes two message words into the four state words at `a`, `b`, `c` and `d`. -/
def mix (v : Block) (a b c d : Fin 16) (x y : UInt32) : Block :=
  let va := v[a] + v[b] + x
  let vd := rotateRight (v[d] ^^^ va) 16
  let vc := v[c] + vd
  let vb := rotateRight (v[b] ^^^ vc) 12
  let va := va + vb + y
  let vd := rotateRight (vd ^^^ va) 8
  let vc := vc + vd
  let vb := rotateRight (vb ^^^ vc) 7
  (((v.set a va).set b vb).set c vc).set d vd

/-- One round: the four columns of the state, then its four diagonals. -/
def round (v m : Block) : Block :=
  let v := mix v 0 4 8 12 m[0] m[1]
  let v := mix v 1 5 9 13 m[2] m[3]
  let v := mix v 2 6 10 14 m[4] m[5]
  let v := mix v 3 7 11 15 m[6] m[7]
  let v := mix v 0 5 10 15 m[8] m[9]
  let v := mix v 1 6 11 12 m[10] m[11]
  let v := mix v 2 7 8 13 m[12] m[13]
  mix v 3 4 9 14 m[14] m[15]

/-- The order in which the next round takes the words of this one. -/
def permute (m : Block) : Block :=
  #v[m[2], m[6], m[3], m[10], m[7], m[0], m[4], m[13],
     m[1], m[11], m[12], m[5], m[9], m[14], m[15], m[8]]

/-- `n` rounds, the message permuted between them. -/
def rounds : (n : Nat) → (v m : Block) → Block
  | 0, v, _ => v
  | n + 1, v, m => rounds n (round v m) (permute m)

/-- Mixes a block of `length` message bytes into a chaining value. -/
def compress (h : ChainingValue) (m : Block) (counter : Nat) (length flags : UInt32) : ChainingValue :=
  let v : Block :=
    #v[h[0], h[1], h[2], h[3], h[4], h[5], h[6], h[7], initial[0], initial[1], initial[2], initial[3],
       UInt32.ofNat counter, UInt32.ofNat (counter >>> 32), length, flags]
  let v := rounds 7 v m
  #v[v[0] ^^^ v[8], v[1] ^^^ v[9], v[2] ^^^ v[10], v[3] ^^^ v[11],
     v[4] ^^^ v[12], v[5] ^^^ v[13], v[6] ^^^ v[14], v[7] ^^^ v[15]]

/-- The words of a byte string, four little-endian bytes each; what is missing is zero. -/
def words : (count : Nat) → Bytes → List UInt32
  | 0, _ => []
  | count + 1, bytes => UInt32.ofNat (Bytes.ofLittleEndian (bytes.take 4)) :: words count (bytes.drop 4)

theorem length_words (count : Nat) (bytes : Bytes) : (words count bytes).length = count := by
  induction count generalizing bytes with
  | zero => rfl
  | succ count ih => simp [words, ih]

/-- A block of at most 64 message bytes, filled up with zeros. -/
def blockOf (bytes : Bytes) : Block := ⟨(words 16 bytes).toArray, by simp [length_words]⟩

/-- A block whose compression is still to be finalised: by `output` with the flags of its place. -/
structure Pending where
  input : ChainingValue
  block : Block
  counter : Nat
  length : UInt32
  flags : UInt32

/-- The chaining value of a pending block under further flags. -/
def Pending.output (p : Pending) (flags : UInt32) : ChainingValue :=
  compress p.input p.block p.counter p.length (p.flags ||| flags)

/-- Runs over the blocks of a chunk and leaves its last block pending. `fuel` is any bound on the
number of blocks. -/
def chunkBlocks (fuel counter : Nat) (h : ChainingValue) (start : UInt32) (bytes : Bytes) : Pending :=
  match fuel with
  | 0 => ⟨h, blockOf bytes, counter, UInt32.ofNat bytes.length, start ||| chunkEnd⟩
  | fuel + 1 =>
    let rest := bytes.drop blockLength
    if rest.isEmpty then ⟨h, blockOf bytes, counter, UInt32.ofNat bytes.length, start ||| chunkEnd⟩
    else
      let block := blockOf (bytes.take blockLength)
      chunkBlocks fuel counter (compress h block counter (UInt32.ofNat blockLength) start) 0 rest

/-- A chunk of at most 1024 bytes with its last block pending. -/
def chunkOutput (counter : Nat) (bytes : Bytes) : Pending :=
  chunkBlocks (chunkLength / blockLength) counter initial chunkStart bytes

/-- The block that joins two chaining values. -/
def joinOf (left right : ChainingValue) : Pending :=
  ⟨initial, left ++ right, 0, UInt32.ofNat blockLength, parent⟩

/-- The chunks of a message, in order. A message of no bytes has none. -/
def chunks (fuel : Nat) (bytes : Bytes) : List Bytes :=
  match fuel with
  | 0 => []
  | fuel + 1 => if bytes.isEmpty then [] else bytes.take chunkLength :: chunks fuel (bytes.drop chunkLength)

/-- Joins neighbours pairwise. A last one without a neighbour rises unchanged, so every left
subtree is complete. -/
def joinPairs : List ChainingValue → List ChainingValue
  | a :: b :: rest => (joinOf a b).output 0 :: joinPairs rest
  | short => short

/-- The root of the tree over the given leaves, as far as `fuel` levels reach. -/
def rootOf (fuel : Nat) (values : List ChainingValue) : ChainingValue :=
  match fuel, values with
  | _, [a, b] => (joinOf a b).output root
  | fuel + 1, a :: b :: c :: rest => rootOf fuel (joinPairs (a :: b :: c :: rest))
  | _, _ => initial

/-- The bytes of a chaining value. -/
def bytesOf (h : ChainingValue) : Bytes := h.toList.flatMap fun w => Bytes.littleEndian 4 w.toNat

def digest (message : Bytes) : Bytes :=
  match chunks (message.length / chunkLength + 1) message with
  | [] => bytesOf ((chunkOutput 0 []).output root)
  | [chunk] => bytesOf ((chunkOutput 0 chunk).output root)
  | many => bytesOf (rootOf many.length (many.mapIdx fun i chunk => (chunkOutput i chunk).output 0))

theorem length_bytesOf (h : ChainingValue) : (bytesOf h).length = 32 := by
  obtain ⟨⟨l⟩, hl⟩ := h
  simp only [List.size_toArray] at hl
  have each : ∀ l : List UInt32, (l.flatMap fun w => Bytes.littleEndian 4 w.toNat).length = 4 * l.length := by
    intro l
    induction l with
    | nil => rfl
    | cons w l ih =>
      simp only [List.flatMap_cons, List.length_append, Bytes.length_littleEndian, List.length_cons, ih]
      omega
  simp [bytesOf, Vector.toList, each, hl]

/-- A digest has 32 bytes. -/
theorem length_digest (message : Bytes) : (digest message).length = 32 := by
  unfold digest
  split <;> exact length_bytesOf _

end MerkleCells.Blake3
