import MerkleCells.Frame.Fse

/-!
Sequences: a block is a row of literals and copies of earlier bytes in turn. A sequence says how many
literals come first, how long the copy is and from how far back; the distances of the last three
copies can be repeated by number. Each of the three is written as a code, which is a symbol of a
finite state entropy code, and the bits that tell the values of that code apart.
-/
namespace MerkleCells.Frame

/-- Literals and a copy of earlier bytes. -/
structure Sequence where
  /-- Number of literals before the copy. -/
  literals : Nat
  /-- Number of bytes copied, at least 3. -/
  length : Nat
  /-- 1 to 3 for one of the last distances, or the distance and 3. -/
  source : Nat
  deriving Inhabited

namespace Sequence

/-- The first value of a code, and the bits that its values take. -/
structure Range where
  first : Nat
  width : Nat

/-- Ranges that follow each other from `first` on, given their widths. -/
def ranges (first : Nat) : (widths : List Nat) → List Range
  | [] => []
  | width :: rest => ⟨first, width⟩ :: ranges (first + twoPow width) rest

/-- The codes of numbers of literals. -/
def literalCodes : List Range :=
  ranges 0 (List.replicate 16 0 ++ [1, 1, 1, 1, 2, 2, 3, 3, 4, 6, 7, 8, 9, 10, 11, 12, 13, 14, 15, 16])

/-- The codes of lengths of copies. -/
def lengthCodes : List Range :=
  ranges 3 (List.replicate 32 0 ++ [1, 1, 1, 1, 2, 2, 3, 3, 4, 4, 5, 7, 8, 9, 10, 11, 12, 13, 14, 15, 16])

/-- The codes of sources: each power of two begins one. -/
def sourceCodes : List Range := (List.range 32).map fun c => ⟨twoPow c, c⟩

def codeOf (codes : List Range) (value : Nat) : Nat :=
  (codes.takeWhile fun r => decide (r.first ≤ value)).length - 1

def bitsOf (codes : List Range) (value : Nat) : Bits :=
  match codes[codeOf codes value]? with
  | some r => Bits.ofNat r.width (value - r.first)
  | none => []

def readValue? (codes : List Range) (code : Nat) (bits : Bits) : Option (Nat × Bits) := do
  let r ← codes[code]?
  let (n, bits) ← Bits.pull? r.width bits
  some (r.first + n, bits)

/-! ### The three parts -/

/-- What a sequence consists of. -/
inductive Part where
  | literals
  | source
  | length

namespace Part

def codes : Part → List Range
  | .literals => literalCodes
  | .source => sourceCodes
  | .length => lengthCodes

/-- The size of the table that is used if none is described. -/
def defaultLog : Part → Nat
  | .source => 5
  | _ => 6

/-- The counts of the table that is used if none is described. -/
def defaultCounts : Part → List Int
  | .literals => [4, 3, 2, 2, 2, 2, 2, 2, 2, 2, 2, 2, 2, 1, 1, 1, 2, 2, 2, 2, 2, 2, 2, 2, 2, 3, 2, 1, 1, 1, 1, 1,
      -1, -1, -1, -1]
  | .source => [1, 1, 1, 1, 1, 1, 2, 2, 2, 1, 1, 1, 1, 1, 1, 1, 1, 1, 1, 1, 1, 1, 1, 1, -1, -1, -1, -1, -1]
  | .length => [1, 4, 3, 2, 2, 2, 2, 2, 2] ++ List.replicate 37 1 ++ List.replicate 7 (-1)

/-- The table that is used if none is described. -/
def defaultTable? (p : Part) : Option Fse.Table := Fse.Table.ofCounts? p.defaultLog p.defaultCounts

def logLimit : Part → Nat
  | .source => 8
  | _ => 9

def valueOf (p : Part) (s : Sequence) : Nat :=
  match p with
  | .literals => s.literals
  | .source => s.source
  | .length => s.length

def codeOf (p : Part) (s : Sequence) : Nat := Sequence.codeOf p.codes (p.valueOf s)

def bitsOf (p : Part) (s : Sequence) : Bits := Sequence.bitsOf p.codes (p.valueOf s)

end Part

/-! ### Writing -/

/-- A table to write with: how it is told, in which kind of way, and the table. -/
structure Choice where
  kind : Nat
  description : Bytes
  table : Fse.Table

/-- How often each code up to the last is used. -/
def histogram (codes : List Nat) : List Nat :=
  (codes.foldl (fun counts c => counts.modify c (· + 1)) (Array.replicate (codes.foldl max 0 + 1) 0)).toList

/-- The table that fits some codes best. The last code is not counted where it occurs elsewhere, as
its state is given directly. -/
def described? (p : Part) (codes : List Nat) : Option Choice := do
  let counts := histogram codes
  let log := Fse.tableLog p.logLimit codes.length counts.length 2
  let last := codes.getLastD 0
  let counted := if 1 < counts.getD last 0 then counts.modify last (· - 1) else counts
  let shares ← Fse.normalize log (if 2048 ≤ sum counted then -1 else 1) counted
  some { kind := 2, description := Fse.writeCounts log shares, table := ← Fse.Table.ofCounts? log shares }

/-- The table to write codes with: the default for few codes or codes that are much alike, one state
if all codes are one, and otherwise the one that fits best. -/
def choose? (p : Part) (codes : List Nat) : Option Choice := do
  let counts := histogram codes
  let most := counts.foldl max 0
  let fits : Bool := decide (counts.length ≤ p.defaultCounts.length)
  let default : Option Choice := p.defaultTable?.map fun table => { kind := 0, description := [], table }
  if most = codes.length then
    if fits ∧ codes.length ≤ 2 then default
    else
      let only := codes.headD 0
      some { kind := 1, description := [UInt8.ofNat only], table := .single only }
  else if fits ∧ (codes.length < twoPow p.defaultLog ∨ most < codes.length / twoPow (p.defaultLog - 1)) then default
  else described? p codes

/-- The states before sequences, and the bits so far. -/
structure Writer where
  literals : Nat
  source : Nat
  length : Nat
  bits : List Bits

def Writer.step (ll so ml : Fse.Table) (w : Writer) (s : Sequence) : Option Writer := do
  let (source, sourceBits) ← so.before? (Part.source.codeOf s) w.source
  let (length, lengthBits) ← ml.before? (Part.length.codeOf s) w.length
  let (literals, literalBits) ← ll.before? (Part.literals.codeOf s) w.literals
  some { literals, source, length,
         bits := (sourceBits ++ lengthBits ++ literalBits ++ Part.literals.bitsOf s ++ Part.length.bitsOf s ++
           Part.source.bitsOf s) :: w.bits }

/-- The writer that has written the last sequence. -/
def Writer.last (ll so ml : Fse.Table) (s : Sequence) : Option Writer := do
  some {
    literals := ← ll.first? (Part.literals.codeOf s)
    source := ← so.first? (Part.source.codeOf s)
    length := ← ml.first? (Part.length.codeOf s)
    bits := [Part.literals.bitsOf s ++ Part.length.bitsOf s ++ Part.source.bitsOf s] }

def stream? (ll so ml : Fse.Table) (sequences : List Sequence) : Option Bytes := do
  match sequences.reverse with
  | [] => none
  | last :: before =>
    let w ← before.foldlM (Writer.step ll so ml) (← Writer.last ll so ml last)
    some (Bits.close (w.bits.reverse.flatten ++ Bits.ofNat ml.log w.length ++ Bits.ofNat so.log w.source ++
      Bits.ofNat ll.log w.literals))

def writeNumber (n : Nat) : Bytes :=
  if n < 128 then [UInt8.ofNat n]
  else if n < 0x7F00 then [UInt8.ofNat (n / 256 + 128), UInt8.ofNat n]
  else 255 :: Bytes.littleEndian 2 (n - 0x7F00)

/-- Sequences as a block holds them. Tables whose description and stream are shorter than four bytes
are not used, since not everyone can read them. -/
def write? (sequences : List Sequence) : Option Bytes := do
  if sequences.isEmpty then some [0]
  else
    let ll ← choose? .literals (sequences.map Part.literals.codeOf)
    let so ← choose? .source (sequences.map Part.source.codeOf)
    let ml ← choose? .length (sequences.map Part.length.codeOf)
    let stream ← stream? ll.table so.table ml.table sequences
    let lastDescribed := ([ll, so, ml].filter fun c => c.kind == 2).getLast?
    match lastDescribed with
    | some c => if c.description.length + stream.length < 4 then none
    | none => pure ()
    some (writeNumber sequences.length ++ [UInt8.ofNat (64 * ll.kind + 16 * so.kind + 4 * ml.kind)] ++
      ll.description ++ so.description ++ ml.description ++ stream)

/-! ### Reading -/

/-- The tables of the last sequences that were read. -/
structure Tables where
  literals : Option Fse.Table
  source : Option Fse.Table
  length : Option Fse.Table

/-- Reads the table of a part, given in one of four ways. -/
def readTable? (p : Part) (kind : Nat) (earlier : Option Fse.Table) (input : Bytes) : Option (Fse.Table × Bytes) := do
  if kind = 0 then some (← p.defaultTable?, input)
  else if kind = 1 then
    match input with
    | [] => none
    | code :: rest => if code.toNat < p.codes.length then some (.single code.toNat, rest) else none
  else if kind = 2 then Fse.readTable? p.logLimit p.codes.length input
  else earlier.map fun table => (table, input)

def readNumber? : Bytes → Option (Nat × Bytes)
  | [] => none
  | a :: rest =>
    if a.toNat < 128 then some (a.toNat, rest)
    else match rest with
      | [] => none
      | b :: rest =>
        if a.toNat < 255 then some ((a.toNat - 128) * 256 + b.toNat, rest)
        else match rest with
          | [] => none
          | c :: rest => some (b.toNat + 256 * c.toNat + 0x7F00, rest)

/-- Reads sequences from states on. No states follow the last one. -/
def readFrom (ll so ml : Fse.Table) : (n : Nat) → (l s m : Nat) → Bits → Option (List Sequence × Bits)
  | 0, _, _, _, bits => some ([], bits)
  | n + 1, l, s, m, bits => do
    let (source, bits) ← readValue? sourceCodes (← so.symbol? s) bits
    let (length, bits) ← readValue? lengthCodes (← ml.symbol? m) bits
    let (literals, bits) ← readValue? literalCodes (← ll.symbol? l) bits
    if n = 0 then some ([{ literals, length, source }], bits)
    else
      let (l, bits) ← ll.next? l bits
      let (m, bits) ← ml.next? m bits
      let (s, bits) ← so.next? s bits
      let (more, bits) ← readFrom ll so ml n l s m bits
      some ({ literals, length, source } :: more, bits)

/-- Reads the sequences of a block, which end it. -/
def read? (earlier : Tables) (input : Bytes) : Option (List Sequence × Tables) := do
  let (n, rest) ← readNumber? input
  if n = 0 then if rest.isEmpty then some ([], earlier) else none
  else match rest with
    | [] => none
    | kinds :: rest =>
      let kinds := kinds.toNat
      if kinds % 4 ≠ 0 then none
      else
        let (ll, rest) ← readTable? .literals (kinds / 64) earlier.literals rest
        let (so, rest) ← readTable? .source (kinds / 16 % 4) earlier.source rest
        let (ml, rest) ← readTable? .length (kinds / 4 % 4) earlier.length rest
        let bits ← Bits.open? rest
        let (l, bits) ← Bits.pull? ll.log bits
        let (s, bits) ← Bits.pull? so.log bits
        let (m, bits) ← Bits.pull? ml.log bits
        let (sequences, bits) ← readFrom ll so ml n l s m bits
        if bits.isEmpty then some (sequences, ⟨some ll, some so, some ml⟩) else none

/-! ### Following -/

/-- The distances of the last three copies, last one first. -/
structure Distances where
  first : Nat
  second : Nat
  third : Nat

def Distances.initial : Distances := ⟨1, 4, 8⟩

/-- The distance of a copy, and the distances after it. If there are no literals before a copy, the
last distance cannot be meant, and the numbers 1 to 3 stand for the others and one less than the last. -/
def Distances.resolve (d : Distances) (s : Sequence) : Nat × Distances :=
  if 3 < s.source then (s.source - 3, ⟨s.source - 3, d.first, d.second⟩)
  else
    match s.source + (if s.literals = 0 then 1 else 0) with
    | 1 => (d.first, d)
    | 2 => (d.second, ⟨d.second, d.first, d.third⟩)
    | 3 => (d.third, ⟨d.third, d.first, d.second⟩)
    | _ => (d.first - 1, ⟨d.first - 1, d.first, d.second⟩)

/-- Appends a copy of `length` bytes from `distance` back. It may overlap what it appends. -/
def copy (distance : Nat) : (length : Nat) → Array UInt8 → Array UInt8
  | 0, out => out
  | length + 1, out => copy distance length (out.push (out.getD (out.size - distance) 0))

/-- Appends literals and copies in turn. -/
def follow : List Sequence → (literals : Bytes) → Distances → Array UInt8 → Option (Array UInt8 × Distances)
  | [], literals, d, out => some (out ++ literals.toArray, d)
  | s :: rest, literals, d, out =>
    let front := literals.take s.literals
    if front.length < s.literals then none
    else
      let out := out ++ front.toArray
      let (distance, d) := d.resolve s
      if distance = 0 ∨ out.size < distance then none
      else follow rest (literals.drop s.literals) d (copy distance s.length out)

end Sequence

end MerkleCells.Frame
