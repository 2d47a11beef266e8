import MerkleCells.Frame.Fse

/-!
Huffman codes of bytes. A code is given by the length of each symbol's word; the words themselves
follow, since longer words come first and symbols of one length keep their order. A description
holds the symbols' weights, which are larger for shorter words and 0 for symbols without one; the
last weight is left out, as it is what the others need to fill the code.
-/
namespace MerkleCells.Frame.Huffman

/-- The longest word that is written. -/
def writtenLimit : Nat := 11

/-- The longest word that is read. -/
def readLimit : Nat := 12

/-- A code: the length of each symbol's word, where 0 stands for no word. -/
abbrev Lengths := List Nat

/-- The length of the longest word. -/
def longest (lengths : Lengths) : Nat := lengths.foldl max 0

/-! ### Choosing lengths -/

/-- How often a symbol occurs. -/
structure Frequency where
  symbol : Nat
  count : Nat
  deriving Inhabited

/-- A code tree. -/
inductive Tree where
  | leaf (symbol : Nat)
  | fork (left right : Tree)

/-- The symbols of a tree with their depths. -/
def Tree.depths : Tree → (depth : Nat) → List (Nat × Nat)
  | .leaf symbol, depth => [(symbol, depth)]
  | .fork left right, depth => left.depths (depth + 1) ++ right.depths (depth + 1)

/-- A tree and how often its symbols occur. -/
abbrev Weighed := Nat × Tree

/-- The lightest of some leaves and forks, which are both in order. Of equals the fork is taken. -/
def lightest : (leaves forks : List Weighed) → Option (Weighed × List Weighed × List Weighed)
  | [], [] => none
  | l :: leaves, [] => some (l, leaves, [])
  | [], f :: forks => some (f, [], forks)
  | l :: leaves, f :: forks =>
    if l.1 < f.1 then some (l, leaves, f :: forks) else some (f, l :: leaves, forks)

/-- Joins the two lightest trees until one is left. -/
def join : (fuel : Nat) → (leaves forks : List Weighed) → Option Tree
  | 0, _, _ => none
  | fuel + 1, leaves, forks => do
    let (a, leaves, forks) ← lightest leaves forks
    match lightest leaves forks with
    | none => some a.2
    | some (b, leaves, forks) => join fuel leaves (forks ++ [(a.1 + b.1, .fork a.2 b.2)])

/-- Lengths that have to be shortened, most frequent symbol first. `ends` holds for each number of
bits below the limit the last symbol whose word is that much shorter, and `debt` the words of
full length that there are too many. -/
structure Repair where
  counts : Array Nat
  lengths : Array Nat
  ends : Array (Option Nat)
  debt : Int

namespace Repair

/-- The last symbol whose word is `bits` shorter than the limit. -/
def last (r : Repair) (bits : Nat) : Option Nat := (r.ends.getD bits none)

def length (r : Repair) (place : Nat) : Nat := r.lengths.getD place 0

/-- Which words to lengthen for a debt: the shorter ones count for more, but one of them is left
alone if two of the next kind are rarer. -/
def choose (r : Repair) : (bits : Nat) → Nat
  | 0 => 1
  | 1 => 1
  | bits + 2 =>
    match r.last (bits + 2), r.last (bits + 1) with
    | none, _ => r.choose (bits + 1)
    | some _, none => bits + 2
    | some high, some low =>
      if r.counts.getD high 0 ≤ 2 * r.counts.getD low 0 then bits + 2 else r.choose (bits + 1)

/-- The next number of bits from `bits` on for which there is a word. -/
def available (r : Repair) : (fuel bits : Nat) → Nat
  | 0, bits => bits
  | fuel + 1, bits => if (r.last bits).isSome then bits else r.available fuel (bits + 1)

def lengthen (r : Repair) (limit bits place : Nat) : Repair :=
  let lengths := r.lengths.modify place (· + 1)
  let ends := if (r.last (bits - 1)).isNone then r.ends.setIfInBounds (bits - 1) (some place) else r.ends
  let before : Option Nat :=
    if place = 0 then none
    else if lengths.getD (place - 1) 0 = limit - bits then some (place - 1) else none
  { r with lengths, ends := ends.setIfInBounds bits before, debt := r.debt - twoPow (bits - 1) }

/-- Lengthens words until the debt is paid. -/
def pay (limit : Nat) : (fuel : Nat) → Repair → Repair
  | 0, r => r
  | fuel + 1, r =>
    if r.debt ≤ 0 then r
    else
      let bits := r.available readLimit (r.choose (r.debt.toNat.log2 + 1))
      match r.last bits with
      | none => r
      | some place => pay limit fuel (r.lengthen limit bits place)

/-- The last place up to `place` whose word is shorter than the limit. -/
def shorter (r : Repair) (limit : Nat) : (place : Nat) → Option Nat
  | 0 => if r.length 0 = limit then none else some 0
  | place + 1 => if r.length (place + 1) = limit then r.shorter limit place else some (place + 1)

/-- Shortens words of full length, the most frequent first, if too much was paid. -/
def refund (limit : Nat) : (fuel : Nat) → Repair → Repair
  | 0, r => r
  | fuel + 1, r =>
    if 0 ≤ r.debt then r
    else
      let place := match r.last 1 with
        | some place => place + 1
        | none => match r.shorter limit (r.lengths.size - 1) with
          | some place => place + 1
          | none => 0
      refund limit fuel { r with
        lengths := r.lengths.modify place (· - 1)
        ends := r.ends.setIfInBounds 1 (some place)
        debt := r.debt + 1 }

/-- Cuts lengths to a limit, and what that costs. -/
def start (limit : Nat) (counts lengths : List Nat) : Repair :=
  let deepest := longest lengths
  let cost := sum (lengths.map fun l => if limit < l then twoPow (deepest - limit) - twoPow (deepest - l) else 0)
  let cut := lengths.map fun l => min l limit
  let lastOf (bits : Nat) : Option Nat :=
    ((cut.zipIdx.filter fun l => bits != 0 && l.1 + bits == limit).getLast?).map (·.2)
  { counts := counts.toArray
    lengths := cut.toArray
    ends := ((List.range (readLimit + 2)).map lastOf).toArray
    debt := (cost / twoPow (deepest - limit) : Nat) }

end Repair

/-- Lengths of at most `limit`, for symbols that are ordered from the most frequent on. -/
def limitLengths (limit : Nat) (counts lengths : List Nat) : List Nat :=
  if longest lengths ≤ limit then lengths
  else
    let fuel := twoPow limit + lengths.length
    (Repair.refund limit fuel (Repair.pay limit fuel (.start limit counts lengths))).lengths.toList

/-- The lengths of words of at most `limit` bits for symbols that occur so often. -/
def lengthsFor (limit : Nat) (counts : List Nat) : Option Lengths := do
  let used := (counts.zipIdx.map fun (count, symbol) => (⟨symbol, count⟩ : Frequency)).filter fun f => f.count != 0
  let sorted := used.mergeSort fun a b => decide (b.count ≤ a.count)
  let tree ← join (2 * sorted.length) (sorted.reverse.map fun f => (f.count, .leaf f.symbol)) []
  let depths := tree.depths 0
  let lengths := sorted.map fun f => (depths.lookup f.symbol).getD 0
  let limited := (sorted.map (·.symbol)).zip (limitLengths limit (sorted.map (·.count)) lengths)
  some ((List.range counts.length).map fun symbol => (limited.lookup symbol).getD 0)

/-! ### Words -/

/-- For each possible beginning of `longest` bits the symbol whose word it begins with. -/
def table (lengths : Lengths) : Array Nat :=
  let top := longest lengths
  ((List.range top).flatMap fun shortfall =>
    lengths.zipIdx.flatMap fun (length, symbol) =>
      if length = top - shortfall then List.replicate (twoPow shortfall) symbol else []).toArray

/-- The word of each symbol, most significant bit last. -/
def words (lengths : Lengths) : Array Bits :=
  let top := longest lengths
  let t := table lengths
  (lengths.zipIdx.map fun (length, symbol) =>
    Bits.ofNat length (((t.findIdx? (· == symbol)).getD 0) / twoPow (top - length))).toArray

/-- A stream of symbols, the last one first. -/
def encode (lengths : Lengths) (symbols : Bytes) : Bytes :=
  let words := words lengths
  Bits.close (symbols.reverse.flatMap fun s => words.getD s.toNat [])

/-- Reads `n` symbols from a stream. -/
def decodeFrom (lengths : Array Nat) (table : Array Nat) (top : Nat) : (n : Nat) → Bits → Option (Bytes × Bits)
  | 0, bits => some ([], bits)
  | n + 1, bits => do
    let symbol ← table[Bits.peek top bits]?
    let (_, bits) ← Bits.pull? (lengths.getD symbol 0) bits
    let (more, bits) ← decodeFrom lengths table top n bits
    some (UInt8.ofNat symbol :: more, bits)

/-- The `n` symbols of a stream that holds nothing else. -/
def decode? (lengths : Lengths) (n : Nat) (stream : Bytes) : Option Bytes := do
  let bits ← Bits.open? stream
  let (symbols, rest) ← decodeFrom lengths.toArray (table lengths) (longest lengths) n bits
  if rest.isEmpty then some symbols else none

/-! ### Descriptions -/

/-- The weights of words: 1 for the longest ones, one more for each bit less, and 0 for no word. -/
def weights (lengths : Lengths) : List Nat :=
  let top := longest lengths
  lengths.map fun l => if l = 0 then 0 else top + 1 - l

/-- How often each of the symbols up to the last that occurs is found. -/
def histogram (symbols : List Nat) : List Nat :=
  (symbols.foldl (fun counts s => counts.modify s (· + 1))
    (Array.replicate (symbols.foldl max 0 + 1) 0)).toList

/-- Symbols in two interleaved state codes, the first of them read first. -/
def interleave (table : Fse.Table) (symbols : List Nat) : Option Bytes := do
  let step (acc : Option (Option Nat × Option Nat × Bits)) (symbol : Nat) : Option (Option Nat × Option Nat × Bits) := do
    let (next, other, bits) ← acc
    match next with
    | none => some (other, ← table.first? symbol, bits)
    | some next =>
      let (state, more) ← table.before? symbol next
      some (other, some state, bits ++ more)
  let (odd, even, bits) ← symbols.reverse.foldl step (some (none, none, []))
  let last ← even
  let before ← odd
  some (Bits.close (bits ++ Bits.ofNat table.log before ++ Bits.ofNat table.log last))

/-- Weights as an entropy code, unless they are too few or too much alike. -/
def compressWeights (weights : List Nat) : Option Bytes := do
  let counts := histogram weights
  let most := counts.foldl max 0
  if weights.length ≤ 2 || most == weights.length || most == 1 then none
  else
    let log := Fse.tableLog 6 weights.length counts.length 2
    let shares ← Fse.normalize log 1 counts
    let table ← Fse.Table.ofCounts? log shares
    some (Fse.writeCounts log shares ++ (← interleave table weights))

/-- Weights in half a byte each. -/
def packWeights : List Nat → Bytes
  | [] => []
  | [a] => [UInt8.ofNat (16 * a)]
  | a :: b :: rest => UInt8.ofNat (16 * a + b) :: packWeights rest

/-- The description of a code. Codes of many symbols whose weights do not compress have none. -/
def describe (lengths : Lengths) : Option Bytes :=
  let listed := (weights lengths).dropLast
  let plain : Option Bytes :=
    if listed.length ≤ 128 then some (UInt8.ofNat (127 + listed.length) :: packWeights listed) else none
  match compressWeights listed with
  | none => plain
  | some bytes =>
    if 1 < bytes.length ∧ bytes.length < listed.length / 2 then some (UInt8.ofNat bytes.length :: bytes) else plain

/-- Reads two interleaved state codes until the bits run out: the symbols from a state on, where
`other` is the state of the symbol after the next. -/
def readInterleaved (table : Fse.Table) : (fuel : Nat) → (state other : Nat) → Bits → Option (List Nat)
  | 0, _, _, _ => none
  | fuel + 1, state, other, bits => do
    let symbol ← table.symbol? state
    match table.next? state bits with
    | none => some [symbol, ← table.symbol? other]
    | some (next, bits) => (readInterleaved table fuel other next bits).map (symbol :: ·)

/-- Reads weights in an entropy code. -/
def readWeights (bytes : Bytes) : Option (List Nat) := do
  let (table, stream) ← Fse.readTable? 6 256 bytes
  let bits ← Bits.open? stream
  let (first, bits) ← Bits.pull? table.log bits
  let (second, bits) ← Bits.pull? table.log bits
  readInterleaved table 255 first second bits

/-- Reads weights in half a byte each. -/
def unpackWeights (bytes : Bytes) : List Nat := bytes.flatMap fun b => [b.toNat / 16, b.toNat % 16]

/-- The lengths of words, given all weights but the last. -/
def lengthsOf? (listed : List Nat) : Option Lengths :=
  if listed.any fun w => decide (readLimit < w) then none
  else
    let filled := sum (listed.map fun w => if w = 0 then 0 else twoPow (w - 1))
    let top := filled.log2 + 1
    let left := twoPow top - filled
    if filled = 0 ∨ readLimit < top ∨ left ≠ twoPow left.log2 then none
    else
      let weights := listed ++ [left.log2 + 1]
      let longestWords := weights.count 1
      if longestWords < 2 ∨ longestWords % 2 = 1 then none
      else some (weights.map fun w => if w = 0 then 0 else top + 1 - w)

/-- Reads the description of a code: the code, and the bytes after its description. -/
def readLengths? (bytes : Bytes) : Option (Lengths × Bytes) := do
  match bytes with
  | [] => none
  | head :: rest =>
    let n := head.toNat
    if 128 ≤ n then
      let size := (n - 127 + 1) / 2
      if rest.length < size then none
      else some (← lengthsOf? ((unpackWeights (rest.take size)).take (n - 127)), rest.drop size)
    else if rest.length < n then none
    else some (← lengthsOf? (← readWeights (rest.take n)), rest.drop n)

end MerkleCells.Frame.Huffman
