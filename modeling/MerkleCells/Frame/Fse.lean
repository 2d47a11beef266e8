import MerkleCells.Frame.Bits

/-!
Finite state entropy codes. A table gives each of `2 ^ log` states a symbol, and tells where the
state after it lies; a symbol that is counted `c` times in the table has `c` states. Decoding
follows the states, and encoding looks for the state of a symbol that leads to the next one, from
the last symbol back. Tables are described by their counts, where -1 stands for a symbol that is
too rare for a whole state of its own.
-/
namespace MerkleCells.Frame.Fse

/-- A state stands for a symbol. The next state is `base` plus the number in the next `width` bits. -/
structure State where
  symbol : Nat
  width : Nat
  base : Nat
  deriving Inhabited

/-- A table of states. -/
structure Table where
  log : Nat
  states : Array State

/-- The states that a symbol of this count has. -/
def share (count : Int) : Nat := count.natAbs

/-- The symbols of the states. Rare symbols have the last states; the others are dealt out in steps
that spread each of them over the table. -/
def spread (log : Nat) (counts : List Int) : Array Nat :=
  let size := twoPow log
  let step := size / 2 + size / 8 + 3
  let numbered := counts.zipIdx
  let rare := (numbered.filter fun c => c.1 == -1).map (·.2)
  let common := numbered.flatMap fun c => List.replicate c.1.toNat c.2
  let places := ((List.range size).map fun k => k * step % size).filter fun p => decide (p < size - rare.length)
  let table := (places.zip common).foldl (fun t (p, s) => t.setIfInBounds p s) (Array.replicate size 0)
  rare.zipIdx.foldl (fun t (s, i) => t.setIfInBounds (size - 1 - i) s) table

/-- The states of symbols in order, where `seen` counts what each symbol had before. The state with
count `x` of a symbol is entered from the `x`-th of equal parts of the table. -/
def number (log : Nat) : (seen : Array Nat) → List Nat → List State
  | _, [] => []
  | seen, symbol :: rest =>
    let x := seen.getD symbol 1
    let width := log - x.log2
    { symbol, width, base := x * twoPow width - twoPow log } :: number log (seen.setIfInBounds symbol (x + 1)) rest

/-- The table of some counts, which must fill it. -/
def Table.ofCounts? (log : Nat) (counts : List Int) : Option Table :=
  if sum (counts.map share) = twoPow log then
    some { log, states := (number log (counts.map share).toArray (spread log counts).toList).toArray }
  else none

/-- The table whose only state stands for one symbol. -/
def Table.single (symbol : Nat) : Table := { log := 0, states := #[{ symbol, width := 0, base := 0 }] }

namespace Table

def first? (t : Table) (symbol : Nat) : Option Nat := t.states.findIdx? fun s => s.symbol == symbol

/-- The state of a symbol that leads to a given state, and the bits that tell so. -/
def before? (t : Table) (symbol next : Nat) : Option (Nat × Bits) := do
  let i ← t.states.findIdx? fun s => s.symbol == symbol && s.base ≤ next && next < s.base + twoPow s.width
  let s ← t.states[i]?
  some (i, Bits.ofNat s.width (next - s.base))

def next? (t : Table) (state : Nat) (bits : Bits) : Option (Nat × Bits) := do
  let s ← t.states[state]?
  let (offset, bits) ← Bits.pull? s.width bits
  some (s.base + offset, bits)

def symbol? (t : Table) (state : Nat) : Option Nat := t.states[state]?.map (·.symbol)

end Table

/-! ### Choosing counts -/

/-- The size of table that some symbols are worth: `margin` bits less than their number has, if it
has more, but enough for all of them, and at least 5. -/
def tableLog (limit total symbols margin : Nat) : Nat :=
  let fewest := min (total.log2 + 1) ((symbols - 1).log2 + 2)
  let bits := (total - 1).log2
  max 5 (max fewest (if bits < margin then limit else min limit (bits - margin)))

/-- What a fraction must beat to be rounded up, for parts below 8, in units of `2 ^ -20`. -/
def roundUpAbove : List Nat := [0, 473195, 504333, 520860, 550000, 700000, 750000, 830000]

/-- The share of `2 ^ log` states that `count` of `total` symbols get. Small shares are rounded up
only from a fraction that depends on them. -/
def proportion (log total count : Nat) : Nat :=
  let scale := 62 - log
  let scaled := count * (twoPow 62 / total)
  let whole := scaled / twoPow scale
  match roundUpAbove[whole]? with
  | none => whole
  | some bound => if scaled - whole * twoPow scale > twoPow (scale - 20) * bound then whole + 1 else whole

/-- The place of the first largest number. -/
def largest (counts : List Nat) : Nat :=
  (counts.zipIdx.foldl (fun best c => if best.1 < c.1 then c else best) (0, 0)).2

/-- Shares of what is left after rare symbols have got theirs, cut so that the ends of the parts are
rounded and no share is zero. -/
def cut (step tail : Nat) : (place : Nat) → List (Nat × Option Int) → Option (List Int)
  | _, [] => some []
  | place, (_, some share) :: rest => (cut step tail place rest).map (share :: ·)
  | place, (count, none) :: rest =>
    let stop := place + count * step
    let share := stop / twoPow tail - place / twoPow tail
    if share < 1 then none else (cut step tail stop rest).map ((share : Int) :: ·)

/-- One more state for each symbol that has one, in turn, until `extra` are given out. -/
def handOut (fuel extra : Nat) (shares : List Int) : List Int :=
  match fuel with
  | 0 => shares
  | fuel + 1 =>
    if extra = 0 then shares
    else
      let (left, shares) := shares.foldl (fun (left, done) s =>
        if 0 < s ∧ 0 < left then (left - 1, (s + 1) :: done) else (left, s :: done)) (extra, [])
      handOut fuel left shares.reverse

/-- Shares for counts that cannot be rounded one by one: the rarest symbols get one state each first. -/
def normalizeSlowly (log total : Nat) (rareShare : Int) (counts : List Nat) : Option (List Int) :=
  let low := total / twoPow log
  let one := total * 3 / twoPow (log + 1)
  let first : List (Nat × Option Int) := counts.map fun c =>
    (c, if c = 0 then some 0 else if c ≤ low then some rareShare else if c ≤ one then some 1 else none)
  let settled (l : List (Nat × Option Int)) : Nat := (l.filter fun c => c.1 != 0 && c.2.isSome).length
  let rest (l : List (Nat × Option Int)) : Nat := sum ((l.filter fun c => c.2.isNone).map (·.1))
  let room := twoPow log - settled first
  if room = 0 then some (first.map fun c => c.2.getD 0)
  else
    let bound := rest first * 3 / (room * 2)
    let second := if rest first / room > one then
        first.map fun c => if c.2.isNone && c.1 ≤ bound then (c.1, some 1) else c
      else first
    let room := twoPow log - settled second
    let left := rest second
    if settled second = counts.length then
      let top := largest counts
      some (second.zipIdx.map fun (c, i) => c.2.getD 0 + (if i = top then (room : Int) else 0))
    else if left = 0 then some (handOut (room + 1) room (second.map fun c => c.2.getD 0))
    else
      let tail := 62 - log
      let middle := twoPow (tail - 1) - 1
      cut ((twoPow tail * room + middle) / left) tail middle second

/-- Counts that fill a table, in proportion to how often each symbol occurs. -/
def normalize (log : Nat) (rareShare : Int) (counts : List Nat) : Option (List Int) :=
  let total := sum counts
  let low := total / twoPow log
  let proportions := counts.map fun c => if c ≤ low then 0 else proportion log total c
  let shares : List Int := (counts.zip proportions).map fun (c, p) =>
    if c = 0 then 0 else if c ≤ low then rareShare else p
  let top := largest proportions
  let left : Int := (twoPow log : Int) - (sum (shares.map share) : Int)
  if -left ≥ shares.getD top 0 / 2 then normalizeSlowly log total rareShare counts
  else some (shares.modify top (· + left))

/-! ### Descriptions -/

/-- How a description goes on: what is left of the table plus one, and the width of the next count,
which can be as large as that. -/
structure Progress where
  remaining : Nat
  threshold : Nat
  width : Nat

namespace Progress

def start (log : Nat) : Progress := ⟨twoPow log + 1, twoPow log, log + 1⟩

/-- Counts below this are written one bit shorter. -/
def spare (p : Progress) : Nat := 2 * p.threshold - 1 - p.remaining

/-- Halves the threshold until it is not above what remains, `fuel` times at most. -/
def shrink (p : Progress) : (fuel : Nat) → Progress
  | 0 => p
  | fuel + 1 =>
    if p.remaining < p.threshold then shrink ⟨p.remaining, p.threshold / 2, p.width - 1⟩ fuel else p

def after (p : Progress) (count : Int) : Progress :=
  let p := { p with remaining := p.remaining - share count }
  p.shrink p.width

end Progress

/-- The number of further zeros after a zero: threes that are followed by another number. -/
def writeRun (zeros : Nat) : Bits :=
  (List.replicate (zeros / 3) (Bits.ofNat 2 3)).flatten ++ Bits.ofNat 2 (zeros % 3)

/-- Writes counts. `run` is the number of zeros since a zero was written, if one was. -/
def writeFrom (p : Progress) (run : Option Nat) : List Int → Bits
  | [] => []
  | count :: rest =>
    if p.remaining ≤ 1 then []
    else match run, decide (count = 0) with
      | some zeros, true => writeFrom p (some (zeros + 1)) rest
      | run, isZero =>
        let value := (count + 1).toNat
        let value := if value ≥ p.threshold then value + p.spare else value
        let width := if value < p.spare then p.width - 1 else p.width
        (match run with
          | some zeros => writeRun zeros
          | none => []) ++ Bits.ofNat width value ++
          writeFrom (p.after count) (if isZero then some 0 else none) rest

def writeCounts (log : Nat) (counts : List Int) : Bytes :=
  Bits.toBytes (Bits.ofNat 4 (log - 5) ++ writeFrom (.start log) none counts)

/-- Reads how many zeros follow a zero. -/
def readRun : (fuel : Nat) → Bits → Option (Nat × Bits)
  | 0, _ => none
  | fuel + 1, bits => do
    let (n, bits) ← Bits.take? 2 bits
    if n = 3 then (readRun fuel bits).map fun (more, bits) => (more + 3, bits)
    else some (n, bits)

def readCount (p : Progress) (bits : Bits) : Option (Int × Bits) := do
  let short := Bits.toNat (bits.take (p.width - 1))
  if short < p.spare then
    let (value, bits) ← Bits.take? (p.width - 1) bits
    some ((value : Int) - 1, bits)
  else
    let (value, bits) ← Bits.take? p.width bits
    some (((if value ≥ p.threshold then value - p.spare else value : Nat) : Int) - 1, bits)

/-- Reads counts until the table is full, for at most `room` symbols and in at most `fuel` steps. -/
def readFrom : (fuel room : Nat) → Progress → (wasZero : Bool) → Bits → Option (List Int × Bits)
  | 0, _, p, _, bits => if p.remaining = 1 then some ([], bits) else none
  | fuel + 1, room, p, wasZero, bits =>
    if p.remaining ≤ 1 then if p.remaining = 1 then some ([], bits) else none
    else do
      let (zeros, bits) ← if wasZero then readRun (bits.length + 1) bits else some (0, bits)
      if room ≤ zeros then none
      else
        let (count, bits) ← readCount p bits
        if p.remaining ≤ share count then none
        else
          let (more, bits) ← readFrom fuel (room - zeros - 1) (p.after count) (count == 0) bits
          some (List.replicate zeros 0 ++ count :: more, bits)

/-- Reads the description of a table with at most `room` symbols and a size up to `limit`: the table
and the bytes after its description. -/
def readTable? (limit room : Nat) (bytes : Bytes) : Option (Table × Bytes) := do
  let input := Bits.ofBytes bytes
  let (low, bits) ← Bits.take? 4 input
  let log := low + 5
  if limit < log then none
  else
    let (counts, rest) ← readFrom room room (.start log) false bits
    let used := (input.length - rest.length + 7) / 8
    let table ← Table.ofCounts? log counts
    some (table, bytes.drop used)

end MerkleCells.Frame.Fse
