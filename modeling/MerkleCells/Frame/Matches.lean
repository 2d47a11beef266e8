import MerkleCells.Frame.Sequence

/-!
Finding copies. The finder goes through the bytes once. At each place it first tries the last
distance from the next place on, then the latest earlier place where the same eight bytes were
looked at, then the latest where the same five were. Places are remembered by what their bytes are
mixed to, so a candidate is compared before it counts. Where nothing is found for long, places are
skipped.
-/
namespace MerkleCells.Frame.Matches

/-- Bytes at a time that are compared, so nothing is looked for in the last ones. -/
def margin : Nat := 8

/-- After so many places without a copy one more place is skipped at a time. -/
def patience : Nat := 256

/-- The eight bytes at a place as a little-endian word. -/
def word (d : Array UInt8) (i : Nat) : UInt64 :=
  (List.range 8).foldr (fun k w => w * 256 + (d.getD (i + k) 0).toUInt64) 0

/-- What eight bytes are mixed to. -/
def longMix (d : Array UInt8) (i : Nat) : Nat := ((word d i * 0xCF1BBCDCB7A56463) >>> 47).toNat

/-- What five bytes are mixed to. -/
def shortMix (d : Array UInt8) (i : Nat) : Nat := (((word d i <<< 24) * 889523592379) >>> 48).toNat

/-- The latest places of mixed bytes. -/
abbrev Places := List (Nat × Nat)

/-- Number of bytes that are the same from two places on, `fuel` at most. -/
def common (d : Array UInt8) : (fuel i j : Nat) → Nat
  | 0, _, _ => 0
  | fuel + 1, i, j =>
    match d[i]?, d[j]? with
    | some a, some b => if a = b then common d fuel (i + 1) (j + 1) + 1 else 0
    | _, _ => 0

/-- Number of bytes that are the same from two places on, of which `j` is the later. -/
def run (d : Array UInt8) (i j : Nat) : Nat := common d (d.size - j) i j

/-- The `n` bytes from two places on are the same. -/
def same (d : Array UInt8) (n i j : Nat) : Bool := common d n i j == n

/-- Number of bytes that are the same before two places; `i` is not moved back to the first byte,
nor `j` before `start`. -/
def back (d : Array UInt8) (start : Nat) : (fuel i j : Nat) → Nat
  | 0, _, _ => 0
  | fuel + 1, i, j =>
    if start < j ∧ 0 < i ∧ d.getD (i - 1) 0 = d.getD (j - 1) 0 then back d start fuel (i - 1) (j - 1) + 1 else 0

/-- What the finder remembers. -/
structure Memory where
  long : Places
  short : Places

namespace Memory

/-- Remembers a place by its eight bytes. -/
def addLong (m : Memory) (d : Array UInt8) (i : Nat) : Memory := { m with long := (longMix d i, i) :: m.long }

/-- Remembers a place by its five bytes. -/
def addShort (m : Memory) (d : Array UInt8) (i : Nat) : Memory := { m with short := (shortMix d i, i) :: m.short }

/-- The latest place with eight bytes that are mixed alike. -/
def findLong (m : Memory) (d : Array UInt8) (i : Nat) : Option Nat := m.long.lookup (longMix d i)

/-- The latest place with five bytes that are mixed alike. -/
def findShort (m : Memory) (d : Array UInt8) (i : Nat) : Option Nat := m.short.lookup (shortMix d i)

end Memory

structure Found where
  /-- Where it begins. -/
  start : Nat
  length : Nat
  /-- Its distance, or none if it is the last distance. -/
  distance : Option Nat
  /-- The place at which it was looked for. -/
  lookedAt : Nat
  /-- What is remembered now. -/
  memory : Memory

/-- A copy of what is at `i`, found at `j` and stretched to what is the same before. -/
def Found.stretch (d : Array UInt8) (start i j length lookedAt : Nat) (memory : Memory) : Found :=
  let before := back d start j i j
  { start := j - before, length := length + before, distance := some (j - i), lookedAt, memory }

/-- Looks for a copy at a place: the last distance from the next place on, or eight bytes that were
seen before, or five; of the last two kinds it takes the eight bytes at the place `next` instead if
these are the longer copy. -/
def lookAt (d : Array UInt8) (m : Memory) (start distance place next step : Nat) : Except Memory Found :=
  let long := m.findLong d place
  let short := m.findShort d place
  let m := (m.addLong d place).addShort d place
  let marked := if step < 4 then m.addLong d next else m
  if 0 < distance ∧ same d 4 (place + 1 - distance) (place + 1) then
    .ok { start := place + 1, length := run d (place + 1 - distance) (place + 1), distance := none,
          lookedAt := place, memory := m }
  else match long.filter fun i => same d 8 i place with
    | some i => .ok (.stretch d start i place (run d i place) place marked)
    | none =>
      match short.filter fun i => same d 4 i place with
      | none => .error m
      | some i =>
        let length := run d i place
        match (m.findLong d next).filter fun i => same d 8 i next && decide (length < run d i next) with
        | some i => .ok (.stretch d start i next (run d i next) place marked)
        | none => .ok (.stretch d start i place length place marked)

/-- Looks for a copy from a place on, in at most `fuel` places. `rest` is how far it is until one
more place is skipped at a time. -/
def find (d : Array UInt8) (start distance : Nat) :
    (fuel : Nat) → Memory → (place next step widen : Nat) → Option Found
  | 0, _, _, _, _, _ => none
  | fuel + 1, m, place, next, step, widen =>
    if d.size < next + margin then none
    else match lookAt d m start distance place next step with
      | .ok found => some found
      | .error m =>
        let (step, widen) := if widen ≤ next then (step + 1, widen + patience) else (step, widen)
        find d start distance fuel m next (next + step) step widen

/-- Copies of the second last distance that follow a copy without literals between. -/
def repeats (d : Array UInt8) : (fuel : Nat) → Memory → (first second place : Nat) →
    List Sequence × Memory × Nat × Nat × Nat
  | 0, m, first, second, place => ([], m, first, second, place)
  | fuel + 1, m, first, second, place =>
    if place + margin ≤ d.size ∧ 0 < second ∧ same d 4 (place - second) place then
      let length := run d (place - second) place
      let (more, rest) := repeats d fuel ((m.addShort d place).addLong d place) second first (place + length)
      ({ literals := 0, length, source := 1 } :: more, rest)
    else ([], m, first, second, place)

/-- The sequences from a place on, in at most `fuel` steps. -/
def sequencesFrom (d : Array UInt8) : (fuel : Nat) → Memory → (first second start place : Nat) → List Sequence
  | 0, _, _, _, _, _ => []
  | fuel + 1, m, first, second, start, place =>
    match find d start first (d.size + 1) m place (place + 1) 1 (place + patience) with
    | none => []
    | some f =>
      let s : Sequence := {
        literals := f.start - start
        length := f.length
        source := match f.distance with
          | none => 1
          | some distance => distance + 3 }
      let (first, second) := match f.distance with
        | none => (first, second)
        | some distance => (distance, first)
      let stop := f.start + f.length
      if d.size < stop + margin then s :: sequencesFrom d fuel f.memory first second stop stop
      else
        let m := (((f.memory.addLong d (f.lookedAt + 2)).addLong d (stop - 2)).addShort d (f.lookedAt + 2)).addShort d
          (stop - 1)
        let (more, m, first, second, stop) := repeats d d.size m first second stop
        s :: more ++ sequencesFrom d fuel m first second stop stop

/-- Sequences that follow to all bytes but the last literals. Before any copy the only distance that
reaches back far enough is 1. -/
def sequences (d : Array UInt8) : List Sequence := sequencesFrom d (d.size + 1) ⟨[], []⟩ 1 0 0 1

def literalsOf : List Sequence → Bytes → Bytes
  | [], bytes => bytes
  | s :: rest, bytes => bytes.take s.literals ++ literalsOf rest (bytes.drop (s.literals + s.length))

end MerkleCells.Frame.Matches
