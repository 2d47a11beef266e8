import MerkleCells.Cell.Reader
import MerkleCells.Trie.Basic
import MerkleCells.Trie.SetOperation

/-!
Set operations as one walk over two tries. Subtrees with equal hashes are decided without being
opened, and what only one side has is kept or dropped by reference, without being loaded. A branch
that results from children some of which were never opened gets its count from a `Tally`: what an
input branch held, less what is known of it.
-/
namespace MerkleCells.Trie

/-- A merged subtree and the number of its elements. -/
structure Merged where
  root : Ref Cell
  count : UInt64

namespace Merged

/-- One side as it is. -/
def whole (t : Trie .set) : Merged := ⟨t.ref, t.count⟩

/-- No elements. -/
def nothing : Merged := ⟨(empty .set).ref, 0⟩

/-- What an operation leaves of two subtrees with the same elements. -/
def both (op : SetOperation) (left right : Trie .set) : Merged :=
  match op.outcome .both with
  | .keepLeft => whole left
  | .keepEither => whole left
  | .keepRight => whole right
  | .drop => nothing

/-- What an operation leaves of a subtree that is on one side only. -/
def one (op : SetOperation) (presence : Presence) (t : Trie .set) : Merged :=
  if op.keeps presence then whole t else nothing

end Merged

/-- A child of a merged branch, with its count if that is known. -/
structure Part where
  digit : Digit
  root : Ref Cell
  count : Option UInt64

/-- The merged subtree at a digit, unless it has no elements. -/
def Part.ofMerged (digit : Digit) (m : Merged) : List Part :=
  if m.count > 0 then [⟨digit, m.root, some m.count⟩] else []

/-- What is known of the elements below one input branch. -/
structure Tally where
  /-- Elements below the branch. -/
  total : UInt64
  /-- Those below children whose count is known. -/
  known : UInt64
  /-- A child of unknown count was kept. -/
  pending : Bool
  /-- A child of unknown count was dropped. -/
  blind : Bool

namespace Tally

/-- Nothing is known yet of the children of a branch. -/
def ofBranch {ρ : Type} (b : Branch ρ) : Tally := ⟨b.count, 0, false, false⟩

/-- A child of known count was passed. -/
def opened (t : Tally) (count : UInt64) : Tally := { t with known := addSaturating t.known count }

/-- A child was kept by reference. -/
def kept (t : Tally) : (count : Option UInt64) → Tally
  | some n => t.opened n
  | none => { t with pending := true }

/-- A child was dropped by reference. -/
def dropped (t : Tally) : (count : Option UInt64) → Tally
  | some n => t.opened n
  | none => { t with blind := true }

/-- Whether the elements below the children of unknown count that were kept can be told. -/
def settled (t : Tally) : Bool := !(t.pending && t.blind)

/-- The elements below the children of unknown count that were kept. -/
def missing (t : Tally) : Except Error UInt64 :=
  if !t.pending then return 0
  else if t.known ≤ t.total then return t.total - t.known
  else throw (.corruption .countBelowChildren)

end Tally

/-- The count of a child, if that is at hand without asking a store. -/
def knownCount (r : Ref Cell) : Action (Option UInt64) := do
  match ← r.peek with
  | none => return none
  | some cell => return (ofCell .set cell).toOption.map count

/-- Passes a child by reference: it becomes a part if it is kept. -/
def pass (t : Tally) (digit : Digit) (r : Ref Cell) (keep : Bool) : Action (List Part × Tally) := do
  let count ← knownCount r
  if keep then return ([⟨digit, r, count⟩], t.kept count)
  else return ([], t.dropped count)

/-- The parts of a branch are the children that another branch has already. -/
def sameChildren (b : Branch (Ref Cell)) (parts : List Part) : Bool :=
  b.children.length == parts.length &&
    (b.children.zip parts).all fun (c, p) => c.1 == p.digit && c.2 == p.root

/-- The count of a part, which is resolved if that is not known. -/
def partCount (p : Part) : Action UInt64 := do
  match p.count with
  | some n => return n
  | none => return (← resolve .set p.root).count

/-- The elements below some parts, loading only what cannot be told from the tallies. -/
def settle (parts : List Part) (tallies : List Tally) : Action UInt64 := do
  if tallies.all Tally.settled then
    let missing ← sumOf (fun t => (t.missing : Except Error UInt64)) tallies
    let known ← sumOf pure (parts.filterMap (·.count))
    addCounts missing known
  else sumOf partCount parts

/-- The subtree of some parts at a depth: none, the only one, or a branch. -/
def assemble (depth : Nat) (path : Bytes) (parts : List Part) (tallies : List Tally) : Action Merged := do
  let count ← settle parts tallies
  match parts with
  | [] => return .nothing
  | [p] => return ⟨p.root, count⟩
  | _ =>
    let children := parts.map fun p => (p.digit, p.root)
    return ⟨(ofNode .set (.branch { depth, path, entry := none, children, count })).ref, count⟩

/-- The parts so far of two branches at the same depth. -/
structure Side where
  parts : List Part
  left : Tally
  right : Tally

/-- Merges the children of two branches at one digit. -/
def mergeDigit (op : SetOperation) (merge : Trie .set → Trie .set → Action Merged) (a b : Branch (Ref Cell))
    (s : Side) (d : Digit) : Action Side := do
  match a.child? d, b.child? d with
  | none, none => return s
  | some ra, none =>
    let (parts, left) ← pass s.left d ra (op.keeps .left)
    return { s with parts := s.parts ++ parts, left }
  | none, some rb =>
    let (parts, right) ← pass s.right d rb (op.keeps .right)
    return { s with parts := s.parts ++ parts, right }
  | some ra, some rb =>
    if ra == rb then
      let (parts, left) ← pass s.left d ra (op.keeps .both)
      let (_, right) ← pass s.right d rb false
      return { parts := s.parts ++ parts, left, right }
    else
      let ca ← resolve .set ra
      let cb ← resolve .set rb
      let m ← merge ca cb
      return {
        parts := s.parts ++ Part.ofMerged d m
        left := s.left.opened ca.count
        right := s.right.opened cb.count }

/-- Merges two branches at the same depth digit by digit. -/
def mergeBranches (op : SetOperation) (merge : Trie .set → Trie .set → Action Merged)
    (left : Trie .set) (a : Branch (Ref Cell)) (right : Trie .set) (b : Branch (Ref Cell)) : Action Merged := do
  let s ← (List.finRange 16).foldlM (mergeDigit op merge a b) ⟨[], .ofBranch a, .ofBranch b⟩
  if sameChildren a s.parts then return ⟨left.ref, a.count⟩
  if sameChildren b s.parts then return ⟨right.ref, b.count⟩
  assemble a.depth a.path s.parts [s.left, s.right]

/-- Merges a deeper node into one branch at one digit: it belongs below the digit `slot`, and every
other child is kept or dropped by reference. -/
def descendDigit (op : SetOperation) (merge : Trie .set → Action Merged) (b : Branch (Ref Cell))
    (own : Presence) (other : Trie .set) (otherSide : Presence) (slot : Digit)
    (s : List Part × Tally) (d : Digit) : Action (List Part × Tally) := do
  match decide (d = slot), b.child? d with
  | true, some r =>
    let child ← resolve .set r
    let m ← merge child
    return (s.1 ++ Part.ofMerged d m, s.2.opened child.count)
  | true, none => return (s.1 ++ Part.ofMerged d (.one op otherSide other), s.2)
  | false, some r =>
    let (parts, tally) ← pass s.2 d r (op.keeps own)
    return (s.1 ++ parts, tally)
  | false, none => return s

/-- Merges a deeper node into a branch. -/
def descend (op : SetOperation) (merge : Trie .set → Action Merged) (t : Trie .set) (b : Branch (Ref Cell))
    (own : Presence) (other : Trie .set) (otherSide : Presence) (slot : Digit) : Action Merged := do
  let (parts, tally) ←
    (List.finRange 16).foldlM (descendDigit op merge b own other otherSide slot) ([], .ofBranch b)
  if sameChildren b parts then return ⟨t.ref, b.count⟩
  assemble b.depth b.path parts [tally]

/-- Joins two subtrees whose keys part after `shared` digits. -/
def mergeApart (op : SetOperation) (left right : Trie .set) (shared : Nat) : Action Merged := do
  let l := Part.ofMerged (← digitAt left.node.path shared) (.one op .left left)
  let r := Part.ofMerged (← digitAt right.node.path shared) (.one op .right right)
  let parts := (l ++ r).mergeSort fun p q => decide (p.digit ≤ q.digit)
  assemble shared (← leadingOf left.node.path shared) parts []

/-- Merges two tries in at most `fuel` levels. -/
def mergeWithin (op : SetOperation) : (fuel : Nat) → (left right : Trie .set) → Action Merged
  | 0, _, _ => throw .endless
  | fuel + 1, left, right => do
    if left.hash = right.hash then return .both op left right
    if left.node.isEmpty then return .one op .right right
    if right.node.isEmpty then return .one op .left left
    let limit := min left.node.depth right.node.depth
    let shared := Digits.common left.node.path right.node.path limit
    if shared < limit then mergeApart op left right shared
    else match left.node, right.node with
      | .leaf .., .leaf .. => return .both op left right
      | .branch a, other =>
        if a.depth < other.depth then
          descend op (fun child => mergeWithin op fuel child right) left a .left right .right
            (← digitAt other.path a.depth)
        else match other with
          | .branch b =>
            if a.depth = b.depth then mergeBranches op (mergeWithin op fuel) left a right b
            else
              descend op (fun child => mergeWithin op fuel left child) right b .right left .left
                (← digitAt a.path b.depth)
          | _ => throw (.invalid .mixedShapes)
      | other, .branch b =>
        if b.depth < other.depth then
          descend op (fun child => mergeWithin op fuel left child) right b .right left .left
            (← digitAt other.path b.depth)
        else throw (.invalid .mixedShapes)
      | _, _ => throw (.invalid .mixedShapes)

/-- What an operation makes of two sets. -/
def merge (op : SetOperation) (left right : Trie .set) : Action (Trie .set) := do
  let m ← mergeWithin op ((← left.levels) + (← right.levels)) left right
  resolve .set m.root

/-- What an operation makes of the sets in two cells. Of equal cells neither needs to be a set if
the operation drops what both sides hold. -/
def mergeCells (op : SetOperation) (left right : Cell) : Action (Trie .set) := do
  if left.hash = right.hash ∧ op.outcome .both = .drop then return empty .set
  let l ← ofCell .set left
  let r ← ofCell .set right
  merge op l r

end MerkleCells.Trie
