import MerkleCells.Trie.Basic

/-!
Inserting and removing keys. Both give `none` if nothing changes. A node is never left in a form
that its entries would not have by themselves: `build` replaces a branch that has lost its
reason by what is left of it, and `fork` makes one exactly where two keys part.
-/
namespace MerkleCells.Trie

variable {kind : TrieKind}

/-- The branch at a depth that holds all of `t` and one more key, which leaves the keys of `t` there. -/
def fork (t : Trie kind) (depth : Nat) (key : Bytes) (value : Ref Cell) : Except Error (Trie kind) := do
  let path ← leadingOf key depth
  let (entry, children) ←
    if t.node.depth = depth then
      match t.node with
      | .leaf _ own => pure (some own, [])
      | _ => throw (.invalid .forkInsideBranch)
    else do
      let d ← digitAt t.node.path depth
      pure (none, [(d, t.ref)])
  let (entry, children) ←
    if Digits.count key = depth then pure (some value, children)
    else do
      let d ← digitAt key depth
      pure (entry, Branch.setChild d (leaf kind key value).ref children)
  let count ← addCounts t.count 1
  return ofNode kind (.branch { depth, path, entry, children, count })

/-- The count of a branch after the count of one child has changed. -/
def adjust (total before after : UInt64) : Except Error UInt64 :=
  if before ≤ total then addCounts (total - before) after else throw (.corruption .countBelowSubtree)

/-- Adds or replaces an entry, in at most `fuel` levels. -/
def insertWithin (key : Bytes) (value : Ref Cell) : (fuel : Nat) → Trie kind → Action (Option (Trie kind))
  | 0, _ => throw .endless
  | fuel + 1, t =>
    match t.node with
    | .empty => return some (leaf kind key value)
    | .leaf k own => do
      if k = key then
        return if own == value then none else some (leaf kind key value)
      return some (← t.fork (Digits.shared k key) key value)
    | .branch b => do
      let shared := Digits.common b.path key b.depth
      if shared < b.depth then return some (← t.fork shared key value)
      if Digits.count key = b.depth then
        if b.entry.any (· == value) then return none
        let count ← addCounts b.count (if b.entry.isNone then 1 else 0)
        return some (ofNode kind (.branch { b with entry := some value, count }))
      let d ← digitAt key b.depth
      match b.child? d with
      | none =>
        let children := Branch.setChild d (leaf kind key value).ref b.children
        let count ← addCounts b.count 1
        return some (ofNode kind (.branch { b with children, count }))
      | some r =>
        let child ← resolve kind r
        match ← insertWithin key value fuel child with
        | none => return none
        | some updated =>
          let count ← adjust b.count child.count updated.count
          let children := Branch.setChild d updated.ref b.children
          return some (ofNode kind (.branch { b with children, count }))

/-- Adds or replaces an entry. The value is held as a parent holds it, so a soft reference to an
embeddable cell is resolved. -/
def insert (t : Trie kind) (key : Bytes) (value : Ref Cell) : Action (Option (Trie kind)) := do
  insertWithin key (← value.canonical) (← t.levels) t

/-- The trie of what is left in a branch: nothing, a leaf, a lone child, or the branch. -/
def build (b : Branch (Ref Cell)) : Action (Trie kind) :=
  match b.entry, b.children with
  | none, [] => return empty kind
  | none, [(_, r)] => resolve kind r
  | some value, [] => return leaf kind b.path value
  | _, _ => return ofNode kind (.branch b)

/-- Removes a key, in at most `fuel` levels. -/
def eraseWithin (key : Bytes) : (fuel : Nat) → Trie kind → Action (Option (Trie kind))
  | 0, _ => throw .endless
  | fuel + 1, t =>
    match t.node with
    | .empty => return none
    | .leaf k _ => return if k = key then some (empty kind) else none
    | .branch b => do
      if !Digits.beginsWith key b.path b.depth then return none
      if Digits.count key = b.depth then
        if b.entry.isNone then return none
        let count ← adjust b.count 1 0
        return some (← build { b with entry := none, count })
      let d ← digitAt key b.depth
      match b.child? d with
      | none => return none
      | some r =>
        let child ← resolve kind r
        match ← eraseWithin key fuel child with
        | none => return none
        | some updated =>
          let children :=
            if updated.count = 0 then Branch.eraseChild d b.children
            else Branch.setChild d updated.ref b.children
          let count ← adjust b.count child.count updated.count
          return some (← build { b with children, count })

def erase (t : Trie kind) (key : Bytes) : Action (Option (Trie kind)) := do
  eraseWithin key (← t.levels) t

/-- Adds or replaces an entry in whatever trie a cell holds. The value is looked at before the cell. -/
def insertInto (kind : TrieKind) (root : Cell) (key : Bytes) (value : Ref Cell) : Action (Option (Trie kind)) := do
  let value ← value.canonical
  let t ← ofCell kind root
  insertWithin key value (← t.levels) t

end MerkleCells.Trie
