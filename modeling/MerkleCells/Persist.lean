import MerkleCells.Session

/-!
Persisting a value: its cell and every cell below that is not embedded are recorded as persisted,
children before their parents. What is persisted already is skipped without being looked at.
-/
namespace MerkleCells

/-- Persists the target of a reference, in at most `fuel` levels. -/
def persistWithin (store : StoreId) : (fuel : Nat) → Ref Cell → Action (Ref Cell)
  | 0, _ => throw .endless
  | fuel + 1, r => do
    if r.status.reaches .persisted then return r
    match ← statusOf store r.hash with
    | some held => if held.reaches .persisted then return r.withStatus held
    | none => pure ()
    let cell ← r.value
    cell.refs.forM fun child => do
      if !child.isEmbedded then
        let _ ← persistWithin store fuel child
    storeRef store (Ref.direct cell) .persisted

/-- Persists the target of a reference in a store. -/
def persist (store : StoreId) (r : Ref Cell) : Action (Ref Cell) := do
  persistWithin store (r.height + (← get).depth + 1) r

end MerkleCells
