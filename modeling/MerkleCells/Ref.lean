import MerkleCells.Hash.Basic
import MerkleCells.Status

/-!
References to cells. A direct reference holds its target; a soft one knows the target's hash and,
unless it is detached, a loader to ask for it. Both carry a storage status. The type of targets is
a parameter, so that a reference can be followed down to whatever is known of a target.
-/
namespace MerkleCells

/-- The number of a loader in a session. -/
abbrev LoaderId := Nat

/-- What a reference points at. -/
inductive Target (α : Type) where
  /-- The target itself. -/
  | direct (cell : α)
  /-- The target's hash. `byMarker` says that it was read from a hash inside another encoding,
  where an embeddable cell may not stand. -/
  | soft (hash : Hash) (loader : Option LoaderId) (byMarker : Bool)

/-- A reference: a target and how far it is known to have been stored. -/
structure Ref (α : Type) where
  status : Status
  target : Target α

namespace Ref

variable {α β γ : Type}

/-- The target of a direct reference. -/
def cell? (r : Ref α) : Option α :=
  match r.target with
  | .direct cell => some cell
  | .soft .. => none

def isDirect (r : Ref α) : Bool := r.cell?.isSome

/-- A reference to be resolved by a loader. -/
def soft (hash : Hash) (loader : LoaderId) : Ref α := ⟨.unknown, .soft hash (some loader) false⟩

/-- A reference that nothing can resolve. -/
def detached (hash : Hash) : Ref α := ⟨.unknown, .soft hash none false⟩

/-- A reference read from a hash inside an encoding. -/
def ofMarker (hash : Hash) (loader : Option LoaderId) : Ref α := ⟨.unknown, .soft hash loader true⟩

/-- The same reference with its status raised to at least `status`. -/
def withStatus (r : Ref α) (status : Status) : Ref α := { r with status := r.status.max status }

/-- The same reference to the image of its target. -/
def map (f : α → β) (r : Ref α) : Ref β :=
  ⟨r.status, match r.target with
    | .direct cell => .direct (f cell)
    | .soft hash loader byMarker => .soft hash loader byMarker⟩

/-- Like `map`, for a function that needs a fact about the target. -/
def pmap {P : α → Prop} (f : ∀ a, P a → β) (r : Ref α) (h : ∀ a, r.cell? = some a → P a) : Ref β :=
  match r, h with
  | ⟨status, .direct cell⟩, h => ⟨status, .direct (f cell (h cell rfl))⟩
  | ⟨status, .soft hash loader byMarker⟩, _ => ⟨status, .soft hash loader byMarker⟩

theorem cell?_map (f : α → β) (r : Ref α) : (r.map f).cell? = r.cell?.map f := by
  rcases r with ⟨_, _ | _⟩ <;> rfl

theorem map_map (f : α → β) (g : β → γ) (r : Ref α) : (r.map f).map g = r.map (g ∘ f) := by
  rcases r with ⟨_, _ | _⟩ <;> rfl

theorem map_id (r : Ref α) : r.map id = r := by
  rcases r with ⟨_, _ | _⟩ <;> rfl

theorem map_pmap {P : α → Prop} (f : ∀ a, P a → β) (g : β → γ) (r : Ref α) (h : ∀ a, r.cell? = some a → P a) :
    (r.pmap f h).map g = r.pmap (fun a ha => g (f a ha)) h := by
  rcases r with ⟨_, _ | _⟩ <;> rfl

theorem pmap_eq_map {P : α → Prop} (f : α → β) (r : Ref α) (h : ∀ a, r.cell? = some a → P a) :
    r.pmap (fun a _ => f a) h = r.map f := by
  rcases r with ⟨_, _ | _⟩ <;> rfl

theorem pmap_map {P : β → Prop} (f : ∀ b, P b → γ) (g : α → β) (r : Ref α)
    (h : ∀ b, (r.map g).cell? = some b → P b) :
    (r.map g).pmap f h = r.pmap (fun a ha => f (g a) ha)
      (fun a ha => h (g a) (by rw [cell?_map, ha]; rfl)) := by
  rcases r with ⟨_, _ | _⟩ <;> rfl

end Ref

end MerkleCells
