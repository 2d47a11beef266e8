import MerkleCells.Proofs.Trie.Holds
import MerkleCells.Trie.SetOperation

/-!
Set algebra on contents. `SetOperation.combine` is what an operation keeps of two contents; it can be worked
out part by part, below each digit by itself. `Content.join` puts a part in the place of another.
-/
namespace MerkleCells

variable {α : Type}

/-- What an operation keeps of two contents. What is on both sides is taken from the left. -/
def SetOperation.combine (op : SetOperation) (f g : Content α) : Content α := fun k =>
  match f k, g k with
  | none, none => none
  | some a, none => if op.keeps .left then some a else none
  | none, some b => if op.keeps .right then some b else none
  | some a, some _ => if op.keeps .both then some a else none

namespace Content

/-- Every binding is one of two other contents. -/
def From (h f g : Content α) : Prop := ∀ k a, h k = some a → f k = some a ∨ g k = some a

/-- The content with another part below a digit. -/
def join (h : Content α) (depth : Nat) (d : Digit) (part : Content α) : Content α :=
  fun k => if Digits.digit? k depth = some d then part k else h k

/-- Every key goes on after `depth` digits. -/
def GoesOn (f : Content α) (depth : Nat) : Prop := ∀ k ∈ f.keys, ∃ d, Digits.digit? k depth = some d

/-- A content goes on with one digit at a place. -/
def GoesTo (f : Content α) (depth : Nat) (d : Digit) : Prop := ∀ k ∈ f.keys, Digits.digit? k depth = some d

variable {f g h part : Content α} {depth : Nat} {d e : Digit} {path : Bytes} {k : Bytes}

theorem From.mem_keys (sub : h.From f g) (bound : k ∈ h.keys) : k ∈ f.keys ∪ g.keys := by
  obtain ⟨a, bound⟩ := Option.ne_none_iff_exists'.mp bound
  rcases sub k a bound with left | right
  · exact .inl (mem_keys_of_eq_some left)
  · exact .inr (mem_keys_of_eq_some right)

theorem From.left : f.From f g := fun _ _ bound => .inl bound

theorem From.right : g.From f g := fun _ _ bound => .inr bound

theorem From.none : (none : Content α).From f g := fun _ _ bound => by cases bound

theorem From.symm (sub : h.From f g) : h.From g f := fun k a bound => (sub k a bound).symm

theorem From.size_le (sub : h.From f g) (finite : f.keys.Finite) (finite' : g.keys.Finite) :
    h.size ≤ (f.keys ∪ g.keys).ncard :=
  Set.ncard_le_ncard (fun _ bound => sub.mem_keys bound) (finite.union finite')

theorem From.of_below (sub : h.From (f.below depth d) (g.below depth d)) : h.From f g := by
  intro k a bound
  rcases sub k a bound with left | right
  · exact .inl (below_eq_some_iff.mp left).2
  · exact .inr (below_eq_some_iff.mp right).2

theorem From.within (sub : h.From f g) (left : f.Within path depth) (right : g.Within path depth) :
    h.Within path depth := by
  intro k bound
  rcases sub.mem_keys bound with bound | bound
  · exact left k bound
  · exact right k bound

theorem From.goesTo (sub : h.From f g) (left : f.GoesTo depth d) (right : g.GoesTo depth d) : h.GoesTo depth d := by
  intro k bound
  rcases sub.mem_keys bound with bound | bound
  · exact left k bound
  · exact right k bound

theorem goesTo_below (f : Content α) (depth : Nat) (d : Digit) : (f.below depth d).GoesTo depth d :=
  fun _ bound => (mem_keys_below.mp bound).1

theorem GoesTo.below_self (goes : f.GoesTo depth d) : f.below depth d = f := below_eq_self goes

theorem GoesTo.below_of_ne (goes : f.GoesTo depth d) (other : d ≠ e) : f.below depth e = none :=
  below_eq_none fun k bound here => other (Option.some.inj ((goes k bound).symm.trans here))

theorem GoesOn.ext (left : f.GoesOn depth) (right : g.GoesOn depth)
    (parts : ∀ d, f.below depth d = g.below depth d) : f = g := by
  funext k
  cases here : Digits.digit? k depth with
  | none =>
    have ends : ∀ c : Content α, c.GoesOn depth → c k = Option.none := by
      intro c goes
      by_contra bound
      obtain ⟨d, at_d⟩ := goes k bound
      rw [here] at at_d
      cases at_d
    rw [ends f left, ends g right]
  | some d => rw [← below_of_digit (f := f) here, ← below_of_digit (f := g) here, parts d]

/-! ### Joining -/

theorem join_below_self (goes : part.GoesTo depth d) : (h.join depth d part).below depth d = part := by
  funext k
  by_cases here : Digits.digit? k depth = some d
  · rw [below_of_digit here, join, if_pos here]
  · rw [Content.below_of_ne here]
    exact (eq_none_of_notMem fun bound => here (goes k bound)).symm

theorem join_below_of_ne (other : d ≠ e) : (h.join depth d part).below depth e = h.below depth e := by
  funext k
  by_cases here : Digits.digit? k depth = some e
  · have apart : Digits.digit? k depth ≠ some d := fun at_d => other (Option.some.inj (at_d.symm.trans here))
    rw [below_of_digit here, below_of_digit here, join, if_neg apart]
  · rw [Content.below_of_ne here, Content.below_of_ne here]

theorem keys_join (goes : part.GoesTo depth d) (vacant : h.below depth d = none) :
    (h.join depth d part).keys = h.keys ∪ part.keys := by
  ext k
  rw [Set.mem_union, mem_keys, mem_keys, mem_keys, join]
  by_cases here : Digits.digit? k depth = some d
  · have unbound : h k = Option.none := by rw [← below_of_digit (f := h) here, vacant]; rfl
    simp [here, unbound]
  · have unbound : part k = Option.none := eq_none_of_notMem fun bound => here (goes k bound)
    simp [here, unbound]

theorem size_join (goes : part.GoesTo depth d) (vacant : h.below depth d = none) (finite : h.keys.Finite)
    (finite' : part.keys.Finite) : (h.join depth d part).size = h.size + part.size := by
  rw [size, keys_join goes vacant, Set.ncard_union_eq _ finite finite']
  · rfl
  · rw [Set.disjoint_left]
    intro k left right
    have here := goes k right
    have unbound : h k = Option.none := by rw [← below_of_digit (f := h) here, vacant]; rfl
    exact left unbound

theorem From.join (sub : h.From f g) (sub' : part.From f g) : (h.join depth d part).From f g := by
  intro k a bound
  rw [Content.join] at bound
  split at bound
  · exact sub' k a bound
  · exact sub k a bound

end Content

namespace SetOperation

variable {op : SetOperation} {f g : Content α} {depth : Nat} {d : Digit} {path : Bytes}

/-- An operation works on each part by itself. -/
theorem combine_below (op : SetOperation) (f g : Content α) (depth : Nat) (d : Digit) :
    (op.combine f g).below depth d = op.combine (f.below depth d) (g.below depth d) := by
  funext k
  by_cases here : Digits.digit? k depth = some d
  · rw [Content.below_of_digit here, combine, combine, Content.below_of_digit here, Content.below_of_digit here]
  · rw [Content.below_of_ne here, combine, Content.below_of_ne here, Content.below_of_ne here]

theorem combine_from (op : SetOperation) (f g : Content α) : (op.combine f g).From f g := by
  intro k a bound
  rw [combine] at bound
  split at bound
  · cases bound
  · next left _ =>
    split at bound
    · exact .inl (left.trans bound)
    · cases bound
  · next _ right =>
    split at bound
    · exact .inr (right.trans bound)
    · cases bound
  · next left _ =>
    split at bound
    · exact .inl (left.trans bound)
    · cases bound

theorem combine_of_keys_eq (op : SetOperation) (same : f.keys = g.keys) :
    op.combine f g = if op.keeps .both then f else .none := by
  funext k
  have bound : f k ≠ none ↔ g k ≠ none := Set.ext_iff.mp same k
  have value : op.combine f g k = if op.keeps .both then f k else none := by
    rw [combine]
    cases left : f k with
    | none =>
      cases right : g k with
      | none => rw [ite_self]
      | some b => exact absurd left (bound.mpr (by simp [right]))
    | some a =>
      cases right : g k with
      | none => exact absurd right (bound.mp (by simp [left]))
      | some b => rfl
  rw [value]
  split <;> rfl

theorem combine_self (op : SetOperation) (f : Content α) :
    op.combine f f = if op.keeps .both then f else .none := op.combine_of_keys_eq rfl

theorem combine_none_right (op : SetOperation) (f : Content α) :
    op.combine f .none = if op.keeps .left then f else .none := by
  funext k
  by_cases keep : op.keeps .left = true
  · rw [if_pos keep, combine]
    cases f k with
    | none => rfl
    | some a => exact if_pos keep
  · rw [if_neg keep, combine]
    cases f k with
    | none => rfl
    | some a => exact if_neg keep

theorem combine_none_left (op : SetOperation) (g : Content α) :
    op.combine .none g = if op.keeps .right then g else .none := by
  funext k
  by_cases keep : op.keeps .right = true
  · rw [if_pos keep, combine]
    cases g k with
    | none => rfl
    | some a => exact if_pos keep
  · rw [if_neg keep, combine]
    cases g k with
    | none => rfl
    | some a => exact if_neg keep

end SetOperation

end MerkleCells
