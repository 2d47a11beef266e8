import MerkleCells.Hash.Basic

/-!
Finite tables from hashes to data, as lists of pairs. `find?` is the view: `find?_put` and
`find?_erase` say what the operations do to it. A table built by `put` has each hash once.
-/
namespace MerkleCells

/-- A finite table from hashes to data. -/
abbrev Table (α : Type) := List (Hash × α)

namespace Table

variable {α : Type}

/-- What is held under a hash. -/
def find? : Table α → Hash → Option α
  | [], _ => none
  | (k, a) :: rest, h => if k = h then some a else find? rest h

/-- Holds `a` under a hash, in place of whatever was there. -/
def put (h : Hash) (a : α) : Table α → Table α
  | [] => [(h, a)]
  | (k, b) :: rest => if k = h then (h, a) :: rest else (k, b) :: put h a rest

/-- Holds nothing under a hash any more. -/
def erase (t : Table α) (h : Hash) : Table α := t.filter fun e => e.1 ≠ h

/-- The hashes under which something is held. -/
def keys (t : Table α) : List Hash := t.map (·.1)

@[simp]
theorem find?_put (t : Table α) (h k : Hash) (a : α) :
    (t.put h a).find? k = if h = k then some a else t.find? k := by
  induction t with
  | nil => simp [put, find?]
  | cons e rest ih =>
    obtain ⟨j, b⟩ := e
    by_cases same : j = h
    · subst same
      by_cases here : j = k <;> simp [put, find?, here]
    · by_cases here : j = k
      · subst here
        simp [put, find?, same, Ne.symm same]
      · simp [put, find?, same, here, ih]

@[simp]
theorem find?_erase (t : Table α) (h k : Hash) :
    (t.erase h).find? k = if h = k then none else t.find? k := by
  induction t with
  | nil => simp [erase, find?]
  | cons e rest ih =>
    obtain ⟨j, b⟩ := e
    by_cases same : j = h
    · subst same
      simp only [erase, ne_eq, not_true_eq_false, decide_false, Bool.false_eq_true, not_false_eq_true,
        List.filter_cons_of_neg, find?] at ih ⊢
      rw [ih]
      split <;> rfl
    · simp only [erase, ne_eq, same, not_false_eq_true, decide_true, List.filter_cons_of_pos, find?] at ih ⊢
      by_cases here : j = k
      · subst here
        simp [Ne.symm same]
      · rw [if_neg here, if_neg here]
        exact ih

end Table

end MerkleCells
