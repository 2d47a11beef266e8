import MerkleCells.Table
import Mathlib.Data.List.Nodup
import Mathlib.Data.List.Perm.Basic

/-!
Tables in which each hash stands once. `put` keeps them so, and what is found in them depends on their members
alone, so they can be sorted, written and read back.
-/
namespace MerkleCells.Table

variable {α : Type} {t t' : Table α} {h k : Hash} {a b : α}

theorem mem_of_find? (found : t.find? h = some a) : (h, a) ∈ t := by
  induction t with
  | nil => cases found
  | cons e rest ih =>
    obtain ⟨j, b⟩ := e
    rw [find?] at found
    split at found
    · next here =>
      cases found
      rw [here]
      exact List.mem_cons_self
    · exact List.mem_cons_of_mem _ (ih found)

theorem mem_keys_of_mem (member : (h, a) ∈ t) : h ∈ t.keys := List.mem_map_of_mem member

theorem find?_eq_none_iff : t.find? h = none ↔ h ∉ t.keys := by
  induction t with
  | nil => exact iff_of_true rfl List.not_mem_nil
  | cons e rest ih =>
    obtain ⟨j, b⟩ := e
    rw [find?, keys, List.map_cons, List.mem_cons, not_or]
    by_cases here : j = h
    · rw [if_pos here]
      exact iff_of_false (Option.some_ne_none b) fun absent => absent.1 here.symm
    · rw [if_neg here, ih]
      exact (and_iff_right (Ne.symm here)).symm

theorem find?_eq_some_iff (distinct : t.keys.Nodup) : t.find? h = some a ↔ (h, a) ∈ t := by
  refine ⟨mem_of_find?, fun member => ?_⟩
  induction t with
  | nil => cases member
  | cons e rest ih =>
    obtain ⟨j, b⟩ := e
    obtain ⟨new, distinct⟩ := List.nodup_cons.mp distinct
    rcases List.mem_cons.mp member with same | member
    · cases same
      exact if_pos rfl
    · have other : j ≠ h := fun same => new (same ▸ mem_keys_of_mem member)
      rw [find?, if_neg other]
      exact ih distinct member

/-- The order of a table in which each hash stands once makes no difference. -/
theorem find?_perm (distinct : t.keys.Nodup) (perm : t.Perm t') (h : Hash) : t.find? h = t'.find? h := by
  have distinct' : t'.keys.Nodup := (perm.map _).nodup_iff.mp distinct
  refine Option.ext fun a => ?_
  rw [find?_eq_some_iff distinct, find?_eq_some_iff distinct', perm.mem_iff]

theorem put_of_not_mem (new : h ∉ t.keys) : t.put h a = t ++ [(h, a)] := by
  induction t with
  | nil => rfl
  | cons e rest ih =>
    obtain ⟨j, b⟩ := e
    obtain ⟨other, new⟩ := not_or.mp (List.mem_cons.not.mp new)
    rw [put, if_neg (Ne.symm other), ih new, List.cons_append]

theorem keys_put_of_mem (old : h ∈ t.keys) : (t.put h a).keys = t.keys := by
  induction t with
  | nil => cases old
  | cons e rest ih =>
    obtain ⟨j, b⟩ := e
    by_cases here : j = h
    · simp [put, keys, here]
    · have old : h ∈ keys rest := (List.mem_cons.mp old).resolve_left (Ne.symm here)
      rw [put, if_neg here]
      exact congrArg (j :: ·) (ih old)

theorem nodup_put (distinct : t.keys.Nodup) (h : Hash) (a : α) : (t.put h a).keys.Nodup := by
  by_cases old : h ∈ t.keys
  · rwa [keys_put_of_mem old]
  · rw [put_of_not_mem old, keys, List.map_append]
    exact distinct.append (List.nodup_singleton h) (List.disjoint_singleton.mpr old)

theorem mem_put (member : (k, b) ∈ t.put h a) : (k, b) = (h, a) ∨ (k, b) ∈ t := by
  induction t with
  | nil => exact .inl (List.mem_singleton.mp member)
  | cons e rest ih =>
    obtain ⟨j, c⟩ := e
    rw [put] at member
    split at member
    · exact (List.mem_cons.mp member).imp_right (List.mem_cons_of_mem _)
    · rcases List.mem_cons.mp member with same | member
      · exact .inr (List.mem_cons.mpr (.inl same))
      · exact (ih member).imp_right (List.mem_cons_of_mem _)

/-- Putting the members of such a table one after the other gives the table. -/
theorem foldl_put (distinct : (t ++ t').keys.Nodup) : t'.foldl (fun t e => t.put e.1 e.2) t = t ++ t' := by
  induction t' generalizing t with
  | nil => rw [List.foldl_nil, List.append_nil]
  | cons e rest ih =>
    have new : e.1 ∉ t.keys := fun old => by
      rw [keys, List.map_append] at distinct
      exact List.disjoint_of_nodup_append distinct old (by simp)
    rw [List.foldl_cons, put_of_not_mem new, ih (by rwa [List.append_assoc]), List.append_assoc]
    rfl

end MerkleCells.Table
