import MerkleCells.Proofs.Loading

/-!
Sessions whose stores are honest. What the store behind a loader answers does not depend on what was loaded before
(`Session.told_later`), so a store that has nothing but the right cells goes on to answer with these, whatever the
caches keep of them: each load gives the right cell, or fails because the store does not have it (`Honest.load`).
-/
namespace MerkleCells

open MerkleCells.Action

theorem Store.answer_asked (store : Store) : store.asked.answer = store.answer := by
  cases store <;> rfl

namespace Session

variable {P : Hash → Cell → Prop} {s s' : Session} {loader : LoaderId} {h : Hash} {c : Cell}

/-- What the store behind a loader answers to a hash. -/
def told (s : Session) (loader : LoaderId) (h : Hash) : Answer :=
  match s.loaders[loader]? with
  | none => .ok none
  | some l => s.answerTo loader l h

theorem told_load (s : Session) (id : LoaderId) (k : Hash) : (s.load id k).2.told loader h = s.told loader h := by
  rw [load]
  cases at_l : s.loaders[id]? with
  | none => rfl
  | some l =>
    -- the loader before and after stands before the same store
    have same : ∀ (l' : Loader) (stores : List Store), l'.store = l.store →
        (∀ i : Nat, stores[i]?.map Store.answer = s.stores[i]?.map Store.answer) →
        told ⟨s.loaders.set id l', stores⟩ loader h = s.told loader h := by
      intro l' stores store answers
      have answer : ∀ q : Loader, answerTo ⟨s.loaders.set id l', stores⟩ loader q h = s.answerTo loader q h := by
        intro q
        have alike := answers q.store
        rw [answerTo, answerTo]
        cases before : s.stores[q.store]? with
        | none =>
          rw [before, Option.map_none, Option.map_eq_none_iff] at alike
          simp only [alike]
        | some held =>
          rw [before, Option.map_some] at alike
          obtain ⟨held', after, answer⟩ := Option.map_eq_some_iff.mp alike
          simp only [after, answer]
      rw [told, told]
      by_cases here : id = loader
      · subst here
        have now : (s.loaders.set id l')[id]? = some l' :=
          List.getElem?_set_self (List.getElem?_eq_some_iff.mp at_l).1
        simp only [now, at_l]
        rw [answer, answerTo, answerTo, store]
      · simp only [List.getElem?_set_ne here]
        cases s.loaders[loader]? with
        | none => rfl
        | some q => exact answer q
    dsimp only
    cases found : l.get? k with
    | some hit => exact same _ _ (Loader.store_get? found) fun _ => rfl
    | none =>
      refine same _ _ (Loader.store_receive l k _) fun i => ?_
      rw [List.getElem?_modify]
      cases s.stores[i]? with
      | none => rfl
      | some held =>
        simp only [Option.map_eq_map, Option.map_some]
        split
        · rw [Store.answer_asked]
        · rfl

theorem told_later (later : s.Later s') : s'.told loader h = s.told loader h := by
  induction later with
  | refl => rfl
  | load id k _ ih => rw [told_load, ih]

/-- Every cell that is cached is the right one for its hash, and a store behind a loader answers with the right cell
or has none. -/
structure Honest (P : Hash → Cell → Prop) (s : Session) : Prop where
  caches : s.Caches P
  answers : ∀ loader h, s.told loader h = .ok none ∨ ∃ c, Loader.accept h (s.told loader h) = .ok c ∧ P h c

namespace Honest

theorem answers_right (honest : s.Honest P) : s.Answers P := by
  intro loader l h c at_l accepted
  have told : s.told loader h = s.answerTo loader l h := by rw [Session.told, at_l]
  rw [← told] at accepted
  rcases honest.answers loader h with none | ⟨d, given, right⟩
  · rw [none] at accepted
    cases accepted
  · rw [given] at accepted
    cases accepted
    exact right

theorem after_load (honest : s.Honest P) (loader : LoaderId) (h : Hash) : (s.load loader h).2.Honest P :=
  ⟨(honest.caches.load honest.answers_right loader h).2, fun id k => by rw [told_load]; exact honest.answers id k⟩

theorem later (honest : s.Honest P) (later : s.Later s') : s'.Honest P := by
  induction later with
  | refl => exact honest
  | load loader h _ ih => exact ih.after_load loader h

/-- A load gives the right cell, or fails because the store does not have it. -/
theorem load (honest : s.Honest P) (loader : LoaderId) (h : Hash) :
    (∃ c, (s.load loader h).1 = .ok c ∧ P h c) ∨
      (s.load loader h).1 = .error (.missing h) ∧ s.told loader h = .ok none := by
  cases answer : (s.load loader h).1 with
  | ok c => exact .inl ⟨c, rfl, (honest.caches.load honest.answers_right loader h).1 c answer⟩
  | error e =>
    refine .inr ?_
    have told := honest.answers loader h
    rw [Session.load] at answer
    rw [Session.told] at told ⊢
    cases at_l : s.loaders[loader]? with
    | none =>
      rw [at_l] at answer
      cases answer
      exact ⟨rfl, rfl⟩
    | some l =>
      rw [at_l] at answer told
      dsimp only at answer told
      cases found : l.get? h with
      | some hit => rw [found] at answer; cases answer
      | none =>
        rw [found] at answer
        rcases told with none | ⟨c, accepted, -⟩
        · simp only [Loader.receive, none] at answer
          cases answer
          exact ⟨rfl, none⟩
        · simp only [Loader.receive, accepted] at answer
          cases answer

end Honest

end Session

namespace Ref

variable {P : Hash → Cell → Prop} {s s' : Session} {r : Ref Cell} {c : Cell}

/-- A reference is not at hand: it is detached, or the store behind its loader does not have its target. -/
def Absent (s : Session) (r : Ref Cell) : Prop :=
  match r.target with
  | .direct _ => False
  | .soft _ none _ => True
  | .soft h (some loader) _ => s.told loader h = .ok none

theorem Absent.of_later (absent : r.Absent s') (later : s.Later s') : r.Absent s := by
  obtain ⟨status, d | ⟨h, loader, byMarker⟩⟩ := r
  · exact absent
  · cases loader with
    | none => exact absent
    | some loader =>
      rw [Absent] at absent ⊢
      exact (Session.told_later later).symm.trans absent

/-- A reference that is held directly, or that is resolved, leads to the right cell. -/
theorem right_of_value (honest : s.Honest P) (held : ∀ d, r.cell? = some d → P r.hash d)
    (run : result r.value s = (.ok c, s')) : P r.hash c := by
  obtain ⟨status, d | ⟨h, loader, byMarker⟩⟩ := r
  · cases run
    exact held c rfl
  · cases loader with
    | none => cases run
    | some loader =>
      exact (honest.caches.load honest.answers_right loader h).1 c (congrArg Prod.fst (load_of_value run).1)

/-- Resolving a reference gives the right cell or fails because that is not at hand, unless the reference was read
from an encoding in which the cell would not stand by its hash. -/
theorem value_or_absent (honest : s.Honest P) (held : ∀ d, r.cell? = some d → P r.hash d)
    (apart : ∀ loader, r.target = .soft r.hash loader true → ∀ d, P r.hash d → d.embeddable = false) :
    (Yields r.value s fun c s' => s.Later s' ∧ P r.hash c) ∨
      (∃ s', result r.value s = (.error (.missing r.hash), s')) ∧ r.Absent s := by
  obtain ⟨status, d | ⟨h, loader, byMarker⟩⟩ := r
  · exact .inl ⟨d, s, rfl, .refl s, held d rfl⟩
  · cases loader with
    | none => exact .inr ⟨⟨s, rfl⟩, trivial⟩
    | some loader =>
      have later := s.later_load loader h
      have found := honest.load loader h
      have taken : ∀ answer s', s.load loader h = (answer, s') →
          (byMarker = true → ∀ d, answer = .ok d → d.embeddable = false) →
          result (value ⟨status, .soft h (some loader) byMarker⟩) s = (answer, s') := by
        intro answer s' loaded large
        cases byMarker with
        | false => exact loaded
        | true =>
          simp only [value, ↓reduceIte, loadChild, MerkleCells.load, result_bind, result_ofStep, loaded]
          cases answer with
          | error e => rfl
          | ok d =>
            have child : Loader.asChild h (.ok d) = .ok d := Loader.asChild_eq_ok.mpr ⟨rfl, large rfl d rfl⟩
            exact congrArg (·, s') child
      cases loaded : s.load loader h with
      | mk answer s' =>
        rw [loaded] at later found
        rcases found with ⟨c, ok, right⟩ | ⟨missing, absent⟩
        · cases ok
          refine .inl ⟨c, s', taken _ s' loaded ?_, later, right⟩
          intro marker d same
          cases same
          exact apart (some loader) (by rw [marker]; rfl) c right
        · cases missing
          exact .inr ⟨⟨s', taken _ s' loaded fun _ d no => by cases no⟩, absent⟩

/-- A reference whose target is at hand can be resolved, and goes on to be. -/
theorem resolves_of_present (honest : s.Honest P) (named : ∀ h c, P h c → c.hash = h)
    (held : ∀ d, r.cell? = some d → P r.hash d)
    (apart : ∀ loader, r.target = .soft r.hash loader true → ∀ d, P r.hash d → d.embeddable = false)
    (present : ¬ r.Absent s) : r.Resolves s := by
  intro s' later
  rcases value_or_absent (honest.later later) held apart with found | ⟨-, absent⟩
  · exact found.mono fun c _ right => named r.hash c right.2
  · exact absurd (absent.of_later later) present

end Ref

end MerkleCells
