import MerkleCells.Proofs.Action

/-!
Actions that may find something missing. `Action.Answers` says that an action succeeds, or that it fails for a hash
that is missing and for no other reason. `Action.Mirrors` compares it with an action that misses nothing: whenever
that one succeeds, the action answers, with a value that is related to the value there.
-/
namespace MerkleCells.Action

variable {α β γ δ : Type} {M : Hash → Prop} {s s' : Session}

/-- An action succeeds with a value of which `Q` is true, or fails for a hash that is missing. -/
def Answers (M : Hash → Prop) (x : Action α) (s : Session) (Q : α → Session → Prop) : Prop :=
  Yields x s Q ∨ ∃ h s', result x s = (.error (.missing h), s') ∧ M h

section Answers

variable {x : Action α} {P Q : α → Session → Prop}

theorem Yields.answers (yields : Yields x s Q) : Answers M x s Q := .inl yields

/-- If nothing is missing, the action succeeds. -/
theorem Answers.yields (answers : Answers M x s Q) (none : ∀ h, ¬ M h) : Yields x s Q := by
  rcases answers with yields | ⟨h, -, -, missing⟩
  · exact yields
  · exact absurd missing (none h)

theorem Answers.mono (answers : Answers M x s P) (sub : ∀ a s', P a s' → Q a s') : Answers M x s Q :=
  answers.imp_left fun yields => yields.mono sub

theorem Answers.bind {f : α → Action β} {Q : β → Session → Prop} (first : Answers M x s P)
    (second : ∀ a s', P a s' → Answers M (f a) s' Q) : Answers M (x >>= f) s Q := by
  rcases first with ⟨a, s₁, run, holds⟩ | ⟨h, s₁, run, missing⟩
  · rcases second a s₁ holds with ⟨b, s₂, run', holds'⟩ | ⟨h, s₂, run', missing⟩
    · exact .inl ⟨b, s₂, by rw [result_bind, run]; exact run', holds'⟩
    · exact .inr ⟨h, s₂, by rw [result_bind, run]; exact run', missing⟩
  · exact .inr ⟨h, s₁, by rw [result_bind, run], missing⟩

end Answers

/-! ### Checks of data -/

/-- Whenever the first check passes, the second one does, with a related value. -/
def Passes (R : α → β → Prop) (e : Except Error α) (e' : Except Error β) : Prop :=
  ∀ a, e = .ok a → ∃ b, e' = .ok b ∧ R a b

theorem Passes.bind {R : α → β → Prop} {R' : γ → δ → Prop} {e : Except Error α} {e' : Except Error β}
    {f : α → Except Error γ} {f' : β → Except Error δ} (first : Passes R e e')
    (second : ∀ a b, R a b → Passes R' (f a) (f' b)) : Passes R' (e >>= f) (e' >>= f') := by
  intro c passed
  cases e with
  | error e => cases passed
  | ok a =>
    obtain ⟨b, rfl, related⟩ := first a rfl
    exact second a b related c passed

theorem passes_pure {R : α → β → Prop} {a : α} {b : β} (related : R a b) :
    Passes R (pure a) (pure b) := by
  rintro _ ⟨⟩
  exact ⟨b, rfl, related⟩

theorem passes_same (e : Except Error α) : Passes Eq e e := fun a passed => ⟨a, passed, rfl⟩

/-! ### Two runs -/

/-- Whenever the first action succeeds, in whatever session, the second one answers in this session, with a value
that is related to the value of the first. It does nothing to the session but load. -/
def Mirrors (M : Hash → Prop) (x : Action α) (y : Action β) (s' : Session) (R : α → β → Session → Prop) : Prop :=
  ∀ s a s₁, result x s = (.ok a, s₁) → Answers M y s' fun b s₁' => s'.Later s₁' ∧ R a b s₁'

section Mirrors

variable {x : Action α} {y : Action β} {R : α → β → Session → Prop}

theorem mirrors_pure {a : α} {b : β} (related : R a b s') : Mirrors M (pure a) (pure b) s' R := by
  intro s a' s₁ run
  cases run
  exact .inl (yields_pure.mpr ⟨.refl s', related⟩)

/-- Nothing is asked where the first action fails. -/
theorem mirrors_throw (e : Error) : Mirrors M (throw e : Action α) y s' R := by
  intro s a s₁ run
  cases run

theorem mirrors_lift {e : Except Error α} {e' : Except Error β} {Q : α → β → Prop} (passes : Passes Q e e') :
    Mirrors M (liftM e) (liftM e') s' fun a b _ => Q a b := by
  intro s a₁ s₁ run
  cases e with
  | error e => cases run
  | ok a =>
    obtain ⟨b, rfl, related⟩ := passes a rfl
    cases run
    exact .inl (yields_liftExcept.mpr ⟨b, rfl, .refl s', related⟩)

theorem Mirrors.mono {R' : α → β → Session → Prop} (mirrors : Mirrors M x y s' R)
    (sub : ∀ a b s₁', R a b s₁' → R' a b s₁') : Mirrors M x y s' R' :=
  fun s a s₁ run => (mirrors s a s₁ run).mono fun b s₁' related => ⟨related.1, sub a b s₁' related.2⟩

theorem Mirrors.bind {f : α → Action γ} {g : β → Action δ} {R' : γ → δ → Session → Prop} (first : Mirrors M x y s' R)
    (second : ∀ a b s₁', s'.Later s₁' → R a b s₁' → Mirrors M (f a) (g b) s₁' R') :
    Mirrors M (x >>= f) (y >>= g) s' R' := by
  intro s c s₂ run
  rw [result_bind] at run
  cases run₁ : result x s with
  | mk answer s₁ =>
    rw [run₁] at run
    cases answer with
    | error e => cases run
    | ok a =>
      refine (first s a s₁ run₁).bind ?_
      rintro b s₁' ⟨later, related⟩
      refine (second a b s₁' later related s₁ c s₂ run).mono ?_
      rintro d s₂' ⟨later', related'⟩
      exact ⟨later.trans later', related'⟩

/-- What both actions begin with may be a check of the same data. -/
theorem Mirrors.bind_lift {e : Except Error γ} {f : γ → Action α} {g : γ → Action β}
    (second : ∀ c, e = .ok c → Mirrors M (f c) (g c) s' R) : Mirrors M (liftM e >>= f) (liftM e >>= g) s' R := by
  cases e with
  | error e => exact fun s a s₁ run => by cases run
  | ok c => exact second c rfl

end Mirrors

end MerkleCells.Action
