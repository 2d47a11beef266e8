import MerkleCells.Proofs.Trie.Copies
import MerkleCells.Trie.Order

/-!
Walks through copies, in the order of keys. A walk comes across what the walk through the other trie comes across, until
it needs a child that is missing.
-/
namespace MerkleCells

open MerkleCells.Action

variable {M : Hash → Prop} {kind : TrieKind} {s s' : Session} {α β : Type} {R : α → β → Prop}

/-- Entries of one key whose values show the same. -/
def Entry.Like (e' e : Entry) : Prop := e'.key = e.key ∧ e'.value.mark = e.value.mark

namespace Listing

/-- A listing has all items, or those before something that is missing. -/
def Covers (M : Hash → Prop) (R : α → β → Prop) (items : List α) (l : Listing β) : Prop :=
  ∃ before after, items = before ++ after ∧ List.Forall₂ R before l.items ∧
    (l.failure = none ∧ after = [] ∨ ∃ h, l.failure = some (.missing h) ∧ M h)

theorem Covers.nil : Covers M R [] .nil := ⟨[], [], rfl, .nil, .inl ⟨rfl, rfl⟩⟩

/-- Nothing is listed after what is missing. -/
theorem covers_missing {h : Hash} (missing : M h) (items : List α) : Covers M R items ⟨[], some (.missing h)⟩ :=
  ⟨[], items, rfl, .nil, .inr ⟨h, rfl, missing⟩⟩

theorem Covers.single {a : α} {b : β} (related : R a b) : Covers M R [a] (.ofExcept (.ok b)) :=
  ⟨[a], [], rfl, .cons related .nil, .inl ⟨rfl, rfl⟩⟩

/-- If nothing is missing, everything is listed. -/
theorem Covers.whole {items : List α} {l : Listing β} (covers : l.Covers M R items) (none : ∀ h, ¬ M h) :
    l.failure = .none ∧ List.Forall₂ R items l.items := by
  obtain ⟨before, after, rfl, related, ⟨ended, rfl⟩ | ⟨h, -, missing⟩⟩ := covers
  · rw [List.append_nil]
    exact ⟨ended, related⟩
  · exact absurd missing (none h)

theorem Covers.append {items items' : List α} {first second : Listing β} (covers : first.Covers M R items)
    (covers' : second.Covers M R items') : (first.append second).Covers M R (items ++ items') := by
  obtain ⟨before, after, rfl, related, whole | ⟨h, failed, missing⟩⟩ := covers
  · obtain ⟨ended, rfl⟩ := whole
    obtain ⟨before', after', rfl, related', whole'⟩ := covers'
    refine ⟨before ++ before', after', by rw [List.append_nil, List.append_assoc], ?_, ?_⟩
    · rw [Listing.append, ended]
      exact List.rel_append related related'
    · rw [Listing.append, ended]
      exact whole'
  · refine ⟨before, after ++ items', by rw [List.append_assoc], ?_, .inr ⟨h, ?_, missing⟩⟩
    · rw [Listing.append, failed]
      exact related
    · rw [Listing.append, failed]
      exact failed

end Listing

namespace Trie

/-- Whenever the first walk ends without a failure, the second one has come across the same, or has found something
missing. It does nothing to the session but load. -/
def Follows (M : Hash → Prop) (R : α → β → Prop) (x : StateM Session (Listing α)) (y : StateM Session (Listing β))
    (s' : Session) : Prop :=
  ∀ s items s₁, StateT.run x s = (⟨items, none⟩, s₁) →
    ∃ l s₁', StateT.run y s' = (l, s₁') ∧ s'.Later s₁' ∧ l.Covers M R items

section Follows

variable {x x₂ : StateM Session (Listing α)} {y y₂ : StateM Session (Listing β)}

theorem follows_pure {l : Listing α} {l' : Listing β} (covers : l.failure = none → l'.Covers M R l.items) :
    Follows M R (pure l) (pure l') s' := by
  intro s items s₁ run
  cases run
  exact ⟨l', s', rfl, .refl s', covers rfl⟩

/-- What one walk after another comes to. -/
theorem run_append {l l₂ : Listing α} {s s₁ s₂ : Session} (first : StateT.run x s = (l, s₁))
    (second : StateT.run x₂ s₁ = (l₂, s₂)) :
    StateT.run
      (do
        let l ← x
        if l.failure.isSome then return l
        return l.append (← x₂)) s = (l.append l₂, if l.failure.isSome then s₁ else s₂) := by
  rw [StateT.run_bind, first]
  dsimp only [bind]
  by_cases failed : l.failure.isSome
  · rw [if_pos failed, if_pos failed, Listing.append, if_pos failed]
    rfl
  · rw [if_neg failed, if_neg failed]
    show StateT.run (x₂ >>= _) s₁ = _
    rw [StateT.run_bind, second]
    rfl

/-- One walk after another. -/
theorem Follows.append (first : Follows M R x y s') (second : ∀ s₁', s'.Later s₁' → Follows M R x₂ y₂ s₁') :
    Follows M R
      (do
        let l ← x
        if l.failure.isSome then return l
        return l.append (← x₂))
      (do
        let l ← y
        if l.failure.isSome then return l
        return l.append (← y₂)) s' := by
  intro s items s₂ run
  cases run₁ : StateT.run x s with
  | mk l s₁ =>
    cases run₂ : StateT.run x₂ s₁ with
    | mk l₂ s₂ =>
      rw [run_append run₁ run₂] at run
      obtain ⟨items₁, _ | e⟩ := l
      · obtain ⟨items₂, failure⟩ := l₂
        cases run
        obtain ⟨l', s₁', run₁', later, covers⟩ := first s items₁ s₁ run₁
        obtain ⟨l₂', s₂', run₂', later', covers'⟩ := second s₁' later s₁ items₂ _ run₂
        refine ⟨l'.append l₂', _, run_append run₁' run₂', ?_, covers.append covers'⟩
        split
        · exact later
        · exact later.trans later'
      · cases run

/-- A walk through a child that may have to be loaded. -/
theorem Follows.child {r r' : Ref Cell} {t : Trie kind} {Q : Trie kind → Session → Prop}
    {x : Trie kind → StateM Session (Listing α)} {y : Trie kind → StateM Session (Listing β)}
    (held : r.cell? = some t.cell) (finds : r'.Finds M kind s' Q)
    (visits : ∀ t' s₁', s'.Later s₁' → Q t' s₁' → Follows M R (x t) (y t') s₁') :
    Follows M R
      (do match ← (resolve kind r).run with
        | .error e => return ⟨[], some e⟩
        | .ok t => x t)
      (do match ← (resolve kind r').run with
        | .error e => return ⟨[], some e⟩
        | .ok t' => y t') s' := by
  intro s items s₁ run
  have resolved : StateT.run (ExceptT.run (resolve kind r)) s = (.ok t, s) := by
    obtain ⟨u, s₂, run, rfl, rfl⟩ := t.yields_resolve_direct r.status s
    rw [Ref.eq_direct held]
    exact run
  rw [StateT.run_bind, resolved] at run
  have resolved' : StateT.run (ExceptT.run (resolve kind r')) s' = result (resolve kind r') s' := rfl
  rw [StateT.run_bind, resolved']
  rcases finds s' (.refl s') with ⟨t', s₁', run', later, found⟩ | ⟨h, s₁', run', missing⟩
  · rw [run']
    obtain ⟨l, s₂', walk, later', covers⟩ := visits t' s₁' later found s items s₁ run
    exact ⟨l, s₂', walk, later.trans later', covers⟩
  · have later : s'.Later (result (resolve kind r') s').2 := later_resolve r' s'
    rw [run'] at later ⊢
    exact ⟨⟨[], some (.missing h)⟩, s₁', rfl, later, Listing.covers_missing missing items⟩

end Follows

end Trie

variable {k : Nat} {n n' : Node (Ref Cell)}

namespace Trie

/-! ### Listing entries -/

theorem listChildren_follows {visit : Trie kind → StateM Session (Listing α)}
    {visit' : Trie kind → StateM Session (Listing β)} {children children' : List (Digit × Ref Cell)}
    (copies : List.Forall₂ (Corresponds M s' (Node.CopiesOf M kind k)) children children')
    (visits : ∀ (t t' : Trie kind) s₁', t.node.Copies M kind k s₁' t'.node → Follows M R (visit t) (visit' t') s₁') :
    Follows M R (listChildren visit children) (listChildren visit' children') s' := by
  induction children generalizing children' s' with
  | nil =>
    cases copies
    exact follows_pure fun _ => .nil
  | cons c rest ih =>
    cases copies with
    | cons first others =>
      obtain ⟨t, held, finds⟩ := first.leads
      refine Follows.child held finds fun t' s₁ later copies => ?_
      refine (visits t t' s₁ copies).append fun s₂ later' => ?_
      exact ih (others.imp fun _ _ copies => copies.later (later.trans later'))

/-- Entries that are alike are put through two functions with related results. -/
theorem covers_ofExcept {f : Entry → Except Error α} {f' : Entry → Except Error β}
    (similar : ∀ e e', e'.Like e → Passes R (f e) (f' e')) {e e' : Entry} (like : e'.Like e)
    (done : (Listing.ofExcept (f e)).failure = none) :
    (Listing.ofExcept (f' e')).Covers M R (Listing.ofExcept (f e)).items := by
  cases given : f e with
  | error e =>
    rw [given] at done
    cases done
  | ok a =>
    obtain ⟨b, given', related⟩ := similar e e' like a given
    rw [given']
    exact .single related

/-- A walk through a copy comes across what the walk through the other node comes across. -/
theorem listWithin_follows {f : Entry → Except Error α} {f' : Entry → Except Error β}
    (similar : ∀ e e', e'.Like e → Passes R (f e) (f' e')) {fuel fuel' : Nat}
    (copies : n.Copies M kind k s' n') (enough : k ≤ fuel') :
    Follows M R (listWithin kind f fuel n) (listWithin kind f' fuel' n') s' := by
  induction k generalizing fuel fuel' n n' s' with
  | zero => exact copies.elim
  | succ k ih =>
    obtain ⟨fuel', rfl⟩ : ∃ m, fuel' = m + 1 := ⟨fuel' - 1, by omega⟩
    cases fuel with
    | zero => exact fun s items s₁ run => by cases run
    | succ fuel =>
      cases n with
      | empty =>
        rw [show n' = .empty from copies]
        exact follows_pure fun _ => .nil
      | leaf key value =>
        obtain ⟨value', rfl, mark⟩ := copies
        exact follows_pure fun done => covers_ofExcept similar ⟨rfl, mark⟩ done
      | branch b =>
        obtain ⟨b', rfl, branch⟩ := copies.branch
        refine Follows.append (x := pure _) (y := pure _) (follows_pure ?_) fun s₁ later => ?_
        · have own := branch.own
          cases entry : b.entry with
          | none =>
            rw [entry, Option.map_none, Option.map_eq_none_iff] at own
            rw [own]
            exact fun _ => .nil
          | some value =>
            rw [entry, Option.map_some] at own
            obtain ⟨value', entry', mark⟩ := Option.map_eq_some_iff.mp own
            rw [entry']
            exact fun done => covers_ofExcept similar ⟨branch.path_eq, mark⟩ done
        · refine listChildren_follows ((branch.later later).children) fun t t' s₂ copies => ?_
          exact ih copies (by omega)

/-- All that a walk comes across, or what it has failed for. -/
theorem Follows.toExcept {x : StateM Session (Listing α)} {y : StateM Session (Listing β)}
    (follows : Follows M R x y s') :
    Mirrors M (do (← x).toExcept) (do (← y).toExcept) s' fun items items' _ => List.Forall₂ R items items' := by
  intro s items s₁ run
  have toExcept : ∀ {γ : Type} (z : StateM Session (Listing γ)) s,
      result (do (← z).toExcept : Action (List γ)) s = ((StateT.run z s).1.toExcept, (StateT.run z s).2) :=
    fun _ _ => rfl
  rw [toExcept] at run
  cases walk : StateT.run x s with
  | mk l s₂ =>
    rw [walk] at run
    obtain ⟨listed, _ | e⟩ := l
    · cases run
      obtain ⟨l', s₁', walk', later, before, after, rfl, related, ⟨ended, rfl⟩ | ⟨h, failed, missing⟩⟩ :=
        follows s listed s₂ walk
      · refine .inl ⟨l'.items, s₁', ?_, later, ?_⟩
        · rw [toExcept, walk', Listing.toExcept, ended]
        · rwa [List.append_nil]
      · refine .inr ⟨h, s₁', ?_, missing⟩
        rw [toExcept, walk', Listing.toExcept, failed]
    · cases run

/-! ### Entries by place and by beginning -/

theorem childAt_mirrors {children children' : List (Digit × Ref Cell)} (index : UInt64)
    (copies : List.Forall₂ (Corresponds M s' (Node.CopiesOf M kind k)) children children') :
    Mirrors M (childAt kind children index) (childAt kind children' index) s' fun found found' s₁ =>
      found'.2 = found.2 ∧ found.1.node.Copies M kind k s₁ found'.1.node := by
  induction children generalizing children' s' index with
  | nil => exact mirrors_throw _
  | cons c rest ih =>
    cases copies with
    | cons first others =>
      obtain ⟨t, held, finds⟩ := first.leads
      refine (finds.mirrors held).bind ?_
      rintro u t' s₁ later ⟨rfl, copies⟩
      have count : t'.count = u.count := copies.count_eq
      rw [count]
      by_cases here : index < u.count
      · rw [if_pos here, if_pos here]
        exact mirrors_pure ⟨rfl, copies⟩
      · rw [if_neg here, if_neg here]
        exact ih _ (others.imp fun _ _ copies => copies.later later)

/-- The entry at a place, if there is one, is like the one in the other node. -/
theorem entryAtWithin_mirrors (index : UInt64) {fuel fuel' : Nat} (copies : n.Copies M kind k s' n')
    (enough : k ≤ fuel') :
    Mirrors M (entryAtWithin kind fuel n index) (entryAtWithin kind fuel' n' index) s' fun e e' _ =>
      Option.Rel (fun e e' => e'.Like e) e e' := by
  induction k generalizing fuel fuel' n n' s' index with
  | zero => exact copies.elim
  | succ k ih =>
    obtain ⟨fuel', rfl⟩ : ∃ m, fuel' = m + 1 := ⟨fuel' - 1, by omega⟩
    cases fuel with
    | zero => exact mirrors_throw _
    | succ fuel =>
      rw [entryAtWithin.eq_def, entryAtWithin.eq_def]
      dsimp only
      rw [copies.count_eq]
      by_cases outside : n.count ≤ index
      · rw [if_pos outside, if_pos outside]
        exact mirrors_pure .none
      rw [if_neg outside, if_neg outside]
      cases n with
      | empty =>
        rw [show n' = .empty from copies]
        exact mirrors_pure .none
      | leaf key value =>
        obtain ⟨value', rfl, mark⟩ := copies
        exact mirrors_pure (.some ⟨rfl, mark⟩)
      | branch b =>
        obtain ⟨b', rfl, branch⟩ := copies.branch
        have below : ∀ index, Mirrors M
            (childAt kind b.children index >>= fun found => entryAtWithin kind fuel found.1.node found.2)
            (childAt kind b'.children index >>= fun found => entryAtWithin kind fuel' found.1.node found.2) s'
            fun e e' _ => Option.Rel (fun e e' => e'.Like e) e e' := by
          intro index
          refine (childAt_mirrors index branch.children).bind ?_
          rintro ⟨t, i⟩ ⟨t', i'⟩ s₁ later ⟨same, copies⟩
          obtain rfl : i' = i := same
          exact ih _ copies (by omega)
        have own := branch.own
        dsimp only
        cases entry : b.entry with
        | none =>
          rw [entry, Option.map_none, Option.map_eq_none_iff] at own
          rw [own]
          exact below index
        | some value =>
          rw [entry, Option.map_some] at own
          obtain ⟨value', entry', mark⟩ := Option.map_eq_some_iff.mp own
          rw [entry']
          dsimp only
          by_cases first : index = 0
          · rw [if_pos first, if_pos first]
            exact mirrors_pure (.some ⟨branch.path_eq, mark⟩)
          · rw [if_neg first, if_neg first]
            exact below (index - 1)

/-- The entries whose key begins with given bytes are like those in the other node. -/
theorem startingWithin_mirrors (start : Bytes) {fuel fuel' : Nat} (copies : n.Copies M kind k s' n')
    (enough : k ≤ fuel') :
    Mirrors M (startingWithin kind start fuel n) (startingWithin kind start fuel' n') s' fun es es' _ =>
      List.Forall₂ (fun e e' => e'.Like e) es es' := by
  induction k generalizing fuel fuel' n n' s' with
  | zero => exact copies.elim
  | succ k ih =>
    obtain ⟨fuel', rfl⟩ : ∃ m, fuel' = m + 1 := ⟨fuel' - 1, by omega⟩
    cases fuel with
    | zero => exact mirrors_throw _
    | succ fuel =>
      cases n with
      | empty =>
        rw [show n' = .empty from copies]
        exact mirrors_pure .nil
      | leaf key value =>
        obtain ⟨value', rfl, mark⟩ := copies
        refine mirrors_pure ?_
        by_cases begins : start.isPrefixOf key = true
        · rw [if_pos begins, if_pos begins]
          exact .cons ⟨rfl, mark⟩ .nil
        · rw [if_neg begins, if_neg begins]
          exact .nil
      | branch b =>
        have whole := copies
        obtain ⟨b', rfl, branch⟩ := copies.branch
        rw [startingWithin, startingWithin, branch.depth_eq, branch.path_eq]
        by_cases apart : Digits.common start b.path (min (Digits.count start) b.depth) <
            min (Digits.count start) b.depth
        · rw [if_pos apart, if_pos apart]
          exact mirrors_pure .nil
        rw [if_neg apart, if_neg apart]
        by_cases inside : Digits.count start ≤ b.depth
        · rw [if_pos inside, if_pos inside]
          refine Follows.toExcept (listWithin_follows ?_ whole enough)
          rintro e e' like a ⟨⟩
          exact ⟨e', rfl, like⟩
        · rw [if_neg inside, if_neg inside]
          refine Mirrors.bind_lift fun d here => ?_
          rcases branch.child d with ⟨none, none'⟩ | ⟨r, r', t, at_d, at_d', -, held, finds⟩
          · rw [none, none']
            exact mirrors_pure .nil
          · rw [at_d, at_d']
            refine (finds.mirrors held).bind ?_
            rintro u t' s₁ later ⟨rfl, copies⟩
            exact ih copies (by omega)

variable {t t' : Trie kind}

theorem list_follows (copies : t.node.Copies M kind (kind.maxDigits + 1) s' t'.node) :
    Follows M (fun e e' => e'.Like e) t.list t'.list s' := by
  intro s items s₁ run
  obtain ⟨fuel, _, levels, rfl, -⟩ := t.yields_levels s
  obtain ⟨fuel', _, levels', rfl, enough⟩ := t'.yields_levels s'
  have levels : StateT.run (ExceptT.run t.levels) _ = (.ok fuel, _) := levels
  have levels' : StateT.run (ExceptT.run t'.levels) _ = (.ok fuel', _) := levels'
  rw [list, listWith, StateT.run_bind, levels] at run
  rw [list, listWith, StateT.run_bind, levels']
  refine listWithin_follows ?_ copies enough _ items s₁ run
  rintro e e' like a ⟨⟩
  exact ⟨e', rfl, like⟩

theorem entryAt?_mirrors (index : UInt64) (copies : t.node.Copies M kind (kind.maxDigits + 1) s' t'.node) :
    Mirrors M (t.entryAt? index) (t'.entryAt? index) s' fun e e' _ => Option.Rel (fun e e' => e'.Like e) e e' := by
  refine (levels_mirrors t t' s').bind ?_
  rintro fuel fuel' s₁ later enough
  exact entryAtWithin_mirrors index (copies.later later) enough

theorem entriesStarting_mirrors (start : Bytes) (copies : t.node.Copies M kind (kind.maxDigits + 1) s' t'.node) :
    Mirrors M (t.entriesStarting start) (t'.entriesStarting start) s' fun es es' _ =>
      List.Forall₂ (fun e e' => e'.Like e) es es' := by
  refine (levels_mirrors t t' s').bind ?_
  rintro fuel fuel' s₁ later enough
  exact startingWithin_mirrors start (copies.later later) enough

end Trie

end MerkleCells
