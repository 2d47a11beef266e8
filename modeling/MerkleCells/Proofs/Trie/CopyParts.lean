import MerkleCells.Proofs.Trie.CopyUpdates
import MerkleCells.Proofs.Trie.Merge

/-!
Parts of a merge of copies. `Part.Copies` relates them to the parts of a merge that misses nothing, where each count is
known, and `settle_mirrors` says that the counts come out the same, whichever of them have to be told from a tally.
-/
namespace MerkleCells

open MerkleCells.Action

variable {M : Hash → Prop} {s s' : Session}

/-- What is at hand of a reference is never missing. -/
theorem Ref.not_missing_of_peek {r : Ref Cell} {c : Cell} (held : result r.peek s = (.ok (some c), s)) (h : Hash)
    (s₁ : Session) : result r.value s ≠ (.error (.missing h), s₁) := by
  obtain ⟨status, d | ⟨k, loader, byMarker⟩⟩ := r
  · intro run
    cases run
  · cases loader with
    | none => cases held
    | some loader =>
      have cached : s.cached? loader k = some c := Except.ok.inj (congrArg Prod.fst held)
      obtain ⟨s₂, loaded⟩ := Session.load_of_cached cached
      intro run
      cases byMarker with
      | false =>
        have run : s.load loader k = (.error (.missing h), s₁) := run
        rw [loaded] at run
        cases run
      | true =>
        simp only [value, ↓reduceIte, loadChild, load, result_bind, result_ofStep, loaded, Loader.asChild] at run
        by_cases small : c.embeddable
        · simp [small, bind, Except.bind, throw, throwThe, MonadExceptOf.throw] at run
        · simp [small, bind, Except.bind, pure, Except.pure] at run

namespace Trie

variable {r r' : Ref Cell} {t : Trie .set}

/-- A count that is known of a reference to a copy is the count of what it copies. -/
theorem knownCount_copies (finds : r'.Finds M .set s' fun t' _ => t'.Matches t) :
    ∃ count, result (knownCount r') s' = (.ok count, s') ∧ ∀ n, count = some n → n = t.count := by
  obtain ⟨held, peeked, same⟩ := r'.peek_spec s'
  have run : result (knownCount r') s' = (.ok (held.bind fun c => (ofCell .set c).toOption.map count), s') := by
    rw [knownCount, result_bind, peeked]
    cases held <;> rfl
  refine ⟨_, run, fun n counted => ?_⟩
  obtain ⟨c, rfl, counted⟩ := Option.bind_eq_some_iff.mp counted
  obtain ⟨u, found, rfl⟩ := Option.map_eq_some_iff.mp counted
  have reads : ofCell .set c = .ok u := by
    cases reading : ofCell .set c with
    | error e => rw [reading] at found; cases found
    | ok u' => rw [reading] at found; cases found; rfl
  have resolved : result (resolve .set r') s' = match result r'.value s' with
      | (.ok c, s₁) => (ofCell .set c, s₁)
      | (.error e, s₁) => (.error e, s₁) := by
    rw [resolve, result_bind]
    cases result r'.value s' with
    | mk answer s₁ => cases answer <;> rfl
  cases answered : result r'.value s' with
  | mk answer s₁ =>
    rw [answered] at resolved
    rcases finds s' (.refl s') with ⟨t', s₂, ran, -, like⟩ | ⟨h, s₂, ran, -⟩
    · rw [resolved] at ran
      cases answer with
      | error e => cases ran
      | ok d =>
        obtain rfl := same c rfl d s₁ answered
        dsimp only at ran
        rw [reads] at ran
        cases ran
        exact like.count_eq
    · rw [resolved] at ran
      cases answer with
      | error e =>
        cases ran
        exact absurd answered (Ref.not_missing_of_peek peeked h s₁)
      | ok d =>
        obtain rfl := same c rfl d s₁ answered
        dsimp only at ran
        rw [reads] at ran
        cases ran

theorem result_knownCount (held : r.cell? = some t.cell) : result (knownCount r) s = (.ok (some t.count), s) := by
  rw [Ref.eq_direct held, knownCount, result_bind, show result (Ref.peek ⟨r.status, .direct t.cell⟩) s =
    (.ok (some t.cell), s) from rfl]
  show (Except.ok ((ofCell .set t.cell).toOption.map count), s) = _
  rw [ofCell_cell]
  rfl

/-! ### Parts and merged subtrees -/

/-- A merged subtree that is held directly, and one that leads to what is written alike, or is missing. -/
structure Merged.Copies (M : Hash → Prop) (s : Session) (m m' : Merged) : Prop where
  mark_eq : m'.root.mark = m.root.mark
  count_eq : m'.count = m.count
  leads : ∃ t : Trie .set, m.root.cell? = some t.cell ∧ m.count = t.count ∧
    m'.root.Finds M .set s fun t' _ => t'.Matches t

/-- The same of parts. The count of the first is known. -/
structure Part.Copies (M : Hash → Prop) (s : Session) (p p' : Part) : Prop where
  digit_eq : p'.digit = p.digit
  mark_eq : p'.root.mark = p.root.mark
  leads : ∃ t : Trie .set, p.root.cell? = some t.cell ∧ p.count = some t.count ∧
    (∀ n, p'.count = some n → n = t.count) ∧ p'.root.Finds M .set s fun t' _ => t'.Matches t

section Copies

variable {m m' : Merged} {p p' : Part} {parts parts' : List Part} {t t' : Trie .set}

theorem Part.Copies.later (copies : p.Copies M s p') (later : s.Later s') : p.Copies M s' p' := by
  obtain ⟨t, held, count, count', finds⟩ := copies.leads
  exact ⟨copies.digit_eq, copies.mark_eq, t, held, count, count', finds.later later⟩

theorem Merged.whole_copies (like : t'.Matches t) : (whole t).Copies M s (whole t') :=
  ⟨like.ref_mark, like.count_eq, t, rfl, rfl, Ref.finds_ref fun _ _ => like⟩

theorem Merged.nothing_copies : nothing.Copies M s nothing :=
  ⟨rfl, rfl, empty .set, rfl, rfl, Ref.finds_ref fun _ _ => .refl _⟩

theorem Merged.one_copies (op : SetOperation) (presence : Presence) (like : t'.Matches t) :
    (one op presence t).Copies M s (one op presence t') := by
  rw [one, one]
  by_cases keep : op.keeps presence = true
  · rw [if_pos keep, if_pos keep]
    exact whole_copies like
  · rw [if_neg keep, if_neg keep]
    exact nothing_copies

theorem Part.ofMerged_copies (d : Digit) (copies : m.Copies M s m') :
    List.Forall₂ (Part.Copies M s) (ofMerged d m) (ofMerged d m') := by
  rw [ofMerged, ofMerged, copies.count_eq]
  by_cases some_left : m.count > 0
  · rw [if_pos some_left, if_pos some_left]
    obtain ⟨t, held, count, finds⟩ := copies.leads
    refine .cons ⟨rfl, copies.mark_eq, t, held, congrArg some count, fun n known => ?_, finds⟩ .nil
    rw [← count]
    exact (Option.some.inj known).symm
  · rw [if_neg some_left, if_neg some_left]
    exact .nil

/-- The counts that are known of the parts that a merge adds are the same. -/
theorem Part.knownSum_ofMerged (d : Digit) (copies : m.Copies M s m') :
    knownSum (ofMerged d m') = knownSum (ofMerged d m) := by
  rw [ofMerged, ofMerged, copies.count_eq]
  split
  · rfl
  · rfl

theorem alike_of_copies (all : List.Forall₂ (Part.Copies M s) parts parts') :
    Branch.Alike (Part.children parts) (Part.children parts') := by
  rw [Branch.Alike, Part.children, Part.children, List.forall₂_map_left_iff, List.forall₂_map_right_iff]
  exact all.imp fun _ _ copies => ⟨copies.digit_eq, copies.mark_eq⟩

/-- Both sides find that the parts are the children of an input branch, or neither does. -/
theorem sameChildren_congr {b b' : Branch (Ref Cell)} (kids : Branch.Alike b.children b'.children)
    (all : List.Forall₂ (Part.Copies M s) parts parts') : sameChildren b' parts' = sameChildren b parts := by
  rw [sameChildren, sameChildren, kids.length_eq, all.length_eq]
  congr 1
  generalize b.children = children at kids ⊢
  generalize b'.children = children' at kids ⊢
  induction kids generalizing parts parts' with
  | nil => rfl
  | cons same _ ih =>
    cases all with
    | nil => rfl
    | cons copies all =>
      rw [List.zip_cons_cons, List.zip_cons_cons, List.all_cons, List.all_cons, ih all]
      dsimp only
      rw [same.1, copies.digit_eq, beq_congr same.2 copies.mark_eq]

/-! ### Counts -/

/-- Where no count was unknown, the count of some parts is the sum of their counts, if there is one. -/
theorem keeps_settle_plain (parts : List Part) {tallies : List Tally} (plain : ∀ t ∈ tallies, t.pending = false) :
    Keeps Eq (settle parts tallies) s fun n _ => n.toNat = knownSum parts := by
  have settled : tallies.all Tally.settled = true := by
    rw [List.all_eq_true]
    intro t member
    rw [Tally.settled, plain t member]
    rfl
  have missing : Keeps Eq (sumOf (fun t => (liftM t.missing : Action UInt64)) tallies) s fun n _ =>
      n.toNat = (tallies.map fun _ => 0).sum := by
    refine keeps_sumOf (fun _ => rfl) Eq.trans ?_
    rw [List.forall₂_map_right_iff, List.forall₂_same]
    intro t member s₁ _
    have none : t.missing = .ok 0 := by
      rw [Tally.missing, plain t member]
      rfl
    rw [none]
    exact ⟨rfl, fun n same => by cases same; rfl⟩
  have zeros : (tallies.map fun _ => 0).sum = 0 := by simp
  rw [settle, if_pos settled]
  refine missing.bind Eq.trans fun n s₁ _ _ none => ?_
  refine (keeps_sumOf_pure _ s₁).bind Eq.trans fun m s₂ _ _ sum => ⟨rfl, fun total added => ?_⟩
  have total_eq : total.toNat = n.toNat + m.toNat := addCounts_eq_ok.mp added
  rwa [none, zeros, sum, Nat.zero_add] at total_eq

/-- The count of a part that copies another one is that of the other one. -/
theorem partCount_answers {p p' : Part} (copies : Part.Copies M s p p') :
    Answers M (partCount p') s fun n s' => s.Later s' ∧ p.count = some n := by
  obtain ⟨t, -, count, count', finds⟩ := copies.leads
  rw [partCount, count]
  cases known : p'.count with
  | some n => exact .inl (yields_pure.mpr ⟨.refl s, congrArg some (count' n known).symm⟩)
  | none =>
    refine (finds s (.refl s)).bind ?_
    rintro t' s₁ ⟨later, like⟩
    exact .inl (yields_pure.mpr ⟨later, congrArg some like.count_eq.symm⟩)

/-- The counts of all parts, some of which have to be looked at. -/
theorem sumOf_partCount_answers (all : List.Forall₂ (Part.Copies M s) parts parts') (room : knownSum parts < UInt64.size) :
    Answers M (sumOf partCount parts') s fun n s' => s.Later s' ∧ n.toNat = knownSum parts := by
  have each : List.Forall₂ (fun p' size => ∀ s₁, s.Later s₁ → Answers M (partCount p') s₁ fun n s₂ =>
      s₁.Later s₂ ∧ n.toNat = size) parts' ((parts.filterMap (·.count)).map UInt64.toNat) := by
    clear room
    induction all with
    | nil => exact .nil
    | @cons p p' rest rest' first _ ih =>
      obtain ⟨t, -, count, -⟩ := first.leads
      rw [List.filterMap_cons, count]
      refine .cons (fun s₁ later => (partCount_answers (first.later later)).mono ?_) ih
      rintro n s₂ ⟨later', known⟩
      rw [count, Option.some.injEq] at known
      exact ⟨later', congrArg UInt64.toNat known.symm⟩
  exact sumOf_answers Session.Later.refl Session.Later.trans each room

/-- The count of some parts is that of the parts they copy, whichever of them are at hand. -/
theorem settle_mirrors {tallies tallies' : List Tally} {helds : List Nat}
    (all : List.Forall₂ (Part.Copies M s') parts parts') (plain : ∀ t ∈ tallies, t.pending = false)
    (counts : List.Forall₂ (fun t held => ∃ total, t.Counts total total held) tallies' helds)
    (sum : knownSum parts = knownSum parts' + helds.sum) :
    Mirrors M (settle parts tallies) (settle parts' tallies') s' fun n n' _ =>
      n' = n ∧ n.toNat = knownSum parts := by
  intro s n s₁ run
  have size : n.toNat = knownSum parts := by
    have exact := (keeps_settle_plain (s := s) parts plain).2
    rw [run] at exact
    exact exact n rfl
  have room : knownSum parts < UInt64.size := size ▸ n.toNat_lt_size
  by_cases settled : tallies'.all Tally.settled = true
  · rw [sum, Nat.add_comm] at room
    refine ((settle_settled_yields settled counts room).mono ?_).answers
    rintro n' s₁' ⟨rfl, total⟩
    exact ⟨.refl _, UInt64.toNat_inj.mp (by omega), size⟩
  · rw [settle, if_neg settled]
    refine (sumOf_partCount_answers all room).mono ?_
    rintro n' s₁' ⟨later, total⟩
    exact ⟨later, UInt64.toNat_inj.mp (total.trans size.symm), size⟩

/-- The subtree of parts that copy other ones copies theirs. -/
theorem assemble_mirrors {tallies tallies' : List Tally} {helds : List Nat} (depth : Nat) (path : Bytes)
    (all : List.Forall₂ (Part.Copies M s') parts parts') (plain : ∀ t ∈ tallies, t.pending = false)
    (counts : List.Forall₂ (fun t held => ∃ total, t.Counts total total held) tallies' helds)
    (sum : knownSum parts = knownSum parts' + helds.sum) :
    Mirrors M (assemble depth path parts tallies) (assemble depth path parts' tallies') s' fun m m' s₁ =>
      m.Copies M s₁ m' := by
  refine (settle_mirrors all plain counts sum).bind ?_
  rintro n n' s₁ later ⟨rfl, size⟩
  have kids := alike_of_copies all
  cases all with
  | nil => exact mirrors_pure Merged.nothing_copies
  | @cons p p' rest rest' first others =>
    cases others with
    | nil =>
      obtain ⟨t, held, count, -, finds⟩ := first.leads
      refine mirrors_pure ⟨first.mark_eq, rfl, t, held, UInt64.toNat_inj.mp ?_, finds.later later⟩
      rw [size, knownSum, List.filterMap_cons, count]
      simp
    | cons =>
      have like := matches_branch .set (kids.map_mark_eq
        (show Option.map Ref.mark none = Option.map Ref.mark none from rfl)
        depth path n')
      exact mirrors_pure ⟨like.ref_mark, rfl, _, rfl, rfl, Ref.finds_ref fun _ _ => like⟩

end Copies

/-! ### Passing a child by reference -/

/-- A child that is passed becomes a part of both merges if it is kept. -/
theorem pass_mirrors {tally tally' : Tally} (d : Digit) (keep : Bool) (mark : r'.mark = r.mark)
    (held : r.cell? = some t.cell) (finds : r'.Finds M .set s' fun t' _ => t'.Matches t)
    (plain : tally.pending = false) :
    Mirrors M (pass tally d r keep) (pass tally' d r' keep) s' fun passed passed' s₁ =>
      List.Forall₂ (Part.Copies M s₁) passed.1 passed'.1 ∧ passed.2.pending = false ∧
        ∃ count, (∀ n, count = some n → n.toNat = t.count.toNat) ∧
          passed'.2 = (if keep then tally'.kept count else tally'.dropped count) ∧
          knownSum passed.1 = knownSum passed'.1 + if keep then Tally.unknown count t.count.toNat else 0 := by
  intro s passed s₁ run
  obtain ⟨count, run', known⟩ := knownCount_copies finds
  rw [pass, result_bind, result_knownCount held] at run
  rw [Answers, Yields]
  refine .inl ?_
  rw [pass, result_bind, run']
  have sized : ∀ n, count = some n → n.toNat = t.count.toNat := fun n same => congrArg UInt64.toNat (known n same)
  cases keep
  · cases run
    exact ⟨_, _, rfl, .refl s', .nil, plain, count, sized, rfl, rfl⟩
  · cases run
    refine ⟨_, _, rfl, .refl s', .cons ⟨rfl, mark, t, held, rfl, known, finds⟩ .nil, plain, count, sized, rfl, ?_⟩
    have single := knownSum_singleton (p := ⟨d, r', count⟩) sized
    have whole := knownSum_singleton (p := ⟨d, r, some t.count⟩) fun n (same : some t.count = some n) =>
      (congrArg UInt64.toNat (Option.some.inj same)).symm
    dsimp only [Tally.unknown] at single whole ⊢
    simp only [Option.isNone_some, Bool.false_eq_true, ↓reduceIte, Nat.add_zero] at whole
    rw [whole, if_pos rfl, single]

end Trie

end MerkleCells
