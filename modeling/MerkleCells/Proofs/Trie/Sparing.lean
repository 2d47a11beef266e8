import MerkleCells.Proofs.Elements
import MerkleCells.Proofs.Partial
import MerkleCells.Proofs.Trie.Requests

/-!
What a merge leaves alone. Besides what its walk requests a merge asks for the root of its result (`Trie.IsRoot`), and of
two copies it makes what it makes of the sets in memory if these are at hand, whatever else is detached
(`Trie.merge_spares`). That a kept child may be requested for its count alone is shown by two sets that have lost a child
each (`Sparing.merge_counts`).
-/
namespace MerkleCells

open MerkleCells.Action

namespace Trie

/-! ### Merges -/

/-- The root of what a merge makes of two tries, before it is resolved. -/
def IsRoot (op : SetOperation) (s : Session) (left right : Trie .set) (r : Ref Cell) : Prop :=
  ∃ m s', result (mergeWalk op left right) s = (.ok m, s') ∧ r = m.root

/-- What a merge asks for, and what it makes of two sets if that is at hand. -/
structure Spares (op : SetOperation) (s : Session) (left right : Trie .set) : Prop where
  /-- The walk resolves nothing but what is requested. -/
  walk : s.Asks (Requests op s left right) (result (mergeWalk op left right) s).2
  /-- After the walk nothing is resolved but the root of its result. -/
  rest : ∀ answer s', result (merge op left right) s = (answer, s') →
    (∃ e, answer = .error e ∧ result (mergeWalk op left right) s = (.error e, s')) ∨
      ∃ m s₁, result (mergeWalk op left right) s = (.ok m, s₁) ∧ result (resolve .set m.root) s₁ = (answer, s')
  /-- What is missing if a merge fails for that reason is the target of one of these references. -/
  missing : ∀ h s', result (merge op left right) s = (.error (.missing h), s') →
    ∃ r, (Requests op s left right r ∨ IsRoot op s left right r) ∧ r.hash = h ∧ r.Absent s
  /-- Two copies of sets are merged as these are, whatever else is detached. -/
  succeeds : ∀ {I : Set Bytes} {s₀ : Session} {t u : Trie .set}, Set.InjOn Hash.digest I →
    s.Honest (Cell.GenuineFor I) → t.Replica I s₀ left → u.Replica I s₀ right →
    t.count.toNat + u.count.toNat < UInt64.size →
    (∀ r, Requests op s left right r ∨ IsRoot op s left right r → ¬ r.Absent s) →
    ∃ v s₁ v' s', result (merge op t u) s₀ = (.ok v, s₁) ∧ result (merge op left right) s = (.ok v', s') ∧
      v'.cell.Same v.cell

section Merge

variable {op : SetOperation} {s s' : Session} {left right : Trie .set}

theorem merge_rest {answer : Except Error (Trie .set)} (run : result (merge op left right) s = (answer, s')) :
    (∃ e, answer = .error e ∧ result (mergeWalk op left right) s = (.error e, s')) ∨
      ∃ m s₁, result (mergeWalk op left right) s = (.ok m, s₁) ∧ result (resolve .set m.root) s₁ = (answer, s') := by
  rw [merge_eq_mergeWalk, result_bind] at run
  cases walk : result (mergeWalk op left right) s with
  | mk outcome s₁ =>
    rw [walk] at run
    cases outcome with
    | error e =>
      cases run
      exact .inl ⟨e, rfl, rfl⟩
    | ok m => exact .inr ⟨m, s₁, rfl, run⟩

theorem merge_missing {h : Hash} (failed : result (merge op left right) s = (.error (.missing h), s')) :
    ∃ r, (Requests op s left right r ∨ IsRoot op s left right r) ∧ r.hash = h ∧ r.Absent s := by
  have walk := asking_mergeWalk op left right s
  rcases merge_rest failed with ⟨e, same, stopped⟩ | ⟨m, s₁, walked, root⟩
  · cases same
    have lacking := walk.2
    rw [stopped] at lacking
    obtain ⟨r, requested, named, absent⟩ := lacking h rfl
    exact ⟨r, .inl requested, named, absent⟩
  · have asks := walk.1
    rw [walked] at asks
    have resolved : Runs (Session.Asks (· = m.root)) (Lacking (· = m.root) s₁) (resolve .set m.root) s₁
        fun _ _ => True := asking_resolve rfl .refl
    have lacking := resolved.2
    rw [root] at lacking
    obtain ⟨r, rfl, named, absent⟩ := lacking h rfl
    exact ⟨m.root, .inr ⟨m, s₁, walked, rfl⟩, named, absent.of_later asks.later⟩

/-- A merge asks for the children at digits where both sides have one and these differ, for those on the way to a deeper
node, for kept children whose count can neither be had nor be told, and for the root of its result. All else that two
copies refer to may be detached. -/
theorem merge_spares (op : SetOperation) (left right : Trie .set) (s : Session) : Spares op s left right where
  walk := (asking_mergeWalk op left right s).1
  rest _ _ := merge_rest
  missing _ _ := merge_missing
  succeeds injective honest replica replica' room present := by
    obtain ⟨f, carries⟩ := replica.carries
    obtain ⟨g, carries'⟩ := replica'.carries
    obtain ⟨v, s₁, run, -⟩ := merge_yields telling_nothing op carries.holds carries'.holds carries.admitted
      carries'.admitted (carries.room_both carries' room)
    have copied := merge_mirrors (M := fun _ => True) op
      ⟨carries.holds, carries.admitted, replica.copies injective honest fun _ _ => trivial⟩
      ⟨carries'.holds, carries'.admitted, replica'.copies injective honest fun _ _ => trivial⟩
    rcases copied _ v s₁ run with ⟨v', s', run', -, like⟩ | ⟨h, s', failed, -⟩
    · exact ⟨v, s₁, v', s', run, run', like.shows.same⟩
    · obtain ⟨r, asked, -, absent⟩ := merge_missing failed
      exact absurd absent (present r asked)

end Merge

end Trie

/-! ### Sets whose children are detached -/

namespace Sample

/-- The set as it is decoded when there is no loader: all its leaves are detached. -/
def bare (x : Sample) : ContentSet := Trie.ofNode .set (.branch (fork (fun y => Ref.ofMarker y.mark none) x))

/-! #### The sets are built -/

/-- A set with another element is built if it was built without it. -/
theorem built_of_insert {t v : ContentSet} {x : Sample} (built : Trie.Built Cell.Obtained away t)
    (room : t.count.toNat + 1 < UInt64.size)
    (made : result (t.insert x.key.bytes (Ref.direct x.element)) away = (.ok (some v), away)) :
    Trie.Built Cell.Obtained away v := by
  have conj : result (t.conj (Ref.direct x.element)) away = (.ok (some v), away) := by
    rw [ContentSet.conj, show (Ref.direct x.element).hash = x.key from x.hash_element]
    exact made
  exact .conj built (Ref.result_value_direct _ x.element _) rfl x.obtained room conj

theorem leaf_built (x : Sample) : Trie.Built Cell.Obtained away x.leaf :=
  built_of_insert (.empty .set _) (by decide) x.insert_empty

theorem pair_built : Trie.Built Cell.Obtained away pair :=
  built_of_insert two.leaf_built (by decide) insert_two

theorem whole_built {x : Sample} (new : x ≠ two ∧ x ≠ four) : Trie.Built Cell.Obtained away x.whole :=
  built_of_insert pair_built (by decide) (insert_pair new)

/-! #### The detached sets are copies -/

theorem element_genuine (x : Sample) : x.element.Genuine encodings := by
  refine .of_soft ⟨x.obtained.readable, x.element_listed⟩ fun r member => ?_
  rw [Cell.refs, show x.element.value = _ from Cell.value_ofValue _] at member
  rw [List.mem_singleton.mp member]
  rfl

theorem leaf_genuine (x : Sample) : x.leaf.cell.Genuine encodings :=
  x.element_genuine.leaf (x.leaf_built.involved x.leaf_listed)

/-- What a cell of such a set refers to are its leaves. -/
theorem mem_refs {hold : Sample → Ref Cell} {x : Sample} {r : Ref Cell}
    (member : r ∈ (Trie.ofNode .set (.branch (fork hold x))).cell.refs) : ∃ y, r = hold y := by
  rw [Cell.refs, Trie.value_eq] at member
  obtain ⟨c, inside, rfl⟩ := List.mem_map.mp member
  obtain ⟨y, -, rfl⟩ := mem_fork inside
  exact ⟨y, rfl⟩

/-- The detached set is written as the set in memory. -/
theorem bare_shows (x : Sample) : x.bare.cell.Shows x.whole.cell := by
  have marks : (fun y : Sample => Ref.ofMarker y.mark none) = fun y => Ref.ofMarker (α := Cell) y.leaf.cell.hash none :=
    funext fun y => by rw [hash_leaf]
  rw [bare, marks, Cell.Shows, Trie.value_eq, Trie.value_eq]
  rfl

/-- A set in memory and the detached set are a trie and its replica. -/
theorem replica {x : Sample} (new : x ≠ two ∧ x ≠ four) : x.whole.Replica encodings away x.bare := by
  have shows := x.bare_shows
  have known := (whole_built new).involved (whole_listed new)
  refine ⟨whole_built new, .branch ?_ ?_, ⟨known, fun r member c held => ?_⟩, .of_soft ?_ fun r member => ?_,
    shows.encoding_eq⟩
  · intro c member
    obtain ⟨y, -, rfl⟩ := mem_fork member
    rfl
  · intro c member t held
    obtain ⟨y, -, rfl⟩ := mem_fork member
    have value := t.value_eq
    rw [← Option.some.inj held, Trie.value_eq, Value.trie.injEq] at value
    rw [← value.2]
    exact .leaf _ _
  · obtain ⟨y, rfl⟩ := mem_refs member
    cases held
    exact y.leaf_genuine
  · refine ⟨known.readable.ofShown shows, ?_⟩
    rw [shows.encoding_eq]
    exact known.encoding
  · obtain ⟨y, rfl⟩ := mem_refs member
    rfl

end Sample

/-! #### Two merges -/

namespace Sparing

open Sample

theorem away_honest : away.Honest (Cell.GenuineFor encodings) :=
  ⟨fun l none => (by cases none), fun _ _ => .inl rfl⟩

/-- Next to a single element that goes below a digit without a child, nothing of a set is opened. -/
theorem not_opens_single (q : Ref Cell) : ¬ seven.bare.Opens twelve.leaf q := by
  intro opens
  cases opens with
  | left level => cases level.right
  | right level => cases level.right
  | towardLeft toward => cases toward.branch
  | towardRight toward found =>
    obtain ⟨branch, -, digit⟩ := toward
    cases branch
    cases digit
    cases found

theorem not_requests_single (q : Ref Cell) : ¬ Trie.Requests .union away seven.bare twelve.leaf q := by
  intro requests
  cases requests with
  | opened visits _ opens =>
    obtain ⟨rfl, rfl⟩ := visits.eq_of_not_opens not_opens_single
    exact not_opens_single q opens
  | counted visits _ _ _ dropped =>
    obtain ⟨rfl, rfl⟩ := visits.eq_of_not_opens not_opens_single
    -- a union drops nothing that one side only has
    have kept : ∀ {fuel s side q keep s'}, Trie.Skips .union fuel seven.bare twelve.leaf s side q keep s' → keep = true := by
      intro fuel s side q keep s' skips
      cases skips with
      | twice level => cases level.right
      | _ => rfl
    obtain ⟨s', skips, -⟩ := dropped
    cases kept skips

theorem root_single :
    ((result (Trie.mergeWalk .union seven.bare twelve.leaf) away).1.map fun m => m.root.isDirect) = .ok true := by
  decide +kernel

/-- A set whose leaves are all detached has a union with a single element. -/
theorem merge_bare : seven.whole.Replica encodings away seven.bare ∧ ∃ v s₁ v' s',
    result (Trie.merge .union seven.whole twelve.leaf) away = (.ok v, s₁) ∧
      result (Trie.merge .union seven.bare twelve.leaf) away = (.ok v', s') ∧ v'.cell.Same v.cell := by
  have single : twelve.leaf.Replica encodings away twelve.leaf :=
    ⟨twelve.leaf_built, .leaf _ _, twelve.leaf_genuine, twelve.leaf_genuine, rfl⟩
  have copied : seven.whole.Replica encodings away seven.bare := seven.replica (by decide)
  refine ⟨copied, (Trie.merge_spares .union seven.bare twelve.leaf away).succeeds encodings_injective away_honest
    copied single (by decide) ?_⟩
  rintro r (requested | ⟨m, s', walk, rfl⟩) absent
  · exact not_requests_single r requested
  · have direct := root_single
    rw [walk] at direct
    obtain ⟨c, held⟩ := Option.isSome_iff_exists.mp (Except.ok.inj direct)
    rw [Ref.eq_direct held] at absent
    exact absent

theorem not_opens_common (q : Ref Cell) : ¬ seven.bare.Opens twelve.bare q := by
  have same : ∀ {a b : Branch (Ref Cell)} {d : Digit} {p q : Ref Cell}, seven.bare.Level twelve.bare a b →
      a.child? d = some p → b.child? d = some q → p.hash = q.hash := by
    intro a b d p q level found found'
    obtain ⟨left, right, -⟩ := level
    cases left
    cases right
    obtain ⟨y, among, rfl, rfl⟩ := child_fork found
    obtain ⟨z, among', digit, rfl⟩ := child_fork found'
    simp only [List.mem_cons, List.not_mem_nil, or_false] at among among'
    rcases among with rfl | rfl | rfl <;> rcases among' with rfl | rfl | rfl <;>
      first | rfl | exact absurd digit (by decide)
  intro opens
  cases opens with
  | left level found found' differ => exact differ (same level found found')
  | right level found found' differ => exact differ (same level found found')
  | towardLeft toward =>
    obtain ⟨branch, deeper, -⟩ := toward
    cases branch
    exact absurd deeper (Nat.lt_irrefl 0)
  | towardRight toward =>
    obtain ⟨branch, deeper, -⟩ := toward
    cases branch
    exact absurd deeper (Nat.lt_irrefl 0)

/-- The intersection of two detached sets asks for a leaf that both have, although nothing is opened: each set loses a
leaf whose count is not known, and so cannot tell how many elements are below the ones that are left. -/
theorem merge_counts :
    seven.whole.Replica encodings away seven.bare ∧ twelve.whole.Replica encodings away twelve.bare ∧
    (∃ a b r, seven.bare.Level twelve.bare a b ∧ a.child? two.digit = some r ∧ b.child? two.digit = some r ∧
      r.hash = two.mark) ∧
    (∀ fuel l r s q, Trie.Visits .intersect away seven.bare twelve.bare fuel l r s → ¬ l.Opens r q) ∧
    (∀ q, ¬ Trie.IsRoot .intersect away seven.bare twelve.bare q) ∧
    (result (Trie.merge .intersect seven.bare twelve.bare) away).1 = .error (.missing two.mark) := by
  have stopped : ((result (Trie.mergeWalk .intersect seven.bare twelve.bare) away).1.map fun _ => ()) =
      .error (.missing two.mark) := by
    decide +kernel
  refine ⟨seven.replica (by decide), twelve.replica (by decide),
    ⟨_, _, Ref.ofMarker two.mark none, ⟨rfl, rfl, rfl⟩, rfl, rfl, rfl⟩, fun fuel l r s q visits => ?_, ?_, ?_⟩
  · obtain ⟨rfl, rfl⟩ := visits.eq_of_not_opens not_opens_common
    exact not_opens_common q
  · rintro q ⟨m, s', walk, -⟩
    rw [walk] at stopped
    cases stopped
  · rw [Trie.merge_eq_mergeWalk, result_bind]
    cases walk : result (Trie.mergeWalk .intersect seven.bare twelve.bare) away with
    | mk answer s' =>
      rw [walk] at stopped
      cases answer with
      | error e =>
        cases stopped
        rfl
      | ok m => cases stopped

end Sparing

end MerkleCells
