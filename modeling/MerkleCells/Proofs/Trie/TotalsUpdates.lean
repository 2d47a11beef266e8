import MerkleCells.Proofs.Trie.Insertion
import MerkleCells.Proofs.Trie.Totals

/-!
Counts of tries under updates, for tries whose children come from stores. What an update that succeeds does at one node,
and where a lookup of the key goes from there, is said once (`of_insertWithin`, `of_eraseWithin`); all that follows of it
is by induction on the way down. Whatever the stores give, inserting a key that is not found adds one
(`insertWithin_count`). Inserting and removing keep it that the counts of all branches add up (`insertWithin_addsUp`,
`eraseWithin_addsUp`); and where they do, inserting overflows only if the root has the largest count
(`insertWithin_full`), and removing never does (`eraseWithin_full`).
-/
namespace MerkleCells

open MerkleCells.Action

/-! ### Inserting -/

namespace Trie

variable {kind : TrieKind} {w : Hash → Nat} {s s' : Session} {t t' : Trie kind} {key : Bytes} {value : Ref Cell}

theorem of_except_bind {α β : Type} {x : Except Error α} {f : α → Except Error β} {b : β} (run : x >>= f = .ok b) :
    ∃ a, x = .ok a ∧ f a = .ok b := by
  cases x with
  | error e => cases run
  | ok a => exact ⟨a, rfl, run⟩

/-- What a trie becomes in a fork at a depth: the own entry of the new branch if it is a leaf that ends there, and a
child otherwise. -/
inductive Forks (t : Trie kind) (depth : Nat) : Option (Ref Cell) → List (Digit × Ref Cell) → Prop where
  | ends (k : Bytes) (own : Ref Cell) (shape : t.node = .leaf k own) (here : t.node.depth = depth) :
      Forks t depth (some own) []
  | goes (d : Digit) (digit : Digits.digit? t.node.path depth = some d) (further : t.node.depth ≠ depth) :
      Forks t depth none [(d, t.ref)]

/-- What a fork makes of a trie and a key. -/
theorem of_fork {depth : Nat} (forked : t.fork depth key value = .ok t') : ∃ path entry children entry₀ children₀ count,
    t'.node = .branch ⟨depth, path, entry, children, count⟩ ∧ Digits.leading? key depth = some path ∧
      count.toNat = t.count.toNat + 1 ∧
      t.Forks depth entry₀ children₀ ∧
      (Digits.count key = depth ∧ entry = some value ∧ children = children₀ ∨
        ∃ d, Digits.digit? key depth = some d ∧ entry = entry₀ ∧
          children = Branch.setChild d (leaf kind key value).ref children₀) := by
  rw [fork] at forked
  obtain ⟨path, leads, forked⟩ := of_except_bind forked
  dsimp only at forked
  by_cases here : t.node.depth = depth
  · rw [if_pos here] at forked
    cases shape : t.node with
    | leaf k own =>
      rw [shape] at forked
      dsimp only at forked
      obtain ⟨_, old, forked⟩ := of_except_bind forked
      cases old
      dsimp only at forked
      have ending := Forks.ends k own shape here
      by_cases ends : Digits.count key = depth
      · rw [if_pos ends] at forked
        obtain ⟨_, keyed, forked⟩ := of_except_bind forked
        cases keyed
        obtain ⟨count, counted, made⟩ := of_except_bind forked
        cases made
        exact ⟨path, _, _, _, _, count, rfl, leadingOf_eq_ok.mp leads, addCounts_eq_ok.mp counted, ending, .inl ⟨ends, rfl, rfl⟩⟩
      · rw [if_neg ends] at forked
        obtain ⟨d, digit, forked⟩ := of_except_bind forked
        obtain ⟨_, keyed, forked⟩ := of_except_bind forked
        cases keyed
        obtain ⟨count, counted, made⟩ := of_except_bind forked
        cases made
        exact ⟨path, _, _, _, _, count, rfl, leadingOf_eq_ok.mp leads, addCounts_eq_ok.mp counted, ending,
          .inr ⟨d, digitAt_eq_ok.mp digit, rfl, rfl⟩⟩
    | _ =>
      rw [shape] at forked
      cases forked
  · rw [if_neg here] at forked
    obtain ⟨d, digit, forked⟩ := of_except_bind forked
    obtain ⟨_, old, forked⟩ := of_except_bind forked
    cases old
    dsimp only at forked
    have going := Forks.goes d (digitAt_eq_ok.mp digit) here
    by_cases ends : Digits.count key = depth
    · rw [if_pos ends] at forked
      obtain ⟨_, keyed, forked⟩ := of_except_bind forked
      cases keyed
      obtain ⟨count, counted, made⟩ := of_except_bind forked
      cases made
      exact ⟨path, _, _, _, _, count, rfl, leadingOf_eq_ok.mp leads, addCounts_eq_ok.mp counted, going, .inl ⟨ends, rfl, rfl⟩⟩
    · rw [if_neg ends] at forked
      obtain ⟨d', digit', forked⟩ := of_except_bind forked
      obtain ⟨_, keyed, forked⟩ := of_except_bind forked
      cases keyed
      obtain ⟨count, counted, made⟩ := of_except_bind forked
      cases made
      exact ⟨path, _, _, _, _, count, rfl, leadingOf_eq_ok.mp leads, addCounts_eq_ok.mp counted, going,
        .inr ⟨d', digitAt_eq_ok.mp digit', rfl, rfl⟩⟩

theorem fork_count {depth : Nat} (forked : t.fork depth key value = .ok t') :
    t'.count.toNat = t.count.toNat + 1 := by
  obtain ⟨path, entry, children, -, -, n, shape, -, count_eq, -⟩ := of_fork forked
  rw [count, shape]
  exact count_eq

/-- What an insertion does to a count if a lookup comes to `found`: a key that is not found adds one. -/
def Counted (before : UInt64) (found : Option (Ref Cell)) (r : Option (Trie kind)) : Prop :=
  (r = none → found.isSome) ∧ ∀ t', r = some t' → t'.count.toNat = before.toNat + if found.isNone then 1 else 0

theorem counted_unchanged {before : UInt64} (own : Ref Cell) : Counted before (some own) (none : Option (Trie kind)) :=
  ⟨fun _ => rfl, fun _ none => by cases none⟩

theorem counted_new {before : UInt64} (count_eq : t'.count.toNat = before.toNat + 1) :
    Counted before none (some t') := by
  refine ⟨fun none => (by cases none), ?_⟩
  rintro _ ⟨⟩
  exact count_eq

theorem counted_replaced {before : UInt64} (own : Ref Cell) (count_eq : t'.count.toNat = before.toNat) :
    Counted before (some own) (some t') := by
  refine ⟨fun none => (by cases none), ?_⟩
  rintro _ ⟨⟩
  exact count_eq

theorem Counted.le {before : UInt64} {found : Option (Ref Cell)} (counted : Counted before found (some t')) :
    t'.count.toNat ≤ before.toNat + 1 := by
  rw [counted.2 t' rfl]
  split <;> omega

/-- The count of a child is taken out of that of its branch and another one put in its place. -/
theorem adjust_eq_ok {total before after count : UInt64} (adjusted : adjust total before after = .ok count) :
    before ≤ total ∧ count.toNat = total.toNat - before.toNat + after.toNat := by
  rw [adjust] at adjusted
  by_cases le : before ≤ total
  · rw [if_pos le, addCounts_eq_ok, UInt64.toNat_sub_of_le _ _ le] at adjusted
    exact ⟨le, adjusted⟩
  · rw [if_neg le] at adjusted
    cases adjusted

theorem adjust_overflow {total before after : UInt64} (excess : adjust total before after = .error .overflow) :
    UInt64.size ≤ total.toNat - before.toNat + after.toNat := by
  rw [adjust] at excess
  by_cases le : before ≤ total
  · rw [if_pos le, addCounts_eq_error, UInt64.toNat_sub_of_le _ _ le] at excess
    exact excess.2
  · rw [if_neg le] at excess
    cases excess

/-- A key begins with the path of a branch unless it leaves it above. -/
theorem not_beginsWith (key path : Bytes) (depth : Nat) :
    (!Digits.beginsWith key path depth) = decide (Digits.common path key depth < depth) := by
  have begins : Digits.beginsWith key path depth = true ↔ ¬ Digits.common path key depth < depth := by
    rw [Digits.beginsWith_iff, Digits.not_common_lt_iff]
    exact ⟨Digits.Shares.symm, Digits.Shares.symm⟩
  rw [Bool.eq_iff_iff, Bool.not_eq_true', Bool.eq_false_iff, Ne, begins, not_not, decide_eq_true_iff]

/-- What an insertion that succeeds does at a node: what it gives, the session that it leaves, and what a lookup of the
key answers. -/
inductive Insertion (key : Bytes) (value : Ref Cell) (fuel : Nat) (t : Trie kind) (s : Session) :
    Option (Trie kind) → Session → Except Error (Option (Ref Cell)) → Prop where
  | unchanged (own : Ref Cell) : Insertion key value fuel t s none s (.ok (some own))
  | first (shape : t.node = .empty) : Insertion key value fuel t s (some (leaf kind key value)) s (.ok none)
  | replaced (own : Ref Cell) (shape : t.node = .leaf key own) :
      Insertion key value fuel t s (some (leaf kind key value)) s (.ok (some own))
  | forked {depth : Nat} {t' : Trie kind} (parts : t.PartsFrom key depth) (forks : t.fork depth key value = .ok t') :
      Insertion key value fuel t s (some t') s (.ok none)
  | entry {b : Branch (Ref Cell)} {n : UInt64} (shape : t.node = .branch b) (ends : Digits.count key = b.depth)
      (counted : addCounts b.count (if b.entry.isNone then 1 else 0) = .ok n) :
      Insertion key value fuel t s (some (ofNode kind (.branch { b with entry := some value, count := n }))) s
        (.ok b.entry)
  | child {b : Branch (Ref Cell)} {d : Digit} {n : UInt64} (shape : t.node = .branch b) (absent : b.child? d = none)
      (counted : addCounts b.count 1 = .ok n) :
      Insertion key value fuel t s (some (ofNode kind (.branch { b with
        children := Branch.setChild d (leaf kind key value).ref b.children
        count := n }))) s (.ok none)
  | kept {b : Branch (Ref Cell)} {d : Digit} {r : Ref Cell} {u : Trie kind} {s₁ s' : Session}
      (shape : t.node = .branch b) (found : b.child? d = some r) (resolved : result (resolve kind r) s = (.ok u, s₁))
      (inserted : result (insertWithin key value fuel u) s₁ = (.ok none, s')) :
      Insertion key value fuel t s none s' (result (getWithin kind key fuel u.node) s₁).1
  | below {b : Branch (Ref Cell)} {d : Digit} {r : Ref Cell} {u updated : Trie kind} {n : UInt64} {s₁ s' : Session}
      (shape : t.node = .branch b) (found : b.child? d = some r) (resolved : result (resolve kind r) s = (.ok u, s₁))
      (inserted : result (insertWithin key value fuel u) s₁ = (.ok (some updated), s'))
      (adjusted : adjust b.count u.count updated.count = .ok n) :
      Insertion key value fuel t s (some (ofNode kind (.branch { b with
        children := Branch.setChild d updated.ref b.children
        count := n }))) s' (result (getWithin kind key fuel u.node) s₁).1

/-- An insertion takes the way of a lookup, through the same sessions. -/
theorem of_insertWithin {fuel : Nat} {r : Option (Trie kind)}
    (run : result (insertWithin key value (fuel + 1) t) s = (.ok r, s')) :
    Insertion key value fuel t s r s' (result (getWithin kind key (fuel + 1) t.node) s).1 := by
  rw [insertWithin] at run
  cases shape : t.node with
  | empty =>
    rw [shape] at run
    cases run
    exact .first shape
  | leaf k own =>
    rw [shape] at run
    rw [getWithin]
    dsimp only at run
    by_cases same : k = key
    · subst same
      rw [if_pos rfl] at run ⊢
      split at run <;> cases run
      · exact .unchanged own
      · exact .replaced own shape
    · rw [if_neg same] at run ⊢
      obtain ⟨t', forks, run⟩ := of_result_lift_bind run
      cases run
      exact .forked (partsFrom_leaf shape same) forks
  | branch b =>
    rw [shape] at run
    rw [getWithin]
    dsimp only at run ⊢
    rw [not_beginsWith]
    by_cases above : Digits.common b.path key b.depth < b.depth
    · rw [if_pos above] at run
      obtain ⟨t', forks, run⟩ := of_result_lift_bind run
      cases run
      rw [decide_eq_true above]
      exact .forked (partsFrom_branch shape above) forks
    rw [if_neg above] at run
    simp only [above, decide_false, Bool.false_eq_true, ↓reduceIte]
    by_cases ends : Digits.count key = b.depth
    · rw [if_pos ends] at run ⊢
      by_cases equal : b.entry.any (· == value) = true
      · rw [if_pos equal] at run
        cases run
        cases own : b.entry with
        | none =>
          rw [own] at equal
          cases equal
        | some old => exact .unchanged old
      · rw [if_neg equal] at run
        obtain ⟨n, counted, run⟩ := of_result_lift_bind run
        cases run
        exact .entry shape ends counted
    · rw [if_neg ends] at run ⊢
      obtain ⟨d, digit, run⟩ := of_result_lift_bind run
      rw [digit, result_bind, result_liftExcept]
      dsimp only
      cases found : b.child? d with
      | none =>
        rw [found] at run
        obtain ⟨n, counted, run⟩ := of_result_lift_bind run
        cases run
        exact .child shape found counted
      | some r =>
        rw [found] at run
        obtain ⟨u, s₁, resolved, run⟩ := of_result_bind run
        obtain ⟨inner, s₂, inserted, run⟩ := of_result_bind run
        rw [result_bind, resolved]
        cases inner with
        | none =>
          cases run
          exact .kept shape found resolved inserted
        | some updated =>
          obtain ⟨n, adjusted, run⟩ := of_result_lift_bind run
          cases run
          exact .below shape found resolved inserted adjusted

/-- An insertion that succeeds is as good as a lookup that does, and adds one for a key that this does not find. -/
theorem insertWithin_count (fuel : Nat) {r : Option (Trie kind)}
    (run : result (insertWithin key value fuel t) s = (.ok r, s')) :
    ∃ found, (result (getWithin kind key fuel t.node) s).1 = .ok found ∧ Counted t.count found r := by
  induction fuel generalizing t s s' r with
  | zero => cases run
  | succ fuel ih =>
    have inserts := of_insertWithin run
    generalize (result (getWithin kind key (fuel + 1) t.node) s).1 = looked at inserts
    rw [count]
    cases inserts with
    | unchanged own => exact ⟨_, rfl, counted_unchanged own⟩
    | first shape => exact ⟨_, rfl, counted_new (by rw [shape]; rfl)⟩
    | replaced own shape => exact ⟨_, rfl, counted_replaced own (by rw [shape]; rfl)⟩
    | forked _ forks => exact ⟨_, rfl, counted_new (fork_count forks)⟩
    | @entry b n shape _ counted =>
      rw [shape]
      refine ⟨_, rfl, ?_⟩
      have count_eq := addCounts_eq_ok.mp counted
      cases own : b.entry with
      | none =>
        rw [own] at count_eq
        exact counted_new count_eq
      | some old =>
        rw [own] at count_eq
        exact counted_replaced old count_eq
    | child shape _ counted => exact ⟨_, rfl, counted_new (by rw [shape]; exact addCounts_eq_ok.mp counted)⟩
    | kept _ _ _ inserted =>
      obtain ⟨found, looked, counted⟩ := ih inserted
      exact ⟨found, looked, counted.1, fun _ none => by cases none⟩
    | @below b _ _ u updated n _ _ shape _ _ inserted adjusted =>
      obtain ⟨found, looked, counted⟩ := ih inserted
      obtain ⟨le, count_eq⟩ := adjust_eq_ok adjusted
      rw [UInt64.le_iff_toNat_le] at le
      refine ⟨found, looked, fun none => (by cases none), ?_⟩
      rintro _ ⟨⟩
      have more := counted.2 updated rfl
      rw [shape]
      show n.toNat = b.count.toNat + _
      omega

/-- A fork of a trie whose counts add up adds up, if it is made where the key parts from the trie. -/
theorem fork_addsUp {depth : Nat} (addsUp : t.node.AddsUp w kind) (fits : kind = .set → Digits.count key = 64)
    (parts : t.PartsFrom key depth) (forked : t.fork depth key value = .ok t') : t'.node.AddsUp w kind := by
  obtain ⟨path, entry, children, entry₀, children₀, n, shape, -, count_eq, forks, keyed⟩ := of_fork forked
  have leaf_weight : (leaf kind key value).ref.weight w = 1 := weight_ref _
  have leaf_addsUp : (leaf kind key value).ref.AddsUp w kind := addsUp_ref (.leaf key value fits)
  rw [shape]
  cases forks with
  | ends k own shape' here =>
    rcases keyed with ⟨ends, -⟩ | ⟨d, digit, rfl, rfl⟩
    · exact absurd ends (parts.other here)
    have goes := Digits.lt_count digit
    refine .branch _ ⟨List.pairwise_singleton _ _, fun set => ?_, ?_⟩
      (Branch.forall_mem_setChild (by simp) leaf_addsUp)
    · subst set
      have depth_eq : t.node.depth = 64 := by
        rw [shape'] at addsUp ⊢
        cases addsUp with
        | leaf _ _ fits => exact fits rfl
      rw [fits rfl, ← here, depth_eq] at goes
      exact absurd goes (lt_irrefl 64)
    · rw [count_eq, Branch.weight_setChild_of_none rfl, leaf_weight, count, shape']
      rfl
  | goes d digit further =>
    have lt : depth < t.node.depth := lt_of_le_of_ne parts.le (Ne.symm further)
    have below : ∀ c ∈ [(d, t.ref)], c.2.AddsUp w kind := by
      rintro c (_ | ⟨_, ⟨⟩⟩)
      exact addsUp_ref addsUp
    have weight : Branch.weight w [(d, t.ref)] = t.count.toNat := by
      rw [Branch.weight_cons, weight_ref]
      rfl
    rcases keyed with ⟨ends, rfl, rfl⟩ | ⟨d', digit', rfl, rfl⟩
    · refine .branch _ ⟨List.pairwise_singleton _ _, fun set => ?_, ?_⟩ below
      · subst set
        have deep := addsUp.depth_le
        rw [fits rfl] at ends
        omega
      · rw [count_eq, weight, Nat.add_comm]
        rfl
    · have apart : d ≠ d' := Digits.digits_part parts.shares parts.apart digit digit'
      have absent : Branch.childIn [(d, t.ref)] d' = none := by rw [Branch.childIn_cons, if_neg apart]; rfl
      refine .branch _ ⟨Branch.Ascending.setChild _ _ (List.pairwise_singleton _ _), fun set => ⟨rfl, ?_⟩, ?_⟩
        (Branch.forall_mem_setChild below leaf_addsUp)
      · rw [← fits set]
        exact Digits.lt_count digit'
      · rw [count_eq, Branch.weight_setChild_of_none absent, weight, leaf_weight]
        exact (Nat.zero_add _).symm

/-- A child that is replaced has its count replaced as well. -/
theorem addsUp_setChild {b : Branch (Ref Cell)} {d : Digit} {r : Ref Cell} {u : Trie kind} {n : UInt64}
    (addsUp : (Node.branch b).AddsUp w kind) (found : b.child? d = some r) (before : u.count.toNat = r.weight w)
    (after : t'.node.AddsUp w kind) (adjusted : adjust b.count u.count t'.count = .ok n) :
    (Node.branch { b with children := Branch.setChild d t'.ref b.children, count := n }).AddsUp w kind := by
  have sums := addsUp.sums
  obtain ⟨-, count_eq⟩ := adjust_eq_ok adjusted
  have weight := Branch.weight_setChild_of_some (w := w) (r := t'.ref) sums.ascending found
  have le := Branch.le_weight (w := w) found
  have total := sums.count_eq
  rw [weight_ref] at weight
  refine .branch _ ⟨sums.ascending.setChild d _, sums.plain, ?_⟩
    (Branch.forall_mem_setChild addsUp.children (addsUp_ref after))
  show n.toNat = b.own + _
  dsimp only
  omega

/-- A branch gets an entry of its own, or another one. -/
theorem addsUp_setEntry {b : Branch (Ref Cell)} {n : UInt64} (addsUp : (Node.branch b).AddsUp w kind)
    (fits : kind = .set → Digits.count key = 64) (ends : Digits.count key = b.depth)
    (counted : addCounts b.count (if b.entry.isNone then 1 else 0) = .ok n) :
    (Node.branch { b with entry := some value, count := n }).AddsUp w kind := by
  have sums := addsUp.sums
  refine .branch _ ⟨sums.ascending, fun set => ?_, ?_⟩ addsUp.children
  · have shallow := (sums.plain set).2
    rw [← ends, fits set] at shallow
    exact absurd shallow (lt_irrefl 64)
  · have total := sums.count_eq
    have count_eq := addCounts_eq_ok.mp counted
    rw [Branch.own] at total
    show n.toNat = 1 + Branch.weight w b.children
    cases own : b.entry with
    | none =>
      simp only [own, Option.toList_none, List.length_nil, Option.isNone_none, if_pos, UInt64.toNat_one] at total count_eq
      omega
    | some old =>
      simp only [own, Option.toList_some, List.length_singleton, Option.isNone_some, Bool.false_eq_true, if_false,
        UInt64.toNat_zero] at total count_eq
      omega

/-- A branch gets a leaf as one more child. -/
theorem addsUp_addLeaf {b : Branch (Ref Cell)} {d : Digit} {n : UInt64} (addsUp : (Node.branch b).AddsUp w kind)
    (fits : kind = .set → Digits.count key = 64) (absent : b.child? d = none)
    (counted : addCounts b.count 1 = .ok n) :
    (Node.branch { b with
      children := Branch.setChild d (leaf kind key value).ref b.children
      count := n }).AddsUp w kind := by
  have sums := addsUp.sums
  have leaf_addsUp : (leaf kind key value).ref.AddsUp w kind := addsUp_ref (.leaf key value fits)
  refine .branch _ ⟨sums.ascending.setChild d _, sums.plain, ?_⟩
    (Branch.forall_mem_setChild addsUp.children leaf_addsUp)
  have leaf_weight : (leaf kind key value).ref.weight w = 1 := weight_ref _
  rw [addCounts_eq_ok.mp counted, sums.count_eq, Branch.weight_setChild_of_none absent, leaf_weight, Nat.add_assoc]
  rfl

/-- A new key adds one at each branch on the way down. -/
theorem insertWithin_addsUp (fits : kind = .set → Digits.count key = 64) (fuel : Nat) {t : Trie kind} {s s' : Session}
    {r : Option (Trie kind)} (weighs : s.Weighs w) (addsUp : t.node.AddsUp w kind)
    (run : result (insertWithin key value fuel t) s = (.ok r, s')) :
    s.Later s' ∧ ∀ t', r = some t' → t'.node.AddsUp w kind := by
  have leaf_addsUp : (leaf kind key value).node.AddsUp w kind := .leaf key value fits
  induction fuel generalizing t s s' r with
  | zero => cases run
  | succ fuel ih =>
    obtain ⟨looked, inserts⟩ : ∃ looked, Insertion key value fuel t s r s' looked := ⟨_, of_insertWithin run⟩
    cases inserts with
    | unchanged => exact ⟨.refl s, fun _ none => by cases none⟩
    | first =>
      refine ⟨.refl s, ?_⟩
      rintro _ ⟨⟩
      exact leaf_addsUp
    | replaced =>
      refine ⟨.refl s, ?_⟩
      rintro _ ⟨⟩
      exact leaf_addsUp
    | forked parts forks =>
      refine ⟨.refl s, ?_⟩
      rintro _ ⟨⟩
      exact fork_addsUp addsUp fits parts forks
    | entry shape ends counted =>
      rw [shape] at addsUp
      refine ⟨.refl s, ?_⟩
      rintro _ ⟨⟩
      exact addsUp_setEntry addsUp fits ends counted
    | child shape absent counted =>
      rw [shape] at addsUp
      refine ⟨.refl s, ?_⟩
      rintro _ ⟨⟩
      exact addsUp_addLeaf addsUp fits absent counted
    | kept shape found resolved inserted =>
      rw [shape] at addsUp
      obtain ⟨-, inside, later, weighs₁⟩ := weighs_resolve weighs (addsUp.child found) resolved
      obtain ⟨later', -⟩ := ih weighs₁ inside inserted
      exact ⟨later.trans later', fun _ none => by cases none⟩
    | below shape found resolved inserted adjusted =>
      rw [shape] at addsUp
      obtain ⟨before, inside, later, weighs₁⟩ := weighs_resolve weighs (addsUp.child found) resolved
      obtain ⟨later', made⟩ := ih weighs₁ inside inserted
      refine ⟨later.trans later', ?_⟩
      rintro _ ⟨⟩
      exact addsUp_setChild addsUp found before (made _ rfl) adjusted

/-- A fork overflows only at the largest count. -/
theorem ends_fork_full (t : Trie kind) (depth : Nat) (key : Bytes) (value : Ref Cell) :
    Ends (fun e => e = .overflow → UInt64.size ≤ t.count.toNat + 1) (fun _ => True) (t.fork depth key value) := by
  have never : ∀ {α : Type} {x : Except Error α}, x ≠ .error .overflow →
      Ends (fun e => e = .overflow → UInt64.size ≤ t.count.toNat + 1) (fun _ => True) x := by
    intro α x other
    cases x with
    | error e => exact fun same => absurd (congrArg _ same) other
    | ok a => exact trivial
  -- whatever entry and children the branch gets, its count is the last thing to be found
  have counted : ∀ made : UInt64 → Trie kind, Ends (fun e => e = .overflow → UInt64.size ≤ t.count.toNat + 1)
      (fun _ => True) (addCounts t.count 1 >>= fun count => pure (made count)) := by
    intro made
    refine Ends.bind (P := fun _ => True) ?_ fun count _ => trivial
    cases added : addCounts t.count 1 with
    | error e => exact fun _ => (addCounts_eq_error.mp added).2
    | ok n => exact trivial
  rw [fork]
  refine (never (leadingOf_ne_overflow key depth)).bind fun path _ => ?_
  by_cases here : t.node.depth = depth
  · rw [if_pos here]
    cases t.node with
    | leaf k own =>
      simp only [pure_bind]
      split
      · exact counted _
      · exact (never (digitAt_ne_overflow key depth)).bind fun d _ => counted _
    | _ => exact fun same => by cases same
  · rw [if_neg here]
    refine (never (digitAt_ne_overflow t.node.path depth)).bind fun d _ => ?_
    simp only [pure_bind]
    split
    · exact counted _
    · exact (never (digitAt_ne_overflow key depth)).bind fun d _ => counted _

/-- What is made of something overflows only if that does. -/
theorem loads_made {full : Prop} {α β : Type} {e : Except Error α} (made : α → β)
    (excess : e = .error .overflow → full) (s : Session) :
    Loads full (do return made (← e) : Action β) s fun _ _ => True :=
  Loads.bind (loads_liftExcept (P := fun _ _ => True) (fun _ _ => trivial) excess) fun _ _ _ _ _ => loads_pure trivial

/-- Where counts add up, an insertion overflows only if the root has the largest one. -/
theorem insertWithin_full (fuel : Nat) (weighs : s.Weighs w) (addsUp : t.node.AddsUp w kind) :
    Loads (UInt64.size ≤ t.count.toNat + 1) (insertWithin key value fuel t) s fun _ _ => True := by
  induction fuel generalizing t s with
  | zero => exact loads_throw fun same => by cases same
  | succ fuel ih =>
    have forks : ∀ depth, Loads (UInt64.size ≤ t.count.toNat + 1)
        (do return some (← t.fork depth key value) : Action (Option (Trie kind))) s fun _ _ => True := by
      refine fun depth => loads_made some (fun excess => ?_) s
      have ends := t.ends_fork_full depth key value
      rw [excess] at ends
      exact ends rfl
    rw [insertWithin]
    cases shape : t.node with
    | empty => exact loads_pure trivial
    | leaf k own =>
      dsimp only
      split
      · exact loads_pure trivial
      · exact forks _
    | branch b =>
      rw [shape] at addsUp
      have count_eq : t.count = b.count := by
        rw [count, shape]
        rfl
      have counted : ∀ (more : UInt64) (made : UInt64 → Trie kind) (s : Session), more.toNat ≤ 1 →
          Loads (UInt64.size ≤ t.count.toNat + 1)
            (do return some (made (← addCounts b.count more)) : Action (Option (Trie kind))) s fun _ _ => True := by
        refine fun more made s le => loads_made (fun count => some (made count)) (fun excess => ?_) s
        have far := (addCounts_eq_error.mp excess).2
        rw [count_eq]
        omega
      dsimp only
      split
      · exact forks _
      split
      · split
        · exact loads_pure trivial
        · exact counted _ _ s (by split <;> decide)
      refine (loads_digitAt key b.depth s).bind fun d s₁ _ later _ => ?_
      have weighs₁ := weighs.later later
      split
      · exact counted 1 _ s₁ le_rfl
      · next r found =>
        have below := Branch.le_weight (w := w) found
        have total := addsUp.sums.count_eq
        refine (loads_resolve weighs₁ (addsUp.child found)).bind fun u s₂ _ later' inside => ?_
        have walk : Loads (UInt64.size ≤ t.count.toNat + 1) (insertWithin key value fuel u) s₂ fun _ _ => True :=
          (ih (weighs₁.later later') inside.2).widen fun excess => by
            rw [count_eq]
            omega
        refine (walk.of_ok fun inner s₃ run => run).bind fun inner s₃ _ _ inserted => ?_
        split
        · exact loads_pure trivial
        · next updated =>
          obtain ⟨_, -, counted⟩ := insertWithin_count fuel inserted
          have more := counted.le
          refine loads_made _ (fun excess => ?_) s₃
          have far := adjust_overflow excess
          rw [count_eq]
          omega

/-! ### Removing -/

/-- What a removal that succeeds does at a node: what it gives, the session that it leaves, and what a lookup of the key
answers. -/
inductive Removal (key : Bytes) (fuel : Nat) (t : Trie kind) (s : Session) :
    Option (Trie kind) → Session → Except Error (Option (Ref Cell)) → Prop where
  | absent : Removal key fuel t s none s (.ok none)
  | leaf (own : Ref Cell) (shape : t.node = .leaf key own) :
      Removal key fuel t s (some (empty kind)) s (.ok (some own))
  | entry {b : Branch (Ref Cell)} {old : Ref Cell} {n : UInt64} {t' : Trie kind} {s' : Session}
      (shape : t.node = .branch b) (own : b.entry = some old) (adjusted : adjust b.count 1 0 = .ok n)
      (built : result (build { b with entry := none, count := n }) s = (.ok t', s')) :
      Removal key fuel t s (some t') s' (.ok (some old))
  | kept {b : Branch (Ref Cell)} {d : Digit} {r : Ref Cell} {u : Trie kind} {s₁ s' : Session}
      (shape : t.node = .branch b) (found : b.child? d = some r) (resolved : result (resolve kind r) s = (.ok u, s₁))
      (removed : result (eraseWithin key fuel u) s₁ = (.ok none, s')) :
      Removal key fuel t s none s' (result (getWithin kind key fuel u.node) s₁).1
  | below {b : Branch (Ref Cell)} {d : Digit} {r : Ref Cell} {u updated t' : Trie kind} {n : UInt64}
      {s₁ s₂ s' : Session} (shape : t.node = .branch b) (found : b.child? d = some r)
      (resolved : result (resolve kind r) s = (.ok u, s₁))
      (removed : result (eraseWithin key fuel u) s₁ = (.ok (some updated), s₂))
      (adjusted : adjust b.count u.count updated.count = .ok n)
      (built : result (build { b with
        children := if updated.count = 0 then Branch.eraseChild d b.children
          else Branch.setChild d updated.ref b.children
        count := n }) s₂ = (.ok t', s')) :
      Removal key fuel t s (some t') s' (result (getWithin kind key fuel u.node) s₁).1

/-- A removal takes the way of a lookup, through the same sessions. -/
theorem of_eraseWithin {fuel : Nat} {r : Option (Trie kind)}
    (run : result (eraseWithin key (fuel + 1) t) s = (.ok r, s')) :
    Removal key fuel t s r s' (result (getWithin kind key (fuel + 1) t.node) s).1 := by
  rw [eraseWithin] at run
  cases shape : t.node with
  | empty =>
    rw [shape] at run
    cases run
    exact .absent
  | leaf k own =>
    rw [shape] at run
    rw [getWithin]
    dsimp only at run
    by_cases same : k = key
    · subst same
      rw [if_pos rfl] at run ⊢
      cases run
      exact .leaf own shape
    · rw [if_neg same] at run ⊢
      cases run
      exact .absent
  | branch b =>
    rw [shape] at run
    rw [getWithin]
    dsimp only at run ⊢
    by_cases begins : Digits.beginsWith key b.path b.depth = true
    · simp only [begins, Bool.not_true, Bool.false_eq_true, ↓reduceIte] at run ⊢
      by_cases ends : Digits.count key = b.depth
      · rw [if_pos ends] at run ⊢
        cases own : b.entry with
        | none =>
          rw [own] at run
          cases run
          exact .absent
        | some old =>
          rw [own, Option.isNone_some, if_neg (by decide)] at run
          obtain ⟨n, adjusted, run⟩ := of_result_lift_bind run
          obtain ⟨t', s₁, built, run⟩ := of_result_bind run
          cases run
          exact .entry shape own adjusted built
      · rw [if_neg ends] at run ⊢
        obtain ⟨d, digit, run⟩ := of_result_lift_bind run
        rw [digit, result_bind, result_liftExcept]
        dsimp only
        cases found : b.child? d with
        | none =>
          rw [found] at run
          cases run
          exact .absent
        | some r =>
          rw [found] at run
          obtain ⟨u, s₁, resolved, run⟩ := of_result_bind run
          obtain ⟨inner, s₂, removed, run⟩ := of_result_bind run
          rw [result_bind, resolved]
          cases inner with
          | none =>
            cases run
            exact .kept shape found resolved removed
          | some updated =>
            obtain ⟨n, adjusted, run⟩ := of_result_lift_bind run
            obtain ⟨t', s₃, built, run⟩ := of_result_bind run
            cases run
            exact .below shape found resolved removed adjusted built
    · simp only [begins, Bool.not_false, ↓reduceIte] at run ⊢
      cases run
      exact .absent

/-- A removal that succeeds is as good as a lookup that does, and gives nothing for a key that this does not find. -/
theorem eraseWithin_finds (fuel : Nat) {r : Option (Trie kind)}
    (run : result (eraseWithin key fuel t) s = (.ok r, s')) :
    ∃ found, (result (getWithin kind key fuel t.node) s).1 = .ok found ∧ (r = none ↔ found = none) := by
  induction fuel generalizing t s s' r with
  | zero => cases run
  | succ fuel ih =>
    have removes := of_eraseWithin run
    generalize (result (getWithin kind key (fuel + 1) t.node) s).1 = looked at removes
    cases removes with
    | absent => exact ⟨_, rfl, by simp⟩
    | leaf => exact ⟨_, rfl, by simp⟩
    | entry => exact ⟨_, rfl, by simp⟩
    | kept _ _ _ removed => exact ih removed
    | below _ _ _ removed =>
      obtain ⟨found, looked, same⟩ := ih removed
      exact ⟨found, looked, by simpa using same⟩

/-- What is left of a branch has the count of the branch. -/
theorem build_addsUp {b : Branch (Ref Cell)} (weighs : s.Weighs w) (addsUp : (Node.branch b).AddsUp w kind) :
    Loads False (build b : Action (Trie kind)) s fun t _ => t.node.AddsUp w kind ∧ t.count = b.count := by
  have sums := addsUp.sums
  have total := sums.count_eq
  rw [Branch.own] at total
  unfold build
  match own : b.entry, list : b.children with
  | none, [] =>
    rw [own, list] at total
    exact loads_pure ⟨.empty, UInt64.toNat_inj.mp total.symm⟩
  | none, [(d, r)] =>
    rw [own, list, Branch.weight_cons] at total
    have held : r.AddsUp w kind := addsUp.children (d, r) (by rw [list]; exact List.mem_singleton_self _)
    refine (loads_resolve weighs held).mono ?_
    rintro t s' - ⟨count_eq, inside⟩
    refine ⟨inside, UInt64.toNat_inj.mp (count_eq.trans (total.trans ?_).symm)⟩
    simp
  | some value, [] =>
    rw [own, list] at total
    refine loads_pure ⟨.leaf b.path value fun set => ?_, UInt64.toNat_inj.mp total.symm⟩
    rw [(sums.plain set).1] at own
    cases own
  | some value, c :: rest => exact loads_pure ⟨addsUp, rfl⟩
  | none, c :: c' :: rest => exact loads_pure ⟨addsUp, rfl⟩

/-- A branch loses its own entry. -/
theorem addsUp_eraseEntry {b : Branch (Ref Cell)} {old : Ref Cell} {n : UInt64}
    (addsUp : (Node.branch b).AddsUp w kind) (own : b.entry = some old) (adjusted : adjust b.count 1 0 = .ok n) :
    (Node.branch { b with entry := none, count := n }).AddsUp w kind ∧ n.toNat + 1 = b.count.toNat := by
  have sums := addsUp.sums
  have total := sums.count_eq
  rw [Branch.own, own, Option.toList_some, List.length_singleton] at total
  have less : n.toNat = b.count.toNat - 1 := (adjust_eq_ok adjusted).2
  refine ⟨.branch _ ⟨sums.ascending, fun set => ⟨rfl, (sums.plain set).2⟩, ?_⟩ addsUp.children, by omega⟩
  rw [less, total, Nat.add_sub_cancel_left]
  exact (Nat.zero_add _).symm

/-- A branch has something taken out below one of its children, or loses the child. -/
theorem addsUp_eraseBelow {b : Branch (Ref Cell)} {d : Digit} {r : Ref Cell} {u updated : Trie kind} {n : UInt64}
    (addsUp : (Node.branch b).AddsUp w kind) (found : b.child? d = some r) (before : u.count.toNat = r.weight w)
    (after : updated.node.AddsUp w kind) (fewer : updated.count.toNat + 1 = u.count.toNat)
    (adjusted : adjust b.count u.count updated.count = .ok n) :
    (Node.branch { b with
      children := if updated.count = 0 then Branch.eraseChild d b.children
        else Branch.setChild d updated.ref b.children
      count := n }).AddsUp w kind ∧ n.toNat + 1 = b.count.toNat := by
  have sums := addsUp.sums
  have total := sums.count_eq
  have le := Branch.le_weight (w := w) found
  obtain ⟨-, less⟩ := adjust_eq_ok adjusted
  refine ⟨?_, by omega⟩
  by_cases gone : updated.count = 0
  · rw [if_pos gone]
    refine .branch _ ⟨sums.ascending.eraseChild d, sums.plain, ?_⟩ fun c member =>
      addsUp.children c (List.mem_of_mem_filter member)
    have weight := Branch.weight_eraseChild (w := w) sums.ascending found
    rw [gone, UInt64.toNat_zero] at less
    show n.toNat = b.own + Branch.weight w (Branch.eraseChild d b.children)
    omega
  · rw [if_neg gone]
    exact addsUp_setChild addsUp found before after adjusted

/-- A key that is removed takes one off at each branch on the way down. -/
theorem eraseWithin_addsUp (fuel : Nat) {t : Trie kind} {s s' : Session} {r : Option (Trie kind)}
    (weighs : s.Weighs w) (addsUp : t.node.AddsUp w kind)
    (run : result (eraseWithin key fuel t) s = (.ok r, s')) :
    s.Later s' ∧ ∀ t', r = some t' → t'.node.AddsUp w kind ∧ t'.count.toNat + 1 = t.count.toNat := by
  induction fuel generalizing t s s' r with
  | zero => cases run
  | succ fuel ih =>
    rw [count]
    obtain ⟨looked, removes⟩ : ∃ looked, Removal key fuel t s r s' looked := ⟨_, of_eraseWithin run⟩
    cases removes with
    | absent => exact ⟨.refl s, fun _ none => by cases none⟩
    | leaf own shape =>
      refine ⟨.refl s, ?_⟩
      rintro _ ⟨⟩
      rw [shape]
      exact ⟨.empty, rfl⟩
    | entry shape own adjusted built =>
      rw [shape] at addsUp ⊢
      obtain ⟨rest, less⟩ := addsUp_eraseEntry addsUp own adjusted
      obtain ⟨later, made, same⟩ := (build_addsUp weighs rest).of_result built
      refine ⟨later, ?_⟩
      rintro _ ⟨⟩
      exact ⟨made, by rw [same]; exact less⟩
    | kept shape found resolved removed =>
      rw [shape] at addsUp
      obtain ⟨-, inside, later, weighs₁⟩ := weighs_resolve weighs (addsUp.child found) resolved
      exact ⟨later.trans (ih weighs₁ inside removed).1, fun _ none => by cases none⟩
    | below shape found resolved removed adjusted built =>
      rw [shape] at addsUp ⊢
      obtain ⟨before, inside, later, weighs₁⟩ := weighs_resolve weighs (addsUp.child found) resolved
      obtain ⟨later', made⟩ := ih weighs₁ inside removed
      obtain ⟨after, fewer⟩ := made _ rfl
      obtain ⟨rest, less⟩ := addsUp_eraseBelow addsUp found before after fewer adjusted
      obtain ⟨later'', made', same⟩ := (build_addsUp (weighs₁.later later') rest).of_result built
      refine ⟨(later.trans later').trans later'', ?_⟩
      rintro _ ⟨⟩
      exact ⟨made', by rw [same]; exact less⟩

/-- Where counts add up, a removal does not overflow. -/
theorem eraseWithin_full (fuel : Nat) {t : Trie kind} {s : Session} (weighs : s.Weighs w)
    (addsUp : t.node.AddsUp w kind) : Loads False (eraseWithin key fuel t) s fun _ _ => True := by
  induction fuel generalizing t s with
  | zero => exact loads_throw fun same => by cases same
  | succ fuel ih =>
    have fits := t.count.toNat_lt_size
    rw [eraseWithin]
    cases shape : t.node with
    | empty => exact loads_pure trivial
    | leaf k own => exact loads_pure trivial
    | branch b =>
      rw [count, shape] at fits
      rw [shape] at addsUp
      rw [Node.count] at fits
      dsimp only
      split
      · exact loads_pure trivial
      split
      · split
        · exact loads_pure trivial
        · next present =>
          obtain ⟨old, own⟩ := Option.ne_none_iff_exists'.mp (by simpa using present)
          refine Loads.bind (P := fun n _ => adjust b.count 1 0 = .ok n) ?_ fun n s₁ _ later adjusted => ?_
          · refine loads_liftExcept (fun _ same => same) fun excess => ?_
            have far := adjust_overflow excess
            rw [UInt64.toNat_zero] at far
            omega
          · have rest := (addsUp_eraseEntry addsUp own adjusted).1
            exact (build_addsUp (weighs.later later) rest).bind fun _ _ _ _ _ => loads_pure trivial
      refine (loads_digitAt key b.depth s).bind fun d s₁ _ later _ => ?_
      have weighs₁ := weighs.later later
      split
      · exact loads_pure trivial
      · next r found =>
        refine (loads_resolve weighs₁ (addsUp.child found)).bind fun u s₂ _ later' inside => ?_
        have weighs₂ := weighs₁.later later'
        refine ((ih weighs₂ inside.2).of_ok fun inner s₃ run => run).bind fun inner s₃ _ later'' removed => ?_
        split
        · exact loads_pure trivial
        · next updated _ =>
          obtain ⟨after, fewer⟩ := (eraseWithin_addsUp fuel weighs₂ inside.2 removed).2 updated rfl
          refine Loads.bind (P := fun n _ => adjust b.count u.count updated.count = .ok n) ?_
            fun n s₄ _ later₄ adjusted => ?_
          · refine loads_liftExcept (fun _ same => same) fun excess => ?_
            have far := adjust_overflow excess
            have below := Branch.le_weight (w := w) found
            have total := addsUp.sums.count_eq
            omega
          · have rest := (addsUp_eraseBelow addsUp found inside.1 after fewer adjusted).1
            exact (build_addsUp ((weighs₂.later later'').later later₄) rest).bind fun _ _ _ _ _ => loads_pure trivial

end Trie

end MerkleCells
