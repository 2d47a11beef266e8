import MerkleCells.Proofs.Trie.Lookup
import MerkleCells.Proofs.Trie.Sums
import MerkleCells.Trie.Update

/-!
Inserting into a well-formed trie. A fork makes a branch where a key leaves the trie (`inserted_fork`), and
`insertWithin_yields` follows the walk down: the result holds the content after the key has been bound, or
there is none and the key was bound to a value with that hash already.
-/
namespace MerkleCells.Trie

open MerkleCells.Action

variable {kind : TrieKind} {s : Session} {f : Content Mark}

/-- One more is counted where a new key is bound, if there is room for it. -/
theorem addCounts_put {c : UInt64} {key : Bytes} {m : Mark} (finite : f.keys.Finite) (count_eq : c.toNat = f.size)
    (new : key ∉ f.keys) (room : (f.put key m).size < UInt64.size) :
    ∃ n, addCounts c 1 = .ok n ∧ n.toNat = (f.put key m).size := by
  rw [Content.size_put_of_none finite (Content.eq_none_of_notMem new), ← count_eq] at room ⊢
  exact addCounts_of_lt room

/-- A key leaves a trie at a depth: it shares the digits of the trie that far, and no further. -/
structure PartsFrom (t : Trie kind) (key : Bytes) (depth : Nat) : Prop where
  shares : Digits.Shares t.node.path key depth
  apart : ¬ Digits.Shares t.node.path key (depth + 1)
  le : depth ≤ t.node.depth
  other : t.node.depth = depth → Digits.count key ≠ depth

theorem partsFrom_leaf {t : Trie kind} {k key : Bytes} {own : Ref Cell} (shape : t.node = .leaf k own) (other : k ≠ key) :
    t.PartsFrom key (Digits.shared k key) := by
  have shares : Digits.Shares k key (Digits.shared k key) := (Digits.le_shared_iff k key _).mp (Nat.le_refl _)
  constructor <;> rw [shape]
  · exact shares
  · intro more
    exact Nat.not_succ_le_self _ ((Digits.le_shared_iff k key _).mpr more)
  · exact shares.1
  · exact fun ends ends' => other (shares.eq ends ends')

theorem partsFrom_branch {t : Trie kind} {b : Branch (Ref Cell)} {key : Bytes} (shape : t.node = .branch b)
    (above : Digits.common b.path key b.depth < b.depth) : t.PartsFrom key (Digits.common b.path key b.depth) := by
  constructor <;> rw [shape]
  · exact Digits.shares_common _ _ _
  · exact Digits.not_shares_of_common_lt above
  · exact above.le
  · exact fun ends => absurd ends above.ne'

/-- The branch that `fork` makes holds what was there and the new key, if its entry and children do. -/
theorem holds_fork {t : Trie kind} {depth : Nat} {key path : Bytes} {value : Ref Cell} {entry : Option (Ref Cell)}
    {children : List (Digit × Ref Cell)} {count : UInt64} (holds : t.node.Holds kind s f)
    (count_eq : count.toNat = (f.put key value.mark).size)
    (found : Digits.leading? key depth = some path) (shares : Digits.Shares t.node.path key depth)
    (le : depth ≤ t.node.depth)
    (entry_eq : entry.map Ref.mark = if Digits.count path = depth then (f.put key value.mark) path else none)
    (ascending : Branch.Ascending children) (parts : Branch.Parts kind s children depth (f.put key value.mark))
    (occupants : 2 ≤ entry.toList.length + children.length) :
    (ofNode kind (.branch ⟨depth, path, entry, children, count⟩)).node.Holds kind s (f.put key value.mark) := by
  obtain ⟨pathShares, -, path_eq⟩ := Digits.leading?_spec found
  have within : f.Within path depth := fun k bound => (((holds.within k bound).mono le).trans shares).trans pathShares
  exact .ofParts path_eq (within.put pathShares.symm) entry_eq ascending parts (Content.finite_put holds.finite key _)
    count_eq occupants

/-- The children of a branch with one more at a digit that no key had there. -/
theorem parts_setLeaf {children : List (Digit × Ref Cell)} {depth : Nat} {d : Digit} {key : Bytes}
    (parts : Branch.Parts kind s children depth f) (ascending : Branch.Ascending children) (value : Ref Cell)
    (here : Digits.digit? key depth = some d) (gone : f.below depth d = .none) :
    Branch.Parts kind s (Branch.setChild d (leaf kind key value).ref children) depth (f.put key value.mark) := by
  have newBelow : (f.put key value.mark).below depth d = .single key value.mark := by
    rw [Content.below_put_self here, gone, Content.put_none]
  refine parts.setChild ascending ?_ ?_ fun e other => Content.below_put_of_other here other
  · rw [newBelow, ← Content.put_none]
    exact Content.put_ne_none _ _ _
  · rw [newBelow]
    exact leads_ref (.leaf key value rfl)

/-- A leaf whose key ends at the fork gives the branch its entry. -/
theorem fork_leaf {t : Trie kind} {k key : Bytes} {own value : Ref Cell} (shape : t.node = .leaf k own)
    (holds : t.node.Holds kind s f) (new : key ∉ f.keys) (shares : Digits.Shares k key (Digits.count k))
    (room : (f.put key value.mark).size < UInt64.size) :
    ∃ t', t.fork (Digits.count k) key value = .ok t' ∧ t'.node.Holds kind s (f.put key value.mark) := by
  have content : f = .single k own.mark := by
    rw [shape] at holds
    cases holds with
    | leaf _ _ content => exact content
  have other : k ≠ key := fun same => new (by rw [content, same, Content.keys_single]; rfl)
  have goes : Digits.count k < Digits.count key :=
    lt_of_le_of_ne shares.2.1 fun ends => other (shares.eq rfl ends.symm)
  obtain ⟨d, here⟩ := (Digits.digit?_isSome_iff key (Digits.count k)).mpr goes
  have found : Digits.leading? key (Digits.count k) = some k := by
    rw [← Digits.leading?_eq_of_shares shares, Digits.leading?_count]
  have none_goes_on : ∀ k' ∈ f.keys, Digits.count k' ≤ Digits.count k := fun k' bound => by
    rw [content, Content.keys_single] at bound
    rw [bound]
  have gone : f.below (Digits.count k) d = .none := Content.below_eq_none fun k' bound at_d =>
    (Digits.lt_count at_d).not_ge (none_goes_on k' bound)
  have old : Branch.Parts kind s [] (Digits.count k) f := .nil none_goes_on
  obtain ⟨count, counted, count_eq⟩ := addCounts_put (c := t.count) holds.finite holds.count_eq new room
  refine ⟨ofNode kind (.branch ⟨Digits.count k, k, some own, [(d, (leaf kind key value).ref)], count⟩), ?_, ?_⟩
  · simp [fork, leadingOf, digitAt, found, shape, Node.depth, goes.ne', here, counted, bind, Except.bind, pure,
      Except.pure, Branch.setChild]
  · refine holds_fork holds count_eq found (by rw [shape]; exact shares) (by rw [shape]; exact Nat.le_refl _) ?_
      (List.pairwise_singleton _ _) (parts_setLeaf old List.Pairwise.nil value here gone) (Nat.le_refl 2)
    rw [if_pos rfl, Content.put_of_ne other, content, Content.single, if_pos rfl]
    rfl

/-- Where the keys that were there all go on, they stay together below one digit of the branch. -/
theorem fork_lt {t : Trie kind} {depth : Nat} {key : Bytes} {value : Ref Cell} (holds : t.node.Holds kind s f)
    (nonempty : f ≠ .none) (new : key ∉ f.keys) (shares : Digits.Shares t.node.path key depth)
    (part : ¬ Digits.Shares t.node.path key (depth + 1)) (lt : depth < t.node.depth)
    (room : (f.put key value.mark).size < UInt64.size) :
    ∃ t', t.fork depth key value = .ok t' ∧ t'.node.Holds kind s (f.put key value.mark) := by
  obtain ⟨path, found⟩ := Digits.leading?_isSome shares.2.1
  obtain ⟨d, here⟩ := (Digits.digit?_isSome_iff t.node.path depth).mpr (lt_of_lt_of_le lt holds.depth_le_count)
  have all : ∀ k ∈ f.keys, Digits.digit? k depth = some d := fun k bound => by
    rw [(holds.within k bound).digit?_eq lt, here]
  have old : Branch.Parts kind s [(d, t.ref)] depth f := .single (leads_ref holds) nonempty all
  obtain ⟨count, counted, count_eq⟩ := addCounts_put (c := t.count) holds.finite holds.count_eq new room
  by_cases ends : Digits.count key = depth
  · -- the new key ends at the fork and is its entry
    obtain rfl : path = key := Digits.eq_of_leading? found (.refl shares.2.1) ends
    refine ⟨ofNode kind (.branch ⟨depth, path, some value, [(d, t.ref)], count⟩), ?_, ?_⟩
    · simp [fork, leadingOf, digitAt, found, lt.ne', ends, here, counted, bind, Except.bind, pure, Except.pure]
    · refine holds_fork holds count_eq found shares lt.le ?_ (List.pairwise_singleton _ _) ?_ (Nat.le_refl 2)
      · rw [if_pos ends, Content.put_self]
        rfl
      · intro e
        rw [Content.below_put_of_ends ends]
        exact old e
  · -- the new key goes on with another digit
    obtain ⟨d', here'⟩ := (Digits.digit?_isSome_iff key depth).mpr (lt_of_le_of_ne shares.2.1 (Ne.symm ends))
    have apart : d ≠ d' := Digits.digits_part shares part here here'
    have gone : f.below depth d' = .none := Content.below_eq_none fun k bound at_d => apart (by
      rw [all k bound, Option.some.injEq] at at_d
      exact at_d)
    refine ⟨ofNode kind (.branch ⟨depth, path, none,
      Branch.setChild d' (leaf kind key value).ref [(d, t.ref)], count⟩), ?_, ?_⟩
    · simp [fork, leadingOf, digitAt, found, lt.ne', ends, here, here', counted, bind, Except.bind, pure, Except.pure]
    · refine holds_fork holds count_eq found shares lt.le ?_
        (Branch.Ascending.setChild d' _ (List.pairwise_singleton _ _))
        (parts_setLeaf old (List.pairwise_singleton _ _) value here' gone) ?_
      · by_cases whole : Digits.count path = depth
        · have other : path ≠ key := fun same => ends (same ▸ whole)
          have unbound : path ∉ f.keys := fun bound => (Digits.lt_count (all path bound)).ne' whole
          rw [if_pos whole, Content.put_of_ne other, Content.eq_none_of_notMem unbound]
          rfl
        · rw [if_neg whole]
          rfl
      · have absent : Branch.childIn [(d, t.ref)] d' = none := by rw [Branch.childIn_cons, if_neg apart]; rfl
        rw [Branch.length_setChild_of_none d' _ absent]
        exact Nat.le_refl 2

theorem adjust_spec {g : Content Mark} {depth : Nat} {d : Digit} {total before after : UInt64} (finite : f.keys.Finite)
    (finite' : g.keys.Finite) (others : g.beside depth d = f.beside depth d) (total_eq : total.toNat = f.size)
    (before_eq : before.toNat = (f.below depth d).size) (after_eq : after.toNat = (g.below depth d).size)
    (room : g.size < UInt64.size) : ∃ count, adjust total before after = .ok count ∧ count.toNat = g.size := by
  have size := Content.size_eq_below_add_beside finite depth d
  have size' := Content.size_eq_below_add_beside finite' depth d
  rw [others] at size'
  have le : before ≤ total := by
    rw [UInt64.le_iff_toNat_le]
    omega
  have rest : (total - before).toNat + after.toNat = g.size := by
    rw [UInt64.toNat_sub_of_le _ _ le]
    omega
  rw [adjust, if_pos le, ← rest]
  exact addCounts_of_lt (rest ▸ room)

/-- What an insertion gives: nothing if the key is bound to a value of that hash, and otherwise a trie
that holds the content with the key bound. -/
def Inserted (s : Session) (f : Content Mark) (key : Bytes) (v : Mark) : Option (Trie kind) → Prop
  | none => ∃ m, f key = some m ∧ m.hash = v.hash
  | some t => (∀ m, f key = some m → m.hash ≠ v.hash) ∧ t.node.Holds kind s (f.put key v)

theorem inserted_new {t : Trie kind} {key : Bytes} {v : Mark} (new : key ∉ f.keys)
    (holds : t.node.Holds kind s (f.put key v)) : Inserted s f key v (some t) :=
  ⟨fun _ bound => absurd (Content.mem_keys_of_eq_some bound) new, holds⟩

/-- No key of a trie is one that leaves it, if this does not end at a branch. -/
theorem PartsFrom.new {t : Trie kind} {key : Bytes} {depth : Nat} (parts : t.PartsFrom key depth)
    (holds : t.node.Holds kind s f) (leaf : t.node.depth = depth → ∃ k own, t.node = .leaf k own) : key ∉ f.keys := by
  intro bound
  have shares := (holds.within key bound).symm
  rcases Nat.lt_or_eq_of_le parts.le with lt | here
  · exact parts.apart (shares.mono lt)
  · obtain ⟨k, own, shape⟩ := leaf here.symm
    rw [shape] at shares here
    rw [shape] at holds
    cases holds with
    | leaf _ _ content =>
      rw [content, Content.keys_single] at bound
      exact parts.other (by rw [shape, here]) (by rw [bound, here]; rfl)

/-- Where a key leaves a trie, a fork binds it. -/
theorem inserted_fork {t : Trie kind} {key : Bytes} {value : Ref Cell} {depth : Nat} (holds : t.node.Holds kind s f)
    (parts : t.PartsFrom key depth) (leaf : t.node.depth = depth → ∃ k own, t.node = .leaf k own)
    (room : (f.put key value.mark).size < UInt64.size) :
    ∃ t', t.fork depth key value = .ok t' ∧ Inserted s f key value.mark (some t') := by
  have new := parts.new holds leaf
  obtain ⟨t', forked, holds'⟩ : ∃ t', t.fork depth key value = .ok t' ∧ t'.node.Holds kind s (f.put key value.mark) := by
    rcases Nat.lt_or_eq_of_le parts.le with lt | here
    · refine fork_lt holds (fun none => ?_) new parts.shares parts.apart lt room
      have empty := holds.isEmpty_iff.mpr none
      cases shape : t.node with
      | empty =>
        rw [shape] at lt
        exact Nat.not_lt_zero _ lt
      | _ =>
        rw [shape] at empty
        cases empty
    · obtain ⟨k, own, shape⟩ := leaf here.symm
      have shares := parts.shares
      rw [shape] at shares here
      rw [here] at shares ⊢
      exact fork_leaf shape holds new shares room
  exact ⟨t', forked, inserted_new new holds'⟩

/-- A leaf of the key itself is replaced, unless its value has that hash. -/
theorem inserted_leaf (key : Bytes) (own value : Ref Cell) :
    Inserted s (.single key own.mark) key value.mark (if own == value then none else some (leaf kind key value)) := by
  have bound : Content.single key own.mark key = some own.mark := if_pos rfl
  by_cases equal : own.hash = value.hash
  · rw [if_pos ((Ref.beq_iff own value).mpr equal)]
    exact ⟨own.mark, bound, equal⟩
  · rw [if_neg fun eq => equal ((Ref.beq_iff own value).mp eq)]
    refine ⟨?_, .leaf key value (by rw [Content.put_single])⟩
    intro m bound'
    rw [bound, Option.some.injEq] at bound'
    exact bound' ▸ equal

/-- A branch whose own entry is replaced holds the content with the key that ends there bound. -/
theorem holds_setEntry {b : Branch (Ref Cell)} {key : Bytes} {value : Ref Cell} {count : UInt64}
    (holds : Node.Holds kind s (.branch b) f) (shares : Digits.Shares b.path key b.depth)
    (ends : Digits.count key = b.depth) (count_eq : count.toNat = (f.put key value.mark).size) :
    Node.Holds kind s (.branch { b with entry := some value, count }) (f.put key value.mark) := by
  have fits := holds.fits
  obtain rfl : b.path = key := Digits.eq_of_leading? fits.path_eq shares ends
  refine .ofParts fits.path_eq (fits.within.put shares) ?_ fits.ascending ?_ (Content.finite_put fits.finite _ _)
    count_eq ?_
  · rw [if_pos ends, Content.put_self]
    rfl
  · intro d
    rw [Content.below_put_of_ends ends]
    exact holds.parts d
  · have old := holds.occupants
    simp only [Branch.occupants, Option.toList_some, List.length_singleton] at old ⊢
    have : b.entry.toList.length ≤ 1 := by cases b.entry <;> simp
    omega

/-- At the branch where a key ends, its own entry is left if it has that hash. -/
theorem inserted_same {b : Branch (Ref Cell)} {key : Bytes} {value : Ref Cell}
    (holds : Node.Holds kind s (.branch b) f) (shares : Digits.Shares b.path key b.depth)
    (ends : Digits.count key = b.depth) (equal : b.entry.any (· == value) = true) :
    Inserted s f key value.mark (none : Option (Trie kind)) := by
  have entry := holds.fits.entry_of_ends shares ends
  obtain ⟨old, own, same⟩ := (Option.any_eq_true _ _).mp equal
  rw [own] at entry
  exact ⟨old.mark, entry.symm, (Ref.beq_iff old value).mp same⟩

/-- Otherwise it is added or replaced. -/
theorem inserted_entry {b : Branch (Ref Cell)} {key : Bytes} {value : Ref Cell}
    (holds : Node.Holds kind s (.branch b) f) (shares : Digits.Shares b.path key b.depth)
    (ends : Digits.count key = b.depth) (different : ¬ b.entry.any (· == value) = true)
    (room : (f.put key value.mark).size < UInt64.size) :
    ∃ count, addCounts b.count (if b.entry.isNone then 1 else 0) = .ok count ∧
      Inserted s f key value.mark (some (ofNode kind (.branch { b with entry := some value, count }))) := by
  have fits := holds.fits
  have entry := fits.entry_of_ends shares ends
  cases own : b.entry with
  | none =>
    rw [own] at entry
    have new : key ∉ f.keys := fun bound => bound entry.symm
    obtain ⟨count, counted, count_eq⟩ := addCounts_put fits.finite fits.count_eq new room
    exact ⟨count, counted, inserted_new new (holds_setEntry holds shares ends count_eq)⟩
  | some old =>
    rw [own] at entry different
    refine ⟨b.count, addCounts_zero _, ?_, holds_setEntry holds shares ends ?_⟩
    · intro m bound equal
      rw [← entry] at bound
      cases bound
      exact different ((Ref.beq_iff old value).mpr equal)
    · rw [Content.size_put_of_mem (Content.mem_keys_of_eq_some entry.symm)]
      exact fits.count_eq

/-- A branch one of whose children is put in place holds the content with a key below it bound. -/
theorem holds_setChild {b : Branch (Ref Cell)} {key : Bytes} {m : Mark} {d : Digit} {r : Ref Cell} {count : UInt64}
    (holds : Node.Holds kind s (.branch b) f) (shares : Digits.Shares b.path key b.depth)
    (here : Digits.digit? key b.depth = some d) (leads : r.Leads kind s ((f.below b.depth d).put key m))
    (count_eq : count.toNat = (f.put key m).size) :
    Node.Holds kind s (.branch { b with children := Branch.setChild d r b.children, count }) (f.put key m) := by
  have fits := holds.fits
  have goes := Digits.lt_count here
  refine .ofParts fits.path_eq (fits.within.put shares) ?_ (fits.ascending.setChild d r) ?_
    (Content.finite_put fits.finite _ _) count_eq ?_
  · rw [fits.entry_eq]
    by_cases whole : Digits.count b.path = b.depth
    · have other : b.path ≠ key := fun same => goes.ne' (same ▸ whole)
      rw [if_pos whole, if_pos whole, Content.put_of_ne other]
    · rw [if_neg whole, if_neg whole]
  · rw [← Content.below_put_self here] at leads
    refine holds.parts.setChild fits.ascending ?_ leads fun e other => Content.below_put_of_other here other
    rw [Content.below_put_self here]
    exact Content.put_ne_none _ _ _
  · have old := holds.occupants
    have grown : b.children.length ≤ (Branch.setChild d r b.children).length := by
      cases found : Branch.childIn b.children d with
      | none => rw [Branch.length_setChild_of_none d r found]; omega
      | some r' => rw [Branch.length_setChild_of_some d r fits.ascending found]
    simp only [Branch.occupants] at old ⊢
    omega

/-- Where no child has the digit of a key, it becomes a leaf of its own. -/
theorem inserted_child {b : Branch (Ref Cell)} {key : Bytes} {d : Digit} (value : Ref Cell)
    (holds : Node.Holds kind s (.branch b) f) (shares : Digits.Shares b.path key b.depth)
    (here : Digits.digit? key b.depth = some d) (gone : f.below b.depth d = .none)
    (room : (f.put key value.mark).size < UInt64.size) :
    ∃ count, addCounts b.count 1 = .ok count ∧ Inserted s f key value.mark (some (ofNode kind (.branch { b with
      children := Branch.setChild d (leaf kind key value).ref b.children, count }))) := by
  have new : key ∉ f.keys := fun bound => bound (by rw [← Content.below_of_digit (f := f) here, gone]; rfl)
  obtain ⟨count, counted, count_eq⟩ := addCounts_put holds.finite holds.fits.count_eq new room
  refine ⟨count, counted, inserted_new new (holds_setChild holds shares here ?_ count_eq)⟩
  rw [gone, Content.put_none]
  exact leads_ref (.leaf key value rfl)

/-- What is inserted below a digit of a branch is inserted into the branch. -/
theorem inserted_below {b : Branch (Ref Cell)} {key : Bytes} {m : Mark} {d : Digit} {before : UInt64} {t : Trie kind}
    (holds : Node.Holds kind s (.branch b) f) (shares : Digits.Shares b.path key b.depth)
    (here : Digits.digit? key b.depth = some d) (before_eq : before.toNat = (f.below b.depth d).size)
    (inserted : Inserted s (f.below b.depth d) key m (some t)) (room : (f.put key m).size < UInt64.size) :
    ∃ count, adjust b.count before t.count = .ok count ∧ Inserted s f key m (some (ofNode kind (.branch { b with
      children := Branch.setChild d t.ref b.children, count }))) := by
  obtain ⟨different, holds'⟩ := inserted
  have fits := holds.fits
  have after_eq := holds'.count_eq
  rw [← Content.below_put_self here] at after_eq
  obtain ⟨count, adjusted, count_eq⟩ := adjust_spec fits.finite (Content.finite_put fits.finite _ _)
    (Content.beside_put here) fits.count_eq before_eq after_eq room
  refine ⟨count, adjusted, ?_, holds_setChild holds shares here (leads_ref holds') count_eq⟩
  intro m' bound
  exact different m' (Content.below_eq_some_iff.mpr ⟨here, bound⟩)

theorem insertWithin_yields {key : Bytes} {value : Ref Cell} (admits : kind.Admits key value.mark) (fuel : Nat)
    {t : Trie kind} {s : Session} {f : Content Mark} (holds : t.node.Holds kind s f) (admitted : f.Admitted kind)
    (enough : kind.maxDigits < fuel + t.node.depth) (room : (f.put key value.mark).size < UInt64.size) :
    Yields (insertWithin key value fuel t) s fun r s' => s.Later s' ∧ Inserted s' f key value.mark r := by
  induction fuel generalizing t s f with
  | zero => exact absurd rfl (fuel_pos holds admitted enough)
  | succ fuel ih =>
    rw [insertWithin]
    cases shape : t.node with
    | empty =>
      rw [shape] at holds
      cases holds with
      | empty content =>
        refine yields_pure.mpr ⟨.refl s, inserted_new (fun bound => bound (by rw [content]; rfl)) ?_⟩
        exact .leaf key value (by rw [content, Content.put_none])
    | leaf k own =>
      by_cases same : k = key
      · subst same
        rw [shape] at holds
        cases holds with
        | leaf _ _ content =>
          simp only [↓reduceIte]
          rw [content]
          exact yields_pure.mpr ⟨.refl s, inserted_leaf k own value⟩
      · simp only [same, ↓reduceIte]
        obtain ⟨t', forked, inserted⟩ := inserted_fork holds (partsFrom_leaf shape same) (fun _ => ⟨k, own, shape⟩) room
        exact .lift_bind forked (yields_pure.mpr ⟨.refl s, inserted⟩)
    | branch b =>
      have whole := holds
      rw [shape] at holds enough
      have fits := holds.fits
      simp only
      by_cases above : Digits.common b.path key b.depth < b.depth
      · rw [if_pos above]
        obtain ⟨t', forked, inserted⟩ := inserted_fork whole (partsFrom_branch shape above) (fun here => by
          rw [shape] at here
          exact absurd here above.ne') room
        exact .lift_bind forked (yields_pure.mpr ⟨.refl s, inserted⟩)
      · rw [if_neg above]
        have shares := (Digits.not_common_lt_iff b.path key b.depth).mp above
        by_cases ends : Digits.count key = b.depth
        · rw [if_pos ends]
          by_cases equal : b.entry.any (· == value) = true
          · rw [if_pos equal]
            exact yields_pure.mpr ⟨.refl s, inserted_same holds shares ends equal⟩
          · rw [if_neg equal]
            obtain ⟨count, counted, inserted⟩ := inserted_entry holds shares ends equal room
            exact .lift_bind counted (yields_pure.mpr ⟨.refl s, inserted⟩)
        · rw [if_neg ends]
          obtain ⟨d, here⟩ := (Digits.digit?_isSome_iff key b.depth).mpr (lt_of_le_of_ne shares.2.1 (Ne.symm ends))
          refine yields_bind.mpr (yields_digitAt here ?_)
          obtain ⟨absent, present⟩ := holds.parts d
          simp only [Branch.child?_eq]
          cases found : Branch.childIn b.children d with
          | none =>
            obtain ⟨count, counted, inserted⟩ := inserted_child value holds shares here (absent found) room
            exact .lift_bind counted (yields_pure.mpr ⟨.refl s, inserted⟩)
          | some r =>
            obtain ⟨nonempty, leads⟩ := present r found
            refine (leads s (.refl s)).bind ?_
            rintro child s' ⟨_, later, child_holds⟩
            have room' : ((f.below b.depth d).put key value.mark).size < UInt64.size := by
              rw [← Content.below_put_self here]
              exact lt_of_le_of_lt
                (Content.size_mono (Content.finite_put fits.finite _ _) (Content.below_subset _ _ _)) room
            refine (ih child_holds (admitted.below _ _) (fuel_child fits child_holds nonempty enough) room').bind ?_
            rintro updated s'' ⟨later', inserted⟩
            cases updated with
            | none =>
              obtain ⟨m, bound, equal⟩ := inserted
              exact yields_pure.mpr ⟨later.trans later', m, (Content.below_eq_some_iff.mp bound).2, equal⟩
            | some t' =>
              obtain ⟨count, adjusted, inserted'⟩ := inserted_below (holds.later (later.trans later')) shares here
                child_holds.count_eq inserted room
              exact .lift_bind adjusted (yields_pure.mpr ⟨later.trans later', inserted'⟩)

/-- Inserting binds a key. The value is held as a parent holds it, whatever form it is given in. -/
theorem insert_yields {t : Trie kind} {key : Bytes} {value : Ref Cell} {c : Cell} {s₁ : Session}
    (target : result value.value s = (.ok c, s₁)) (named : c.hash = value.hash) (holds : t.node.Holds kind s f)
    (admitted : f.Admitted kind) (admits : kind.Admits key c.mark) (room : (f.put key c.mark).size < UInt64.size) :
    Yields (t.insert key value) s fun r s' => s.Later s' ∧ Inserted s' f key c.mark r := by
  refine (value.canonical_yields target named).bind ?_
  rintro r s' ⟨mark, later⟩
  refine (t.yields_levels s').bind ?_
  rintro fuel s'' ⟨rfl, enough⟩
  rw [← mark] at admits room ⊢
  refine (insertWithin_yields admits fuel (holds.later later) admitted (by omega) room).mono ?_
  rintro updated t' ⟨later', inserted⟩
  exact ⟨later.trans later', inserted⟩

end MerkleCells.Trie
