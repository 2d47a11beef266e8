import MerkleCells.Proofs.Trie.Invariant
import MerkleCells.Proofs.Trie.Lookup
import MerkleCells.Trie.Order

/-!
Walks through a well-formed trie. A walk comes across each entry of the trie's content once, in the order of
their keys: a key comes before another if it is its beginning, or has the lower digit where they part.
-/
namespace MerkleCells

open MerkleCells.Action

/-! ### The order of keys -/

/-- A key ends where another goes on, or has the lower digit where they part. -/
def Digits.Before (a b : Bytes) : Prop :=
  ∃ n, Shares a b n ∧ (count a = n ∧ n < count b ∨ ∃ x y, digit? a n = some x ∧ digit? b n = some y ∧ x < y)

theorem Digits.Before.ne {a b : Bytes} (before : Before a b) : a ≠ b := by
  rintro rfl
  obtain ⟨n, -, ⟨ends, goes⟩ | ⟨x, y, left, right, lt⟩⟩ := before
  · omega
  · rw [left, Option.some.injEq] at right
    exact absurd right lt.ne

namespace Content

variable {α : Type} {f g h : Content α} {depth : Nat} {digits : List Digit} {d : Digit} {k : Bytes} {a : α}

/-- The bindings of the keys that have one of some digits at a place. -/
def among (f : Content α) (depth : Nat) (digits : List Digit) : Content α :=
  fun k => if (Digits.digit? k depth).any (· ∈ digits) then f k else Option.none

theorem among_eq_some_iff :
    f.among depth digits k = some a ↔ (∃ d ∈ digits, Digits.digit? k depth = some d) ∧ f k = some a := by
  rw [among]
  cases here : Digits.digit? k depth with
  | none => simp
  | some d => by_cases member : d ∈ digits <;> simp [member]

end Content

/-- Entries are the bindings of a content, each of them once and in the order of their keys. -/
structure Content.Lists (f : Content Mark) (entries : List Entry) : Prop where
  ascending : entries.Pairwise fun e e' => Digits.Before e.key e'.key
  listed : ∀ k m, f k = some m ↔ ∃ e ∈ entries, e.key = k ∧ e.value.mark = m

namespace Content.Lists

variable {f g h : Content Mark} {entries entries' : List Entry}

theorem nil : (Content.none : Content Mark).Lists [] := ⟨.nil, by simp [Content.none]⟩

theorem single (e : Entry) : (Content.single e.key e.value.mark).Lists [e] := by
  refine ⟨by simp, fun k m => ?_⟩
  by_cases same : k = e.key
  · simp [Content.single, same]
  · simp [Content.single, same, Ne.symm same]

theorem bound (lists : f.Lists entries) {e : Entry} (member : e ∈ entries) : f e.key = some e.value.mark :=
  (lists.listed e.key e.value.mark).mpr ⟨e, member, rfl, rfl⟩

theorem append (first : f.Lists entries) (second : g.Lists entries')
    (before : ∀ k ∈ f.keys, ∀ k' ∈ g.keys, Digits.Before k k')
    (split : ∀ k m, h k = some m ↔ f k = some m ∨ g k = some m) : h.Lists (entries ++ entries') := by
  constructor
  · rw [List.pairwise_append]
    refine ⟨first.ascending, second.ascending, fun e member e' member' => ?_⟩
    exact before e.key (mem_keys_of_eq_some (first.bound member)) e'.key (mem_keys_of_eq_some (second.bound member'))
  · intro k m
    rw [split, first.listed, second.listed]
    simp only [List.mem_append, or_and_right, exists_or]

/-- Different entries have different keys. -/
theorem nodup (lists : f.Lists entries) : (entries.map (·.key)).Nodup :=
  List.pairwise_map.mpr (lists.ascending.imp fun before => before.ne)

end Content.Lists

theorem Content.lists_among_nil (f : Content Mark) (depth : Nat) : (f.among depth []).Lists [] := by
  have none : f.among depth [] = .none := by
    funext k
    simp [Content.among, Content.none]
  simpa [none] using Content.Lists.nil

namespace Branch.Fits

variable {b : Branch (Ref Cell)} {f : Content Mark}

/-- The keys below one digit come before those below a higher one. -/
theorem before_of_lt (fits : b.Fits f) {k k' : Bytes} (bound : k ∈ f.keys) (bound' : k' ∈ f.keys)
    {d d' : Digit} (here : Digits.digit? k b.depth = some d) (here' : Digits.digit? k' b.depth = some d')
    (lt : d < d') :
    Digits.Before k k' :=
  ⟨b.depth, (fits.within k bound).trans (fits.within k' bound').symm, .inr ⟨d, d', here, here', lt⟩⟩

/-- What a branch binds is its own entry and what lies below its children. -/
theorem bound_iff (fits : b.Fits f) (k : Bytes) (m : Mark) :
    f k = some m ↔ (k = b.path ∧ b.entry.map Ref.mark = some m) ∨
      f.among b.depth (b.children.map (·.1)) k = some m := by
  constructor
  · intro here
    have bound := Content.mem_keys_of_eq_some here
    rcases fits.ends_or_digit bound with ends | ⟨d, digit⟩
    · obtain ⟨rfl, -⟩ := fits.eq_path bound ends
      rw [fits.entry_of_ends (.refl fits.depth_le_count) ends]
      exact .inl ⟨rfl, here⟩
    · obtain ⟨r, found⟩ := Option.isSome_iff_exists.mp ((fits.child_iff d).mpr (Content.below_ne_none bound digit))
      have member := List.mem_map_of_mem (f := (·.1)) (mem_of_childIn found)
      exact .inr (Content.among_eq_some_iff.mpr ⟨⟨d, member, digit⟩, here⟩)
  · rintro (⟨rfl, own⟩ | below)
    · have ends := fits.entry_isSome (Option.isSome_map.symm.trans (Option.isSome_iff_exists.mpr ⟨m, own⟩))
      rwa [fits.entry_eq, if_pos ends.1] at own
    · exact (Content.among_eq_some_iff.mp below).2

/-- The entries below the lowest of some digits come before those below the others. -/
theorem lists_cons (fits : b.Fits f) {c : Digit × Ref Cell} {rest : List (Digit × Ref Cell)}
    (least : ∀ c' ∈ rest, c.1 < c'.1) {entries entries' : List Entry} (first : (f.below b.depth c.1).Lists entries)
    (others : (f.among b.depth (rest.map (·.1))).Lists entries') :
    (f.among b.depth ((c :: rest).map (·.1))).Lists (entries ++ entries') := by
  refine first.append others ?_ ?_
  · intro k bound k' bound'
    obtain ⟨here, bound⟩ := Content.mem_keys_below.mp bound
    obtain ⟨m', bound'⟩ := Option.ne_none_iff_exists'.mp bound'
    obtain ⟨⟨d', member', here'⟩, bound'⟩ := Content.among_eq_some_iff.mp bound'
    obtain ⟨c', at_rest, rfl⟩ := List.mem_map.mp member'
    exact fits.before_of_lt bound (Content.mem_keys_of_eq_some bound') here here' (least c' at_rest)
  · intro k m
    simp only [Content.among_eq_some_iff, Content.below_eq_some_iff, List.map_cons, List.mem_cons,
      or_and_right, exists_or, exists_eq_left]

/-- A branch's own entry comes before those below its children. -/
theorem lists (fits : b.Fits f) {entries : List Entry}
    (below : (f.among b.depth (b.children.map (·.1))).Lists entries) :
    f.Lists ((b.entry.map fun value => (⟨b.path, value⟩ : Entry)).toList ++ entries) := by
  cases own : b.entry with
  | none =>
    have same : f = f.among b.depth (b.children.map (·.1)) := by
      funext k
      apply Option.ext
      intro m
      rw [fits.bound_iff, own]
      simp
    rw [same]
    exact below
  | some value =>
    have ends := (fits.entry_isSome (by rw [own]; rfl)).1
    refine (Content.Lists.single ⟨b.path, value⟩).append below ?_ ?_
    · intro k here k' bound
      rw [Content.keys_single] at here
      obtain rfl : k = b.path := here
      obtain ⟨m, bound⟩ := Option.ne_none_iff_exists'.mp bound
      obtain ⟨⟨d, -, digit⟩, bound⟩ := Content.among_eq_some_iff.mp bound
      have shares := (fits.within k' (Content.mem_keys_of_eq_some bound)).symm
      exact ⟨b.depth, shares, .inl ⟨ends, Digits.lt_count digit⟩⟩
    · intro k m
      rw [fits.bound_iff, own]
      by_cases same : k = b.path
      · simp [Content.single, same]
      · simp [Content.single, same]

end Branch.Fits

namespace Trie

variable {kind : TrieKind} {α : Type} {s : Session} {f : Content Mark}

/-- A walk succeeds, with what `g` makes of the entries of a content, and does nothing but load. -/
def Walks (x : StateM Session (Listing α)) (s : Session) (g : Entry → α) (f : Content Mark) : Prop :=
  ∃ entries s', StateT.run x s = (⟨entries.map g, none⟩, s') ∧ s.Later s' ∧ f.Lists entries

theorem run_listChildren_cons {visit : Trie kind → StateM Session (Listing α)} {c : Digit × Ref Cell}
    {rest : List (Digit × Ref Cell)} {t : Trie kind} {items items' : List α} {s₁ s₂ s₃ : Session}
    (resolved : result (resolve kind c.2) s = (.ok t, s₁)) (visited : StateT.run (visit t) s₁ = (⟨items, none⟩, s₂))
    (others : StateT.run (listChildren visit rest) s₂ = (⟨items', none⟩, s₃)) :
    StateT.run (listChildren visit (c :: rest)) s = (⟨items ++ items', none⟩, s₃) := by
  have resolved : StateT.run (ExceptT.run (resolve kind c.2)) s = (.ok t, s₁) := resolved
  rw [listChildren, StateT.run_bind, resolved]
  show StateT.run (visit t >>= _) s₁ = _
  rw [StateT.run_bind, visited]
  show StateT.run (listChildren visit rest >>= _) s₂ = _
  rw [StateT.run_bind, others]
  rfl

/-- Walking through the children of a branch is walking through the entries below their digits. -/
theorem listChildren_walks {b : Branch (Ref Cell)} (fits : b.Fits f) (visit : Trie kind → StateM Session (Listing α))
    (g : Entry → α) {children : List (Digit × Ref Cell)} (ascending : Branch.Ascending children)
    (leads : ∀ c ∈ children, c.2.Leads kind s (f.below b.depth c.1))
    (visits : ∀ c ∈ children, ∀ t s', t.node.Holds kind s' (f.below b.depth c.1) →
      Walks (visit t) s' g (f.below b.depth c.1)) :
    Walks (listChildren visit children) s g (f.among b.depth (children.map (·.1))) := by
  induction children generalizing s with
  | nil =>
    exact ⟨[], s, rfl, .refl s, Content.lists_among_nil f b.depth⟩
  | cons c rest ih =>
    obtain ⟨least, ascending⟩ := List.pairwise_cons.mp ascending
    obtain ⟨t, s₁, run, -, later₁, holds⟩ := leads c (by simp) s (.refl s)
    obtain ⟨entries, s₂, run₂, later₂, lists⟩ := visits c (by simp) t s₁ holds
    obtain ⟨entries', s₃, run₃, later₃, lists'⟩ := ih ascending
      (fun c' member => (leads c' (by simp [member])).later (later₁.trans later₂))
      (fun c' member => visits c' (by simp [member]))
    refine ⟨entries ++ entries', s₃, ?_, (later₁.trans later₂).trans later₃, ?_⟩
    · rw [List.map_append]
      exact run_listChildren_cons run run₂ run₃
    · exact fits.lists_cons least lists lists'

theorem listWithin_walks (g : Entry → α) (fuel : Nat) {n : Node (Ref Cell)} {s : Session} {f : Content Mark}
    (holds : n.Holds kind s f) (admitted : f.Admitted kind) (enough : kind.maxDigits < fuel + n.depth) :
    Walks (listWithin kind (fun e => .ok (g e)) fuel n) s g f := by
  induction fuel generalizing n s f with
  | zero => exact absurd rfl (fuel_pos holds admitted enough)
  | succ fuel ih =>
    cases n with
    | empty =>
      cases holds with
      | empty content => exact ⟨[], s, rfl, .refl s, content ▸ .nil⟩
    | leaf key value =>
      cases holds with
      | leaf _ _ content => exact ⟨[⟨key, value⟩], s, rfl, .refl s, content ▸ .single ⟨key, value⟩⟩
    | branch b =>
      have fits := holds.fits
      have parts := holds.parts
      obtain ⟨entries, s', run, later, lists⟩ := listChildren_walks (s := s) fits
        (fun child : Trie kind => listWithin kind (fun e => .ok (g e)) fuel child.node) g fits.ascending
        (fun c member => ((parts c.1).2 c.2 (fits.ascending.childIn_of_mem member)).2)
        (fun c member t s' child => ih child (admitted.below _ _)
          (fuel_child fits child (fits.below_ne_none member) enough))
      have whole := fits.lists lists
      cases own : b.entry with
      | none =>
        rw [own] at whole
        refine ⟨entries, s', ?_, later, whole⟩
        rw [listWithin, own]
        show StateT.run (listChildren _ b.children >>= _) s = _
        rw [StateT.run_bind, run]
        rfl
      | some value =>
        rw [own] at whole
        refine ⟨⟨b.path, value⟩ :: entries, s', ?_, later, whole⟩
        rw [listWithin, own]
        show StateT.run (listChildren _ b.children >>= _) s = _
        rw [StateT.run_bind, run]
        rfl

/-- A walk through a well-formed trie comes across the bindings of its content in the order of their keys. -/
theorem listWith_walks {t : Trie kind} (g : Entry → α) (holds : t.node.Holds kind s f) (admitted : f.Admitted kind) :
    Walks (t.listWith fun e => .ok (g e)) s g f := by
  obtain ⟨fuel, s', run, rfl, enough⟩ := t.yields_levels s
  obtain ⟨entries, s'', walk, later, lists⟩ := listWithin_walks g fuel holds admitted (by omega)
  refine ⟨entries, s'', ?_, later, lists⟩
  have levels : StateT.run (ExceptT.run t.levels) s' = (.ok fuel, s') := run
  rw [listWith, StateT.run_bind, levels]
  exact walk

end Trie

end MerkleCells
