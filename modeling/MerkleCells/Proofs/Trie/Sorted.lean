import MerkleCells.Proofs.Partial
import MerkleCells.Proofs.Trie.Listing

/-!
Tries as sorted lists. The order in which a trie is walked through is the order of keys byte by byte
(`Digits.before_iff_lt`), so a content can be listed in one way only. All ways of reading a trie agree with that list,
which `Trie.Built.reads_sorted` states.
-/
namespace MerkleCells

open MerkleCells.Action

/-! ### The order of keys -/

namespace Digits

variable {a b : Bytes}

theorem before_nil (a : Bytes) : ¬ Before a [] := by
  rintro ⟨n, -, ⟨-, goes⟩ | ⟨x, y, -, right, -⟩⟩
  · exact Nat.not_lt_zero n goes
  · cases right

theorem nil_before_cons (y : UInt8) (b : Bytes) : Before [] (y :: b) :=
  ⟨0, .zero _ _, .inl ⟨rfl, by rw [count_cons]; omega⟩⟩

/-- Keys are compared byte by byte. -/
theorem before_cons_iff {x y : UInt8} : Before (x :: a) (y :: b) ↔ x < y ∨ x = y ∧ Before a b := by
  constructor
  · rintro ⟨n, shares, ⟨ends, goes⟩ | ⟨c, d, left, right, lt⟩⟩
    · rw [count_cons] at ends goes
      obtain ⟨n, rfl⟩ : ∃ m, n = m + 2 := ⟨n - 2, by omega⟩
      obtain ⟨same, shares⟩ := (Shares.cons_cons x y).mp shares
      exact .inr ⟨same, n, shares, .inl ⟨by omega, by omega⟩⟩
    · rcases n with _ | _ | n
      · cases left
        cases right
        exact .inl (lt_of_high_lt lt)
      · cases left
        cases right
        exact .inl (lt_of_low_lt ((Shares.cons_one x y).mp shares) lt)
      · obtain ⟨same, shares⟩ := (Shares.cons_cons x y).mp shares
        rw [digit?_cons_succ_succ] at left right
        exact .inr ⟨same, n, shares, .inr ⟨c, d, left, right, lt⟩⟩
  · rintro (lt | ⟨rfl, n, shares, ⟨ends, goes⟩ | ⟨c, d, left, right, lt⟩⟩)
    · by_cases part : high x = high y
      · exact ⟨1, (Shares.cons_one x y).mpr part, .inr ⟨_, _, rfl, rfl, low_lt_of_lt lt part⟩⟩
      · exact ⟨0, .zero _ _, .inr ⟨_, _, rfl, rfl, high_lt_of_lt lt part⟩⟩
    · refine ⟨n + 2, (Shares.cons_cons x x).mpr ⟨rfl, shares⟩, .inl ?_⟩
      rw [count_cons, count_cons]
      omega
    · refine ⟨n + 2, (Shares.cons_cons x x).mpr ⟨rfl, shares⟩, .inr ⟨c, d, ?_, ?_, lt⟩⟩
      · rwa [digit?_cons_succ_succ]
      · rwa [digit?_cons_succ_succ]

theorem before_iff_lt : Before a b ↔ a < b := by
  induction a generalizing b with
  | nil =>
    cases b with
    | nil => exact ⟨fun before => absurd rfl before.ne, fun lt => absurd lt (List.lt_irrefl _)⟩
    | cons y b => exact ⟨fun _ => List.nil_lt_cons y b, fun _ => nil_before_cons y b⟩
  | cons x a ih =>
    cases b with
    | nil => exact ⟨fun before => absurd before (before_nil _), fun lt => absurd lt (List.not_lt_nil _)⟩
    | cons y b => rw [before_cons_iff, List.cons_lt_cons_iff, ih]

end Digits

/-- Hashes are ordered as their bytes are. -/
theorem Hash.compareBytes_eq_lt_iff {a b : Bytes} : compareBytes a b = .lt ↔ a < b := by
  induction a generalizing b with
  | nil =>
    cases b with
    | nil => exact ⟨nofun, fun lt => absurd lt (List.lt_irrefl _)⟩
    | cons y b => exact ⟨fun _ => List.nil_lt_cons y b, fun _ => rfl⟩
  | cons x a ih =>
    cases b with
    | nil => exact ⟨nofun, fun lt => absurd lt (List.not_lt_nil _)⟩
    | cons y b =>
      rw [compareBytes, Ordering.then_eq_lt, Std.compare_eq_lt, Std.LawfulEqCmp.compare_eq_iff_eq, ih,
        List.cons_lt_cons_iff]

/-! ### Listings of a content -/

/-- The key of an entry and what its value shows. -/
def Entry.binding (e : Entry) : Bytes × Mark := (e.key, e.value.mark)

namespace Content.Lists

variable {f : Content Mark} {entries entries' : List Entry}

theorem sorted (lists : f.Lists entries) : (entries.map Entry.binding).Pairwise fun b b' => b.1 < b'.1 :=
  List.pairwise_map.mpr (lists.ascending.imp fun before => Digits.before_iff_lt.mp before)

theorem mem_bindings (lists : f.Lists entries) {k : Bytes} {m : Mark} :
    (k, m) ∈ entries.map Entry.binding ↔ f k = some m := by
  rw [lists.listed, List.mem_map]
  simp only [Entry.binding, Prod.mk.injEq]

/-- There is one listing of a content only. -/
theorem bindings_eq (lists : f.Lists entries) (lists' : f.Lists entries') :
    entries.map Entry.binding = entries'.map Entry.binding := by
  have nodup : ∀ {l : List Entry}, f.Lists l → (l.map Entry.binding).Nodup := fun lists =>
    lists.sorted.imp fun lt same => (by rw [same] at lt; exact List.lt_irrefl _ lt)
  refine List.Perm.eq_of_pairwise ?_ lists.sorted lists'.sorted ?_
  · exact fun b b' _ _ lt gt => absurd lt (List.lt_asymm gt)
  · rw [List.perm_ext_iff_of_nodup (nodup lists) (nodup lists')]
    rintro ⟨k, m⟩
    rw [lists.mem_bindings, lists'.mem_bindings]

/-- What is bound to a key is found in a listing. -/
theorem lookup_eq (lists : f.Lists entries) (key : Bytes) : (entries.map Entry.binding).lookup key = f key := by
  cases found : (entries.map Entry.binding).lookup key with
  | some m =>
    obtain ⟨before, after, split, -⟩ := List.lookup_eq_some_iff.mp found
    refine (lists.mem_bindings.mp ?_).symm
    rw [split]
    exact List.mem_append_right before List.mem_cons_self
  | none =>
    cases bound : f key with
    | none => rfl
    | some m =>
      have absent := List.lookup_eq_none_iff.mp found (key, m) (lists.mem_bindings.mpr bound)
      rw [bne_self_eq_false] at absent
      cases absent

theorem starting (lists : f.Lists entries) (start : Bytes) :
    (f.starting start).Lists (entries.filter fun e => start.isPrefixOf e.key) := by
  refine ⟨lists.ascending.filter _, fun k m => ?_⟩
  simp only [List.mem_filter]
  by_cases begins : start.isPrefixOf k = true
  · rw [Content.starting, if_pos begins, lists.listed]
    constructor
    · rintro ⟨e, member, rfl, same⟩
      exact ⟨e, ⟨member, begins⟩, rfl, same⟩
    · rintro ⟨e, ⟨member, -⟩, rfl, same⟩
      exact ⟨e, member, rfl, same⟩
  · rw [Content.starting, if_neg begins]
    constructor
    · intro none
      cases none
    · rintro ⟨e, ⟨-, begins'⟩, rfl, -⟩
      exact absurd begins' begins

end Content.Lists

/-! ### Ways of reading a trie -/

/-- However a trie is read, it reads as one list of bindings, in which the keys ascend. -/
structure Trie.ReadsAs {kind : TrieKind} (s : Session) (t : Trie kind) (listed : List (Bytes × Mark)) : Prop where
  /-- No key stands there twice, and a key stands after those that are less. -/
  ascending : listed.Pairwise fun b b' => b.1 < b'.1
  /-- In a set keys are the hashes of the elements, which therefore ascend. -/
  hashes : kind = .set → (∀ b ∈ listed, b.1 = b.2.hash.bytes) ∧
    listed.Pairwise fun b b' => compare b.2.hash b'.2.hash = .lt
  /-- There are as many bindings as are counted. -/
  count : t.count.toNat = listed.length
  /-- A key is bound to what is listed for it. -/
  get : ∀ key, Yields (t.get? key) s fun v _ => v.map Ref.mark = listed.lookup key
  /-- A walk comes across all that is listed, in this order, whatever it makes of the entries. -/
  walk : ∀ {α : Type} (g : Entry → α), ∃ (entries : List Entry) (s' : Session),
    StateT.run (t.listWith fun e => .ok (g e)) s = (⟨entries.map g, none⟩, s') ∧ entries.map Entry.binding = listed
  /-- The entry at a place is what is listed there, and there is none from the count on. -/
  entryAt : ∀ index, Yields (t.entryAt? index) s fun e _ =>
    e.map Entry.binding = listed[index.toNat]? ∧ (e = none ↔ t.count ≤ index)
  /-- The entries whose key begins with given bytes are those that are listed with such keys, in this order. -/
  starting : ∀ start, Yields (t.entriesStarting start) s fun (entries : List Entry) _ =>
    entries.map Entry.binding = listed.filter fun b => start.isPrefixOf b.1

namespace Trie

variable {kind : TrieKind} {s : Session} {t : Trie kind} {f : Content Mark} {entries : List Entry}

theorem Carries.reads (carries : t.Carries s f) (lists : f.Lists entries) :
    t.ReadsAs s (entries.map Entry.binding) := by
  have count : t.count.toNat = entries.length := carries.count_eq.trans lists.length_eq.symm
  constructor
  · exact lists.sorted
  · rintro rfl
    have named : ∀ b ∈ entries.map Entry.binding, b.1 = b.2.hash.bytes := fun b member =>
      carries.admitted b.1 b.2 (lists.mem_bindings.mp member)
    refine ⟨named, lists.sorted.imp_of_mem fun member member' lt => ?_⟩
    rw [named _ member, named _ member'] at lt
    exact Hash.compareBytes_eq_lt_iff.mpr lt
  · rw [List.length_map, count]
  · intro key
    refine (get?_yields key carries.holds carries.admitted).mono ?_
    rintro v s' ⟨same, -⟩
    rw [same, lists.lookup_eq]
  · intro α g
    obtain ⟨entries', s', run, -, lists'⟩ := listWith_walks g carries.holds carries.admitted
    exact ⟨entries', s', run, lists'.bindings_eq lists⟩
  · intro index
    refine (entryAt?_yields index carries.holds carries.admitted).mono ?_
    rintro e s' ⟨-, entries', lists', rfl⟩
    refine ⟨?_, ?_⟩
    · rw [← List.getElem?_map, lists'.bindings_eq lists]
    · rw [List.getElem?_eq_none_iff, lists'.length_eq, ← carries.count_eq, UInt64.le_iff_toNat_le]
  · intro start
    refine (entriesStarting_yields start carries.holds carries.admitted).mono ?_
    rintro entries' s' ⟨-, lists'⟩
    rw [lists'.bindings_eq (lists.starting start), List.filter_map]
    rfl

/-- Every trie that can be made reads as one sorted list, now and after more has been loaded. -/
theorem Built.reads_sorted (built : Trie.Built Cell.Obtained s t) :
    ∃ listed, ∀ s', s.Later s' → t.ReadsAs s' listed := by
  obtain ⟨f, carries⟩ := built.carries fun _ obtained => obtained.readable
  obtain ⟨entries, lists⟩ := carries.holds.exists_lists carries.admitted
  exact ⟨entries.map Entry.binding, fun s' later => (carries.later later).reads lists⟩

theorem reads_whole : Trie.Built Cell.Obtained ⟨[], []⟩ PartlyHeld.whole ∧
    ∃ listed, ∀ s', Session.Later ⟨[], []⟩ s' → PartlyHeld.whole.ReadsAs s' listed :=
  ⟨PartlyHeld.whole_built, PartlyHeld.whole_built.reads_sorted⟩

end Trie

end MerkleCells
