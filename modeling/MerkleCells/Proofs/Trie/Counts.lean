import MerkleCells.Cell.Make
import MerkleCells.Proofs.Trie.Accepted

/-!
What the counts of accepted branches can be. The reader knows the counts of the children that are written inside a
branch, and of the others only that they are there. It adds the counts up if all of them are inside
(`Branch.checkChildren_iff`); otherwise it asks for one entry per occupant, so the count of a branch may fall short of
what is written inside it as soon as one of its children is a hash.
-/
namespace MerkleCells

/-! ### Where cells occur -/

/-- A cell is another one, or is held directly somewhere in it. -/
inductive Cell.Occurs : Cell → Cell → Prop where
  | self (c : Cell) : Occurs c c
  | inside {c d e : Cell} {r : Ref Cell} (member : r ∈ c.refs) (held : r.cell? = some d) (below : Occurs e d) :
      Occurs e c

theorem Cell.Accepted.of_occurs {loader : Option LoaderId} {c d : Cell} (accepted : c.Accepted loader)
    (occurs : d.Occurs c) : d.Accepted loader := by
  induction occurs with
  | self => exact accepted
  | inside member held _ ih => exact ih (accepted.held member held)

/-! ### What is declared -/

/-- The number of entries that a cell says it has. -/
def Cell.declared (c : Cell) : Nat :=
  match c.value with
  | .trie _ n => n.count.toNat
  | _ => 0

theorem Cell.declared_of_trie {c : Cell} {kind : TrieKind} {n : Node (Ref Cell)} (value : c.value = .trie kind n) :
    c.declared = n.count.toNat := by
  rw [declared, value]

/-- The number of entries that can be told of a reference without following it. -/
def Ref.declared (r : Ref Cell) : Nat := r.cell?.elim 0 Cell.declared

namespace Branch

variable {kind : TrieKind} {b : Branch (Ref Cell)}

/-- The number of own entries. -/
def own {ρ : Type} (b : Branch ρ) : Nat := b.entry.toList.length

/-- The entries that the children held directly say they have. -/
def declaredInside (b : Branch (Ref Cell)) : Nat := (b.children.map fun c => c.2.declared).sum

/-- The number of children that are written as their hash. -/
def byHash (b : Branch (Ref Cell)) : Nat := b.children.countP fun c => !c.2.isEmbedded

/-- All children are written inside the branch. -/
theorem isEmbedded_of_byHash (none : b.byHash = 0) {c : Digit × Ref Cell} (member : c ∈ b.children) :
    c.2.isEmbedded := by
  simpa using List.countP_eq_zero.mp none c member

/-! ### The reader's sum -/

/-- A child that passes adds what it declares, up to the largest count. -/
theorem toNat_addChild {total total' : UInt64} {c : Digit × Ref Cell} (added : addChild kind b total c = .ok total') :
    total'.toNat = min (total.toNat + c.2.declared) (UInt64.size - 1) := by
  have largest := total.toNat_lt
  have grows := grows_of_addChild added
  rw [addChild] at added
  rw [Ref.declared]
  cases held : c.2.cell? with
  | none =>
    rw [held] at added
    cases added
    rw [Option.elim_none]
    simp only [UInt64.size]
    omega
  | some cell =>
    obtain ⟨node, value, nonempty, deeper, shares, digit⟩ := grows cell held
    have begins := (Digits.beginsWith_iff node.path b.path b.depth).mpr shares
    simp only [held, value, ne_eq, not_true, if_false, nonempty, begins, digit, not_le.mpr deeper] at added
    cases added
    rw [Option.elim_some, Cell.declared_of_trie value, addSaturating, UInt64.toNat_ofNat']
    simp only [UInt64.size]
    omega

theorem addChild_of_grows (total : UInt64) {c : Digit × Ref Cell} (grows : Grows kind b c) :
    ∃ total', addChild kind b total c = .ok total' := by
  cases held : c.2.cell? with
  | none => exact ⟨total, by rw [addChild, held]; rfl⟩
  | some cell =>
    obtain ⟨node, value, nonempty, deeper, shares, digit⟩ := grows cell held
    have begins := (Digits.beginsWith_iff node.path b.path b.depth).mpr shares
    refine ⟨addSaturating total node.count, ?_⟩
    rw [addChild, held]
    simp [value, nonempty, begins, digit, not_le.mpr deeper]
    rfl

/-- Children pass if each of them does, and their sum is what they declare, up to the largest count. -/
theorem foldlM_addChild_iff {children : List (Digit × Ref Cell)} {total total' : UInt64} :
    children.foldlM (addChild kind b) total = .ok total' ↔ (∀ c ∈ children, Grows kind b c) ∧
      total'.toNat = min (total.toNat + (children.map fun c => c.2.declared).sum) (UInt64.size - 1) := by
  induction children generalizing total with
  | nil =>
    have largest := total.toNat_lt
    have small : min (total.toNat + 0) (UInt64.size - 1) = total.toNat := by
      simp only [UInt64.size]
      omega
    rw [List.map_nil, List.sum_nil, small, List.foldlM_nil]
    constructor
    · rintro ⟨⟩
      exact ⟨by simp, rfl⟩
    · rintro ⟨-, same⟩
      rw [UInt64.toNat_inj.mp same]
      rfl
  | cons c rest ih =>
    rw [List.foldlM_cons, List.map_cons, List.sum_cons, List.forall_mem_cons]
    constructor
    · intro run
      cases first : addChild kind b total c with
      | error e =>
        rw [first] at run
        cases run
      | ok next =>
        rw [first] at run
        obtain ⟨grow, sum⟩ := ih.mp run
        refine ⟨⟨grows_of_addChild first, grow⟩, ?_⟩
        rw [sum, toNat_addChild first]
        omega
    · rintro ⟨⟨grows, grow⟩, sum⟩
      obtain ⟨next, first⟩ := addChild_of_grows total grows
      rw [first]
      refine ih.mpr ⟨grow, ?_⟩
      rw [sum, toNat_addChild first]
      omega

/-- The reader's look at the children of a branch: each that is held directly extends the branch, and if all of them
are, their counts and the own entry make up the branch's count. -/
theorem checkChildren_iff : b.checkChildren kind = .ok () ↔ (∀ c ∈ b.children, Grows kind b c) ∧
    (b.children.all (·.2.isDirect) → b.count.toNat = min (b.own + b.declaredInside) (UInt64.size - 1)) := by
  constructor
  · intro checked
    obtain ⟨total, run, whole⟩ := of_checkChildren checked
    obtain ⟨grow, sum⟩ := foldlM_addChild_iff.mp run
    refine ⟨grow, fun all => ?_⟩
    rw [← whole all, sum, toNat_own]
    rfl
  · rintro ⟨grow, whole⟩
    have fits : min (b.own + b.declaredInside) (UInt64.size - 1) < UInt64.size := by
      simp only [UInt64.size]
      omega
    have run : b.children.foldlM (addChild kind b) (if b.entry.isSome then 1 else 0) =
        .ok (UInt64.ofNat (min (b.own + b.declaredInside) (UInt64.size - 1))) := by
      rw [foldlM_addChild_iff, toNat_own, UInt64.toNat_ofNat_of_lt' fits]
      exact ⟨grow, rfl⟩
    rw [checkChildren, run]
    by_cases all : b.children.all (·.2.isDirect)
    · have same : UInt64.ofNat (min (b.own + b.declaredInside) (UInt64.size - 1)) = b.count := by
        rw [← whole all, UInt64.ofNat_toNat]
      rw [same]
      simp [bind, Except.bind]
      rfl
    · simp [bind, Except.bind, all]
      rfl

end Branch

/-! ### Accepted branches -/

namespace Cell.Accepted

variable {loader : Option LoaderId} {kind : TrieKind} {c : Cell} {b : Branch (Ref Cell)}

theorem branch_readable (accepted : c.Accepted loader) (value : c.value = .trie kind (.branch b)) : b.Readable kind :=
  (accepted.value.2 kind (.branch b) value).1

theorem checked (accepted : c.Accepted loader) (value : c.value = .trie kind (.branch b)) :
    b.checkChildren kind = .ok () :=
  (accepted.value.2 kind (.branch b) value).2

/-- A child is held directly just if it is written inside its parent. -/
theorem direct_iff (accepted : c.Accepted loader) {r : Ref Cell} (member : r ∈ c.refs) :
    r.isDirect = r.isEmbedded := by
  rcases accepted.decoded member with ⟨d, rfl, small⟩ | marker
  · rw [Ref.isEmbedded, Ref.inlined?_direct small]
    rfl
  · rw [marker]
    rfl

/-- What an accepted cell declares fits in its encoding, if its children are written inside it. -/
theorem declared_le (accepted : c.Accepted loader) (inside : ∀ r ∈ c.refs, r.isEmbedded) :
    c.declared ≤ c.encoding.length := by
  cases value : c.value with
  | trie kind n =>
    obtain ⟨f, holds⟩ := accepted.holds value inside ⟨[], []⟩
    rw [declared_of_trie value, holds.holds.count_eq]
    exact holds.size_le
  | _ =>
    rw [declared, value]
    exact Nat.zero_le _

theorem mem_refs (value : c.value = .trie kind (.branch b)) {child : Digit × Ref Cell} (member : child ∈ b.children) :
    child.2 ∈ c.refs := by
  rw [Cell.refs, value]
  exact List.mem_append_right _ (List.mem_map_of_mem member)

theorem byHash_eq (accepted : c.Accepted loader) (value : c.value = .trie kind (.branch b)) :
    b.byHash = b.children.countP fun child => !child.2.isDirect :=
  List.countP_congr fun child member => by rw [accepted.direct_iff (mem_refs value member)]

theorem child_declared_le (accepted : c.Accepted loader) (value : c.value = .trie kind (.branch b))
    {child : Digit × Ref Cell} (member : child ∈ b.children) : child.2.declared ≤ child.2.written.length := by
  have member := mem_refs value member
  cases held : child.2.cell? with
  | none =>
    rw [Ref.declared, held]
    exact Nat.zero_le _
  | some d =>
    have inside : child.2.isEmbedded := by
      rw [← accepted.direct_iff member, Ref.isDirect, held]
      rfl
    obtain ⟨d', held', small, written⟩ := Ref.cell_of_isEmbedded inside
    rw [held] at held'
    cases held'
    rw [Ref.declared, held, written]
    exact (accepted.held member held).declared_le (Cell.isEmbedded_of_embeddable small)

/-- What an accepted branch holds directly is far from the largest count. -/
theorem inside_lt (accepted : c.Accepted loader) (value : c.value = .trie kind (.branch b)) :
    b.own + b.declaredInside < UInt64.size - 1 := by
  have readable := accepted.branch_readable value
  have at_digit : ∀ child ∈ b.children, (b.child? child.1).elim 0 Ref.declared = child.2.declared := by
    intro child member
    rw [Branch.child?_eq, readable.ascending.childIn_of_mem member]
    rfl
  have le := Branch.size_le_payload (fun d => (b.child? d).elim 0 Ref.declared) (fun own => (readable.entry own).1)
    fun child member => by
      rw [at_digit child member]
      exact accepted.child_declared_le value member
  rw [List.map_congr_left at_digit] at le
  have short := readable.length_payload_lt
  have room : Limits.encoding < UInt64.size - 1 := by decide
  rw [Node.payload, List.length_append] at short
  exact lt_of_le_of_lt le (by omega)

/-- The count of an accepted branch is that of all it holds, if this is written inside it. -/
theorem count_eq (accepted : c.Accepted loader) (value : c.value = .trie kind (.branch b)) (none : b.byHash = 0) :
    b.count.toNat = b.own + b.declaredInside := by
  have all : b.children.all (·.2.isDirect) := by
    rw [List.all_eq_true]
    intro child member
    rw [accepted.direct_iff (mem_refs value member), Branch.isEmbedded_of_byHash none member]
  have sum := (Branch.checkChildren_iff.mp (accepted.checked value)).2 all
  have lt := accepted.inside_lt value
  omega

end Cell.Accepted

namespace Branch

variable {loader : Option LoaderId} {kind : TrieKind} {b : Branch (Ref Cell)}

/-- The count is one that a branch can have, for all that is written inside it: a child that is written as its hash
has one entry at least. -/
def Possible (b : Branch (Ref Cell)) : Prop :=
  if b.byHash = 0 then b.count.toNat = b.own + b.declaredInside
  else b.own + b.declaredInside + b.byHash ≤ b.count.toNat

/-- Children of which none that is held directly has more than one entry declare one each, the others apart. -/
theorem sum_declared {children : List (Digit × Ref Cell)} (single : ∀ c ∈ children, c.2.isDirect → c.2.declared = 1) :
    (children.map fun c => c.2.declared).sum + (children.countP fun c => !c.2.isDirect) = children.length := by
  induction children with
  | nil => rfl
  | cons c rest ih =>
    rw [List.forall_mem_cons] at single
    have rest_eq := ih single.2
    rw [List.map_cons, List.sum_cons, List.countP_cons, List.length_cons]
    cases held : c.2.cell? with
    | none => simp [Ref.declared, Ref.isDirect, held, ← rest_eq, Nat.add_assoc]
    | some d =>
      have direct : c.2.isDirect := by rw [Ref.isDirect, held]; rfl
      rw [single.1 direct, direct, ← rest_eq]
      simp
      omega

end Branch

/-- The count of a branch that occurs in a decoded cell is that of all it holds if this is written inside it, and is
never below the number of its occupants; so it is one that the branch can have, unless there are both a child written
as its hash and a child with several entries inside the branch. -/
theorem decode_counts {loader : Option LoaderId} {bytes : Bytes} {c d : Cell} {kind : TrieKind} {b : Branch (Ref Cell)}
    (decoded : decode loader bytes = .ok c) (occurs : d.Occurs c) (value : d.value = .trie kind (.branch b)) :
    (b.byHash = 0 → b.count.toNat = b.own + b.declaredInside) ∧ b.own + b.children.length ≤ b.count.toNat ∧
      ((b.byHash = 0 ∨ ∀ child ∈ b.children, child.2.isEmbedded → child.2.declared = 1) → b.Possible) := by
  have accepted := (of_decode decoded).2.of_occurs occurs
  have direct : ∀ child ∈ b.children, child.2.isDirect = child.2.isEmbedded := fun child member =>
    accepted.direct_iff (Cell.Accepted.mem_refs value member)
  have occupants : b.own + b.children.length ≤ b.count.toNat := (accepted.branch_readable value).occupants_le
  refine ⟨accepted.count_eq value, occupants, fun known => ?_⟩
  rw [Branch.Possible]
  by_cases none : b.byHash = 0
  · rw [if_pos none]
    exact accepted.count_eq value none
  · have single := known.resolve_left none
    have single' : ∀ child ∈ b.children, child.2.isDirect → child.2.declared = 1 := fun child member held =>
      single child member (direct child member ▸ held)
    have sum := Branch.sum_declared single'
    rw [← accepted.byHash_eq value] at sum
    rw [if_neg none, Nat.add_assoc, Branch.declaredInside, sum]
    exact occupants

namespace Inlined

/-- The hash that repeats a byte. -/
def repeated (b : UInt8) : Hash := ⟨List.replicate 32 b, List.length_replicate⟩

/-- A leaf that is written inside its parent. -/
def leaf (key : Bytes) : Ref Cell := ⟨.embedded, .direct (Trie.leaf .map key ⟨.embedded, .direct Cell.nil⟩).cell⟩

/-- A map that is written inside its parent. -/
def map (b : Branch (Ref Cell)) : Ref Cell := ⟨.embedded, .direct (Trie.ofNode .map (.branch b)).cell⟩

/-- Two leaves. -/
def fork : Branch (Ref Cell) :=
  ⟨0, [], none, [(Digits.high 0x10, leaf [0x10]), (Digits.high 0x20, leaf [0x20])], 2⟩

/-- The bytes of a vector that holds the map of the two leaves. -/
def forkBytes : Bytes := [0x80, 1, 0x84, 2, 0, 0, 6, 0, 0x84, 1, 1, 0x10, 0, 0x84, 1, 1, 0x20, 0]

theorem decode_counts_inside : ∃ c d : Cell, decode none forkBytes = .ok c ∧ d.Occurs c ∧
    d.value = .trie .map (.branch fork) ∧ fork.Possible := by
  have decoded : decode none forkBytes = .ok (.ofValue (.vector [map fork])) := by rfl
  have value := (Trie.ofNode .map (.branch fork)).value_eq
  have occurs : (Trie.ofNode .map (.branch fork)).cell.Occurs (.ofValue (.vector [map fork])) :=
    .inside (r := map fork) (by simp [Cell.refs, Cell.value_ofValue, Value.refs]) rfl (.self _)
  have none : fork.byHash = 0 := by rfl
  exact ⟨_, _, decoded, occurs, value, (decode_counts decoded occurs value).2.2 (.inl none)⟩

/-- Two leaves whose keys share a digit. -/
def near : Branch (Ref Cell) :=
  ⟨1, [0x10], none, [(Digits.low 0x10, leaf [0x10]), (Digits.low 0x11, leaf [0x11])], 2⟩

/-- These leaves, and next to them a child that is written as its hash. The count is that of the two leaves alone. -/
def uneven : Branch (Ref Cell) :=
  ⟨0, [], none, [(Digits.high 0x10, map near),
    (Digits.high 0x20, .ofMarker (repeated 7) none)], 2⟩

def unevenBytes : Bytes :=
  [0x84, 2, 0, 0, 6, 0, 0x84, 2, 1, 0x10, 0, 3, 0, 0x84, 1, 1, 0x10, 0, 0x84, 1, 1, 0x11, 0, 0x20] ++
    (repeated 7).bytes

/-- A count of two passes for two children of which one has two entries. -/
theorem decode_undercounted : decode none unevenBytes = .ok (Trie.ofNode .map (.branch uneven)).cell ∧
    uneven.count = 2 ∧ uneven.declaredInside = 2 ∧ uneven.byHash = 1 ∧ ¬ uneven.Possible := by
  have decoded : decode none unevenBytes = .ok (Trie.ofNode .map (.branch uneven)).cell := by rfl
  have byHash : uneven.byHash = 1 := (of_decode decoded).2.byHash_eq (Trie.value_eq _)
  have declared : uneven.declaredInside = 2 := by rfl
  have count : uneven.count.toNat = 2 := by rfl
  refine ⟨decoded, rfl, declared, byHash, ?_⟩
  rw [Branch.Possible, byHash, declared, count]
  decide

end Inlined

end MerkleCells
