import MerkleCells.Proofs.Accepting
import MerkleCells.Proofs.Trie.Reading

/-!
What the readers of branches and nodes accept. Their checks leave of a branch what `Branch.Readable` says, which
is all that its payload depends on, and of a leaf that it has the key of its entry.
-/
namespace MerkleCells

namespace Reader

variable {child : Reader (Ref Cell)} {P : Ref Cell → Prop}

/-- The children that a mask announces, in the order of their digits. -/
theorem takes_children (each : Takes child fun enc r => enc = r.written ∧ P r) (mask : Nat) {digits : List Digit}
    (sorted : digits.Pairwise (· < ·)) :
    Takes (children child mask digits) fun enc items =>
      enc = (items.flatMap fun c => c.2.written) ∧ Branch.Ascending items ∧ (∀ c ∈ items, P c.2) ∧
        ∀ d, (∃ c ∈ items, c.1 = d) ↔ d ∈ digits ∧ mask.testBit d.val := by
  induction digits with
  | nil => exact .done ⟨rfl, .nil, by simp, by simp⟩
  | cons d digits ih =>
    obtain ⟨least, sorted⟩ := List.pairwise_cons.mp sorted
    rw [children]
    by_cases set : mask.testBit d.val
    · rw [if_pos set]
      refine each.bind ?_
      rintro enc r ⟨rfl, first⟩
      refine (ih sorted).map ((d, r) :: ·) ?_
      rintro enc items ⟨rfl, ascending, others, bits⟩
      refine ⟨rfl, List.pairwise_cons.mpr ⟨fun c member => ?_, ascending⟩, ?_, fun e => ?_⟩
      · exact least c.1 ((bits c.1).mp ⟨c, member, rfl⟩).1
      · rintro c (_ | ⟨_, member⟩)
        · exact first
        · exact others c member
      · simp only [List.mem_cons, exists_eq_or_imp, bits e]
        constructor
        · rintro (rfl | ⟨member, bit⟩)
          · exact ⟨.inl rfl, set⟩
          · exact ⟨.inr member, bit⟩
        · rintro ⟨rfl | member, bit⟩
          · exact .inl rfl
          · exact .inr ⟨member, bit⟩
    · rw [if_neg set]
      refine (ih sorted).mono ?_
      rintro enc items ⟨rfl, ascending, others, bits⟩
      refine ⟨rfl, ascending, others, fun e => ?_⟩
      rw [bits e, List.mem_cons]
      constructor
      · rintro ⟨member, bit⟩
        exact ⟨.inr member, bit⟩
      · rintro ⟨rfl | member, bit⟩
        · exact absurd bit set
        · exact ⟨member, bit⟩

theorem takes_branchEntry {kind : TrieKind} (depth : Nat) (each : Takes child fun enc r => enc = r.written ∧ P r) :
    Takes (branchEntry kind depth child) fun enc entry => enc = Branch.entryBytes kind entry ∧
      (∀ r ∈ entry, P r) ∧ (entry.isSome → kind = .map ∧ depth ≠ 0 ∧ depth % 2 = 0) := by
  cases kind with
  | set => exact .done ⟨rfl, by simp, by simp⟩
  | map =>
    refine takes_byte.bind ?_
    rintro enc flag rfl
    by_cases none : flag = 0
    · subst none
      rw [if_pos rfl]
      exact .done ⟨rfl, by simp, by simp⟩
    · rw [if_neg none]
      by_cases own : flag = 1
      · subst own
        rw [if_pos rfl]
        refine .check (by simp) fun ok => each.map some ?_
        rintro enc r ⟨rfl, holds⟩
        refine ⟨rfl, ?_, fun _ => ⟨rfl, by omega, by omega⟩⟩
        rintro r' ⟨⟩
        exact holds
      · rw [if_neg own]
        exact .fault (by simp)

end Reader

/-! ### Nodes -/

namespace Branch

variable {kind : TrieKind} {b : Branch (Ref Cell)}

theorem addChild_error {total : UInt64} {c : Digit × Ref Cell} {e : FormatFault}
    (failed : addChild kind b total c = .error e) : e ≠ .notCanonical := by
  rintro rfl
  unfold addChild at failed
  repeat' split at failed
  all_goals cases failed

theorem foldlM_addChild_error {children : List (Digit × Ref Cell)} {total : UInt64} {e : FormatFault}
    (failed : children.foldlM (addChild kind b) total = .error e) : e ≠ .notCanonical := by
  induction children generalizing total with
  | nil => cases failed
  | cons c rest ih =>
    rw [List.foldlM_cons] at failed
    cases first : addChild kind b total c with
    | error e' =>
      rw [first] at failed
      cases failed
      exact addChild_error first
    | ok total' =>
      rw [first] at failed
      exact ih failed

theorem checkChildren_error {e : FormatFault} (failed : b.checkChildren kind = .error e) : e ≠ .notCanonical := by
  rw [checkChildren] at failed
  cases sum : b.children.foldlM (addChild kind b) (if b.entry.isSome then 1 else 0) with
  | error e' =>
    simp only [sum] at failed
    cases failed
    exact foldlM_addChild_error sum
  | ok total =>
    rintro rfl
    simp only [sum, bind, Except.bind] at failed
    split at failed <;> cases failed

/-- The bits of a mask are those of the digits that have a child. -/
theorem mask_eq {mask : Nat} (small : mask < 2 ^ 16)
    (bits : ∀ d : Digit, (∃ c ∈ b.children, c.1 = d) ↔ mask.testBit d.val) : b.mask = mask := by
  apply Nat.eq_of_testBit_eq
  intro i
  by_cases inside : i < 16
  · have here := bits ⟨i, inside⟩
    have own := b.testBit_mask ⟨i, inside⟩
    rw [own, Bool.eq_iff_iff, List.any_eq_true, ← here]
    simp
  · have le : 2 ^ 16 ≤ 2 ^ i := Nat.pow_le_pow_right (by decide) (not_lt.mp inside)
    rw [Nat.testBit_lt_two_pow (lt_of_lt_of_le b.mask_lt le), Nat.testBit_lt_two_pow (lt_of_lt_of_le small le)]

end Branch

/-- What the reader of nodes asks of a node. -/
def Node.Accepted (kind : TrieKind) : Node (Ref Cell) → Prop
  | .empty => True
  | .leaf key value => kind.Admits key value.mark
  | .branch b => b.Readable kind ∧ b.checkChildren kind = .ok ()

namespace Reader

variable {kind : TrieKind} {child : Reader (Ref Cell)} {P : Ref Cell → Prop}

theorem takes_branch (each : Takes child fun enc r => enc = r.written ∧ P r) (count : UInt64) :
    Takes (branch kind child count) fun enc b => enc = b.payload kind ∧ b.count = count ∧
      (Node.branch b).Accepted kind ∧ ∀ r ∈ b.refs, P r := by
  refine takes_count.bind ?_
  rintro _ depth rfl
  refine .check (by simp) fun depth_le => ?_
  refine (takes_bytes _).bind ?_
  rintro path _ ⟨rfl, path_length⟩
  refine .check (by simp) fun padding => ?_
  refine (takes_bytes 2).bind ?_
  rintro mask _ ⟨rfl, mask_length⟩
  refine (takes_branchEntry depth.toNat each).bind ?_
  rintro _ entry ⟨rfl, own, may⟩
  refine (takes_children each _ (List.pairwise_lt_finRange 16)).bind ?_
  rintro _ children ⟨rfl, ascending, below, bits⟩
  refine .check (by simp) fun occupied => ?_
  refine .check (by simp) fun counted => ?_
  set b : Branch (Ref Cell) := { depth := depth.toNat, path, entry, children, count } with b_eq
  cases checked : b.checkChildren kind with
  | error e => exact .fault (Branch.checkChildren_error checked)
  | ok _ =>
    obtain ⟨nonempty, occupants⟩ := not_or.mp occupied
    have mask_eq : b.mask = Bytes.ofBigEndian mask :=
      Branch.mask_eq (Bytes.ofBigEndian_lt mask_length) fun d => by simpa using bits d
    have path_eq : Digits.leading? path depth.toNat = some path :=
      Digits.leading?_self path_length fun odd => not_not.mp (not_and.mp padding odd)
    have readable : b.Readable kind :=
      { depth_le := not_lt.mp depth_le
        path_eq := path_eq
        ascending := ascending
        children_ne_nil := by simpa [b] using nonempty
        occupants := not_lt.mp occupants
        occupants_le := not_lt.mp counted
        entry := may }
    refine .done ⟨?_, rfl, ⟨readable, checked⟩, fun r member => ?_⟩
    · rw [Branch.payload_eq, mask_eq, Bytes.bigEndian_ofBigEndian mask_length, List.append_nil, UInt64.ofNat_toNat]
    · rcases List.mem_append.mp member with at_own | at_child
      · exact own r (by simpa using at_own)
      · obtain ⟨c, at_c, rfl⟩ := List.mem_map.mp at_child
        exact below c at_c

theorem takes_node (each : Takes child fun enc r => enc = r.written ∧ P r) :
    Takes (node kind child) fun enc n => enc = n.payload kind ∧ n.Accepted kind ∧ ∀ r ∈ n.refs, P r := by
  refine takes_count.bind ?_
  rintro _ count rfl
  by_cases none : count = 0
  · subst none
    rw [if_pos rfl]
    exact .done ⟨rfl, trivial, fun r member => by cases member⟩
  rw [if_neg none]
  by_cases one : count = 1
  · subst one
    rw [if_pos rfl]
    have only : ∀ r : Ref Cell, P r → ∀ r' ∈ [r], P r' := by
      rintro r holds r' (_ | ⟨_, ⟨⟩⟩)
      exact holds
    cases kind with
    | map =>
      refine (takes_length Limits.blob).bind ?_
      rintro _ n ⟨rfl, le⟩
      refine .check (by simp) fun pos => ?_
      refine (takes_bytes n).bind ?_
      rintro key _ ⟨rfl, rfl⟩
      refine each.map (Node.leaf key) ?_
      rintro _ r ⟨rfl, holds⟩
      refine ⟨?_, ⟨Nat.pos_of_ne_zero pos, le⟩, only r holds⟩
      simp only [Node.payload, Node.count, writeBlob, List.append_assoc]
    | set =>
      refine each.map (fun r => Node.leaf r.hash.bytes r) ?_
      rintro _ r ⟨rfl, holds⟩
      exact ⟨rfl, rfl, only r holds⟩
  · rw [if_neg one]
    refine (takes_branch each count).map Node.branch ?_
    rintro _ b ⟨rfl, rfl, accepted, below⟩
    exact ⟨rfl, accepted, below⟩

end Reader

end MerkleCells
