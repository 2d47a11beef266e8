import MerkleCells.Proofs.Reading
import MerkleCells.Proofs.Trie.Invariant

/-!
Nodes are read as they are written. A branch that fits its content passes every check of the reader, and
the counts of children that are held directly add up as they have to.
-/
namespace MerkleCells

open Reader

/-! ### Masks -/

namespace Branch

variable {ρ : Type}

theorem mask_lt (b : Branch ρ) : b.mask < 2 ^ 16 := by
  have all : ∀ children : List (Digit × ρ),
      children.foldr (fun c m => m ||| (1 <<< c.1.val)) 0 < 2 ^ 16 := by
    intro children
    induction children with
    | nil => exact Nat.two_pow_pos 16
    | cons c rest ih =>
      rw [List.foldr_cons]
      refine Nat.or_lt_two_pow ih ?_
      rw [Nat.one_shiftLeft]
      exact Nat.pow_lt_pow_right (by decide) c.1.isLt
  exact all b.children

end Branch

theorem Reader.reads_children {child : Reader (Ref Cell)} {image : Ref Cell → Ref Cell} {mask : Nat}
    {digits : List Digit} {items : List (Digit × Ref Cell)} (sorted : digits.Pairwise (· < ·))
    (ascending : Branch.Ascending items) (inside : ∀ c ∈ items, c.1 ∈ digits)
    (bits : ∀ d ∈ digits, mask.testBit d.val ↔ ∃ c ∈ items, c.1 = d)
    (each : ∀ c ∈ items, Reads child c.2.written (image c.2)) :
    Reads (children child mask digits) (items.flatMap fun c => c.2.written)
      (items.map fun c => (c.1, image c.2)) := by
  induction digits generalizing items with
  | nil =>
    cases items with
    | nil => exact .done []
    | cons c rest => exact absurd (inside c (by simp)) (by simp)
  | cons d digits ih =>
    obtain ⟨least, sorted⟩ := List.pairwise_cons.mp sorted
    rw [children]
    by_cases set : mask.testBit d.val
    · rw [if_pos set]
      -- the child of the least digit is the first one
      obtain ⟨c, rest, rfl, here⟩ : ∃ c rest, items = c :: rest ∧ c.1 = d := by
        obtain ⟨c, member, here⟩ := (bits d (by simp)).mp set
        cases items with
        | nil => cases member
        | cons c' rest =>
          refine ⟨c', rest, rfl, ?_⟩
          rcases List.mem_cons.mp member with rfl | later
          · exact here
          · have lt := (List.pairwise_cons.mp ascending).1 c later
            rcases List.mem_cons.mp (inside c' (by simp)) with same | member'
            · exact same
            · exact absurd (lt_trans lt (here ▸ least _ member')) (lt_irrefl _)
      obtain ⟨after, ascending⟩ := List.pairwise_cons.mp ascending
      rw [List.flatMap_cons, List.map_cons]
      refine (each c (by simp)).bind ?_
      have rest_reads : Reads (children child mask digits) (rest.flatMap fun c => c.2.written)
          (rest.map fun c => (c.1, image c.2)) :=
        ih sorted ascending ?_ ?_ fun c' member => each c' (by simp [member])
      · have first : (c.1, image c.2) = (d, image c.2) := by rw [here]
        rw [first]
        exact rest_reads.map ((d, image c.2) :: ·)
      · intro c' member
        rcases List.mem_cons.mp (inside c' (by simp [member])) with same | member'
        · exact absurd (after c' member) (by rw [here, same]; exact lt_irrefl d)
        · exact member'
      · intro e member
        rw [bits e (by simp [member])]
        constructor
        · rintro ⟨c', member', at_e⟩
          rcases List.mem_cons.mp member' with rfl | member'
          · exact absurd (least e member) (by rw [← here, at_e]; exact lt_irrefl e)
          · exact ⟨c', member', at_e⟩
        · rintro ⟨c', member', at_e⟩
          exact ⟨c', by simp [member'], at_e⟩
    · rw [if_neg set]
      refine ih sorted ascending ?_ (fun e member => bits e (by simp [member])) each
      intro c member
      rcases List.mem_cons.mp (inside c member) with same | member'
      · exact absurd ((bits d (by simp)).mpr ⟨c, member, same⟩) set
      · exact member'

/-! ### Counts -/

theorem toNat_addSaturating {a b : UInt64} (room : a.toNat + b.toNat < UInt64.size) :
    (addSaturating a b).toNat = a.toNat + b.toNat := by
  rw [addSaturating, UInt64.toNat_ofNat', Nat.min_eq_left (by omega)]
  exact Nat.mod_eq_of_lt room

namespace Branch

variable {kind : TrieKind} {b : Branch (Ref Cell)} {sizes : Digit → Nat}

/-- A child that is held directly is a node that extends the branch by its digit and counts so much. -/
def Extends (kind : TrieKind) (b : Branch (Ref Cell)) (sizes : Digit → Nat) (c : Digit × Ref Cell) : Prop :=
  ∀ cell, c.2.cell? = some cell → ∃ node, cell.value = .trie kind node ∧ node.isEmpty = false ∧
    b.depth < node.depth ∧ Digits.Shares node.path b.path b.depth ∧ Digits.digit? node.path b.depth = some c.1 ∧
    node.count.toNat = sizes c.1

/-- The entries below the children that are held directly. -/
def inMemory (sizes : Digit → Nat) (children : List (Digit × Ref Cell)) : Nat :=
  (children.map fun c => if c.2.isDirect then sizes c.1 else 0).sum

theorem inMemory_cons (sizes : Digit → Nat) (c : Digit × Ref Cell) (rest : List (Digit × Ref Cell)) :
    inMemory sizes (c :: rest) = (if c.2.isDirect then sizes c.1 else 0) + inMemory sizes rest :=
  List.sum_cons

theorem inMemory_le (sizes : Digit → Nat) (children : List (Digit × Ref Cell)) :
    inMemory sizes children ≤ (children.map fun c => sizes c.1).sum := by
  induction children with
  | nil => exact Nat.le_refl 0
  | cons c rest ih =>
    rw [inMemory_cons, List.map_cons, List.sum_cons]
    split <;> omega

theorem addChild_ok (total : UInt64) {c : Digit × Ref Cell} (fits : Extends kind b sizes c)
    (room : total.toNat + (if c.2.isDirect then sizes c.1 else 0) < UInt64.size) :
    ∃ total', addChild kind b total c = .ok total' ∧
      total'.toNat = total.toNat + if c.2.isDirect then sizes c.1 else 0 := by
  cases held : c.2.cell? with
  | none =>
    refine ⟨total, by rw [addChild, held]; rfl, ?_⟩
    rw [Ref.isDirect, held]
    rfl
  | some cell =>
    obtain ⟨node, value, nonempty, deeper, shares, here, size⟩ := fits cell held
    have direct : c.2.isDirect = true := by rw [Ref.isDirect, held]; rfl
    rw [direct, if_pos rfl, ← size] at room
    refine ⟨addSaturating total node.count, ?_, ?_⟩
    · have begins := (Digits.beginsWith_iff node.path b.path b.depth).mpr shares
      rw [addChild, held]
      simp only [value]
      rw [if_neg (not_not.mpr rfl), nonempty, if_neg (by decide), if_neg]
      · rfl
      · rw [begins, here]
        simp [deeper]
    · rw [toNat_addSaturating room, direct, if_pos rfl, size]

theorem foldlM_addChild {children : List (Digit × Ref Cell)} (total : UInt64)
    (fits : ∀ c ∈ children, Extends kind b sizes c) (room : total.toNat + inMemory sizes children < UInt64.size) :
    ∃ total', children.foldlM (addChild kind b) total = .ok total' ∧
      total'.toNat = total.toNat + inMemory sizes children := by
  induction children generalizing total with
  | nil => exact ⟨total, rfl, rfl⟩
  | cons c rest ih =>
    have split := inMemory_cons sizes c rest
    obtain ⟨first, run, value⟩ := addChild_ok total (fits c (by simp)) (by omega)
    obtain ⟨last, run', value'⟩ := ih first (fun c' member => fits c' (by simp [member])) (by omega)
    refine ⟨last, ?_, by omega⟩
    rw [List.foldlM_cons, run]
    exact run'

/-- Of children that are all held directly the whole sizes count. -/
theorem inMemory_of_direct (sizes : Digit → Nat) {children : List (Digit × Ref Cell)}
    (direct : children.all fun c => c.2.isDirect) : inMemory sizes children = (children.map fun c => sizes c.1).sum := by
  unfold inMemory
  congr 1
  exact List.map_congr_left fun c member => if_pos (List.all_eq_true.mp direct c member)

/-- The count of a branch begins with its own entry. -/
theorem toNat_own (entry : Option (Ref Cell)) :
    (if entry.isSome then (1 : UInt64) else 0).toNat = entry.toList.length := by
  cases entry <;> rfl

theorem checkChildren_ok (sizes : Digit → Nat) (fits : ∀ c ∈ b.children, Extends kind b sizes c)
    (count_eq : b.count.toNat = b.entry.toList.length + (b.children.map fun c => sizes c.1).sum) :
    b.checkChildren kind = .ok () := by
  have le := inMemory_le sizes b.children
  have lt := b.count.toNat_lt
  obtain ⟨total, run, value⟩ := foldlM_addChild (if b.entry.isSome then 1 else 0) fits
    (by rw [toNat_own]; exact lt_of_le_of_lt (by omega) lt)
  rw [toNat_own] at value
  rw [checkChildren, run]
  by_cases all : b.children.all fun c => c.2.isDirect
  · have same : total = b.count := by
      apply UInt64.toNat_inj.mp
      have whole := inMemory_of_direct sizes all
      omega
    simp [bind, Except.bind, same]
    rfl
  · simp [bind, Except.bind, all]
    rfl

end Branch

/-! ### Nodes -/

variable {kind : TrieKind} {child : Reader (Ref Cell)} {image : Ref Cell → Ref Cell}

/-- What the payload of a branch says of its own entry: nothing in a set, and a flag in a map. -/
def Branch.entryBytes : (kind : TrieKind) → (entry : Option (Ref Cell)) → Bytes
  | .set, _ => []
  | .map, none => [0]
  | .map, some value => 1 :: value.written

theorem Branch.payload_eq (kind : TrieKind) (b : Branch (Ref Cell)) : b.payload kind =
    Quantity.writeCount (UInt64.ofNat b.depth) ++ (b.path ++ (Bytes.bigEndian 2 b.mask ++
      (entryBytes kind b.entry ++ b.children.flatMap fun c => c.2.written))) := by
  unfold payload
  rw [List.append_assoc, List.append_assoc, List.append_assoc]
  cases kind <;> cases b.entry <;> rfl

theorem Reader.reads_branchEntry {depth : Nat} {entry : Option (Ref Cell)}
    (each : ∀ r, entry = some r → Reads child r.written (image r))
    (may : entry.isSome → kind = .map ∧ depth ≠ 0 ∧ depth % 2 = 0) :
    Reads (branchEntry kind depth child) (Branch.entryBytes kind entry) (entry.map image) := by
  cases kind with
  | set =>
    cases entry with
    | none => exact .done none
    | some r => exact absurd (may rfl).1 (by decide)
  | map =>
    cases entry with
    | none => exact (reads_byte 0).last (.done none)
    | some r =>
      obtain ⟨-, pos, even⟩ := may rfl
      show Reads _ ([1] ++ r.written) _
      refine (reads_byte 1).bind ?_
      rw [if_neg (by decide), if_pos rfl]
      dsimp only
      rw [if_neg (by omega)]
      exact (each r rfl).map some

/-- What the reader of branches asks of a branch, what it says of its children apart. -/
structure Branch.Readable (kind : TrieKind) (b : Branch (Ref Cell)) : Prop where
  depth_le : b.depth ≤ kind.maxDepth
  path_eq : Digits.leading? b.path b.depth = some b.path
  ascending : Ascending b.children
  children_ne_nil : b.children ≠ []
  occupants : 2 ≤ b.occupants
  occupants_le : b.occupants ≤ b.count.toNat
  entry : b.entry.isSome → kind = .map ∧ b.depth ≠ 0 ∧ b.depth % 2 = 0

theorem Reader.reads_branch {b : Branch (Ref Cell)} (readable : b.Readable kind)
    (each : ∀ r ∈ b.refs, Reads child r.written (image r)) (checked : (b.map image).checkChildren kind = .ok ()) :
    Reads (branch kind child b.count) (b.payload kind) (b.map image) := by
  have ofEntry : ∀ r, b.entry = some r → Reads child r.written (image r) := fun r own =>
    each r (by simp [Branch.refs, own])
  have ofChild : ∀ c ∈ b.children, Reads child c.2.written (image c.2) := fun c member =>
    each c.2 (by rw [Branch.refs]; exact List.mem_append_right _ (List.mem_map_of_mem member))
  have depth : (UInt64.ofNat b.depth).toNat = b.depth := by
    rw [UInt64.toNat_ofNat']
    have le : kind.maxDepth ≤ 8192 := by cases kind <;> decide
    have := readable.depth_le
    exact Nat.mod_eq_of_lt (by omega)
  have mask : Bytes.ofBigEndian (Bytes.bigEndian 2 b.mask) = b.mask :=
    Bytes.ofBigEndian_bigEndian b.mask_lt
  have bits : ∀ d ∈ List.finRange 16, b.mask.testBit d.val ↔ ∃ c ∈ b.children, c.1 = d := by
    intro d _
    rw [Branch.testBit_mask, List.any_eq_true]
    simp
  have path := (Digits.leading?_spec readable.path_eq).2.1
  rw [Branch.payload_eq, branch]
  refine (reads_count _).bind ?_
  rw [depth]
  dsimp only
  rw [if_neg (not_lt.mpr readable.depth_le)]
  refine (reads_bytes path).bind ?_
  rw [if_neg fun bad => bad.2 (Digits.leading?_padding readable.path_eq bad.1)]
  refine (reads_bytes (Bytes.length_bigEndian 2 _)).bind ?_
  rw [mask]
  refine (reads_branchEntry ofEntry readable.entry).bind ?_
  refine (reads_children (List.pairwise_lt_finRange 16) readable.ascending (fun c _ => List.mem_finRange c.1) bits
    ofChild).last ?_
  have same : ({ depth := b.depth, path := b.path, entry := b.entry.map image,
                 children := b.children.map fun c => (c.1, image c.2), count := b.count } : Branch (Ref Cell)) =
      b.map image := rfl
  have occupants : (b.map image).occupants = b.occupants := by
    cases own : b.entry <;> simp [Branch.occupants, Branch.map, own]
  have nonempty : (b.children.map fun c => (c.1, image c.2)).isEmpty = false := by simp [readable.children_ne_nil]
  have enough : ¬ (false = true ∨ b.occupants < 2) := by
    rw [Bool.false_eq_true, false_or]
    exact not_lt.mpr readable.occupants
  simp only [same, nonempty, occupants, if_neg enough, if_neg (not_lt.mpr readable.occupants_le), checked]
  exact .done _

/-- A leaf is read with the key of its entry, which a set's element tells by its hash. -/
theorem Reader.reads_leaf {key : Bytes} {value : Ref Cell} (each : Reads child value.written (image value))
    (admits : kind.Admits key (image value).mark) :
    Reads (node kind child) ((Node.leaf key value).payload kind) (.leaf key (image value)) := by
  refine (reads_count 1).bind ?_
  rw [if_neg (by decide), if_pos rfl]
  cases kind with
  | map =>
    obtain ⟨pos, le⟩ := admits
    show Reads _ (writeBlob key ++ value.written) _
    rw [writeBlob, List.append_assoc]
    refine (reads_length le (lt_of_le_of_lt le (by decide))).bind ?_
    dsimp only
    rw [if_neg (by omega)]
    exact (reads_bytes rfl).bind (each.map (Node.leaf key))
  | set =>
    have key_eq : key = (image value).hash.bytes := admits
    rw [key_eq]
    exact each.map fun r => Node.leaf r.hash.bytes r

theorem Reader.reads_empty : Reads (node kind child) ((Node.empty (ρ := Ref Cell)).payload kind) .empty := by
  refine (reads_count 0).bind ?_
  exact .done _

theorem Reader.reads_node_branch {b : Branch (Ref Cell)} (readable : b.Readable kind)
    (each : ∀ r ∈ b.refs, Reads child r.written (image r)) (checked : (b.map image).checkChildren kind = .ok ()) :
    Reads (node kind child) ((Node.branch b).payload kind) (.branch (b.map image)) := by
  have many : 2 ≤ b.count.toNat := Nat.le_trans readable.occupants readable.occupants_le
  refine (reads_count b.count).bind ?_
  rw [if_neg, if_neg]
  · exact (reads_branch readable each checked).map Node.branch
  · intro one
    rw [one] at many
    exact absurd many (by decide)
  · intro zero
    rw [zero] at many
    exact absurd many (by decide)

/-- A branch that fits what it holds is one that readers take. -/
theorem Branch.Fits.readable {b : Branch (Ref Cell)} {f : Content Mark} (fits : b.Fits f) (admitted : f.Admitted kind)
    (occupants : 2 ≤ b.occupants) : b.Readable kind := by
  have children_ne_nil : b.children ≠ [] := by
    intro empty
    have : b.entry.toList.length ≤ 1 := by cases b.entry <;> simp
    rw [Branch.occupants, empty, List.length_nil] at occupants
    omega
  obtain ⟨c, member⟩ := List.exists_mem_of_ne_nil _ children_ne_nil
  obtain ⟨k, bound, here⟩ := fits.child_mem member
  have goes : b.depth < Digits.count k := Digits.lt_count here
  have le := admitted.count_le bound
  refine ⟨?_, fits.path_eq, fits.ascending, children_ne_nil, occupants, ?_, ?_⟩
  · cases kind with
    | map => exact (lt_of_lt_of_le goes le).le
    | set => exact Nat.le_of_lt_succ (lt_of_lt_of_le goes le)
  · exact fits.occupants_le
  · intro own
    obtain ⟨ends, bound'⟩ := fits.entry_isSome own
    obtain ⟨m, bound'⟩ := Option.ne_none_iff_exists'.mp bound'
    have admits := admitted _ m bound'
    cases kind with
    | map =>
      have pos := admits.1
      rw [Digits.count] at ends
      exact ⟨rfl, by omega, by omega⟩
    | set =>
      have path_eq : b.path = m.hash.bytes := admits
      have length : b.path.length = 32 := by rw [path_eq, m.hash.length_eq]
      rw [Digits.count, length] at ends
      have : Digits.count k ≤ 64 := le
      omega

end MerkleCells
