import Mathlib.Algebra.BigOperators.Fin
import MerkleCells.Proofs.Trie.MergeWalk
import MerkleCells.Proofs.Trie.Totals

/-!
Counts of merged sets whose children come from stores. If the counts of two sets add up, for given counts of what is
held by its hash, then so do those of what any operation makes of them, and a sum on the way overflows only if that of
the two counts does (`mergeWithin_weighs`). A tally that counts by what the children stand for comes out right whichever
of them are in memory.
-/
namespace MerkleCells

open MerkleCells.Action

/-! ### What is below some digits -/

namespace Branch

variable {w : Hash → Nat} {children : List (Digit × Ref Cell)} {b : Branch (Ref Cell)} {d : Digit} {r : Ref Cell}

/-- What a child at a digit stands for, if there is one. -/
def weightAt (w : Hash → Nat) (children : List (Digit × Ref Cell)) (d : Digit) : Nat :=
  (childIn children d).elim 0 (Ref.weight w)

/-- What the children at some digits stand for. -/
def weightOf (w : Hash → Nat) (b : Branch (Ref Cell)) (done : List Digit) : Nat :=
  (done.map (weightAt w b.children)).sum

theorem weightOf_append (w : Hash → Nat) (b : Branch (Ref Cell)) (done rest : List Digit) :
    weightOf w b (done ++ rest) = weightOf w b done + weightOf w b rest := by
  simp [weightOf]

theorem weightOf_absent (absent : b.child? d = none) : weightOf w b [d] = 0 := by
  rw [child?_eq] at absent
  simp [weightOf, weightAt, absent]

theorem weightOf_present (present : b.child? d = some r) : weightOf w b [d] = r.weight w := by
  rw [child?_eq] at present
  simp [weightOf, weightAt, present]

/-- All digits together have all children. -/
theorem sum_weightAt (ascending : Ascending children) : ∑ d : Digit, weightAt w children d = weight w children := by
  induction children with
  | nil => exact Finset.sum_const_zero
  | cons c rest ih =>
    obtain ⟨least, ascending⟩ := List.pairwise_cons.mp ascending
    have vacant : weightAt w rest c.1 = 0 := by
      have absent : childIn rest c.1 = none := by
        rw [Option.eq_none_iff_forall_ne_some]
        intro r found
        exact lt_irrefl c.1 (least (c.1, r) (mem_of_childIn found))
      rw [weightAt, absent]
      rfl
    have split : ∀ d, weightAt w (c :: rest) d = (if c.1 = d then c.2.weight w else 0) + weightAt w rest d := by
      intro d
      rw [weightAt, childIn_cons]
      by_cases here : c.1 = d
      · rw [if_pos here, if_pos here, ← here, vacant]
        rfl
      · rw [if_neg here, if_neg here, Nat.zero_add]
        rfl
    rw [Finset.sum_congr rfl fun d _ => split d, Finset.sum_add_distrib, Finset.sum_ite_eq, if_pos (Finset.mem_univ _),
      ih ascending, weight_cons]

/-- All digits of a set's branch stand for its count. -/
theorem weightOf_all (sums : b.AddsUp w .set) : weightOf w b (List.finRange 16) = b.count.toNat := by
  rw [sums.count_eq, own, (sums.plain rfl).1, ← sum_weightAt sums.ascending, Fin.sum_univ_def, weightOf]
  exact (Nat.zero_add _).symm

theorem weightOf_le (sums : b.AddsUp w .set) {done rest : List Digit} (split : done ++ d :: rest = List.finRange 16) :
    weightOf w b done + weightOf w b [d] ≤ b.count.toNat := by
  have next : weightOf w b (d :: rest) = weightOf w b [d] + weightOf w b rest := weightOf_append w b [d] rest
  rw [← weightOf_all sums, ← split, weightOf_append, next]
  omega

end Branch

namespace Trie

variable {w : Hash → Nat} {s : Session} {r : Ref Cell} {count : Option UInt64} {d : Digit} {done : List Digit}
  {full : Prop}

/-! ### Passing a child by reference -/

/-- A count that is at hand is what the child stands for. -/
theorem loads_knownCount (weighs : s.Weighs w) (r : Ref Cell) :
    Loads full (knownCount r) s fun count s' => s' = s ∧ ∀ n, count = some n → n.toNat = r.weight w := by
  have known : ∀ {c : Cell} {m : Nat}, (∀ t : Trie .set, t.cell = c → t.count.toNat = m) →
      ∀ n, (ofCell .set c).toOption.map count = some n → n.toNat = m := by
    intro c m each n counted
    obtain ⟨t, found, rfl⟩ := Option.map_eq_some_iff.mp counted
    cases read : ofCell .set c with
    | error e =>
      rw [read] at found
      cases found
    | ok t' =>
      rw [read] at found
      cases found
      exact each t (cell_of_ofCell read)
  obtain ⟨status, c | ⟨h, loader, byMarker⟩⟩ := r
  · refine loads_pure ⟨rfl, known fun t same => ?_⟩
    rw [← t.declared_cell, same]
    rfl
  · cases loader with
    | none => exact loads_pure ⟨rfl, fun n none => by cases none⟩
    | some loader =>
      refine Loads.bind (P := fun held s' => s' = s ∧ held = s.cached? loader h) ⟨.refl s, rfl, rfl⟩ ?_
      rintro _ s' - - ⟨rfl, rfl⟩
      cases cached : s'.cached? loader h with
      | none => exact loads_pure ⟨rfl, fun n none => by cases none⟩
      | some c =>
        refine loads_pure ⟨rfl, known fun t same => ?_⟩
        obtain ⟨l, at_l, peeked⟩ := Option.bind_eq_some_iff.mp cached
        have tallies := weighs.caches l (List.mem_of_getElem? at_l) (h, c) (Table.mem_of_find? peeked)
        exact (tallies .set t.node (same ▸ t.value_eq)).1

/-- A child that is passed becomes a part if it is kept, and is told to the tally either way. -/
theorem loads_pass (weighs : s.Weighs w) (t : Tally) (d : Digit) (r : Ref Cell) (keep : Bool) :
    Loads full (pass t d r keep) s fun passed _ => ∃ count, (∀ n, count = some n → n.toNat = r.weight w) ∧
      passed = (if keep then [⟨d, r, count⟩] else [], if keep then t.kept count else t.dropped count) := by
  refine (loads_knownCount weighs r).bind ?_
  rintro count s' - - ⟨rfl, known⟩
  cases keep <;> exact loads_pure ⟨count, known, rfl⟩

/-! ### Parts -/

/-- What is known of a part is what it stands for, and its counts add up. -/
structure Part.Weighs (w : Hash → Nat) (p : Part) : Prop where
  known : ∀ n, p.count = some n → n.toNat = p.root.weight w
  addsUp : p.root.AddsUp w .set

/-- A merged subtree has the count that it stands for, which is not larger than a bound, and its counts add up. -/
structure Merged.Weighs (w : Hash → Nat) (bound : Nat) (m : Merged) : Prop where
  count_eq : m.count.toNat = m.root.weight w
  addsUp : m.root.AddsUp w .set
  le : m.count.toNat ≤ bound

/-- Parts at some digits, that stand for no more than a bound. Of what they stand for `unknown` is not known. -/
structure Collects (w : Hash → Nat) (done : List Digit) (parts : List Part) (bound unknown : Nat) : Prop where
  ascending : Branch.Ascending (Part.children parts)
  inside : ∀ p ∈ parts, p.digit ∈ done
  each : ∀ p ∈ parts, p.Weighs w
  sum_eq : knownSum parts + unknown = Branch.weight w (Part.children parts)
  sum_le : Branch.weight w (Part.children parts) ≤ bound

namespace Collects

variable {parts : List Part} {bound unknown more : Nat}

theorem empty (w : Hash → Nat) : Collects w [] [] 0 0 :=
  ⟨.nil, fun p none => (by cases none), fun p none => (by cases none), rfl, Nat.le_refl 0⟩

theorem mono {bound' unknown' : Nat} (collects : Collects w done parts bound unknown) (le : bound ≤ bound')
    (same : unknown = unknown') : Collects w done parts bound' unknown' :=
  ⟨collects.ascending, collects.inside, collects.each, same ▸ collects.sum_eq, collects.sum_le.trans le⟩

theorem skip (collects : Collects w done parts bound unknown) (d : Digit) (more : Nat) :
    Collects w (done ++ [d]) parts (bound + more) unknown :=
  ⟨collects.ascending, fun p member => List.mem_append_left _ (collects.inside p member), collects.each,
    collects.sum_eq, collects.sum_le.trans (Nat.le_add_right bound more)⟩

theorem add (collects : Collects w done parts bound unknown) {p : Part} (after : ∀ e ∈ done, e < p.digit)
    (weighs : p.Weighs w) (le : p.root.weight w ≤ more) :
    Collects w (done ++ [p.digit]) (parts ++ [p]) (bound + more)
      (unknown + Tally.unknown p.count (p.root.weight w)) := by
  have before : ∀ c ∈ Part.children parts, c.1 < p.digit := by
    intro c member
    obtain ⟨q, old, rfl⟩ := List.mem_map.mp member
    exact after _ (collects.inside q old)
  have children : Part.children (parts ++ [p]) = Part.children parts ++ [(p.digit, p.root)] := by simp [Part.children]
  have weight : Branch.weight w (Part.children (parts ++ [p])) =
      Branch.weight w (Part.children parts) + p.root.weight w := by simp [children, Branch.weight]
  have sum_eq := collects.sum_eq
  have sum_le := collects.sum_le
  refine ⟨?_, fun q member => ?_, fun q member => ?_, ?_, ?_⟩
  · rw [children, ← Branch.setChild_of_lt before]
    exact collects.ascending.setChild _ _
  · rcases List.mem_append.mp member with old | last
    · exact List.mem_append_left _ (collects.inside q old)
    · rw [List.mem_singleton.mp last]
      simp
  · rcases List.mem_append.mp member with old | last
    · exact collects.each q old
    · rw [List.mem_singleton.mp last]
      exact weighs
  · have single := knownSum_singleton weighs.known
    rw [knownSum_append, weight]
    omega
  · rw [weight]
    omega

theorem pass (collects : Collects w done parts bound unknown) (after : ∀ e ∈ done, e < d) (keep : Bool)
    (known : ∀ n, count = some n → n.toNat = r.weight w) (addsUp : r.AddsUp w .set) :
    Collects w (done ++ [d]) (parts ++ if keep then [⟨d, r, count⟩] else []) (bound + r.weight w)
      (unknown + if keep then Tally.unknown count (r.weight w) else 0) := by
  cases keep
  · simp only [Bool.false_eq_true, ↓reduceIte, List.append_nil, Nat.add_zero]
    exact collects.skip d _
  · exact collects.add (p := ⟨d, r, count⟩) after ⟨known, addsUp⟩ (Nat.le_refl _)

theorem merged (collects : Collects w done parts bound unknown) (after : ∀ e ∈ done, e < d) {m : Merged}
    (weighs : m.Weighs w more) :
    Collects w (done ++ [d]) (parts ++ Part.ofMerged d m) (bound + more) unknown := by
  rw [Part.ofMerged]
  by_cases nonempty : m.count > 0
  · rw [if_pos nonempty]
    have part : (⟨d, m.root, some m.count⟩ : Part).Weighs w :=
      ⟨fun n same => by cases same; exact weighs.count_eq, weighs.addsUp⟩
    exact collects.add after part (weighs.count_eq ▸ weighs.le)
  · rw [if_neg nonempty, List.append_nil]
    exact collects.skip d more

end Collects

theorem Tally.Counts.pass {t : Tally} {total passed held size : Nat} (counts : t.Counts total passed held)
    (known : ∀ n, count = some n → n.toNat = size) (room : passed + size ≤ total) (keep : Bool) :
    (if keep then t.kept count else t.dropped count).Counts total (passed + size)
      (held + if keep then Tally.unknown count size else 0) := by
  cases keep
  · exact counts.dropped known room
  · exact counts.kept known room

/-! ### Settling -/

theorem loads_partCount {p : Part} (weighs : s.Weighs w) (part : p.Weighs w) :
    Loads full (partCount p) s fun n _ => n.toNat = p.root.weight w := by
  rw [partCount]
  cases count : p.count with
  | some n => exact loads_pure (part.known n count)
  | none =>
    refine (loads_resolve weighs part.addsUp).bind ?_
    rintro t s' - - ⟨count_eq, -⟩
    exact loads_pure count_eq

/-- The count of some parts is what they stand for, unless there is no room for it. -/
theorem loads_settle {parts : List Part} {tallies : List Tally} {helds : List Nat} {bound unknown : Nat}
    (weighs : s.Weighs w) (collects : Collects w done parts bound unknown)
    (counts : List.Forall₂ (fun t held => ∃ total, t.Counts total total held) tallies helds)
    (unknown_eq : unknown = helds.sum) :
    Loads (UInt64.size ≤ bound) (settle parts tallies) s fun n _ => n.toNat = Branch.weight w (Part.children parts) := by
  have le := collects.sum_le
  have sum_eq := collects.sum_eq
  rw [knownSum] at sum_eq
  rw [settle]
  by_cases settled : tallies.all Tally.settled = true
  · rw [if_pos settled]
    rw [List.all_eq_true] at settled
    have missing : Loads (UInt64.size ≤ bound) (sumOf (fun t => (t.missing : Except Error UInt64)) tallies) s
        fun n _ => n.toNat = helds.sum := by
      refine runs_sumOf .refl .trans (fun excess _ => by omega) (List.forall₂_iff_get.mpr ⟨counts.length_eq, ?_⟩)
      intro i inside inside' s₁ _
      obtain ⟨total, counts⟩ := counts.get inside inside'
      obtain ⟨n, told, value⟩ := counts.missing (settled _ (List.get_mem _ _))
      rw [told]
      exact runs_pure .refl value
    refine missing.bind fun n s₁ _ _ missing_eq => ?_
    have known : Loads (UInt64.size ≤ bound) (sumOf pure (parts.filterMap (·.count))) s₁ fun n _ =>
        n.toNat = ((parts.filterMap (·.count)).map UInt64.toNat).sum := by
      refine runs_sumOf .refl .trans (fun excess _ => by omega) ?_
      rw [List.forall₂_map_right_iff, List.forall₂_same]
      exact fun n _ s₂ _ => runs_pure .refl rfl
    refine known.bind fun m s₂ _ _ known_eq => ?_
    refine loads_liftExcept (fun sum added => ?_) fun excess => ?_
    · rw [addCounts_eq_ok] at added
      omega
    · have far := (addCounts_eq_error.mp excess).2
      omega
  · rw [if_neg settled]
    refine runs_sumOf .refl .trans (fun excess _ => excess.trans le) ?_
    rw [Part.children, List.map_map, List.forall₂_map_right_iff, List.forall₂_same]
    exact fun p member s₁ later => loads_partCount (weighs.later later) (collects.each p member)

theorem Merged.weighs_nothing (w : Hash → Nat) (bound : Nat) : nothing.Weighs w bound :=
  ⟨(weight_ref (empty .set)).symm, addsUp_ref .empty, Nat.zero_le bound⟩

theorem Merged.weighs_whole {t : Trie .set} (addsUp : t.node.AddsUp w .set) {bound : Nat} (le : t.count.toNat ≤ bound) :
    (whole t).Weighs w bound :=
  ⟨(weight_ref t).symm, addsUp_ref addsUp, le⟩

theorem Merged.weighs_one {t : Trie .set} (addsUp : t.node.AddsUp w .set) {bound : Nat} (le : t.count.toNat ≤ bound)
    (op : SetOperation) (presence : Presence) : (one op presence t).Weighs w bound := by
  rw [one]
  split
  · exact weighs_whole addsUp le
  · exact weighs_nothing w bound

/-- What is assembled of some parts has the count that these stand for. -/
theorem loads_assemble {depth : Nat} {path : Bytes} {parts : List Part} {tallies : List Tally} {helds : List Nat}
    {bound unknown : Nat} (weighs : s.Weighs w) (collects : Collects w done parts bound unknown)
    (counts : List.Forall₂ (fun t held => ∃ total, t.Counts total total held) tallies helds)
    (unknown_eq : unknown = helds.sum) (shallow : depth < 64) :
    Loads (UInt64.size ≤ bound) (assemble depth path parts tallies) s fun m _ => m.Weighs w bound := by
  refine (loads_settle weighs collects counts unknown_eq).bind fun n s' _ _ count_eq => ?_
  have le := collects.sum_le
  rw [← count_eq] at le
  match parts, collects, count_eq with
  | [], _, _ => exact loads_pure (Merged.weighs_nothing w bound)
  | [p], collects, count_eq =>
    refine loads_pure ⟨?_, (collects.each p (by simp)).addsUp, le⟩
    rw [count_eq]
    exact Nat.add_zero _
  | p :: q :: rest, collects, count_eq =>
    let branch : Branch (Ref Cell) := ⟨depth, path, none, Part.children (p :: q :: rest), n⟩
    have made : (ofNode .set (.branch branch)).node.AddsUp w .set := by
      refine .branch branch ⟨collects.ascending, fun _ => ⟨rfl, shallow⟩, ?_⟩ ?_
      · rw [count_eq]
        exact (Nat.zero_add _).symm
      · intro c member
        obtain ⟨p', member', rfl⟩ := List.mem_map.mp member
        exact (collects.each p' member').addsUp
    exact loads_pure ⟨(weight_ref (ofNode .set (.branch branch))).symm, addsUp_ref made, le⟩

/-! ### Two branches -/

/-- A merge of two sets whose counts add up comes to one whose counts do, unless these have no room for each other. -/
def Weighing (w : Hash → Nat) (merge : Trie .set → Trie .set → Action Merged) : Prop :=
  ∀ (s : Session) (t t' : Trie .set), s.Weighs w → t.node.AddsUp w .set → t'.node.AddsUp w .set →
    Loads (UInt64.size ≤ t.count.toNat + t'.count.toNat) (merge t t') s fun m _ => m.Weighs w (t.count.toNat + t'.count.toNat)

theorem lt_of_split {rest : List Digit} (split : done ++ d :: rest = List.finRange 16) : ∀ e ∈ done, e < d := by
  have sorted := List.pairwise_lt_finRange 16
  rw [← split] at sorted
  exact fun e member => (List.pairwise_append.mp sorted).2.2 e member d (by simp)

/-- What the parts and the tallies say after some digits of two branches. -/
def Side.Sums (w : Hash → Nat) (a b : Branch (Ref Cell)) (done : List Digit) (x : Side) : Prop :=
  ∃ heldLeft heldRight,
    Collects w done x.parts (Branch.weightOf w a done + Branch.weightOf w b done) (heldLeft + heldRight) ∧
    x.left.Counts a.count.toNat (Branch.weightOf w a done) heldLeft ∧
    x.right.Counts b.count.toNat (Branch.weightOf w b done) heldRight

section Branches

variable {op : SetOperation} {merge : Trie .set → Trie .set → Action Merged} {a b : Branch (Ref Cell)} {x : Side}
  {rest : List Digit}

/-- A digit adds to the parts no more than both branches have below it. -/
theorem mergeDigit_sums (weighs : s.Weighs w) (left : (Node.branch a).AddsUp w .set)
    (right : (Node.branch b).AddsUp w .set) (merges : Weighing w merge) (split : done ++ d :: rest = List.finRange 16)
    (sums : x.Sums w a b done) : Loads (UInt64.size ≤ a.count.toNat + b.count.toNat) (mergeDigit op merge a b x d) s
      fun x' _ => x'.Sums w a b (done ++ [d]) := by
  obtain ⟨heldLeft, heldRight, collects, countsLeft, countsRight⟩ := sums
  have after := lt_of_split split
  have fitsLeft := Branch.weightOf_le left.sums split
  have fitsRight := Branch.weightOf_le right.sums split
  have nextLeft := Branch.weightOf_append w a done [d]
  have nextRight := Branch.weightOf_append w b done [d]
  simp only [Side.Sums, nextLeft, nextRight]
  rw [mergeDigit]
  cases foundLeft : a.child? d with
  | none =>
    rw [Branch.weightOf_absent foundLeft]
    cases foundRight : b.child? d with
    | none =>
      rw [Branch.weightOf_absent foundRight]
      exact loads_pure ⟨heldLeft, heldRight, collects.skip d 0, countsLeft, countsRight⟩
    | some r =>
      rw [Branch.weightOf_present foundRight] at fitsRight ⊢
      refine (loads_pass weighs x.right d r (op.keeps .right)).bind ?_
      rintro _ s' - - ⟨count, known, rfl⟩
      refine loads_pure ⟨heldLeft, _, ?_, countsLeft, countsRight.pass known fitsRight _⟩
      exact (collects.pass after _ known (right.child foundRight)).mono (by omega) (Nat.add_assoc _ _ _)
  | some r =>
    rw [Branch.weightOf_present foundLeft] at fitsLeft ⊢
    cases foundRight : b.child? d with
    | none =>
      rw [Branch.weightOf_absent foundRight]
      refine (loads_pass weighs x.left d r (op.keeps .left)).bind ?_
      rintro _ s' - - ⟨count, known, rfl⟩
      refine loads_pure ⟨_, heldRight, ?_, countsLeft.pass known fitsLeft _, countsRight⟩
      exact (collects.pass after _ known (left.child foundLeft)).mono (by omega) (Nat.add_right_comm _ _ _)
    | some r' =>
      rw [Branch.weightOf_present foundRight] at fitsRight ⊢
      dsimp only
      by_cases equal : (r == r') = true
      · -- the left one stands for both
        rw [if_pos equal]
        refine (loads_pass weighs x.left d r (op.keeps .both)).bind ?_
        rintro _ s₁ - later ⟨count, known, rfl⟩
        refine (loads_pass (weighs.later later) x.right d r' false).bind ?_
        rintro _ s₂ - - ⟨count', known', rfl⟩
        refine loads_pure ⟨_, heldRight, ?_, countsLeft.pass known fitsLeft _, countsRight.pass known' fitsRight false⟩
        exact (collects.pass after _ known (left.child foundLeft)).mono (by omega) (Nat.add_right_comm _ _ _)
      · rw [if_neg equal]
        refine (loads_resolve weighs (left.child foundLeft)).bind ?_
        rintro t s₁ - later₁ ⟨count, inside⟩
        have weighs₁ := weighs.later later₁
        refine (loads_resolve weighs₁ (right.child foundRight)).bind ?_
        rintro t' s₂ - later₂ ⟨count', inside'⟩
        have weighs₂ := weighs₁.later later₂
        have merged : Loads (UInt64.size ≤ a.count.toNat + b.count.toNat) (merge t t') s₂ _ :=
          (merges s₂ t t' weighs₂ inside inside').widen fun excess => by omega
        refine merged.bind fun m s₃ _ _ made => ?_
        refine loads_pure ⟨heldLeft, heldRight, ?_, countsLeft.opened count fitsLeft,
          countsRight.opened count' fitsRight⟩
        exact (collects.merged after made).mono (by omega) rfl

theorem mergeBranches_weighs {left right : Trie .set} (weighs : s.Weighs w) (shape : left.node = .branch a)
    (shape' : right.node = .branch b) (addsUp : left.node.AddsUp w .set) (addsUp' : right.node.AddsUp w .set)
    (merges : Weighing w merge) :
    Loads (UInt64.size ≤ left.count.toNat + right.count.toNat) (mergeBranches op merge left a right b) s
      fun m _ => m.Weighs w (left.count.toNat + right.count.toNat) := by
  have count_eq : left.count = a.count := by rw [count, shape]; rfl
  have count_eq' : right.count = b.count := by rw [count, shape']; rfl
  have wholeLeft := Merged.weighs_whole addsUp (Nat.le_add_right left.count.toNat right.count.toNat)
  have wholeRight := Merged.weighs_whole addsUp' (Nat.le_add_left right.count.toNat left.count.toNat)
  rw [Merged.whole] at wholeLeft wholeRight
  rw [count_eq, count_eq'] at wholeLeft wholeRight ⊢
  rw [shape] at addsUp
  rw [shape'] at addsUp'
  have start : (⟨[], .ofBranch a, .ofBranch b⟩ : Side).Sums w a b [] :=
    ⟨0, 0, .empty w, Tally.counts_ofBranch a, Tally.counts_ofBranch b⟩
  rw [mergeBranches]
  refine (loads_foldlM (fun done x _ => x.Sums w a b done) start fun done d rest split x s' later sums =>
    mergeDigit_sums (weighs.later later) addsUp addsUp' merges split sums).bind ?_
  rintro x s' - later ⟨heldLeft, heldRight, collects, countsLeft, countsRight⟩
  rw [Branch.weightOf_all addsUp.sums, Branch.weightOf_all addsUp'.sums] at collects
  rw [Branch.weightOf_all addsUp.sums] at countsLeft
  rw [Branch.weightOf_all addsUp'.sums] at countsRight
  split
  · exact loads_pure wholeLeft
  split
  · exact loads_pure wholeRight
  exact loads_assemble (weighs.later later) collects (.cons ⟨_, countsLeft⟩ (.cons ⟨_, countsRight⟩ .nil)) (by simp)
    (addsUp.sums.plain rfl).2

end Branches

/-! ### A branch that the other side goes on from -/

/-- A merge of a child of a branch with another set comes to one whose counts add up, unless these have no room for each
other. -/
def WeighingWith (w : Hash → Nat) (other : Trie .set) (merge : Trie .set → Action Merged) : Prop :=
  ∀ (s : Session) (t : Trie .set), s.Weighs w → t.node.AddsUp w .set →
    Loads (UInt64.size ≤ t.count.toNat + other.count.toNat) (merge t) s fun m _ => m.Weighs w (t.count.toNat + other.count.toNat)

section Descent

variable {op : SetOperation} {own otherSide : Presence} {merge : Trie .set → Action Merged} {b : Branch (Ref Cell)}
  {other : Trie .set} {slot : Digit} {x : List Part × Tally} {rest : List Digit}

/-- What the other side adds to the digits of a branch. -/
def slotWeight (other : Trie .set) (slot : Digit) (done : List Digit) : Nat :=
  if done.contains slot then other.count.toNat else 0

/-- What the parts and the tally say after some digits of a branch that is descended. -/
def DescentSums (w : Hash → Nat) (b : Branch (Ref Cell)) (other : Trie .set) (slot : Digit) (done : List Digit)
    (x : List Part × Tally) : Prop :=
  ∃ held, Collects w done x.1 (Branch.weightOf w b done + slotWeight other slot done) held ∧
    x.2.Counts b.count.toNat (Branch.weightOf w b done) held

theorem descendDigit_sums (weighs : s.Weighs w) (addsUp : (Node.branch b).AddsUp w .set)
    (addsUp' : other.node.AddsUp w .set) (merges : WeighingWith w other merge)
    (split : done ++ d :: rest = List.finRange 16) (sums : DescentSums w b other slot done x) :
    Loads (UInt64.size ≤ b.count.toNat + other.count.toNat) (descendDigit op merge b own other otherSide slot x d) s
      fun x' _ => DescentSums w b other slot (done ++ [d]) x' := by
  obtain ⟨held, collects, counts⟩ := sums
  have after := lt_of_split split
  have fits := Branch.weightOf_le addsUp.sums split
  simp only [DescentSums, Branch.weightOf_append w b done [d]]
  rw [descendDigit]
  by_cases here : d = slot
  · subst here
    have before : slotWeight other d done = 0 := if_neg fun member =>
      lt_irrefl d (after d (List.contains_iff_mem.mp member))
    have now : slotWeight other d (done ++ [d]) = other.count.toNat := if_pos (by simp)
    rw [decide_eq_true rfl, now]
    rw [before] at collects
    cases found : b.child? d with
    | none =>
      rw [Branch.weightOf_absent found]
      exact loads_pure ⟨held, (collects.merged after (Merged.weighs_one addsUp' (Nat.le_refl _) op otherSide)).mono
        (by omega) rfl, counts⟩
    | some r =>
      rw [Branch.weightOf_present found] at fits ⊢
      refine (loads_resolve weighs (addsUp.child found)).bind ?_
      rintro t s₁ - later₁ ⟨count, inside⟩
      have merged : Loads (UInt64.size ≤ b.count.toNat + other.count.toNat) (merge t) s₁ _ :=
        (merges s₁ t (weighs.later later₁) inside).widen fun excess => by omega
      refine merged.bind fun m s₂ _ _ made => ?_
      exact loads_pure ⟨held, (collects.merged after made).mono (by omega) rfl, counts.opened count fits⟩
  · have same : slotWeight other slot (done ++ [d]) = slotWeight other slot done := by
      simp [slotWeight, Ne.symm here]
    rw [decide_eq_false here, same]
    cases found : b.child? d with
    | none =>
      rw [Branch.weightOf_absent found]
      exact loads_pure ⟨held, (collects.skip d 0).mono (by omega) rfl, counts⟩
    | some r =>
      rw [Branch.weightOf_present found] at fits ⊢
      refine (loads_pass weighs x.2 d r (op.keeps own)).bind ?_
      rintro _ s' - - ⟨count, known, rfl⟩
      exact loads_pure ⟨_, (collects.pass after _ known (addsUp.child found)).mono (by omega) rfl,
        counts.pass known fits _⟩

/-- A set that goes on from a branch is merged into it. -/
theorem descend_weighs {t : Trie .set} (weighs : s.Weighs w) (shape : t.node = .branch b)
    (addsUp : t.node.AddsUp w .set) (addsUp' : other.node.AddsUp w .set) (merges : WeighingWith w other merge) :
    Loads (UInt64.size ≤ t.count.toNat + other.count.toNat) (descend op merge t b own other otherSide slot) s
      fun m _ => m.Weighs w (t.count.toNat + other.count.toNat) := by
  have count_eq : t.count = b.count := by rw [count, shape]; rfl
  have whole := Merged.weighs_whole addsUp (Nat.le_add_right t.count.toNat other.count.toNat)
  rw [Merged.whole] at whole
  rw [count_eq] at whole ⊢
  rw [shape] at addsUp
  rw [descend]
  refine (loads_foldlM (fun done x _ => DescentSums w b other slot done x) ⟨0, .empty w, Tally.counts_ofBranch b⟩
    fun done d rest split x s' later sums =>
      descendDigit_sums (weighs.later later) addsUp addsUp' merges split sums).bind ?_
  rintro ⟨parts, tally⟩ s' - later ⟨held, collects, counts⟩
  have all : slotWeight other slot (List.finRange 16) = other.count.toNat :=
    if_pos (List.contains_iff_mem.mpr (List.mem_finRange slot))
  rw [Branch.weightOf_all addsUp.sums] at collects counts
  rw [all] at collects
  dsimp only
  split
  · exact loads_pure whole
  · exact loads_assemble (weighs.later later) collects (.cons ⟨_, counts⟩ .nil) (by simp) (addsUp.sums.plain rfl).2

end Descent

/-! ### The walk -/

section Walk

variable {op : SetOperation} {left right : Trie .set}

/-- Two sets whose keys part after some digits are joined by a branch there. -/
theorem mergeApart_weighs {shared : Nat} (weighs : s.Weighs w) (addsUp : left.node.AddsUp w .set)
    (addsUp' : right.node.AddsUp w .set) (shares : Digits.Shares left.node.path right.node.path shared)
    (part : ¬ Digits.Shares left.node.path right.node.path (shared + 1)) (lt : shared < left.node.depth) :
    Loads (UInt64.size ≤ left.count.toNat + right.count.toNat) (mergeApart op left right shared) s fun m _ => m.Weighs w (left.count.toNat + right.count.toNat) := by
  have shallow : shared < 64 := lt_of_lt_of_le lt addsUp.depth_le
  have one := Merged.weighs_one addsUp (Nat.le_refl _) op .left
  have one' := Merged.weighs_one addsUp' (Nat.le_refl _) op .right
  have start := Collects.empty w
  rw [mergeApart]
  refine (loads_digitAt left.node.path shared s).bind fun d s₁ _ later at_d => ?_
  refine (loads_digitAt right.node.path shared s₁).bind fun e s₂ _ later' at_e => ?_
  refine (loads_leadingOf left.node.path shared s₂).bind fun path s₃ _ later'' _ => ?_
  have weighs₃ := ((weighs.later later).later later').later later''
  have apart : d ≠ e := Digits.digits_part shares part (digitAt_eq_ok.mp at_d) (digitAt_eq_ok.mp at_e)
  rcases lt_or_gt_of_ne apart with before | before
  · rw [(mergeSort_ofMerged _ _ before).1]
    have both := (start.merged (by simp) one).merged (by simpa using before) one'
    exact loads_assemble weighs₃ (both.mono (by omega) rfl) .nil rfl shallow
  · rw [(mergeSort_ofMerged _ _ before).2]
    have both := (start.merged (by simp) one').merged (by simpa using before) one
    exact loads_assemble weighs₃ (both.mono (by omega) rfl) .nil rfl shallow

/-- What is merged of two sets whose counts add up has counts that do, and no more elements than both. -/
theorem mergeWithin_weighs (op : SetOperation) (fuel : Nat) : Weighing w (mergeWithin op fuel) := by
  induction fuel with
  | zero => exact fun s left right _ _ _ => loads_throw fun same => by cases same
  | succ fuel ih =>
    intro s left right weighs addsUp addsUp'
    have fromLeft : ∀ presence, (Merged.one op presence left).Weighs w (left.count.toNat + right.count.toNat) :=
      Merged.weighs_one addsUp (Nat.le_add_right _ _) op
    have fromRight := Merged.weighs_one addsUp' (Nat.le_add_left right.count.toNat left.count.toNat) op .right
    have both : (Merged.both op left right).Weighs w (left.count.toNat + right.count.toNat) := by
      rw [Merged.both_eq]
      exact fromLeft .both
    have withRight : WeighingWith w right fun child => mergeWithin op fuel child right :=
      fun s t weighs inside => ih s t right weighs inside addsUp'
    have withLeft : WeighingWith w left fun child => mergeWithin op fuel left child := by
      intro s t weighs inside
      rw [Nat.add_comm]
      exact ih s left t weighs addsUp inside
    have way := way_mergeWithin op fuel left right
    generalize mergeWithin op (fuel + 1) left right = walk at way
    cases way with
    | equal => exact loads_pure both
    | onlyRight => exact loads_pure fromRight
    | onlyLeft => exact loads_pure (fromLeft .left)
    | apart above =>
      exact mergeApart_weighs weighs addsUp addsUp' (Digits.shares_common _ _ _) (Digits.not_shares_of_common_lt above)
        (lt_of_lt_of_le above (min_le_left _ _))
    | leaves => exact loads_pure both
    | level _ shape shape' => exact mergeBranches_weighs weighs shape shape' addsUp addsUp' ih
    | intoLeft _ shape =>
      exact (loads_digitAt _ _ s).bind fun slot s' _ later _ =>
        descend_weighs (weighs.later later) shape addsUp addsUp' withRight
    | intoRight _ shape =>
      rw [Nat.add_comm]
      exact (loads_digitAt _ _ s).bind fun slot s' _ later _ =>
        descend_weighs (weighs.later later) shape addsUp' addsUp withLeft
    | mixedLeft => exact loads_throw fun same => by cases same
    | mixedRight => exact loads_throw fun same => by cases same

theorem merge_addsUp (weighs : s.Weighs w) (addsUp : left.node.AddsUp w .set) (addsUp' : right.node.AddsUp w .set) :
    Loads (UInt64.size ≤ left.count.toNat + right.count.toNat) (merge op left right) s fun t _ =>
      t.node.AddsUp w .set ∧ t.count.toNat ≤ left.count.toNat + right.count.toNat := by
  rw [merge]
  refine (left.loads_levels s).bind fun n s₁ _ later _ => ?_
  refine (right.loads_levels s₁).bind fun n' s₂ _ later' _ => ?_
  have weighs₂ := (weighs.later later).later later'
  refine (mergeWithin_weighs op (n + n') s₂ left right weighs₂ addsUp addsUp').bind fun m s₃ _ later₃ made => ?_
  refine (loads_resolve (weighs₂.later later₃) made.addsUp).mono fun t s₄ _ found => ⟨found.2, ?_⟩
  rw [found.1, ← made.count_eq]
  exact made.le

/-- What an operation makes of the sets in two cells, which are empty if both are the same and it keeps nothing. -/
theorem mergeCells_addsUp (op : SetOperation) (weighs : s.Weighs w) (addsUp : left.node.AddsUp w .set)
    (addsUp' : right.node.AddsUp w .set) :
    Loads (UInt64.size ≤ left.count.toNat + right.count.toNat) (mergeCells op left.cell right.cell) s fun t _ =>
      t.node.AddsUp w .set ∧ t.count.toNat ≤ left.count.toNat + right.count.toNat := by
  rw [mergeCells]
  split
  · exact loads_pure ⟨.empty, Nat.zero_le _⟩
  · have read : ∀ (t : Trie .set) (s : Session), Loads (UInt64.size ≤ left.count.toNat + right.count.toNat)
        (liftM (ofCell .set t.cell)) s fun u _ => u = t := by
      intro t s
      rw [ofCell_cell]
      exact loads_pure rfl
    refine (read left s).bind ?_
    rintro _ s₁ - later rfl
    refine (read right s₁).bind ?_
    rintro _ s₂ - later' rfl
    exact merge_addsUp ((weighs.later later).later later') addsUp addsUp'

end Walk

end Trie

end MerkleCells
