import MerkleCells.Proofs.Failing
import MerkleCells.Proofs.Trie.MergeWalk

/-!
What the walk of a merge asks for. It opens the children at a digit where both sides have one and these differ, and the
child on the way to a deeper node; all others it passes by reference (`Trie.Opens`, `Trie.Skips`). A branch that results
needs its count, though. What an input branch held, less what is known of it, is held by the children of unknown count
that were kept, unless one of unknown count was dropped as well: then the kept ones have to be opened after all
(`Trie.Requests.counted`). The walk asks for nothing else (`Trie.asking_mergeWalk`).
-/
namespace MerkleCells

open MerkleCells.Action

/-! ### Sessions that have asked -/

/-- A session that is left when nothing was done but to resolve references of which `P` is true. -/
inductive Session.Asks (P : Ref Cell → Prop) (s : Session) : Session → Prop
  | refl : Asks P s s
  | resolve {s' : Session} {r : Ref Cell} (asks : Asks P s s') (allowed : P r) : Asks P s (result r.value s').2

namespace Session.Asks

variable {P : Ref Cell → Prop} {a b c : Session}

theorem trans (first : a.Asks P b) (second : b.Asks P c) : a.Asks P c := by
  induction second with
  | refl => exact first
  | resolve _ allowed ih => exact .resolve ih allowed

theorem later (asks : a.Asks P b) : a.Later b := by
  induction asks with
  | refl => exact .refl _
  | @resolve s' r _ _ ih => exact ih.trans (r.later_value s')

end Session.Asks

namespace Trie

/-! ### What a merge comes to -/

/-- Two branches that end at the same depth. -/
structure Level (left right : Trie .set) (a b : Branch (Ref Cell)) : Prop where
  left : left.node = .branch a
  right : right.node = .branch b
  depth : a.depth = b.depth

/-- A branch, and the digit below which a deeper node goes on. -/
structure Toward (t other : Trie .set) (b : Branch (Ref Cell)) (slot : Digit) : Prop where
  branch : t.node = .branch b
  deeper : b.depth < other.node.depth
  digit : digitAt other.node.path b.depth = .ok slot

/-- Two tries differ, and their keys do not part above the end of either. -/
structure Overlaps (left right : Trie .set) : Prop where
  differ : left.hash ≠ right.hash
  together : ¬ Digits.common left.node.path right.node.path (min left.node.depth right.node.depth) <
    min left.node.depth right.node.depth

/-- The children that are opened: those at a digit where both branches have one, with different hashes, and the one on
the way to a deeper node. -/
inductive Opens (left right : Trie .set) : Ref Cell → Prop
  | left {a b : Branch (Ref Cell)} {d : Digit} {r q : Ref Cell} (level : left.Level right a b)
      (found : a.child? d = some r) (found' : b.child? d = some q) (differ : r.hash ≠ q.hash) : Opens left right r
  | right {a b : Branch (Ref Cell)} {d : Digit} {r q : Ref Cell} (level : left.Level right a b)
      (found : a.child? d = some r) (found' : b.child? d = some q) (differ : r.hash ≠ q.hash) : Opens left right q
  | towardRight {a : Branch (Ref Cell)} {slot : Digit} {r : Ref Cell} (toward : left.Toward right a slot)
      (found : a.child? slot = some r) : Opens left right r
  | towardLeft {b : Branch (Ref Cell)} {slot : Digit} {r : Ref Cell} (toward : right.Toward left b slot)
      (found : b.child? slot = some r) : Opens left right r

/-- The turn of a digit in a walk over all of them: those before it are done, and `s'` is the session then. -/
def Turn {β : Type} (step : β → Digit → Action β) (start : β) (s : Session) (d : Digit) (s' : Session) : Prop :=
  ∃ done rest x, done ++ d :: rest = List.finRange 16 ∧ result (done.foldlM step start) s = (.ok x, s')

/-- The turn of a digit of two branches that end at the same depth, whose children have `fuel` levels. -/
abbrev LevelTurn (op : SetOperation) (fuel : Nat) (a b : Branch (Ref Cell)) : Session → Digit → Session → Prop :=
  Turn (mergeDigit op (mergeWithin op fuel) a b) ⟨[], .ofBranch a, .ofBranch b⟩

/-- The turn of a digit of a branch on the left, if the right side goes on below `slot`. -/
abbrev LeftTurn (op : SetOperation) (fuel : Nat) (a : Branch (Ref Cell)) (right : Trie .set) (slot : Digit) :
    Session → Digit → Session → Prop :=
  Turn (descendDigit op (fun child => mergeWithin op fuel child right) a .left right .right slot) ([], .ofBranch a)

/-- The turn of a digit of a branch on the right, if the left side goes on below `slot`. -/
abbrev RightTurn (op : SetOperation) (fuel : Nat) (left : Trie .set) (b : Branch (Ref Cell)) (slot : Digit) :
    Session → Digit → Session → Prop :=
  Turn (descendDigit op (fun child => mergeWithin op fuel left child) b .right left .left slot) ([], .ofBranch b)

/-- The children of either side that are passed by reference, kept or not, and the session when they are. -/
inductive Skips (op : SetOperation) (fuel : Nat) (left right : Trie .set) (s : Session) :
    (side : Presence) → Ref Cell → (keep : Bool) → Session → Prop
  | onLeft {a b : Branch (Ref Cell)} {d : Digit} {r : Ref Cell} {s' : Session} (level : left.Level right a b)
      (turn : LevelTurn op fuel a b s d s') (found : a.child? d = some r) (vacant : b.child? d = none) :
      Skips op fuel left right s .left r (op.keeps .left) s'
  | onRight {a b : Branch (Ref Cell)} {d : Digit} {r : Ref Cell} {s' : Session} (level : left.Level right a b)
      (turn : LevelTurn op fuel a b s d s') (vacant : a.child? d = none) (found : b.child? d = some r) :
      Skips op fuel left right s .right r (op.keeps .right) s'
  | onBoth {a b : Branch (Ref Cell)} {d : Digit} {r q : Ref Cell} {s' : Session} (level : left.Level right a b)
      (turn : LevelTurn op fuel a b s d s') (found : a.child? d = some r) (found' : b.child? d = some q)
      (same : r.hash = q.hash) : Skips op fuel left right s .left r (op.keeps .both) s'
  | twice {a b : Branch (Ref Cell)} {d : Digit} {r q : Ref Cell} {s' : Session} (level : left.Level right a b)
      (turn : LevelTurn op fuel a b s d s') (found : a.child? d = some r) (found' : b.child? d = some q)
      (same : r.hash = q.hash) : Skips op fuel left right s .right q false s'
  | besideRight {a : Branch (Ref Cell)} {slot d : Digit} {r : Ref Cell} {s' : Session}
      (toward : left.Toward right a slot) (turn : LeftTurn op fuel a right slot s d s') (found : a.child? d = some r)
      (beside : d ≠ slot) : Skips op fuel left right s .left r (op.keeps .left) s'
  | besideLeft {b : Branch (Ref Cell)} {slot d : Digit} {r : Ref Cell} {s' : Session}
      (toward : right.Toward left b slot) (turn : RightTurn op fuel left b slot s d s') (found : b.child? d = some r)
      (beside : d ≠ slot) : Skips op fuel left right s .right r (op.keeps .right) s'

/-- A child is passed by reference when its count is not at hand. -/
def Unseen (op : SetOperation) (fuel : Nat) (left right : Trie .set) (s : Session) (side : Presence) (r : Ref Cell)
    (keep : Bool) : Prop :=
  ∃ s', Skips op fuel left right s side r keep s' ∧ result (knownCount r) s' = (.ok none, s')

/-- The pairs that the walk over two tries comes to, with the levels that are left and the session then. Each is made of
children that were opened, or of one and the deeper node that it is on the way to. -/
inductive Visits (op : SetOperation) (s : Session) (left right : Trie .set) : Nat → Trie .set → Trie .set → Session → Prop
  | start {n m : Nat} (levels : result left.levels s = (.ok n, s)) (levels' : result right.levels s = (.ok m, s)) :
      Visits op s left right (n + m) left right s
  | both {fuel : Nat} {l r l' r' : Trie .set} {a b : Branch (Ref Cell)} {d : Digit} {p q : Ref Cell}
      {s₁ s₂ s₃ s₄ : Session} (visits : Visits op s left right (fuel + 1) l r s₁) (overlaps : l.Overlaps r)
      (level : l.Level r a b) (turn : LevelTurn op fuel a b s₁ d s₂) (found : a.child? d = some p)
      (found' : b.child? d = some q) (differ : p.hash ≠ q.hash) (run : result (resolve .set p) s₂ = (.ok l', s₃))
      (run' : result (resolve .set q) s₃ = (.ok r', s₄)) : Visits op s left right fuel l' r' s₄
  | left {fuel : Nat} {l r l' : Trie .set} {a : Branch (Ref Cell)} {slot : Digit} {p : Ref Cell} {s₁ s₂ s₃ : Session}
      (visits : Visits op s left right (fuel + 1) l r s₁) (overlaps : l.Overlaps r) (toward : l.Toward r a slot)
      (turn : LeftTurn op fuel a r slot s₁ slot s₂) (found : a.child? slot = some p)
      (run : result (resolve .set p) s₂ = (.ok l', s₃)) : Visits op s left right fuel l' r s₃
  | right {fuel : Nat} {l r r' : Trie .set} {b : Branch (Ref Cell)} {slot : Digit} {q : Ref Cell} {s₁ s₂ s₃ : Session}
      (visits : Visits op s left right (fuel + 1) l r s₁) (overlaps : l.Overlaps r) (toward : r.Toward l b slot)
      (turn : RightTurn op fuel l b slot s₁ slot s₂) (found : b.child? slot = some q)
      (run : result (resolve .set q) s₂ = (.ok r', s₃)) : Visits op s left right fuel l r' s₃

/-- What the walk over two tries asks for. Besides what it opens, these are the kept children of a pair whose counts are
not at hand when they are passed, if of one side a child whose count is not at hand was kept and another one was
dropped. -/
inductive Requests (op : SetOperation) (s : Session) (left right : Trie .set) : Ref Cell → Prop
  | opened {fuel : Nat} {l r : Trie .set} {q : Ref Cell} {s₁ : Session}
      (visits : Visits op s left right (fuel + 1) l r s₁) (overlaps : l.Overlaps r) (opens : Opens l r q) :
      Requests op s left right q
  | counted {fuel : Nat} {l r : Trie .set} {side side' : Presence} {part kept dropped : Ref Cell} {s₁ : Session}
      (visits : Visits op s left right (fuel + 1) l r s₁) (overlaps : l.Overlaps r)
      (part_unseen : Unseen op fuel l r s₁ side part true) (kept_unseen : Unseen op fuel l r s₁ side' kept true)
      (dropped_unseen : Unseen op fuel l r s₁ side' dropped false) : Requests op s left right part

/-- Where nothing is opened a walk stays. -/
theorem Visits.eq_of_not_opens {op : SetOperation} {s s₁ : Session} {left right l r : Trie .set} {fuel : Nat}
    (visits : Visits op s left right fuel l r s₁) (none : ∀ q, ¬ Opens left right q) : l = left ∧ r = right := by
  induction visits with
  | start => exact ⟨rfl, rfl⟩
  | both _ _ level _ found found' differ _ _ ih =>
    obtain ⟨rfl, rfl⟩ := ih
    exact absurd (.left level found found' differ) (none _)
  | left _ _ toward _ found _ ih =>
    obtain ⟨rfl, rfl⟩ := ih
    exact absurd (.towardRight toward found) (none _)
  | right _ _ toward _ found _ ih =>
    obtain ⟨rfl, rfl⟩ := ih
    exact absurd (.towardLeft toward found) (none _)

/-- The walk of a merge, without the root of its result. -/
def mergeWalk (op : SetOperation) (left right : Trie .set) : Action Merged := do
  mergeWithin op ((← left.levels) + (← right.levels)) left right

theorem merge_eq_mergeWalk (op : SetOperation) (left right : Trie .set) :
    merge op left right = mergeWalk op left right >>= fun m => resolve .set m.root := by
  simp only [merge, mergeWalk, bind_assoc]

/-! ### Actions that ask -/

/-- An error that says that a hash is missing says so of a reference of which `P` is true, and which is not at hand. -/
def Lacking (P : Ref Cell → Prop) (s : Session) (e : Error) : Prop :=
  ∀ h, e = .missing h → ∃ r, P r ∧ r.hash = h ∧ r.Absent s

/-- An error for another reason than that a hash is missing. -/
def Otherwise (e : Error) : Prop := ∀ h, e ≠ .missing h

theorem ends_addCounts_otherwise (a b : UInt64) : Ends Otherwise (fun _ => True) (addCounts a b) := by
  rw [addCounts]
  split
  · exact trivial
  · exact fun h same => by cases same

/-- If nothing was asked for since the session `s` but what `P` is true of, an action asks for nothing else. -/
def Asking {α : Type} (P : Ref Cell → Prop) (s : Session) (x : Action α) (s' : Session) (Q : α → Prop) : Prop :=
  s.Asks P s' → Runs (Session.Asks P) (Lacking P s) x s' fun a _ => Q a

section Asking

variable {α β ι : Type} {P : Ref Cell → Prop} {s s' : Session} {x : Action α} {f : α → Action β} {Q : α → Prop}
  {Q' : β → Prop}

theorem asking_pure {a : α} (holds : Q a) : Asking P s (pure a) s' Q := fun _ => runs_pure (fun _ => .refl) holds

theorem asking_lift {e : Except Error α} (ends : Ends Otherwise Q e) : Asking P s (liftM e) s' Q :=
  fun _ => runs_lift (fun _ => .refl) (ends.mono (fun _ other h same => absurd same (other h)) fun _ holds => holds)

theorem Asking.bind (first : Asking P s x s' Q)
    (second : ∀ a s₁, result x s' = (.ok a, s₁) → s.Asks P s' → Q a → Asking P s (f a) s₁ Q') :
    Asking P s (x >>= f) s' Q' :=
  fun asked => (first asked).bind .trans fun a s₁ run asks holds => second a s₁ run asked holds (asked.trans asks)

/-- A check before the rest of an action. -/
theorem Asking.lift_bind {e : Except Error α} (check : Ends Otherwise (fun _ => True) e)
    (rest : ∀ a, e = .ok a → Asking P s (f a) s' Q') : Asking P s (liftM e >>= f) s' Q' :=
  (asking_lift check).bind fun a s₁ run _ _ => by
    obtain ⟨passed, rfl⟩ := Prod.mk.injEq .. ▸ run
    exact rest a passed

/-- Each step may count on what the items before have come to. -/
theorem asking_foldlM {items : List ι} {step : α → ι → Action α} {a : α} (start : Q a)
    (each : ∀ done i rest a' s₁, done ++ i :: rest = items → result (done.foldlM step a) s' = (.ok a', s₁) → Q a' →
      Asking P s (step a' i) s₁ Q) : Asking P s (items.foldlM step a) s' Q := by
  intro asked
  have all : Runs (Session.Asks P) (Lacking P s) (items.foldlM step a) s' fun a' s₁ =>
      result (items.foldlM step a) s' = (.ok a', s₁) ∧ Q a' := by
    refine runs_foldlM (I := fun done a' s₁ => result (done.foldlM step a) s' = (.ok a', s₁) ∧ Q a') (fun _ => .refl)
      .trans ⟨rfl, start⟩ ?_
    rintro done i rest split a' s₁ asks ⟨run, holds⟩
    obtain ⟨asks', ends⟩ := each done i rest a' s₁ split run holds (asked.trans asks)
    refine ⟨asks', ?_⟩
    cases outcome : (result (step a' i) s₁).1 with
    | error e => rwa [outcome] at ends
    | ok a'' =>
      rw [outcome] at ends
      refine ⟨?_, ends⟩
      have last : [i].foldlM step a' = step a' i := bind_pure _
      rw [List.foldlM_append, result_bind, run]
      dsimp only
      rw [last]
      exact Prod.ext outcome rfl
  exact all.mono (fun _ => id) fun _ _ holds => holds.2

theorem asking_sumOf {items : List ι} {count : ι → Action UInt64}
    (each : ∀ i ∈ items, ∀ s₁, Asking P s (count i) s₁ fun _ => True) : Asking P s (sumOf count items) s' fun _ => True := by
  refine asking_foldlM trivial fun done i rest total s₁ split _ _ => ?_
  have inside : i ∈ items := by
    rw [← split]
    exact List.mem_append_right done List.mem_cons_self
  exact (each i inside s₁).bind fun n s₂ _ _ _ => asking_lift (ends_addCounts_otherwise total n)

theorem ends_ofCell_otherwise (kind : TrieKind) (c : Cell) : Ends Otherwise (fun _ => True) (ofCell kind c) := by
  rw [ofCell]
  split
  · split
    · exact trivial
    · exact fun h same => by cases same
  · exact fun h same => by cases same

theorem ends_digitAt_otherwise (key : Bytes) (i : Nat) : Ends Otherwise (fun _ => True) (digitAt key i) := by
  rw [digitAt]
  split
  · exact trivial
  · exact fun h same => by cases same

theorem ends_leadingOf_otherwise (key : Bytes) (depth : Nat) : Ends Otherwise (fun _ => True) (leadingOf key depth) := by
  rw [leadingOf]
  split
  · exact trivial
  · exact fun h same => by cases same

theorem Tally.ends_missing_otherwise (t : Tally) : Ends Otherwise (fun _ => True) t.missing := by
  rw [missing]
  split
  · exact trivial
  · split
    · exact trivial
    · exact fun h same => by cases same

/-- A reference may be resolved if `P` is true of it. -/
theorem asking_resolve {r : Ref Cell} (allowed : P r) : Asking P s (resolve .set r) s' fun _ => True := by
  intro asked
  have value : Runs (Session.Asks P) (Lacking P s) r.value s' fun _ _ => True := by
    refine ⟨.resolve .refl allowed, ?_⟩
    cases found : (result r.value s').1 with
    | ok c => exact trivial
    | error e =>
      rintro h rfl
      obtain ⟨named, absent⟩ := Ref.absent_of_missing found
      exact ⟨r, allowed, named, absent.of_later asked.later⟩
  exact value.bind .trans fun c s₁ _ asks _ => asking_lift (ends_ofCell_otherwise .set c) (asked.trans asks)

end Asking

/-! ### Parts -/

section Parts

variable {P : Ref Cell → Prop} {s s' : Session} {op : SetOperation} {K : Ref Cell → Bool → Prop} {t : Tally} {d : Digit}
  {r : Ref Cell} {keep : Bool} {parts : List Part} {tallies : List Tally}

/-- Looking for a count changes nothing. -/
theorem exists_knownCount (r : Ref Cell) (s : Session) : ∃ n, result (knownCount r) s = (.ok n, s) := by
  obtain ⟨held, peeked, -⟩ := r.peek_spec s
  rw [knownCount, result_bind, peeked]
  cases held with
  | none => exact ⟨none, rfl⟩
  | some c => exact ⟨_, rfl⟩

/-- A tally says that a child was kept or dropped whose count was not at hand only if there is such a child. -/
structure Tally.Told (K : Ref Cell → Bool → Prop) (t : Tally) : Prop where
  pending : t.pending = true → ∃ r, K r true
  blind : t.blind = true → ∃ r, K r false

theorem Tally.told_ofBranch (b : Branch (Ref Cell)) : (Tally.ofBranch b).Told K :=
  ⟨fun pending => (by cases pending), fun blind => by cases blind⟩

theorem Tally.Told.opened (told : t.Told K) (n : UInt64) : (t.opened n).Told K := ⟨told.pending, told.blind⟩

/-- The parts whose counts are not known are kept children whose counts are not at hand. -/
def PartsTold (K : Ref Cell → Bool → Prop) (parts : List Part) : Prop := ∀ p ∈ parts, p.count = none → K p.root true

theorem PartsTold.append {parts' : List Part} (told : PartsTold K parts) (told' : PartsTold K parts') :
    PartsTold K (parts ++ parts') := by
  intro p member
  rcases List.mem_append.mp member with member | member
  · exact told p member
  · exact told' p member

/-- What was merged has a count. -/
theorem partsTold_ofMerged (d : Digit) (m : Merged) : PartsTold K (Part.ofMerged d m) := by
  intro p member none
  rw [Part.ofMerged] at member
  split at member
  · rw [List.mem_singleton.mp member] at none
    cases none
  · cases member

theorem asking_pass (told : t.Told K)
    (unseen : result (knownCount r) s' = (.ok none, s') → K r keep) :
    Asking P s (pass t d r keep) s' fun x => PartsTold K x.1 ∧ x.2.Told K := by
  intro asked
  obtain ⟨n, known⟩ := exists_knownCount r s'
  have unknown : n = none → K r keep := fun none => unseen (none ▸ known)
  have count : Runs (Session.Asks P) (Lacking P s) (knownCount r) s' fun m _ => m = n := by
    rw [Runs, known]
    exact ⟨.refl, rfl⟩
  refine count.bind .trans fun m s₁ _ _ same => ?_
  subst same
  cases keep with
  | true =>
    refine runs_pure (fun _ => .refl) ⟨fun p member none => ?_, ?_⟩
    · rw [List.mem_singleton.mp member] at none ⊢
      exact unknown none
    · cases m with
      | some n => exact told.opened n
      | none => exact ⟨fun _ => ⟨r, unknown rfl⟩, told.blind⟩
  | false =>
    refine runs_pure (fun _ => .refl) ⟨fun p none => (by cases none), ?_⟩
    cases m with
    | some n => exact told.opened n
    | none => exact ⟨told.pending, fun _ => ⟨r, unknown rfl⟩⟩

theorem asking_partCount {p : Part} (needed : p.count = none → P p.root) :
    Asking P s (partCount p) s' fun _ => True := by
  rw [partCount]
  split
  · exact asking_pure trivial
  · next none => exact (asking_resolve (needed none)).bind fun _ _ _ _ _ => asking_pure trivial

/-- Parts of unknown count are asked for only if a tally does not tell what they hold together. -/
theorem asking_settle (needed : ∀ t ∈ tallies, t.pending = true → t.blind = true → PartsTold (fun r _ => P r) parts) :
    Asking P s (settle parts tallies) s' fun _ => True := by
  rw [settle]
  split
  · refine (asking_sumOf fun t _ s₁ => asking_lift (Tally.ends_missing_otherwise t)).bind fun missing s₁ _ _ _ => ?_
    refine (asking_sumOf fun n _ s₂ => asking_pure trivial).bind fun known s₂ _ _ _ => ?_
    exact asking_lift (ends_addCounts_otherwise missing known)
  · next unsettled =>
    obtain ⟨t, member, pending, blind⟩ : ∃ t ∈ tallies, t.pending = true ∧ t.blind = true := by
      simpa [Tally.settled] using unsettled
    exact asking_sumOf fun p inside s₁ => asking_partCount (needed t member pending blind p inside)

theorem asking_assemble (depth : Nat) (path : Bytes)
    (needed : ∀ t ∈ tallies, t.pending = true → t.blind = true → PartsTold (fun r _ => P r) parts) :
    Asking P s (assemble depth path parts tallies) s' fun _ => True := by
  refine (asking_settle needed).bind fun count s₁ _ _ _ => ?_
  split <;> exact asking_pure trivial

end Parts

/-! ### Walks -/

section Walk

variable {op : SetOperation} {s s' : Session} {left right l r : Trie .set}

/-- What has been passed of two branches that end at the same depth. -/
structure Side.Told (op : SetOperation) (fuel : Nat) (l r : Trie .set) (s : Session) (x : Side) : Prop where
  parts : PartsTold (fun q keep => ∃ side, Unseen op fuel l r s side q keep) x.parts
  left : x.left.Told (Unseen op fuel l r s .left)
  right : x.right.Told (Unseen op fuel l r s .right)

variable {a b : Branch (Ref Cell)} {fuel : Nat} {s₁ s₂ : Session}

/-- Passing a child by reference changes nothing. -/
theorem eq_of_pass {t : Tally} {d : Digit} {q : Ref Cell} {keep : Bool} {x : List Part × Tally}
    (run : result (pass t d q keep) s₁ = (.ok x, s₂)) : s₂ = s₁ := by
  obtain ⟨n, known⟩ := exists_knownCount q s₁
  rw [pass, result_bind, known] at run
  cases keep <;> cases run <;> rfl

/-- The walk asks for nothing but what is requested below the pairs that it comes to with `fuel` levels. -/
def AskingBelow (op : SetOperation) (s : Session) (left right : Trie .set) (fuel : Nat) : Prop :=
  ∀ l r s₁, Visits op s left right fuel l r s₁ →
    Asking (Requests op s left right) s (mergeWithin op fuel l r) s₁ fun _ => True

theorem asking_mergeDigit (visits : Visits op s left right (fuel + 1) l r s₁) (overlaps : l.Overlaps r)
    (level : l.Level r a b) (merges : AskingBelow op s left right fuel) {x : Side} {d : Digit}
    (turn : LevelTurn op fuel a b s₁ d s₂) (told : x.Told op fuel l r s₁) :
    Asking (Requests op s left right) s (mergeDigit op (mergeWithin op fuel) a b x d) s₂
      fun y => y.Told op fuel l r s₁ := by
  have onSide : ∀ {side : Presence} {parts : List Part}, PartsTold (Unseen op fuel l r s₁ side) parts →
      PartsTold (fun q keep => ∃ side, Unseen op fuel l r s₁ side q keep) parts :=
    fun told p member none => ⟨_, told p member none⟩
  rw [mergeDigit]
  cases found : a.child? d with
  | none =>
    cases found' : b.child? d with
    | none => exact asking_pure told
    | some q =>
      refine (asking_pass told.right fun unknown => ⟨s₂, .onRight level turn found found', unknown⟩).bind ?_
      rintro ⟨parts, tally⟩ s₃ _ _ ⟨added, noted⟩
      exact asking_pure ⟨told.parts.append (onSide added), told.left, noted⟩
  | some p =>
    cases found' : b.child? d with
    | none =>
      refine (asking_pass told.left fun unknown => ⟨s₂, .onLeft level turn found found', unknown⟩).bind ?_
      rintro ⟨parts, tally⟩ s₃ _ _ ⟨added, noted⟩
      exact asking_pure ⟨told.parts.append (onSide added), noted, told.right⟩
    | some q =>
      dsimp only
      split
      · next same =>
        have same : p.hash = q.hash := eq_of_beq same
        refine (asking_pass told.left fun unknown => ⟨s₂, .onBoth level turn found found' same, unknown⟩).bind ?_
        rintro ⟨parts, tally⟩ s₃ run _ ⟨added, noted⟩
        obtain rfl := eq_of_pass run
        refine (asking_pass told.right fun unknown => ⟨_, .twice level turn found found' same, unknown⟩).bind ?_
        rintro ⟨none, tally'⟩ s₄ _ _ ⟨-, noted'⟩
        exact asking_pure ⟨told.parts.append (onSide added), noted, noted'⟩
      · next differ =>
        have differ : p.hash ≠ q.hash := fun same => differ (beq_of_eq (α := Hash) same)
        refine (asking_resolve (.opened visits overlaps (.left level found found' differ))).bind ?_
        intro l' s₃ run _ _
        refine (asking_resolve (.opened visits overlaps (.right level found found' differ))).bind ?_
        intro r' s₄ run' _ _
        have further := visits.both overlaps level turn found found' differ run run'
        refine (merges l' r' s₄ further).bind fun m s₅ _ _ _ => ?_
        exact asking_pure ⟨told.parts.append (partsTold_ofMerged d m), told.left.opened _, told.right.opened _⟩

theorem asking_mergeBranches (visits : Visits op s left right (fuel + 1) l r s₁) (overlaps : l.Overlaps r)
    (level : l.Level r a b) (merges : AskingBelow op s left right fuel) :
    Asking (Requests op s left right) s (mergeBranches op (mergeWithin op fuel) l a r b) s₁ fun _ => True := by
  have start : Side.Told op fuel l r s₁ ⟨[], .ofBranch a, .ofBranch b⟩ :=
    ⟨fun p none => (by cases none), Tally.told_ofBranch a, Tally.told_ofBranch b⟩
  refine (asking_foldlM start fun done d rest x s₂ split run told =>
    asking_mergeDigit visits overlaps level merges ⟨done, rest, x, split, run⟩ told).bind ?_
  intro x s₂ _ _ told
  split
  · exact asking_pure trivial
  split
  · exact asking_pure trivial
  refine asking_assemble _ _ fun t member pending blind p inside none => ?_
  obtain ⟨side, part⟩ := told.parts p inside none
  rcases List.mem_pair.mp member with rfl | rfl
  · obtain ⟨kept, kept_unseen⟩ := told.left.pending pending
    obtain ⟨dropped, dropped_unseen⟩ := told.left.blind blind
    exact .counted visits overlaps part kept_unseen dropped_unseen
  · obtain ⟨kept, kept_unseen⟩ := told.right.pending pending
    obtain ⟨dropped, dropped_unseen⟩ := told.right.blind blind
    exact .counted visits overlaps part kept_unseen dropped_unseen

/-- A branch from which the other node goes on below `slot`, whichever side it is on. -/
theorem asking_descend {P : Ref Cell → Prop} {K : Ref Cell → Bool → Prop} {merge : Trie .set → Action Merged} {own : Presence}
    {slot : Digit} (t other : Trie .set) (otherSide : Presence)
    (passes : ∀ d q s₂, Turn (descendDigit op merge b own other otherSide slot) ([], .ofBranch b) s₁ d s₂ →
      b.child? d = some q → d ≠ slot → result (knownCount q) s₂ = (.ok none, s₂) → K q (op.keeps own))
    (opens : ∀ q, b.child? slot = some q → P q)
    (merges : ∀ q c s₂ s₃, Turn (descendDigit op merge b own other otherSide slot) ([], .ofBranch b) s₁ slot s₂ →
      b.child? slot = some q → result (resolve .set q) s₂ = (.ok c, s₃) → Asking P s (merge c) s₃ fun _ => True)
    (counted : ∀ part kept dropped, K part true → K kept true → K dropped false → P part) :
    Asking P s (descend op merge t b own other otherSide slot) s₁ fun _ => True := by
  have step : ∀ (x : List Part × Tally) d s₂,
      Turn (descendDigit op merge b own other otherSide slot) ([], .ofBranch b) s₁ d s₂ → PartsTold K x.1 ∧ x.2.Told K →
      Asking P s (descendDigit op merge b own other otherSide slot x d) s₂ fun y => PartsTold K y.1 ∧ y.2.Told K := by
    rintro x d s₂ turn ⟨parts, tally⟩
    rw [descendDigit]
    by_cases here : d = slot
    · subst here
      rw [decide_eq_true rfl]
      cases found : b.child? d with
      | none => exact asking_pure ⟨parts.append (partsTold_ofMerged d _), tally⟩
      | some q =>
        refine (asking_resolve (opens q found)).bind fun c s₃ run _ _ => ?_
        refine (merges q c s₂ s₃ turn found run).bind fun m s₄ _ _ _ => ?_
        exact asking_pure ⟨parts.append (partsTold_ofMerged d m), tally.opened _⟩
    · rw [decide_eq_false here]
      cases found : b.child? d with
      | none => exact asking_pure ⟨parts, tally⟩
      | some q =>
        refine (asking_pass tally (passes d q s₂ turn found here)).bind ?_
        rintro ⟨added, noted⟩ s₃ _ _ ⟨told, tally'⟩
        exact asking_pure ⟨parts.append told, tally'⟩
  have start : PartsTold K [] ∧ (Tally.ofBranch b).Told K := ⟨fun p none => (by cases none), Tally.told_ofBranch b⟩
  refine (asking_foldlM (Q := fun x : List Part × Tally => PartsTold K x.1 ∧ x.2.Told K) start
    fun done d rest x s₂ split run => step x d s₂ ⟨done, rest, x, split, run⟩).bind ?_
  rintro ⟨parts, tally⟩ s₂ _ _ ⟨told, noted⟩
  dsimp only
  split
  · exact asking_pure trivial
  refine asking_assemble _ _ fun t member pending blind p inside none => ?_
  rw [List.mem_singleton.mp member] at pending blind
  obtain ⟨kept, kept_unseen⟩ := noted.pending pending
  obtain ⟨dropped, dropped_unseen⟩ := noted.blind blind
  exact counted p.root kept dropped (told p inside none) kept_unseen dropped_unseen

/-- Tries whose keys part are joined without a child being looked at. -/
theorem asking_mergeApart {P : Ref Cell → Prop} (shared : Nat) :
    Asking P s (mergeApart op l r shared) s' fun _ => True := by
  rw [mergeApart]
  refine .lift_bind (ends_digitAt_otherwise _ _) fun d _ => ?_
  refine .lift_bind (ends_digitAt_otherwise _ _) fun d' _ => ?_
  refine .lift_bind (ends_leadingOf_otherwise _ _) fun path _ => ?_
  exact asking_assemble _ _ fun t none => by cases none

theorem overlaps_of_shares (differ : l.hash ≠ r.hash)
    (together : Digits.Shares l.node.path r.node.path (min l.node.depth r.node.depth)) : l.Overlaps r :=
  ⟨differ, (Digits.not_common_lt_iff _ _ _).mpr together⟩

theorem asking_mergeWithin (op : SetOperation) (s : Session) (left right : Trie .set) (fuel : Nat) :
    AskingBelow op s left right fuel := by
  induction fuel with
  | zero => exact fun l r s₁ _ => asking_lift (e := .error .endless) fun h same => by cases same
  | succ fuel ih =>
    intro l r s₁ visits
    have mixed : Asking (Requests op s left right) s (throw (.invalid .mixedShapes) : Action Merged) s₁ fun _ => True :=
      asking_lift (e := .error (.invalid .mixedShapes)) fun h same => by cases same
    have way := way_mergeWithin op fuel l r
    generalize mergeWithin op (fuel + 1) l r = walk at way
    cases way with
    | equal => exact asking_pure trivial
    | onlyRight => exact asking_pure trivial
    | onlyLeft => exact asking_pure trivial
    | apart => exact asking_mergeApart _
    | leaves => exact asking_pure trivial
    | level differ shape shape' same together =>
      exact asking_mergeBranches visits (overlaps_of_shares differ together) ⟨shape, shape', same⟩ ih
    | intoLeft differ shape deeper together =>
      have overlaps := overlaps_of_shares differ together
      refine .lift_bind (ends_digitAt_otherwise _ _) fun slot digit => ?_
      have toward : l.Toward r _ slot := ⟨shape, deeper, digit⟩
      refine asking_descend (K := Unseen op fuel l r s₁ .left) l r .right ?_ ?_ ?_ ?_
      · exact fun d q s₂ turn found beside unknown => ⟨s₂, .besideRight toward turn found beside, unknown⟩
      · exact fun q found => .opened visits overlaps (.towardRight toward found)
      · exact fun q c s₂ s₃ turn found run => ih c r s₃ (visits.left overlaps toward turn found run)
      · exact fun part kept dropped => .counted visits overlaps
    | intoRight differ shape deeper together =>
      have overlaps := overlaps_of_shares differ together
      refine .lift_bind (ends_digitAt_otherwise _ _) fun slot digit => ?_
      have toward : r.Toward l _ slot := ⟨shape, deeper, digit⟩
      refine asking_descend (K := Unseen op fuel l r s₁ .right) r l .left ?_ ?_ ?_ ?_
      · exact fun d q s₂ turn found beside unknown => ⟨s₂, .besideLeft toward turn found beside, unknown⟩
      · exact fun q found => .opened visits overlaps (.towardLeft toward found)
      · exact fun q c s₂ s₃ turn found run => ih l c s₃ (visits.right overlaps toward turn found run)
      · exact fun part kept dropped => .counted visits overlaps
    | mixedLeft => exact mixed
    | mixedRight => exact mixed

/-- The walk of a merge asks for nothing but what is requested. -/
theorem asking_mergeWalk (op : SetOperation) (left right : Trie .set) (s : Session) :
    Runs (Session.Asks (Requests op s left right)) (Lacking (Requests op s left right) s) (mergeWalk op left right) s
      fun _ _ => True := by
  obtain ⟨n, s₁, levels, rfl, -⟩ := left.yields_levels s
  obtain ⟨m, s₂, levels', rfl, -⟩ := right.yields_levels s₁
  have walk : result (mergeWalk op left right) s₂ = result (mergeWithin op (n + m) left right) s₂ := by
    rw [mergeWalk, result_bind, levels]
    dsimp only
    rw [result_bind, levels']
  rw [Runs, walk]
  exact asking_mergeWithin op s₂ left right (n + m) left right s₂ (.start levels levels') .refl

end Walk

end Trie

end MerkleCells
