import MerkleCells.Proofs.Failing
import MerkleCells.Proofs.Trie.Counts
import MerkleCells.Proofs.Trie.Holds

/-!
Counts of tries whose children come from stores. Nothing looks at the counts of children that are loaded, so what the
counts of a trie are worth depends on what its stores give. `Node.AddsUp` says that the counts of all branches are the
sums of what is below them, for given counts of what is held by its hash. A trie that is resolved in a session that has
these counts adds up (`Trie.loads_resolve`), and so does one that is decoded, but for the count of its root
(`Trie.Decoded.addsUp`).
-/
namespace MerkleCells

open MerkleCells.Action

/-! ### Actions that only load -/

namespace Action

variable {α β : Type} {x : Action α} {f : α → Action β} {s s' : Session} {P : α → Session → Prop}
  {Q : β → Session → Prop} {full : Prop}

/-- An action does nothing to a session but load, and `P` is true if it succeeds. It overflows only if something is
`full`. -/
def Loads (full : Prop) (x : Action α) (s : Session) (P : α → Session → Prop) : Prop :=
  Runs Session.Later (fun e => e = .overflow → full) x s P

theorem loads_pure {a : α} (holds : P a s) : Loads full (pure a) s P := runs_pure .refl holds

theorem loads_throw {e : Error} (other : e ≠ .overflow) : Loads full (throw e) s P :=
  runs_throw .refl fun same => absurd same other

theorem loads_liftExcept {e : Except Error α} (holds : ∀ a, e = .ok a → P a s) (excess : e = .error .overflow → full) :
    Loads full (liftM e) s P := by
  refine ⟨.refl s, ?_⟩
  cases e with
  | error e => exact fun same => excess (congrArg _ same)
  | ok a => exact holds a rfl

theorem Loads.bind (first : Loads full x s P)
    (second : ∀ a s', result x s = (.ok a, s') → s.Later s' → P a s' → Loads full (f a) s' Q) :
    Loads full (x >>= f) s Q :=
  Runs.bind Session.Later.trans first second

theorem Loads.mono {P' : α → Session → Prop} (loads : Loads full x s P)
    (sub : ∀ a s', s.Later s' → P a s' → P' a s') : Loads full x s P' :=
  ⟨loads.1, loads.2.mono (fun _ => id) fun a => sub a _ loads.1⟩

theorem Loads.of_ok {P' : α → Session → Prop} (loads : Loads full x s P)
    (holds : ∀ a s', result x s = (.ok a, s') → P' a s') : Loads full x s P' := by
  refine ⟨loads.1, ?_⟩
  have ends := loads.2
  cases run : (result x s).1 with
  | error e => rwa [run] at ends
  | ok a => exact holds a _ (Prod.ext run rfl)

theorem Loads.widen {full' : Prop} (loads : Loads full x s P) (sub : full → full') : Loads full' x s P :=
  Runs.mono loads (fun _ excess same => sub (excess same)) fun _ _ => id

theorem Loads.of_result (loads : Loads full x s P) {a : α} (run : result x s = (.ok a, s')) : s.Later s' ∧ P a s' := by
  rw [Loads, Runs, run] at loads
  exact loads

theorem Loads.full_of_overflow (loads : Loads full x s P) (excess : (result x s).1 = .error .overflow) : full := by
  have ends := loads.2
  rw [excess] at ends
  exact ends rfl

theorem Yields.loads (yields : Yields x s fun a s' => s.Later s' ∧ P a s') : Loads full x s P := by
  obtain ⟨a, s', run, holds⟩ := yields
  rw [Loads, Runs, run]
  exact holds

/-- A step that has been taken in an action that has come to a value. -/
theorem of_result_bind {b : β} (run : result (x >>= f) s = (.ok b, s')) :
    ∃ a s₁, result x s = (.ok a, s₁) ∧ result (f a) s₁ = (.ok b, s') := by
  rw [result_bind] at run
  cases first : result x s with
  | mk answer s₁ =>
    rw [first] at run
    cases answer with
    | error e => cases run
    | ok a => exact ⟨a, s₁, rfl, run⟩

theorem of_result_lift_bind {e : Except Error α} {b : β} (run : result ((liftM e : Action α) >>= f) s = (.ok b, s')) :
    ∃ a, e = .ok a ∧ result (f a) s = (.ok b, s') := by
  obtain ⟨a, s₁, lifted, rest⟩ := of_result_bind run
  cases lifted
  exact ⟨a, rfl, rest⟩

theorem loads_foldlM {ι σ : Type} {step : σ → ι → Action σ} {items : List ι} (I : List ι → σ → Session → Prop) {x : σ}
    (start : I [] x s) (next : ∀ done d rest, done ++ d :: rest = items → ∀ x s', s.Later s' → I done x s' →
      Loads full (step x d) s' (I (done ++ [d]))) : Loads full (items.foldlM step x) s (I items) :=
  runs_foldlM .refl .trans start next

end Action

theorem Error.OfLoad.ne_overflow {h : Hash} {e : Error} (error : e.OfLoad h) : e ≠ .overflow := by
  rintro rfl
  cases error with
  | ofStore error => cases error

theorem Ref.loads_value {full : Prop} (r : Ref Cell) (s : Session) : Loads full r.value s fun _ _ => True :=
  (r.runs_value s).mono (fun _ error same => absurd same error.ne_overflow) fun _ _ => id

theorem Ref.loads_canonical {full : Prop} (r : Ref Cell) (s : Session) : Loads full r.canonical s fun _ _ => True := by
  obtain ⟨status, c | ⟨h, loader, byMarker⟩⟩ := r
  · exact loads_pure trivial
  · refine (Ref.loads_value _ s).bind fun c s' _ _ _ => ?_
    split <;> exact loads_pure trivial

/-! ### Sums of counts -/

/-- The number of entries that a reference stands for: what its target declares, and for a target that is known by its
hash what `w` says of this. -/
def Ref.weight (w : Hash → Nat) (r : Ref Cell) : Nat :=
  match r.cell? with
  | some c => c.declared
  | none => w r.hash

/-- The entries that some children stand for. -/
def Branch.weight (w : Hash → Nat) (children : List (Digit × Ref Cell)) : Nat :=
  (children.map fun c => c.2.weight w).sum

/-- The count of a branch is that of what is below it. A set's branch has no entry of its own, and is not as deep as the
keys are long. -/
structure Branch.AddsUp (w : Hash → Nat) (kind : TrieKind) (b : Branch (Ref Cell)) : Prop where
  ascending : Ascending b.children
  plain : kind = .set → b.entry = none ∧ b.depth < 64
  count_eq : b.count.toNat = b.own + Branch.weight w b.children

/-- The counts of all branches are those of what is below them, as far as they are held directly. -/
inductive Node.AddsUp (w : Hash → Nat) (kind : TrieKind) : Node (Ref Cell) → Prop where
  | empty : AddsUp w kind .empty
  | leaf (key : Bytes) (value : Ref Cell) (fits : kind = .set → Digits.count key = 64) : AddsUp w kind (.leaf key value)
  | branch (b : Branch (Ref Cell)) (sums : b.AddsUp w kind)
      (below : ∀ c ∈ b.children, ∀ t : Trie kind, c.2.cell? = some t.cell → AddsUp w kind t.node) :
      AddsUp w kind (.branch b)

/-- The counts of what a reference holds directly add up. -/
def Ref.AddsUp (w : Hash → Nat) (kind : TrieKind) (r : Ref Cell) : Prop :=
  ∀ t : Trie kind, r.cell? = some t.cell → t.node.AddsUp w kind

namespace Node.AddsUp

variable {w : Hash → Nat} {kind : TrieKind} {b : Branch (Ref Cell)} {n : Node (Ref Cell)}

theorem sums (addsUp : AddsUp w kind (.branch b)) : b.AddsUp w kind := by
  cases addsUp with
  | branch _ sums => exact sums

theorem children (addsUp : AddsUp w kind (.branch b)) : ∀ c ∈ b.children, c.2.AddsUp w kind := by
  cases addsUp with
  | branch _ _ below => exact below

theorem child (addsUp : AddsUp w kind (.branch b)) {d : Digit} {r : Ref Cell} (found : b.child? d = some r) :
    r.AddsUp w kind :=
  addsUp.children (d, r) (Branch.mem_of_childIn found)

theorem depth_le (addsUp : n.AddsUp w .set) : n.depth ≤ 64 := by
  cases addsUp with
  | empty => exact Nat.zero_le 64
  | leaf key value fits => exact (fits rfl).le
  | branch b sums => exact (sums.plain rfl).2.le

end Node.AddsUp

/-- A cell has the count that is said of its hash, and the counts inside it add up. -/
def Cell.Tallies (w : Hash → Nat) (h : Hash) (c : Cell) : Prop :=
  ∀ (kind : TrieKind) (n : Node (Ref Cell)), c.value = .trie kind n → n.count.toNat = w h ∧ n.AddsUp w kind

/-- Whatever a session has cached or gets from its stores has the counts that are said of it. -/
structure Session.Weighs (w : Hash → Nat) (s : Session) : Prop where
  caches : s.Caches (Cell.Tallies w)
  answers : ∀ id h c, Loader.accept h (s.told id h) = .ok c → c.Tallies w h

namespace Session.Weighs

variable {w : Hash → Nat} {s s' : Session}

theorem answers_tally (weighs : s.Weighs w) : s.Answers (Cell.Tallies w) := by
  intro id l h c at_l accepted
  refine weighs.answers id h c ?_
  rw [Session.told, at_l]
  exact accepted

theorem load (weighs : s.Weighs w) (id : LoaderId) (h : Hash) : (s.load id h).2.Weighs w :=
  ⟨(weighs.caches.load weighs.answers_tally id h).2, fun id' h' c accepted =>
    weighs.answers id' h' c (by rwa [told_load] at accepted)⟩

theorem later (weighs : s.Weighs w) (later : s.Later s') : s'.Weighs w := by
  induction later with
  | refl => exact weighs
  | load id h _ ih => exact ih.load id h

end Session.Weighs

namespace Trie

variable {kind : TrieKind} {w : Hash → Nat} {s s' : Session} {t u : Trie kind} {r : Ref Cell}

@[simp]
theorem declared_cell (t : Trie kind) : t.cell.declared = t.count.toNat := Cell.declared_of_trie t.value_eq

@[simp]
theorem weight_ref (t : Trie kind) : t.ref.weight w = t.count.toNat := t.declared_cell

theorem digitAt_eq_ok {key : Bytes} {i : Nat} {d : Digit} : digitAt key i = .ok d ↔ Digits.digit? key i = some d := by
  rw [digitAt]
  cases Digits.digit? key i <;> simp

theorem digitAt_ne_overflow (key : Bytes) (i : Nat) : digitAt key i ≠ .error .overflow := by
  rw [digitAt]
  split <;> exact fun same => by cases same

theorem loads_digitAt {full : Prop} (key : Bytes) (i : Nat) (s : Session) :
    Loads full (liftM (digitAt key i)) s fun d _ => digitAt key i = .ok d :=
  loads_liftExcept (fun _ same => same) fun excess => absurd excess (digitAt_ne_overflow key i)

theorem leadingOf_eq_ok {key path : Bytes} {depth : Nat} :
    leadingOf key depth = .ok path ↔ Digits.leading? key depth = some path := by
  rw [leadingOf]
  cases Digits.leading? key depth <;> simp

theorem leadingOf_ne_overflow (key : Bytes) (depth : Nat) : leadingOf key depth ≠ .error .overflow := by
  rw [leadingOf]
  split <;> exact fun same => by cases same

theorem loads_leadingOf {full : Prop} (key : Bytes) (depth : Nat) (s : Session) :
    Loads full (liftM (leadingOf key depth)) s fun _ _ => True :=
  loads_liftExcept (fun _ _ => trivial) fun excess => absurd excess (leadingOf_ne_overflow key depth)

theorem loads_levels {full : Prop} (t : Trie kind) (s : Session) : Loads full t.levels s fun _ _ => True :=
  ((t.yields_levels s).mono fun _ s' holds => (⟨holds.1 ▸ .refl s, trivial⟩ : s.Later s' ∧ True)).loads

theorem session_of_levels {fuel : Nat} (run : result t.levels s = (.ok fuel, s')) : s' = s := by
  obtain ⟨fuel', s₁, levels, rfl, -⟩ := t.yields_levels s
  rw [levels] at run
  cases run
  rfl

theorem of_resolve (run : result (resolve kind r) s = (.ok t, s')) : result r.value s = (.ok t.cell, s') := by
  obtain ⟨c, s₁, found, taken⟩ := of_result_bind run
  have read : ofCell kind c = .ok t := congrArg Prod.fst taken
  have same : s₁ = s' := congrArg Prod.snd taken
  rw [found, cell_of_ofCell read, same]

theorem ofCell_ne_overflow (kind : TrieKind) (c : Cell) : ofCell kind c ≠ .error .overflow := by
  rw [ofCell]
  split
  · split <;> exact fun same => by cases same
  · exact fun same => by cases same

theorem loads_resolved {full : Prop} (kind : TrieKind) (r : Ref Cell) (s : Session) :
    Loads full (resolve kind r) s fun t s' => result (resolve kind r) s = (.ok t, s') := by
  refine Loads.of_ok (P := fun _ _ => True) ?_ fun t s' run => run
  exact (r.loads_value s).bind fun c s' _ _ _ =>
    loads_liftExcept (fun _ _ => trivial) fun same => absurd same (ofCell_ne_overflow kind c)

/-- What a reference leads to has the count that it stands for, and its counts add up. -/
theorem loads_resolve {full : Prop} (weighs : s.Weighs w) (held : r.AddsUp w kind) :
    Loads full (resolve kind r) s fun t _ => t.count.toNat = r.weight w ∧ t.node.AddsUp w kind := by
  refine (loads_resolved kind r s).mono fun t s' _ found => ?_
  have run := of_resolve found
  obtain ⟨status, c | ⟨h, loader, byMarker⟩⟩ := r
  · cases run
    exact ⟨t.declared_cell.symm, held t rfl⟩
  · cases loader with
    | none => cases run
    | some loader =>
      have loaded := congrArg Prod.fst (Ref.load_of_value run).1
      exact (weighs.caches.load weighs.answers_tally loader h).1 t.cell loaded kind t.node t.value_eq

theorem eq_of_cell (same : t.cell = u.cell) : t = u := by
  have read := ofCell_cell t
  rw [same, ofCell_cell] at read
  exact (Except.ok.inj read).symm

theorem addsUp_ref (addsUp : t.node.AddsUp w kind) : t.ref.AddsUp w kind := by
  intro u held
  rw [← eq_of_cell (Option.some.inj held)]
  exact addsUp

/-- What a reference leads to has the count that it stands for, and so has all that is loaded later. -/
theorem weighs_resolve (weighs : s.Weighs w) (held : r.AddsUp w kind) (run : result (resolve kind r) s = (.ok u, s')) :
    u.count.toNat = r.weight w ∧ u.node.AddsUp w kind ∧ s.Later s' ∧ s'.Weighs w := by
  have loads : Loads False (resolve kind r) s _ := loads_resolve weighs held
  obtain ⟨later, count, inside⟩ := loads.of_result run
  exact ⟨count, inside, later, weighs.later later⟩

end Trie

namespace Branch

variable {w : Hash → Nat} {d : Digit} {r old : Ref Cell} {children : List (Digit × Ref Cell)}

@[simp]
theorem weight_nil (w : Hash → Nat) : weight w [] = 0 := rfl

theorem weight_cons (w : Hash → Nat) (c : Digit × Ref Cell) (rest : List (Digit × Ref Cell)) :
    weight w (c :: rest) = c.2.weight w + weight w rest :=
  List.sum_cons

/-- A child that is new at its digit adds what it stands for. -/
theorem weight_setChild_of_none (absent : childIn children d = none) :
    weight w (setChild d r children) = weight w children + r.weight w := by
  induction children with
  | nil => rw [setChild, weight_cons, weight_nil, Nat.add_comm]
  | cons c rest ih =>
    rw [childIn_cons] at absent
    by_cases here : c.1 = d
    · rw [if_pos here] at absent
      cases absent
    · rw [if_neg here] at absent
      rw [setChild, if_neg here]
      split
      · rw [weight_cons w (d, r), Nat.add_comm]
      · rw [weight_cons, weight_cons, ih absent, Nat.add_assoc]

/-- A child that replaces another adds what it stands for in place of the other. -/
theorem weight_setChild_of_some (ascending : Ascending children) (present : childIn children d = some old) :
    weight w (setChild d r children) + old.weight w = weight w children + r.weight w := by
  induction children with
  | nil => cases present
  | cons c rest ih =>
    obtain ⟨least, ascending⟩ := List.pairwise_cons.mp ascending
    rw [childIn_cons] at present
    rw [setChild]
    by_cases here : c.1 = d
    · rw [if_pos here] at present
      cases present
      rw [if_neg (by rw [here]; exact lt_irrefl d), if_pos here, weight_cons, weight_cons]
      dsimp only
      omega
    · rw [if_neg here] at present
      have after : c.1 < d := least _ (mem_of_childIn present)
      rw [if_neg (lt_asymm after), if_neg here, weight_cons, weight_cons]
      have rest_eq := ih ascending present
      omega

theorem weight_eraseChild (ascending : Ascending children) (present : childIn children d = some old) :
    weight w (eraseChild d children) + old.weight w = weight w children := by
  induction children with
  | nil => cases present
  | cons c rest ih =>
    obtain ⟨least, ascending⟩ := List.pairwise_cons.mp ascending
    rw [childIn_cons] at present
    by_cases here : c.1 = d
    · rw [if_pos here] at present
      cases present
      have gone : eraseChild d (c :: rest) = rest := by
        rw [eraseChild, List.filter_cons_of_neg (by simp [here]), List.filter_eq_self]
        intro c' member
        simpa using (here ▸ ne_of_gt (least c' member) : c'.1 ≠ d)
      rw [gone, weight_cons, Nat.add_comm]
    · rw [if_neg here] at present
      have kept : eraseChild d (c :: rest) = c :: eraseChild d rest := by simp [eraseChild, here]
      rw [kept, weight_cons, weight_cons]
      have rest_eq := ih ascending present
      omega

theorem le_weight (present : childIn children d = some old) : old.weight w ≤ weight w children :=
  List.single_le_sum (fun _ _ => Nat.zero_le _) _
    (List.mem_map_of_mem (f := fun c => c.2.weight w) (mem_of_childIn present))

end Branch

/-! ### Decoded tries -/

namespace Cell.Accepted

variable {w : Hash → Nat} {loader : Option LoaderId} {kind : TrieKind} {c : Cell} {n : Node (Ref Cell)}
  {b : Branch (Ref Cell)}

theorem leaf_addsUp (accepted : c.Accepted loader) {key : Bytes} {r : Ref Cell}
    (value : c.value = .trie kind (.leaf key r)) :
    (Node.leaf key r).AddsUp w kind := by
  refine .leaf key r fun set => ?_
  subst set
  have admits : key = r.mark.hash.bytes := accepted.value.2 .set (.leaf key r) value
  rw [admits, Digits.count, r.mark.hash.length_eq]

theorem branch_addsUp (accepted : c.Accepted loader) (value : c.value = .trie kind (.branch b))
    (count_eq : b.count.toNat = b.own + Branch.weight w b.children)
    (below : ∀ child ∈ b.children, child.2.AddsUp w kind) :
    (Node.branch b).AddsUp w kind := by
  have readable := accepted.branch_readable value
  refine .branch b ⟨readable.ascending, fun set => ?_, count_eq⟩ below
  subst set
  refine ⟨?_, Nat.lt_succ_of_le readable.depth_le⟩
  cases own : b.entry with
  | none => rfl
  | some r => exact absurd (readable.entry (by rw [own]; rfl)).1 (by decide)

/-- The decoder has added up the counts of what is written inside. -/
theorem addsUp_inside (accepted : c.Accepted loader) (inside : ∀ r ∈ c.refs, r.isEmbedded)
    (value : c.value = .trie kind n) : n.AddsUp w kind := by
  induction accepted generalizing n with
  | intro c found refs children ih =>
    have accepted : c.Accepted loader := .intro c found refs children
    cases n with
    | empty => exact .empty
    | leaf key r => exact accepted.leaf_addsUp value
    | branch b =>
      have within : ∀ child ∈ b.children, child.2.isEmbedded := fun child member => inside _ (mem_refs value member)
      have none : b.byHash = 0 := List.countP_eq_zero.mpr fun child member => by simp [within child member]
      refine accepted.branch_addsUp value ?_ fun child member t held => ?_
      · rw [accepted.count_eq value none, Branch.declaredInside, Branch.weight]
        congr 2
        refine List.map_congr_left fun child member => ?_
        obtain ⟨d, held, -⟩ := Ref.cell_of_isEmbedded (within child member)
        rw [Ref.declared, Ref.weight, held]
        rfl
      · obtain ⟨d, held', small, -⟩ := Ref.cell_of_isEmbedded (within child member)
        rw [held] at held'
        cases held'
        exact ih child.2 (mem_refs value member) t.cell held (Cell.isEmbedded_of_embeddable small) t.value_eq

end Cell.Accepted

namespace Trie

variable {kind : TrieKind} {w : Hash → Nat} {t : Trie kind}

/-- A cell that decoders give. -/
def Decoded (t : Trie kind) : Prop := ∃ loader bytes, decode loader bytes = .ok t.cell

/-- The count of the root is that of what is below it. -/
def AddsUp (w : Hash → Nat) (t : Trie kind) : Prop :=
  ∀ b, t.node = .branch b → b.count.toNat = b.own + Branch.weight w b.children

/-- Of a decoded trie only the count of the root may fail to add up. -/
theorem Decoded.addsUp (decoded : t.Decoded) (root : t.AddsUp w) : t.node.AddsUp w kind := by
  obtain ⟨loader, bytes, decoded⟩ := decoded
  have accepted := (of_decode decoded).2
  have value := t.value_eq
  cases shape : t.node with
  | empty => exact .empty
  | leaf key r => exact accepted.leaf_addsUp (shape ▸ value)
  | branch b =>
    rw [shape] at value
    refine accepted.branch_addsUp value (root b shape) fun child member u held => ?_
    have member := Cell.Accepted.mem_refs value member
    have inside : child.2.isEmbedded := by
      rw [← accepted.direct_iff member, Ref.isDirect, held]
      rfl
    obtain ⟨d, held', small, -⟩ := Ref.cell_of_isEmbedded inside
    rw [held] at held'
    cases held'
    exact (accepted.held member held).addsUp_inside (Cell.isEmbedded_of_embeddable small) u.value_eq

end Trie

end MerkleCells
