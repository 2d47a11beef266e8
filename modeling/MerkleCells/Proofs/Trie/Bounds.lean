import MerkleCells.Proofs.Trie.Overflow
import MerkleCells.Proofs.Trie.Shapes

/-!
Operations on tries stay within the keys and the shapes that they are made for, whatever the stores give: they never
ask for a digit that a key has not, and they come across no nodes whose shapes do not go together (`Error.internal`).
Looking up, removing and listing count on nothing. Inserting counts on the path of a branch having the digits of its
depth (`Node.Spelled`), as it has wherever a branch is made. Merging also counts on the shapes that decoded nodes of sets
have (`Node.Shaped`): leaves end at the 64 digits of a hash, and branches before. The main statement, for decoded tries,
is `Trie.bounded_of_decoded`.
-/
namespace MerkleCells

open MerkleCells.Action

/-- The errors that no operation on a trie should come to: a digit that is not there, and nodes whose shapes do not go
together. Counts that have no room are no such error. -/
def Error.internal : Error → Bool
  | .outOfRange => true
  | .invalid .forkInsideBranch => true
  | .invalid .mixedShapes => true
  | _ => false

/-! ### Actions within bounds -/

namespace Action

variable {α β : Type} {x : Action α} {f : α → Action β} {s : Session}

/-- An error that is not internal. -/
abbrev External (e : Error) : Prop := e.internal = false

/-- An action does nothing to a session but load, and it does not fail by an internal error. -/
def InBounds (x : Action α) (s : Session) : Prop := Runs Session.Later External x s fun _ _ => True

theorem inBounds_pure (a : α) (s : Session) : InBounds (pure a) s := runs_pure .refl trivial

theorem inBounds_lift {e : Except Error α} (ends : Ends External (fun _ => True) e) : InBounds (liftM e) s :=
  runs_lift .refl ends

theorem inBounds_throw {e : Error} (external : External e) : InBounds (throw e : Action α) s := runs_throw .refl external

theorem InBounds.bind (first : InBounds x s)
    (second : ∀ a s', result x s = (.ok a, s') → s.Later s' → InBounds (f a) s') : InBounds (x >>= f) s :=
  Runs.bind .trans first fun a s' run later _ => second a s' run later

/-- A check before the rest of an action. -/
theorem InBounds.lift_bind {e : Except Error α} (check : Ends External (fun _ => True) e)
    (rest : ∀ a, e = .ok a → InBounds (f a) s) : InBounds (liftM e >>= f) s :=
  (inBounds_lift check).bind fun a s' run _ => by
    obtain ⟨passed, rfl⟩ := Prod.mk.injEq .. ▸ run
    exact rest a passed

/-- A step for each of some items, one after the other. -/
theorem inBounds_foldlM {ι : Type} {items : List ι} {step : α → ι → Action α} {a : α}
    (each : ∀ a i s', s.Later s' → InBounds (step a i) s') : InBounds (items.foldlM step a) s :=
  runs_foldlM (I := fun _ _ _ => True) .refl .trans trivial fun _ i _ _ a s' later _ => each a i s' later

end Action

theorem Error.OfLoad.external {h : Hash} {e : Error} (error : e.OfLoad h) : External e := by
  cases error with
  | missing => rfl
  | ofStore error => cases error <;> rfl

theorem Ref.inBounds_canonical (r : Ref Cell) (s : Session) : InBounds r.canonical s := by
  rw [canonical]
  split
  · exact inBounds_pure r s
  · have value : InBounds r.value s := (r.runs_value s).mono (fun _ error => error.external) fun _ _ holds => holds
    refine value.bind fun c s' _ _ => ?_
    split
    · exact inBounds_pure _ s'
    · exact inBounds_pure r s'

namespace Trie

variable {kind : TrieKind} {s s' : Session} {t : Trie kind} {key : Bytes} {value : Ref Cell}

theorem ends_digitAt {i : Nat} (inside : i < Digits.count key) : Ends External (fun _ => True) (digitAt key i) := by
  obtain ⟨d, digit⟩ := (Digits.digit?_isSome_iff key i).mpr inside
  rw [digitAt_eq_ok.mpr digit]
  trivial

theorem ends_leadingOf {depth : Nat} (inside : depth ≤ Digits.count key) :
    Ends External (fun _ => True) (leadingOf key depth) := by
  obtain ⟨path, leading⟩ := Digits.leading?_isSome inside
  rw [leadingOf, leading]
  trivial

theorem ends_ofCell (kind : TrieKind) (c : Cell) : Ends External (fun _ => True) (ofCell kind c) := by
  rw [ofCell]
  split
  · split
    · exact trivial
    · exact rfl
  · exact rfl

theorem inBounds_resolve (kind : TrieKind) (r : Ref Cell) (s : Session) : InBounds (resolve kind r) s := by
  have value : InBounds r.value s := (r.runs_value s).mono (fun _ error => error.external) fun _ _ holds => holds
  exact value.bind fun c s' _ _ => inBounds_lift (ends_ofCell kind c)

theorem inBounds_levels (t : Trie kind) (s : Session) : InBounds t.levels s := ⟨.refl s, trivial⟩

/-! ### Looking up and removing -/

theorem lt_count_of_begins {b : Branch (Ref Cell)} (begins : Digits.beginsWith key b.path b.depth = true)
    (longer : Digits.count key ≠ b.depth) : b.depth < Digits.count key :=
  lt_of_le_of_ne ((Digits.beginsWith_iff _ _ _).mp begins).1 longer.symm

theorem getWithin_inBounds (kind : TrieKind) (key : Bytes) (fuel : Nat) (n : Node (Ref Cell)) (s : Session) :
    InBounds (getWithin kind key fuel n) s := by
  induction fuel generalizing n s with
  | zero => exact inBounds_throw rfl
  | succ fuel ih =>
    cases n with
    | empty => exact inBounds_pure none s
    | leaf k value => exact inBounds_pure _ s
    | branch b =>
      rw [getWithin]
      cases begins : Digits.beginsWith key b.path b.depth with
      | false => exact inBounds_pure none s
      | true =>
        simp only [Bool.not_true, Bool.false_eq_true, ↓reduceIte]
        split
        · exact inBounds_pure b.entry s
        · next longer =>
          refine .lift_bind (ends_digitAt (lt_count_of_begins begins longer)) fun d _ => ?_
          split
          · exact inBounds_pure none s
          · next r _ => exact (inBounds_resolve kind r s).bind fun t s' _ _ => ih t.node s'


theorem ends_addCounts (a b : UInt64) : Ends External (fun _ => True) (addCounts a b) := by
  rw [addCounts]
  split
  · exact trivial
  · exact rfl

theorem ends_adjust (total before after : UInt64) : Ends External (fun _ => True) (adjust total before after) := by
  rw [adjust]
  split
  · exact ends_addCounts _ _
  · exact rfl

theorem inBounds_sumOf {α : Type} {count : α → Action UInt64} {items : List α}
    (each : ∀ a s', InBounds (count a) s') (s : Session) : InBounds (sumOf count items) s :=
  inBounds_foldlM fun _ a s' _ => (each a s').bind fun _ s'' _ _ => (inBounds_lift (ends_addCounts _ _) : InBounds _ s'')

theorem inBounds_build (b : Branch (Ref Cell)) (s : Session) : InBounds (build b : Action (Trie kind)) s := by
  rw [build]
  split
  · exact inBounds_pure _ s
  · exact inBounds_resolve kind _ s
  · exact inBounds_pure _ s
  · exact inBounds_pure _ s

theorem eraseWithin_inBounds (key : Bytes) (fuel : Nat) (t : Trie kind) (s : Session) :
    InBounds (eraseWithin key fuel t) s := by
  induction fuel generalizing t s with
  | zero => exact inBounds_throw rfl
  | succ fuel ih =>
    rw [eraseWithin]
    cases t.node with
    | empty => exact inBounds_pure none s
    | leaf k value => exact inBounds_pure _ s
    | branch b =>
      dsimp only
      cases begins : Digits.beginsWith key b.path b.depth with
      | false => exact inBounds_pure none s
      | true =>
        simp only [Bool.not_true, Bool.false_eq_true, ↓reduceIte]
        split
        · split
          · exact inBounds_pure none s
          · refine .lift_bind (ends_adjust _ _ _) fun count _ => ?_
            exact (inBounds_build _ s).bind fun t s' _ _ => inBounds_pure _ s'
        · next longer =>
          refine .lift_bind (ends_digitAt (lt_count_of_begins begins longer)) fun d _ => ?_
          split
          · exact inBounds_pure none s
          · refine (inBounds_resolve kind _ s).bind fun child s₁ _ _ => (ih child s₁).bind fun updated s₂ _ _ => ?_
            split
            · exact inBounds_pure none s₂
            · refine .lift_bind (ends_adjust _ _ _) fun count _ => ?_
              exact (inBounds_build _ s₂).bind fun t s' _ _ => inBounds_pure _ s'

/-! ### Listing -/

section Listing

variable {α : Type} {x x₂ : StateM Session (Listing α)}

/-- A walk does nothing to a session but load, and it does not end by an internal error. -/
def WalksInBounds (x : StateM Session (Listing α)) (s : Session) : Prop :=
  s.Later (StateT.run x s).2 ∧ ∀ e, (StateT.run x s).1.failure = some e → External e

theorem walksInBounds_ofExcept {e : Except Error α} (ends : Ends External (fun _ => True) e) (s : Session) :
    WalksInBounds (pure (.ofExcept e)) s := by
  refine ⟨.refl s, fun e' failed => ?_⟩
  cases e with
  | ok a => cases failed
  | error e =>
    cases failed
    exact ends

/-- One walk after another. -/
theorem WalksInBounds.append (first : WalksInBounds x s) (second : ∀ s', s.Later s' → WalksInBounds x₂ s') :
    WalksInBounds
      (do
        let l ← x
        if l.failure.isSome then return l
        return l.append (← x₂)) s := by
  cases run : StateT.run x s with
  | mk l s₁ =>
    cases run₂ : StateT.run x₂ s₁ with
    | mk l₂ s₂ =>
      obtain ⟨later, external⟩ := first
      rw [run] at later external
      obtain ⟨later₂, external₂⟩ := second s₁ later
      rw [run₂] at later₂ external₂
      rw [WalksInBounds, run_append run run₂, Listing.append]
      by_cases failed : l.failure.isSome
      · rw [if_pos failed, if_pos failed]
        exact ⟨later, external⟩
      · rw [if_neg failed, if_neg failed]
        exact ⟨later.trans later₂, external₂⟩

/-- All that a walk comes across, or what it has failed for. -/
theorem WalksInBounds.toExcept (walks : WalksInBounds x s) : InBounds (do (← x).toExcept) s := by
  obtain ⟨later, external⟩ := walks
  refine ⟨later, ?_⟩
  show Ends _ _ (StateT.run x s).1.toExcept
  rw [Listing.toExcept]
  cases failed : (StateT.run x s).1.failure with
  | none => exact trivial
  | some e => exact external e failed

theorem listChildren_inBounds {visit : Trie kind → StateM Session (Listing α)}
    (visits : ∀ t s', WalksInBounds (visit t) s') (children : List (Digit × Ref Cell)) (s : Session) :
    WalksInBounds (listChildren visit children) s := by
  induction children generalizing s with
  | nil => exact ⟨.refl s, fun e none => by cases none⟩
  | cons c rest ih =>
    obtain ⟨later, ends⟩ := inBounds_resolve kind c.2 s
    have resolved : StateT.run (ExceptT.run (resolve kind c.2)) s = result (resolve kind c.2) s := rfl
    rw [listChildren, WalksInBounds, StateT.run_bind, resolved]
    generalize result (resolve kind c.2) s = answer at later ends
    obtain ⟨e | t, s₁⟩ := answer
    · refine ⟨later, fun e' failed => ?_⟩
      cases failed
      exact ends
    · obtain ⟨later', external⟩ := (visits t s₁).append fun s₂ _ => ih s₂
      exact ⟨later.trans later', external⟩

theorem listWithin_inBounds {f : Entry → Except Error α} (each : ∀ e, Ends External (fun _ => True) (f e)) (fuel : Nat)
    (n : Node (Ref Cell)) (s : Session) : WalksInBounds (listWithin kind f fuel n) s := by
  induction fuel generalizing n s with
  | zero =>
    refine ⟨.refl s, fun e failed => ?_⟩
    cases failed
    rfl
  | succ fuel ih =>
    cases n with
    | empty => exact ⟨.refl s, fun e none => by cases none⟩
    | leaf key value => exact walksInBounds_ofExcept (each ⟨key, value⟩) s
    | branch b =>
      refine WalksInBounds.append (x := pure _) ?_ fun s' _ => ?_
      · cases b.entry with
        | none => exact ⟨.refl s, fun e none => by cases none⟩
        | some value => exact walksInBounds_ofExcept (each ⟨b.path, value⟩) s
      · exact listChildren_inBounds (fun t s'' => ih t.node s'') b.children s'

theorem listWith_inBounds {f : Entry → Except Error α} (each : ∀ e, Ends External (fun _ => True) (f e)) (t : Trie kind)
    (s : Session) : WalksInBounds (t.listWith f) s := by
  obtain ⟨fuel, s', levels, rfl, -⟩ := t.yields_levels s
  have levels : StateT.run (ExceptT.run t.levels) s' = (.ok fuel, s') := levels
  rw [listWith, WalksInBounds, StateT.run_bind, levels]
  exact listWithin_inBounds each fuel t.node s'

end Listing

theorem childAt_inBounds (children : List (Digit × Ref Cell)) (index : UInt64) (s : Session) :
    InBounds (childAt kind children index) s := by
  induction children generalizing index s with
  | nil => exact inBounds_throw rfl
  | cons c rest ih =>
    refine (inBounds_resolve kind c.2 s).bind fun t s' _ _ => ?_
    split
    · exact inBounds_pure _ s'
    · exact ih _ s'

theorem entryAtWithin_inBounds (fuel : Nat) (n : Node (Ref Cell)) (index : UInt64) (s : Session) :
    InBounds (entryAtWithin kind fuel n index) s := by
  induction fuel generalizing n index s with
  | zero => exact inBounds_throw rfl
  | succ fuel ih =>
    rw [entryAtWithin.eq_def]
    dsimp only
    split
    · exact inBounds_pure none s
    · have below : ∀ (b : Branch (Ref Cell)) (index : UInt64), InBounds
          (childAt kind b.children index >>= fun found => entryAtWithin kind fuel found.1.node found.2) s :=
        fun b index => (childAt_inBounds b.children index s).bind fun found s' _ _ => ih found.1.node found.2 s'
      cases n with
      | empty => exact inBounds_pure none s
      | leaf key value => exact inBounds_pure _ s
      | branch b =>
        dsimp only
        split
        · exact below b index
        · split
          · exact inBounds_pure _ s
          · exact below b (index - 1)

theorem startingWithin_inBounds (start : Bytes) (fuel : Nat) (n : Node (Ref Cell)) (s : Session) :
    InBounds (startingWithin kind start fuel n) s := by
  induction fuel generalizing n s with
  | zero => exact inBounds_throw rfl
  | succ fuel ih =>
    cases n with
    | empty => exact inBounds_pure [] s
    | leaf key value => exact inBounds_pure _ s
    | branch b =>
      rw [startingWithin]
      split
      · exact inBounds_pure [] s
      · split
        · exact (listWithin_inBounds (f := .ok) (fun _ => trivial) (fuel + 1) (.branch b) s).toExcept
        · next longer =>
          refine .lift_bind (ends_digitAt (by omega)) fun d _ => ?_
          split
          · exact inBounds_pure [] s
          · next r _ => exact (inBounds_resolve kind r s).bind fun t s' _ _ => ih t.node s'

/-! ### Inserting -/

/-- A fork is made where the key leaves the trie. It asks for no digit but those that part them there. -/
theorem ends_fork (spelled : t.node.Spelled) {depth : Nat} (parts : t.PartsFrom key depth)
    (leaf : t.node.depth = depth → ∃ k own, t.node = .leaf k own) :
    Ends External (fun _ => True) (t.fork depth key value) := by
  have short : depth ≤ Digits.count key := parts.shares.2.1
  have digit : Digits.count key ≠ depth → Ends External (fun _ => True) (digitAt key depth) := fun further =>
    ends_digitAt (by omega)
  rw [fork]
  refine (ends_leadingOf short).bind fun path _ => ?_
  have counted (entry : Option (Ref Cell)) (children : List (Digit × Ref Cell)) : Ends External (fun _ => True) (do
      let count ← addCounts t.count 1
      return ofNode kind (.branch { depth, path, entry, children, count })) :=
    (ends_addCounts _ _).bind fun _ _ => trivial
  by_cases here : t.node.depth = depth
  · obtain ⟨k, own, shape⟩ := leaf here
    rw [if_pos here, shape]
    show Ends _ _ ((pure (some own, []) : Except Error (Option (Ref Cell) × List (Digit × Ref Cell))) >>= _)
    refine Ends.bind (P := fun _ => True) trivial fun _ _ => ?_
    split
    · exact counted _ _
    · next further => exact (digit further).bind fun _ _ => counted _ _
  · rw [if_neg here]
    have inside : depth < Digits.count t.node.path := by
      have := parts.le
      have : t.node.depth ≤ Digits.count t.node.path := spelled
      omega
    refine (ends_digitAt inside).bind fun _ _ => ?_
    split
    · exact counted _ _
    · next further => exact (digit further).bind fun _ _ => counted _ _

theorem insertWithin_inBounds (key : Bytes) (value : Ref Cell) (fuel : Nat) (session : s.Spelled) (t : Trie kind)
    (spelled : t.cell.Spelled) : InBounds (insertWithin key value fuel t) s := by
  induction fuel generalizing t s with
  | zero => exact inBounds_throw rfl
  | succ fuel ih =>
    rw [insertWithin]
    cases shape : t.node with
    | empty => exact inBounds_pure _ s
    | leaf k own =>
      dsimp only
      split
      · exact inBounds_pure _ s
      · next other =>
        have forks : Ends External (fun _ => True) (t.fork (Digits.shared k key) key value) :=
          ends_fork spelled.node (partsFrom_leaf shape other) fun _ => ⟨k, own, shape⟩
        exact .lift_bind forks fun t' _ => inBounds_pure _ s
    | branch b =>
      dsimp only
      split
      · next above =>
        have forks : Ends External (fun _ => True) (t.fork (Digits.common b.path key b.depth) key value) := by
          refine ends_fork spelled.node (partsFrom_branch shape above) fun here => ?_
          rw [shape] at here
          exact absurd here above.ne'
        exact .lift_bind forks fun t' _ => inBounds_pure _ s
      · next along =>
        split
        · split
          · exact inBounds_pure none s
          · exact .lift_bind (ends_addCounts _ _) fun count _ => inBounds_pure _ s
        · next longer =>
          have inside : b.depth < Digits.count key := by
            have := (Digits.shares_common b.path key b.depth).2.1
            omega
          refine .lift_bind (ends_digitAt inside) fun d _ => ?_
          split
          · exact .lift_bind (ends_addCounts _ _) fun count _ => inBounds_pure _ s
          · next r found =>
            refine (inBounds_resolve kind r s).bind fun child s₁ resolved later => ?_
            have below := spelled.child_of_resolve session Node.Accepted.spelled shape found resolved
            have session' := session.later Node.Accepted.spelled later
            refine (ih session' child below).bind fun updated s₂ _ _ => ?_
            split
            · exact inBounds_pure none s₂
            · exact .lift_bind (ends_adjust _ _ _) fun count _ => inBounds_pure _ s₂

/-! ### Paths of what updates make -/

section Spelled

variable {t' : Trie kind}

theorem spelled_leaf (kind : TrieKind) (key : Bytes) (value : Ref Cell) : (leaf kind key value).cell.Spelled :=
  .of_root (Nat.le_refl (Digits.count key)) fun _ shape => by cases shape

theorem spelled_empty (kind : TrieKind) : (empty kind).cell.Spelled :=
  .of_root (Nat.le_refl 0) fun _ shape => by cases shape

theorem spelled_ref (spelled : t.cell.Spelled) : t.ref.Throughout fun _ n => n.Spelled := by
  rintro _ ⟨⟩
  exact spelled

/-- A branch keeps its path while its entry, its children and its count change. -/
theorem spelled_branch {b : Branch (Ref Cell)} (path : b.depth ≤ Digits.count b.path)
    (children : ∀ e ∈ b.children, e.2.Throughout fun _ n => n.Spelled) : (ofNode kind (.branch b)).cell.Spelled :=
  .of_root path fun _ shape => by
    cases shape
    exact children

theorem fork_spelled {depth : Nat} (spelled : t.cell.Spelled) (forks : t.fork depth key value = .ok t') :
    t'.cell.Spelled := by
  obtain ⟨path, entry, children, entry₀, children₀, n, shape, leads, -, old, keyed⟩ := of_fork forks
  have length := (Digits.leading?_spec leads).2.1
  have inside : depth ≤ Digits.count path := by
    rw [Digits.count]
    omega
  have old_spelled : ∀ e ∈ children₀, e.2.Throughout fun _ n => n.Spelled := by
    cases old with
    | ends => simp
    | goes => exact List.forall_mem_singleton.mpr (spelled_ref spelled)
  refine .of_root (by rw [shape]; exact inside) fun b same => ?_
  cases shape.symm.trans same
  rcases keyed with ⟨-, -, rfl⟩ | ⟨d, -, -, rfl⟩
  · exact old_spelled
  · exact Branch.forall_mem_setChild old_spelled (spelled_ref (spelled_leaf kind key value))

/-- Inserting makes paths that have the digits of their depths out of such. -/
theorem insertWithin_spelled (fuel : Nat) (session : s.Spelled) (spelled : t.cell.Spelled)
    (run : result (insertWithin key value fuel t) s = (.ok (some t'), s')) : t'.cell.Spelled := by
  induction fuel generalizing t s s' t' with
  | zero => cases run
  | succ fuel ih =>
    have inserts := of_insertWithin run
    generalize (result (getWithin kind key (fuel + 1) t.node) s).1 = looked at inserts
    cases inserts with
    | first => exact spelled_leaf kind key value
    | replaced => exact spelled_leaf kind key value
    | forked _ forks => exact fork_spelled spelled forks
    | entry shape =>
      have path := spelled.node
      rw [shape] at path
      have kept := spelled.children shape
      exact spelled_branch path kept
    | child shape =>
      have path := spelled.node
      rw [shape] at path
      have new := spelled_ref (spelled_leaf kind key value)
      exact spelled_branch path (Branch.forall_mem_setChild (spelled.children shape) new)
    | below shape found resolved inserted =>
      have path := spelled.node
      rw [shape] at path
      have child := spelled.child_of_resolve session Node.Accepted.spelled shape found resolved
      have session' := session.later Node.Accepted.spelled (later_of_resolve resolved)
      have updated := spelled_ref (ih session' child inserted)
      exact spelled_branch path (Branch.forall_mem_setChild (spelled.children shape) updated)

/-- What is left of a branch is the branch, a child or a node without one. -/
theorem build_spelled {b : Branch (Ref Cell)} (session : s.Spelled) (path : b.depth ≤ Digits.count b.path)
    (children : ∀ e ∈ b.children, e.2.Throughout fun _ n => n.Spelled)
    (run : result (build b : Action (Trie kind)) s = (.ok t', s')) : t'.cell.Spelled := by
  rw [build] at run
  split at run
  · cases run
    exact spelled_empty kind
  · next lone =>
    rw [lone] at children
    have child := children _ (List.mem_singleton_self _)
    exact Ref.throughout_of_value session Node.Accepted.spelled child (of_resolve run)
  · cases run
    exact spelled_leaf kind b.path _
  · cases run
    exact spelled_branch path children

theorem eraseWithin_spelled (fuel : Nat) (session : s.Spelled) (spelled : t.cell.Spelled)
    (run : result (eraseWithin key fuel t) s = (.ok (some t'), s')) : t'.cell.Spelled := by
  induction fuel generalizing t s s' t' with
  | zero => cases run
  | succ fuel ih =>
    have removes := of_eraseWithin run
    generalize (result (getWithin kind key (fuel + 1) t.node) s).1 = looked at removes
    cases removes with
    | leaf => exact spelled_empty kind
    | entry shape _ _ built =>
      have path := spelled.node
      rw [shape] at path
      have kept := spelled.children shape
      refine build_spelled session ?_ ?_ built
      · exact path
      · exact kept
    | @below b d r u updated _ n s₁ s₂ _ shape found resolved removed _ built =>
      have path := spelled.node
      rw [shape] at path
      have child := spelled.child_of_resolve session Node.Accepted.spelled shape found resolved
      have session₁ := session.later Node.Accepted.spelled (later_of_resolve resolved)
      have later := (eraseWithin_inBounds key fuel u s₁).1
      rw [removed] at later
      have kept := spelled.children shape
      refine build_spelled (session₁.later Node.Accepted.spelled later) ?_ ?_ built
      · exact path
      · dsimp only
        split
        · exact fun e member => kept e (List.mem_of_mem_filter member)
        · exact Branch.forall_mem_setChild kept (spelled_ref (ih session₁ child removed))

end Spelled

end Trie

end MerkleCells
