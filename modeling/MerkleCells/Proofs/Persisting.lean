import MerkleCells.Persist
import MerkleCells.Proofs.Involved
import MerkleCells.Proofs.Store.Recording

/-!
What persisting a reference leaves in a store. A session is `Closed` if whatever a store holds as persisted has
all that its encoding names held as persisted too. Persisting keeps that, whether it succeeds or not, because
children are recorded before their parents; and if it succeeds, the target is persisted and with it all that is
below. This takes a walk that comes upon no reference which claims more than the store holds (`Ref.Sound`): such
a reference is believed, and nothing below it is recorded (`persist_of_reaches`).
-/
namespace MerkleCells

open MerkleCells.Action

/-! ### What is below a hash -/

/-- The hashes that stand in an encoding in place of children. -/
def Cell.markers (c : Cell) : List Hash := (c.refs.filter fun r => !r.isEmbedded).map Ref.hash

theorem Cell.mem_markers {c : Cell} {r : Ref Cell} (member : r ∈ c.refs) (apart : r.isEmbedded = false) :
    r.hash ∈ c.markers :=
  List.mem_map_of_mem (List.mem_filter.mpr ⟨member, by rw [apart]; rfl⟩)

theorem Cell.Shows.markers_eq {c c' : Cell} (shows : c'.Shows c) : c'.markers = c.markers := by
  have all : ∀ d : Cell, d.markers = ((d.refs.map Ref.mark).filter fun m => !m.inlined.isSome).map Mark.hash := by
    intro d
    rw [List.filter_map, List.map_map]
    rfl
  rw [all c', all c, shows.refs_eq]

/-- A cell that can be read, of those with encodings in `I`. -/
structure Cell.Involved (I : Set Bytes) (c : Cell) : Prop where
  readable : c.Readable
  encoding : c.encoding ∈ I

/-- The encoding of a hash has another hash in place of a child. -/
def Hash.Refers (I : Set Bytes) (h k : Hash) : Prop := ∃ c : Cell, c.Involved I ∧ c.hash = h ∧ k ∈ c.markers

/-- What the encoding of a hash refers to is what the encoding of any cell of that hash refers to. -/
theorem Hash.Refers.markers {I : Set Bytes} (injective : Set.InjOn Hash.digest I) {c : Cell} {k : Hash}
    (refers : c.hash.Refers I k) (involved : c.Involved I) : k ∈ c.markers := by
  obtain ⟨d, other, same, member⟩ := refers
  have shows := other.readable.shows_of_hash injective other.encoding involved.readable involved.encoding same
  rwa [← shows.markers_eq]

/-! ### Sessions -/

namespace Session

variable {I : Set Bytes} {store : StoreId} {s s' : Session} {h : Hash}

/-- A store holds a hash as persisted or more. -/
def Persisted (s : Session) (store : StoreId) (h : Hash) : Prop :=
  ∃ held, s.status? store h = some held ∧ .persisted ≤ held

/-- Whatever a store holds as persisted refers to nothing but what it holds as persisted. -/
def Closed (I : Set Bytes) (store : StoreId) (s : Session) : Prop :=
  ∀ h k, s.Persisted store h → h.Refers I k → s.Persisted store k

/-- Whether a session is closed is told by the statuses that the store holds. -/
theorem Closed.congr (closed : s.Closed I store) (same : ∀ h, s'.status? store h = s.status? store h) :
    s'.Closed I store := by
  have persisted_iff : ∀ h, s'.Persisted store h ↔ s.Persisted store h := fun h => by rw [Persisted, same, Persisted]
  intro h k persisted refers
  exact (persisted_iff k).mpr (closed h k ((persisted_iff h).mp persisted) refers)

/-- In a closed session all that is below what is persisted is persisted. -/
theorem Closed.below (closed : s.Closed I store) (persisted : s.Persisted store h) {k : Hash}
    (below : Relation.ReflTransGen (Hash.Refers I) h k) : s.Persisted store k := by
  induction below with
  | refl => exact persisted
  | tail _ refers ih => exact closed _ _ ih refers

/-- A session that is left when cells have been loaded, and recorded in one store. -/
inductive Onward (I : Set Bytes) (store : StoreId) : Session → Session → Prop
  | refl (s : Session) : Onward I store s s
  | load {s s' : Session} (loader : LoaderId) (h : Hash) :
      Onward I store s s' → Onward I store s (s'.load loader h).2
  | record {s s' : Session} {c : Cell} (status : Status) (involved : c.Involved I) :
      Onward I store s s' → Onward I store s (result (storeRef store (Ref.direct c) status) s').2

theorem Onward.trans {a b c : Session} (first : a.Onward I store b) (second : b.Onward I store c) :
    a.Onward I store c := by
  induction second with
  | refl => exact first
  | load loader h _ ih => exact .load loader h ih
  | record status involved _ ih => exact .record status involved ih

theorem Later.onward (later : s.Later s') : s.Onward I store s' := by
  induction later with
  | refl => exact .refl _
  | load loader h _ ih => exact .load loader h ih

theorem persisted_load (loader : LoaderId) (k : Hash) :
    (s.load loader k).2.Persisted store h ↔ s.Persisted store h := by
  simp only [Persisted, status?_load]

/-- After a record the cell has at least the status of the record, and of all others nothing has changed. -/
theorem persisted_storeRef {c : Cell} {own status : Status} {r : Ref Cell}
    (run : result (storeRef store ⟨own, .direct c⟩ status) s = (.ok r, s')) :
    s'.Persisted store h ↔ h = c.hash ∧ .persisted ≤ status ∨ s.Persisted store h := by
  rw [Persisted, status?_storeRef run]
  by_cases here : c.hash = h
  · rw [if_pos here, Persisted]
    simp only [Option.some.injEq, exists_eq_left', Store.le_raised_iff, here, true_and]
  · rw [if_neg here]
    exact (or_iff_right fun same => here same.1.symm).symm

theorem Persisted.storeRef (persisted : s.Persisted store h) (c : Cell) (own status : Status) :
    (result (storeRef store ⟨own, .direct c⟩ status) s).2.Persisted store h := by
  cases run : result (MerkleCells.storeRef store ⟨own, .direct c⟩ status) s with
  | mk answer s' =>
    cases answer with
    | error e => exact storeRef_error run ▸ persisted
    | ok r => exact (persisted_storeRef run).mpr (.inr persisted)

/-- What is persisted stays persisted. -/
theorem Onward.persisted (onward : s.Onward I store s') (persisted : s.Persisted store h) : s'.Persisted store h := by
  induction onward with
  | refl => exact persisted
  | load loader k _ ih => exact (persisted_load loader k).mpr ih
  | record status _ _ ih => exact ih.storeRef _ _ status

end Session

/-! ### References -/

namespace Ref

variable {I : Set Bytes} {store : StoreId} {s : Session}

theorem reaches_withStatus (r : Ref Cell) (status : Status) : (r.withStatus status).status.reaches status :=
  decide_eq_true (Status.le_max_right _ _)

theorem hash_withStatus (c : Cell) (status : Status) : ((Ref.direct c).withStatus status).hash = c.hash := rfl

/-- What a walk down from a reference may come upon, in any session that it may pass through. Nothing is looked up
below a reference that claims to be persisted. -/
inductive Meets (I : Set Bytes) (store : StoreId) (s : Session) : Ref Cell → Ref Cell → Prop
  | self (r : Ref Cell) : Meets I store s r r
  | child {r q p : Ref Cell} {c : Cell} {s₁ s₂ : Session} (doubted : ¬ r.status.reaches .persisted)
      (onward : s.Onward I store s₁) (target : result r.value s₁ = (.ok c, s₂)) (member : q ∈ c.refs)
      (apart : q.isEmbedded = false) (meets : Meets I store s q p) : Meets I store s r p

theorem Meets.of_claims {r p : Ref Cell} (meets : r.Meets I store s p) (claims : r.status.reaches .persisted) :
    p = r := by
  cases meets with
  | self => rfl
  | child doubted => exact absurd claims doubted

theorem Meets.of_direct {c : Cell} {p : Ref Cell} (meets : (Ref.direct c).Meets I store s p) :
    p = Ref.direct c ∨ ∃ q ∈ c.refs, q.Meets I store s p := by
  cases meets with
  | self => exact .inl rfl
  | child _ _ target member _ meets =>
    cases target
    exact .inr ⟨_, member, meets⟩

/-- A walk down from a reference resolves none that leads to a cell other than the one it names, and comes upon none
that claims to be persisted while the store does not hold it so. -/
structure Sound (I : Set Bytes) (store : StoreId) (s : Session) (r : Ref Cell) : Prop where
  leads : ∀ q, r.Meets I store s q → ¬ q.status.reaches .persisted →
    ∀ c s₁ s₂, s.Onward I store s₁ → result q.value s₁ = (.ok c, s₂) → c.Involved I ∧ c.hash = q.hash
  held : ∀ q, r.Meets I store s q → q.status.reaches .persisted → s.Persisted store q.hash

theorem Sound.child {r q : Ref Cell} {c : Cell} {s₁ s₂ : Session} (sound : r.Sound I store s)
    (doubted : ¬ r.status.reaches .persisted) (onward : s.Onward I store s₁) (target : result r.value s₁ = (.ok c, s₂))
    (member : q ∈ c.refs) (apart : q.isEmbedded = false) : q.Sound I store s where
  leads p meets := sound.leads p (.child doubted onward target member apart meets)
  held p meets := sound.held p (.child doubted onward target member apart meets)

/-- Whatever the walk comes upon is below the reference from which it starts. -/
theorem Sound.below {r p : Ref Cell} (sound : r.Sound I store s) (meets : r.Meets I store s p) :
    Relation.ReflTransGen (Hash.Refers I) r.hash p.hash := by
  induction meets with
  | self => exact .refl
  | child doubted onward target member apart _ ih =>
    obtain ⟨involved, named⟩ := sound.leads _ (.self _) doubted _ _ _ onward target
    exact .head ⟨_, involved, named, Cell.mem_markers member apart⟩
      (ih (sound.child doubted onward target member apart))

end Ref

/-! ### The walk -/

section Walk

variable {I : Set Bytes} {store : StoreId} {r : Ref Cell} {s s₀ : Session} {fuel : Nat}

/-- A reference that claims to be persisted is believed. -/
theorem persistWithin_of_reaches (claims : r.status.reaches .persisted) :
    result (persistWithin store (fuel + 1) r) s = (.ok r, s) := by
  rw [persistWithin, if_pos claims]
  rfl

theorem persist_of_reaches (claims : r.status.reaches .persisted) :
    result (persist store r) s = (.ok r, s) := by
  simp only [persist, result_bind, result_get]
  exact persistWithin_of_reaches claims

/-- What the store holds as persisted is left alone. -/
theorem persistWithin_of_held (claims : ¬ r.status.reaches .persisted) {held : Status}
    (found : s.status? store r.hash = some held) (reaches : held.reaches .persisted) :
    result (persistWithin store (fuel + 1) r) s = (.ok (r.withStatus held), s) := by
  rw [persistWithin, if_neg claims]
  simp only [result_bind, Session.result_statusOf, found, if_pos reaches, result_pure]

/-- Otherwise the target is resolved, its children are persisted and then it is recorded. -/
theorem persistWithin_of_missing (claims : ¬ r.status.reaches .persisted) (missing : ¬ s.Persisted store r.hash) :
    result (persistWithin store (fuel + 1) r) s = result (do
      let cell ← r.value
      cell.refs.forM fun child => do
        if !child.isEmbedded then
          let _ ← persistWithin store fuel child
      storeRef store (Ref.direct cell) .persisted) s := by
  rw [persistWithin, if_neg claims, result_bind, Session.result_statusOf]
  cases found : s.status? store r.hash with
  | none => rfl
  | some held =>
    have low : ¬ held.reaches .persisted := fun reaches => missing ⟨held, found, of_decide_eq_true reaches⟩
    simp only [if_neg low]

/-- Nothing but the hashes that a cell refers to has to be persisted before the cell is. -/
theorem Session.Closed.storeRef (injective : Set.InjOn Hash.digest I) {c : Cell} (involved : c.Involved I)
    (closed : s.Closed I store) {own status : Status}
    (children : .persisted ≤ status → ∀ k ∈ c.markers, s.Persisted store k) :
    (result (storeRef store ⟨own, .direct c⟩ status) s).2.Closed I store := by
  cases run : result (MerkleCells.storeRef store ⟨own, .direct c⟩ status) s with
  | mk answer s' =>
    cases answer with
    | error e => exact Session.storeRef_error run ▸ closed
    | ok r =>
      intro h k persisted refers
      refine (Session.persisted_storeRef run).mpr (.inr ?_)
      rcases (Session.persisted_storeRef run).mp persisted with ⟨rfl, high⟩ | persisted
      · exact children high k (refers.markers injective involved)
      · exact closed h k persisted refers

/-- A session after a walk: nothing but loading and recording has happened, and it is closed if it was. -/
def Session.Walked (I : Set Bytes) (store : StoreId) (s s' : Session) : Prop :=
  s.Onward I store s' ∧ (s.Closed I store → s'.Closed I store)

theorem Session.Walked.refl (s : Session) : s.Walked I store s := ⟨.refl s, id⟩

theorem Session.Walked.trans {a b c : Session} (first : a.Walked I store b) (second : b.Walked I store c) :
    a.Walked I store c :=
  ⟨first.1.trans second.1, second.2 ∘ first.2⟩

theorem Session.Later.walked {s' : Session} (later : s.Later s') : s.Walked I store s' :=
  ⟨later.onward, fun closed => closed.congr (later.status? store)⟩

/-- Once every child that is not embedded has been persisted, so is all that the cell refers to. -/
theorem keeps_children {c : Cell} (each : ∀ q ∈ c.refs, q.isEmbedded = false → ∀ s', s.Walked I store s' →
    Keeps (Session.Walked I store) (persistWithin store fuel q) s' fun _ s'' => s''.Persisted store q.hash) :
    Keeps (Session.Walked I store) (c.refs.forM fun child => do
      if !child.isEmbedded then
        let _ ← persistWithin store fuel child) s fun _ s' => ∀ k ∈ c.markers, s'.Persisted store k := by
  have loop : Keeps (Session.Walked I store) (c.refs.forM fun child => do
      if !child.isEmbedded then
        let _ ← persistWithin store fuel child) s
      fun _ s' => ∀ q ∈ c.refs, q.isEmbedded = false → s'.Persisted store q.hash := by
    refine keeps_forM .refl Session.Walked.trans (fun q s' s'' further done apart => ?_) fun q member s' walked => ?_
    · exact further.1.persisted (done apart)
    · cases apart : q.isEmbedded with
      | true => exact ⟨.refl s', fun _ _ no => by cases no⟩
      | false =>
        refine (each q member apart s' walked).bind Session.Walked.trans fun _ s'' _ _ persisted => ?_
        exact ⟨.refl s'', fun _ _ _ => persisted⟩
  refine loop.mono fun _ s' _ all k member => ?_
  obtain ⟨q, kept, rfl⟩ := List.mem_map.mp member
  obtain ⟨member, apart⟩ := List.mem_filter.mp kept
  exact all q member (by simpa using apart)

/-- A walk from a closed session leaves a closed session, and if it succeeds the target is persisted. -/
theorem keeps_persistWithin (injective : Set.InjOn Hash.digest I) (onward : s₀.Onward I store s)
    (closed : s.Closed I store) (sound : r.Sound I store s₀) :
    Keeps (Session.Walked I store) (persistWithin store fuel r) s fun _ s' => s'.Persisted store r.hash := by
  -- what the walk has come to is compared with `s₀`, where it started and where the references are sound
  induction fuel generalizing r s with
  | zero => exact ⟨.refl s, fun _ failed => by cases failed⟩
  | succ fuel ih =>
    by_cases claims : r.status.reaches .persisted
    · rw [Keeps, persistWithin_of_reaches claims]
      exact ⟨.refl s, fun _ _ => onward.persisted (sound.held r (.self r) claims)⟩
    by_cases missing : s.Persisted store r.hash
    · obtain ⟨held, found, reaches⟩ := missing
      rw [Keeps, persistWithin_of_held claims found (decide_eq_true reaches)]
      exact ⟨.refl s, fun _ _ => ⟨held, found, reaches⟩⟩
    refine .congr (persistWithin_of_missing claims missing) ?_
    have target : Keeps (Session.Walked I store) r.value s fun c s₁ => result r.value s = (.ok c, s₁) :=
      ⟨(r.later_value s).walked, fun c found => Prod.ext found rfl⟩
    refine target.bind Session.Walked.trans fun c s₁ _ walked found => ?_
    obtain ⟨involved, named⟩ := sound.leads r (.self r) claims c s s₁ onward found
    have children := keeps_children fun q member apart s₂ walked' =>
      ih (onward.trans (walked.trans walked').1) ((walked.trans walked').2 closed)
        (sound.child claims onward found member apart)
    refine children.bind Session.Walked.trans fun _ s₂ _ _ below => ?_
    refine ⟨⟨.record _ involved (.refl s₂), fun closed => closed.storeRef injective involved fun _ => below⟩, fun a run => ?_⟩
    exact (Session.persisted_storeRef (Prod.ext run rfl)).mpr (.inl ⟨named.symm, Status.le_refl _⟩)

end Walk

/-- If persisting a reference succeeds, its target and all that is below it is persisted in the store that was
given, provided that no reference on the way claims to be persisted without being so in this store. -/
theorem persist_complete {I : Set Bytes} (injective : Set.InjOn Hash.digest I) {store : StoreId} {s s' : Session}
    {r r' : Ref Cell} (closed : s.Closed I store) (sound : r.Sound I store s)
    (run : result (persist store r) s = (.ok r', s')) {k : Hash}
    (below : Relation.ReflTransGen (Hash.Refers I) r.hash k) : s'.Persisted store k := by
  have walk : Keeps (Session.Walked I store) (persist store r) s fun _ s₁ => s₁.Persisted store r.hash := by
    simp only [Keeps, persist, result_bind, result_get]
    exact keeps_persistWithin injective (.refl s) closed sound
  rw [Keeps, run] at walk
  obtain ⟨walked, persisted⟩ := walk
  exact (walked.2 closed).below (persisted r' rfl) below

/-! ### References that claim to be persisted -/

namespace Claimed

/-- A cell that no parent writes inside its own encoding. -/
def large : Cell := Cell.ofValue (.blob (List.replicate 200 7))

/-- A reference that claims to be persisted. -/
def claimed : Ref Cell := (Ref.direct large).withStatus .persisted

theorem claimed_reaches : claimed.status.reaches .persisted := (Ref.direct large).reaches_withStatus .persisted

/-- A session with one store, which holds nothing. -/
def vacant : Session := ⟨[], [.memory .empty]⟩

/-- Persisting a reference that claims to be persisted succeeds and leaves a store that holds nothing as it is. -/
theorem not_persisted : vacant.Closed Set.univ 0 ∧ result (persist 0 claimed) vacant = (.ok claimed, vacant) ∧
    ¬ vacant.Persisted 0 claimed.hash := by
  have nothing : ∀ h, ¬ vacant.Persisted 0 h := by
    rintro h ⟨held, found, -⟩
    cases found
  exact ⟨fun h k persisted _ => absurd persisted (nothing h), persist_of_reaches claimed_reaches, nothing _⟩

/-- A cell with a child by hash that claims to be persisted. -/
def holder : Cell := Cell.ofValue (.vector [claimed])

theorem holder_involved : holder.Involved {holder.encoding} where
  readable := by
    have blob : large.Readable :=
      .ofItems (v := .blob (List.replicate 200 7)) (show 200 ≤ Limits.blob by decide) rfl fun r none => by cases none
    refine .ofItems (v := .vector [claimed]) (show 1 ≤ Limits.fields by decide) rfl fun r member => ?_
    rw [show r = claimed from List.mem_singleton.mp member]
    exact ⟨large, blob, rfl⟩
  encoding := rfl

theorem claimed_hash : claimed.hash = large.hash := Ref.hash_withStatus large .persisted

theorem holder_refs : holder.refs = [claimed] := by
  rw [Cell.refs, holder, Cell.value_ofValue]
  rfl

theorem holder_doubted : ¬ (Ref.direct holder).status.reaches .persisted := by
  rw [Ref.direct]
  split <;> decide

/-- A session whose only store holds the child as persisted. -/
def holding : Session := ⟨[], [.memory ⟨[(large.hash, ⟨large, .persisted⟩)]⟩]⟩

theorem persisted_holding (h : Hash) : holding.Persisted 0 h ↔ h = large.hash := by
  have status : holding.status? 0 h = if large.hash = h then some .persisted else none := by
    simp only [holding, Session.status?, Store.status?, MemoryStore.status?, Table.find?, List.getElem?_cons_zero,
      Option.bind_some]
    split <;> rfl
  rw [Session.Persisted, status]
  split
  · next here => exact iff_of_true ⟨_, rfl, Status.le_refl _⟩ here.symm
  · next other =>
    refine iff_of_false ?_ (Ne.symm other)
    rintro ⟨held, found, -⟩
    cases found

theorem closed_holding : holding.Closed {holder.encoding} 0 := by
  rintro h k - ⟨c, involved, -, member⟩
  have shows := involved.readable.shows holder_involved.readable involved.encoding
  rw [shows.markers_eq, Cell.markers, holder_refs] at member
  obtain ⟨r, kept, rfl⟩ := List.mem_map.mp member
  rw [List.mem_singleton.mp (List.mem_filter.mp kept).1]
  exact (persisted_holding _).mpr claimed_hash

theorem sound_holder : (Ref.direct holder).Sound {holder.encoding} 0 holding := by
  have met : ∀ p, (Ref.direct holder).Meets {holder.encoding} 0 holding p → p = Ref.direct holder ∨ p = claimed := by
    intro p meets
    rcases meets.of_direct with same | ⟨q, member, meets⟩
    · exact .inl same
    · rw [holder_refs, List.mem_singleton] at member
      subst member
      exact .inr (meets.of_claims claimed_reaches)
  constructor
  · intro p meets doubted c s₁ s₂ _ target
    rcases met p meets with rfl | rfl
    · cases target
      exact ⟨holder_involved, rfl⟩
    · exact absurd claimed_reaches doubted
  · intro p meets claims
    rcases met p meets with rfl | rfl
    · exact absurd claims holder_doubted
    · exact (persisted_holding _).mpr claimed_hash

theorem persist_holder : ∃ r s, result (persist 0 (Ref.direct holder)) holding = (.ok r, s) := by
  simp only [persist, result_bind, result_get]
  by_cases missing : holding.Persisted 0 (Ref.direct holder).hash
  · obtain ⟨held, found, reaches⟩ := missing
    exact ⟨_, _, persistWithin_of_held holder_doubted found (decide_eq_true reaches)⟩
  · obtain ⟨fuel, enough⟩ : ∃ fuel, (Ref.direct holder).height + holding.depth = fuel + 1 :=
      ⟨_, by rw [show (Ref.direct holder).height = 1 + _ from rfl, Nat.add_assoc, Nat.add_comm 1]⟩
    have child : result ([claimed].forM fun child => do
        if !child.isEmbedded then
          let _ ← persistWithin 0 (fuel + 1) child) holding = (.ok (), holding) := by
      cases apart : claimed.isEmbedded with
      | true => simp [List.forM, apart]
      | false => simp only [List.forM, apart, result_bind, persistWithin_of_reaches claimed_reaches, Bool.not_false,
          ↓reduceIte, result_pure]
    rw [enough, persistWithin_of_missing holder_doubted missing]
    simp only [result_bind, Ref.result_value_direct, Ref.direct, holder_refs, child]
    exact ⟨_, _, rfl⟩

theorem persist_complete_holder : ∃ r s, result (persist 0 (Ref.direct holder)) holding = (.ok r, s) ∧
    ∀ k, Relation.ReflTransGen (Hash.Refers {holder.encoding}) holder.hash k → s.Persisted 0 k := by
  obtain ⟨r, s, run⟩ := persist_holder
  have injective : Set.InjOn Hash.digest {holder.encoding} := Set.injOn_singleton _ _
  exact ⟨r, s, run, fun k below => persist_complete injective closed_holding sound_holder run below⟩

end Claimed

end MerkleCells
