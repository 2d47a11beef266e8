import MerkleCells.Proofs.Identity
import MerkleCells.Proofs.Trie.CopyMerge
import MerkleCells.Proofs.Trie.CopyWalks
import MerkleCells.Proofs.Trie.Order

/-!
Tries that are partly at hand. Each child of a replica is held directly, is left to a loader over an honest store, or is
detached. Whatever is asked of a replica is answered as the trie in memory answers it, or fails for the hash of a child
that is missing.
-/
namespace MerkleCells

open MerkleCells.Action

variable {I : Set Bytes} {M : Hash → Prop} {kind : TrieKind} {s s₀ s' : Session} {f : Content Mark}

/-! ### What is at hand -/

/-- A cell and all that it holds directly, at every level, can be read and have encodings in `I`. -/
inductive Cell.Genuine (I : Set Bytes) : Cell → Prop
  | mk {c : Cell} (involved : c.Involved I) (held : ∀ r ∈ c.refs, ∀ d, r.cell? = some d → Genuine I d) : Genuine I c

/-- A genuine cell of a hash. -/
structure Cell.GenuineFor (I : Set Bytes) (h : Hash) (c : Cell) : Prop where
  named : c.hash = h
  genuine : c.Genuine I

/-- A node whose children are all held directly, at every level. -/
inductive Node.InMemory (kind : TrieKind) : Node (Ref Cell) → Prop
  | empty : InMemory kind .empty
  | leaf (key : Bytes) (value : Ref Cell) : InMemory kind (.leaf key value)
  | branch {b : Branch (Ref Cell)} (direct : ∀ c ∈ b.children, c.2.isDirect = true)
      (below : ∀ c ∈ b.children, ∀ t : Trie kind, c.2.cell? = some t.cell → InMemory kind t.node) :
      InMemory kind (.branch b)

/-- A child somewhere below a node is detached, or the store behind its loader does not have it. -/
inductive Node.Lacks (kind : TrieKind) (s : Session) : Node (Ref Cell) → Hash → Prop
  | child {b : Branch (Ref Cell)} {c : Digit × Ref Cell} (member : c ∈ b.children) (absent : c.2.Absent s) :
      Lacks kind s (.branch b) c.2.hash
  | deeper {b : Branch (Ref Cell)} {c : Digit × Ref Cell} {s₁ s₂ : Session} {t : Trie kind} {h : Hash}
      (member : c ∈ b.children) (later : s.Later s₁) (run : result (Trie.resolve kind c.2) s₁ = (.ok t, s₂))
      (lacks : Lacks kind s t.node h) : Lacks kind s (.branch b) h

namespace Cell.Genuine

variable {c : Cell}

theorem involved (genuine : c.Genuine I) : c.Involved I := by
  cases genuine with
  | mk involved _ => exact involved

theorem held (genuine : c.Genuine I) {r : Ref Cell} (member : r ∈ c.refs) {d : Cell} (held : r.cell? = some d) :
    d.Genuine I := by
  cases genuine with
  | mk _ each => exact each r member d held

theorem of_soft (involved : c.Involved I) (soft : ∀ r ∈ c.refs, r.cell? = none) : c.Genuine I := by
  refine ⟨involved, fun r member d held => ?_⟩
  rw [soft r member] at held
  cases held

/-- A leaf is genuine if its value is. -/
theorem leaf {key : Bytes} (genuine : c.Genuine I) (involved : (Trie.leaf kind key (Ref.direct c)).cell.Involved I) :
    (Trie.leaf kind key (Ref.direct c)).cell.Genuine I := by
  refine ⟨involved, fun r member d held => ?_⟩
  rw [Cell.refs, Trie.value_eq] at member
  rw [List.mem_singleton.mp member] at held
  cases held
  exact genuine

end Cell.Genuine

theorem Trie.Built.involved {t : Trie kind} (built : Trie.Built Cell.Obtained s t) (inside : t.cell.encoding ∈ I) :
    t.cell.Involved I := by
  obtain ⟨f, carries⟩ := built.carries fun _ obtained => obtained.readable
  exact ⟨carries.cell_readable, inside⟩

namespace Trie

variable {t t' : Trie kind}

theorem mem_refs_of_child {b : Branch (Ref Cell)} (shape : t.node = .branch b) {c : Digit × Ref Cell}
    (member : c ∈ b.children) :
    c.2 ∈ t.cell.refs := by
  rw [Cell.refs, t.value_eq, shape]
  exact List.mem_append_right _ (List.mem_map_of_mem member)

/-- A cell that shows a trie holds one that is written alike. -/
theorem exists_of_shows {c : Cell} (shows : c.Shows t.cell) :
    ∃ t' : Trie kind, ofCell kind c = .ok t' ∧ t'.cell = c ∧ t'.Matches t := by
  rw [Cell.Shows, t.value_eq] at shows
  obtain ⟨n', value, like⟩ := Value.eq_trie_of_map shows
  exact ⟨⟨c, n', value⟩, ofCell_cell ⟨c, n', value⟩, rfl, like⟩

theorem matches_of_shows (shows : t'.cell.Shows t.cell) : t'.Matches t := by
  rw [Cell.Shows, t.value_eq, t'.value_eq, Value.map, Value.map, Value.trie.injEq] at shows
  exact shows.2

/-- A child that is held directly holds a trie. -/
theorem exists_of_direct {r : Ref Cell} (leads : r.Leads kind s f) (direct : r.isDirect = true) :
    ∃ u : Trie kind, r.cell? = some u.cell ∧ u.node.Holds kind s f := by
  obtain ⟨c, held⟩ := Option.isSome_iff_exists.mp direct
  obtain ⟨u, s₁, run, -, -, holds⟩ := leads s (.refl s)
  rw [Ref.eq_direct held, resolve, result_bind, Ref.result_value_direct] at run
  cases read : ofCell kind c with
  | error e =>
    simp only [result_liftExcept, read] at run
    cases run
  | ok v =>
    simp only [result_liftExcept, read] at run
    cases run
    exact ⟨u, by rw [held, cell_of_ofCell read], holds⟩

/-- A reference that shows a trie in memory leads to one that is written alike, or its target is not at hand. -/
theorem resolve_or_absent (injective : Set.InjOn Hash.digest I) (honest : s.Honest (Cell.GenuineFor I)) {r : Ref Cell}
    (genuine : t.cell.Genuine I) (mark : r.mark = t.cell.mark) (direct : ∀ c, r.cell? = some c → c.Genuine I) :
    (∃ t' s₁, result (resolve kind r) s = (.ok t', s₁) ∧ s.Later s₁ ∧ t'.cell.Genuine I ∧ t'.Matches t) ∨
      ((∃ s₁, result (resolve kind r) s = (.error (.missing r.hash), s₁)) ∧ r.Absent s) := by
  have shows : ∀ c : Cell, c.GenuineFor I r.hash → c.Shows t.cell := fun c right =>
    right.genuine.involved.readable.shows_of_hash injective right.genuine.involved.encoding
      genuine.involved.readable genuine.involved.encoding (right.named.trans (congrArg Mark.hash mark))
  have direct' : ∀ c, r.cell? = some c → c.GenuineFor I r.hash := fun c held =>
    ⟨by rw [Ref.eq_direct held]; rfl, direct c held⟩
  -- a marker may not stand for an embeddable cell, and the encoding would have shown one
  have apart : ∀ loader, r.target = .soft r.hash loader true →
      ∀ c : Cell, c.GenuineFor I r.hash → c.embeddable = false := by
    intro loader soft c right
    have inlined : r.inlined? = t.cell.mark.inlined := congrArg Mark.inlined mark
    rw [(shows c right).embeddable_eq]
    cases small : t.cell.embeddable with
    | false => rfl
    | true =>
      rw [Cell.mark, if_pos small, Ref.inlined?, soft] at inlined
      cases inlined
  rcases Ref.value_or_absent honest direct' apart with ⟨c, s₁, run, later, right⟩ | ⟨⟨s₁, missing⟩, absent⟩
  · obtain ⟨t', read, rfl, like⟩ := exists_of_shows (shows c right)
    refine .inl ⟨t', s₁, ?_, later, right.genuine, like⟩
    rw [resolve, result_bind, run]
    simp only [result_liftExcept, read]
  · refine .inr ⟨⟨s₁, ?_⟩, absent⟩
    rw [resolve, result_bind, missing]

/-- What is written as a trie in memory copies it, for as far as its children are at hand. -/
theorem copies_of_matches (injective : Set.InjOn Hash.digest I) (honest : s₀.Honest (Cell.GenuineFor I)) {k : Nat}
    (later : s₀.Later s') (holds : t.node.Holds kind s f) (admitted : f.Admitted kind) (memory : t.node.InMemory kind)
    (genuine : t.cell.Genuine I) (genuine' : t'.cell.Genuine I) (like : t'.Matches t)
    (lacks : ∀ h, t'.node.Lacks kind s₀ h → M h) (deep : kind.maxDigits < k + t.node.depth) :
    t.node.Copies M kind k s' t'.node := by
  induction k generalizing t t' f s' with
  | zero => exact absurd rfl (fuel_pos holds admitted deep)
  | succ k ih =>
    rcases Node.alike_cases like with ⟨shape, shape'⟩ | ⟨key, value, value', shape, shape', mark⟩ |
      ⟨b, b', shape, shape', same⟩
    · rw [shape, shape']
      rfl
    · rw [shape, shape']
      exact ⟨value', rfl, mark⟩
    · rw [shape] at holds memory deep ⊢
      rw [shape'] at lacks ⊢
      refine ⟨b', rfl, same, fun d r r' member member' => ?_⟩
      have fits := holds.fits
      have at_d := fits.ascending.childIn_of_mem member
      rw [← Branch.child?_eq] at at_d
      cases memory with
      | branch direct below =>
        obtain ⟨u, held, child⟩ := exists_of_direct (holds.leads at_d) (direct (d, r) member)
        have genuine_u := genuine.held (mem_refs_of_child shape member) held
        have mark : r'.mark = u.cell.mark := by
          have at_d' := (fits.ofShown same).ascending.childIn_of_mem member'
          have marks := Branch.child?_map_mark same d
          rw [at_d, Branch.child?_eq, at_d', Option.map_some, Option.map_some, Option.some.injEq] at marks
          rw [marks, Ref.eq_direct held, Ref.mark_direct]
        refine ⟨u, held, fun s₁ later₁ => ?_⟩
        have moved := later.trans later₁
        have direct' : ∀ c, r'.cell? = some c → c.Genuine I := fun c =>
          genuine'.held (mem_refs_of_child shape' member')
        rcases resolve_or_absent injective (honest.later moved) genuine_u mark direct' with
          ⟨u', s₂, run, later₂, genuine_u', like'⟩ | ⟨⟨s₂, missing⟩, absent⟩
        · refine .inl ⟨u', s₂, run, later₂, ?_⟩
          refine ih (moved.trans later₂) child (admitted.below _ _) (below (d, r) member u held) genuine_u genuine_u'
            like' ?_ (fuel_child fits child (fits.below_ne_none member) deep)
          exact fun h l => lacks h (.deeper member' moved run l)
        · exact .inr ⟨r'.hash, s₂, missing, lacks _ (.child member' (absent.of_later moved))⟩

end Trie

/-! ### Two runs -/

namespace Action

variable {α β : Type}

/-- Whatever the first action answers, the second one answers, up to `R`, or it fails for a hash that is missing. If
nothing is missing, it answers. -/
def Serves (M : Hash → Prop) (x : Action α) (s : Session) (y : Action β) (s' : Session) (R : α → β → Prop) : Prop :=
  ∀ a s₁, result x s = (.ok a, s₁) →
    (Answers M y s' fun b _ => R a b) ∧ ((∀ h, ¬ M h) → Yields y s' fun b _ => R a b)

theorem Mirrors.serves {x : Action α} {y : Action β} {R : α → β → Session → Prop} {Q : α → β → Prop}
    (mirrors : Mirrors M x y s' R) (sub : ∀ a b s₁, R a b s₁ → Q a b) : Serves M x s y s' Q := by
  intro a s₁ run
  have answers : Answers M y s' fun b _ => Q a b := (mirrors s a s₁ run).mono fun b s₂ related => sub a b s₂ related.2
  exact ⟨answers, answers.yields⟩

end Action

/-! ### Replicas -/

namespace Trie

/-- A trie that is built and held in memory as a whole, and a trie of the same encoding, whose children may be held
directly, be left to a loader or be detached. -/
structure Replica (I : Set Bytes) (s : Session) (t t' : Trie kind) : Prop where
  built : Trie.Built Cell.Obtained s t
  inMemory : t.node.InMemory kind
  genuine : t.cell.Genuine I
  genuine' : t'.cell.Genuine I
  encoding : t'.cell.encoding = t.cell.encoding

namespace Replica

variable {t t' : Trie kind}

theorem like (replica : t.Replica I s t') : t'.Matches t :=
  matches_of_shows (replica.genuine'.involved.readable.shows replica.genuine.involved.readable replica.encoding)

theorem carries (replica : t.Replica I s t') : ∃ f, t.Carries s f :=
  replica.built.carries fun _ obtained => obtained.readable

theorem copies (replica : t.Replica I s t') (injective : Set.InjOn Hash.digest I)
    (honest : s'.Honest (Cell.GenuineFor I))
    (lacks : ∀ h, t'.node.Lacks kind s' h → M h) : t.node.Copies M kind (kind.maxDigits + 1) s' t'.node := by
  obtain ⟨f, carries⟩ := replica.carries
  exact copies_of_matches injective honest (.refl s') carries.holds carries.admitted replica.inMemory replica.genuine
    replica.genuine' replica.like lacks (by omega)

end Replica

end Trie

/-- What is asked of replicas is answered as by the tries in memory, or fails for a child that is missing. -/
structure Availability (I : Set Bytes) (s s' : Session) : Prop where
  /-- A replica has the same number of entries. -/
  count : ∀ {kind : TrieKind} {t t' : Trie kind}, t.Replica I s t' → t'.count = t.count
  /-- A key is bound to the same value. -/
  get : ∀ {kind : TrieKind} {t t' : Trie kind}, t.Replica I s t' → ∀ key,
    (Yields (t.get? key) s fun _ _ => True) ∧
      Serves (t'.node.Lacks kind s') (t.get? key) s (t'.get? key) s' fun v v' => v'.map Ref.mark = v.map Ref.mark
  /-- A value that is held directly is inserted with the same result, or is there in both already. -/
  insert : ∀ {kind : TrieKind} {t t' : Trie kind}, t.Replica I s t' → ∀ key value, value.isDirect = true →
    (kind.Admits key value.mark → t.count.toNat + 1 < UInt64.size → Yields (t.insert key value) s fun _ _ => True) ∧
      Serves (t'.node.Lacks kind s') (t.insert key value) s (t'.insert key value) s'
        (Option.Rel fun u u' => u'.cell.Same u.cell)
  /-- A key is removed with the same result, or is in neither. -/
  erase : ∀ {kind : TrieKind} {t t' : Trie kind}, t.Replica I s t' → ∀ key,
    (Yields (t.erase key) s fun _ _ => True) ∧
      Serves (t'.node.Lacks kind s') (t.erase key) s (t'.erase key) s' (Option.Rel fun u u' => u'.cell.Same u.cell)
  /-- The same entry is at a place. -/
  entryAt : ∀ {kind : TrieKind} {t t' : Trie kind}, t.Replica I s t' → ∀ index,
    (Yields (t.entryAt? index) s fun _ _ => True) ∧
      Serves (t'.node.Lacks kind s') (t.entryAt? index) s (t'.entryAt? index) s' (Option.Rel fun e e' => e'.Like e)
  /-- The same entries have keys that begin with given bytes. -/
  starting : ∀ {kind : TrieKind} {t t' : Trie kind}, t.Replica I s t' → ∀ start,
    (Yields (t.entriesStarting start) s fun _ _ => True) ∧
      Serves (t'.node.Lacks kind s') (t.entriesStarting start) s (t'.entriesStarting start) s'
        (List.Forall₂ fun e e' => e'.Like e)
  /-- A walk comes across the same entries, up to a child that is missing. -/
  walk : ∀ {kind : TrieKind} {t t' : Trie kind}, t.Replica I s t' → ∃ entries s₁ l s₁',
    StateT.run t.list s = (⟨entries, none⟩, s₁) ∧ StateT.run t'.list s' = (l, s₁') ∧
      l.Covers (t'.node.Lacks kind s') (fun e e' => e'.Like e) entries ∧
      ((∀ h, ¬ t'.node.Lacks kind s' h) → l.failure = none ∧ List.Forall₂ (fun e e' => e'.Like e) entries l.items)
  /-- An operation on two sets makes the same set. -/
  merge : ∀ {t t' u u' : ContentSet}, t.Replica I s t' → u.Replica I s u' → ∀ op,
    (t.count.toNat + u.count.toNat < UInt64.size → Yields (Trie.merge op t u) s fun _ _ => True) ∧
      Serves (fun h => t'.node.Lacks .set s' h ∨ u'.node.Lacks .set s' h) (Trie.merge op t u) s (Trie.merge op t' u') s'
        fun v v' => v'.cell.Same v.cell

/-- Partial availability never changes an answer, if stores are honest and there are no collisions. -/
theorem Session.availability (injective : Set.InjOn Hash.digest I) (honest : s'.Honest (Cell.GenuineFor I)) :
    Availability I s s' := by
  have related : ∀ {kind : TrieKind} (u u' : Option (Trie kind)), Option.Rel (fun u u' => u'.Matches u) u u' →
      Option.Rel (fun u u' : Trie kind => u'.cell.Same u.cell) u u' := by
    intro kind u u' same
    cases same with
    | none => exact .none
    | some like => exact .some like.shows.same
  constructor
  · intro kind t t' replica
    exact replica.like.count_eq
  · intro kind t t' replica key
    obtain ⟨f, carries⟩ := replica.carries
    refine ⟨(Trie.get?_yields key carries.holds carries.admitted).mono fun _ _ _ => trivial, ?_⟩
    exact (Trie.get?_mirrors key (replica.copies injective honest fun _ l => l)).serves fun _ _ _ same => same
  · intro kind t t' replica key value direct
    obtain ⟨f, carries⟩ := replica.carries
    refine ⟨fun admits room => ?_, ?_⟩
    · obtain ⟨c, held⟩ := Option.isSome_iff_exists.mp direct
      rw [Ref.eq_direct held] at admits ⊢
      exact (Trie.insert_yields (Ref.result_value_direct _ c s) rfl carries.holds carries.admitted admits
        (carries.room room c.mark)).mono fun _ _ _ => trivial
    · exact (Trie.insert_mirrors key direct (replica.copies injective honest fun _ l => l)).serves
        fun u u' _ => related u u'
  · intro kind t t' replica key
    obtain ⟨f, carries⟩ := replica.carries
    refine ⟨(Trie.erase_yields key carries.holds carries.admitted).mono fun _ _ _ => trivial, ?_⟩
    exact (Trie.erase_mirrors key (replica.copies injective honest fun _ l => l)).serves fun u u' _ => related u u'
  · intro kind t t' replica index
    obtain ⟨f, carries⟩ := replica.carries
    refine ⟨(Trie.entryAt?_yields index carries.holds carries.admitted).mono fun _ _ _ => trivial, ?_⟩
    exact (Trie.entryAt?_mirrors index (replica.copies injective honest fun _ l => l)).serves fun _ _ _ same => same
  · intro kind t t' replica start
    obtain ⟨f, carries⟩ := replica.carries
    refine ⟨(Trie.entriesStarting_yields start carries.holds carries.admitted).mono fun _ _ _ => trivial, ?_⟩
    exact (Trie.entriesStarting_mirrors start (replica.copies injective honest fun _ l => l)).serves
      fun _ _ _ same => same
  · intro kind t t' replica
    obtain ⟨f, carries⟩ := replica.carries
    obtain ⟨entries, s₁, run, -, -⟩ := Trie.listWith_walks (fun e => e) carries.holds carries.admitted
    rw [List.map_id'] at run
    obtain ⟨l, s₁', run', -, covers⟩ :=
      Trie.list_follows (replica.copies injective honest fun _ l => l) s entries s₁ run
    exact ⟨entries, s₁, l, s₁', run, run', covers, covers.whole⟩
  · intro t t' u u' replica replica' op
    obtain ⟨f, carries⟩ := replica.carries
    obtain ⟨g, carries'⟩ := replica'.carries
    refine ⟨fun room => ?_, ?_⟩
    · refine (Trie.merge_yields Trie.telling_nothing op carries.holds carries'.holds carries.admitted carries'.admitted
        (carries.room_both carries' room)).mono fun _ _ _ => trivial
    · exact (Trie.merge_mirrors op ⟨carries.holds, carries.admitted, replica.copies injective honest fun _ l => .inl l⟩
        ⟨carries'.holds, carries'.admitted, replica'.copies injective honest fun _ l => .inr l⟩).serves
          fun _ _ _ like => like.shows.same

/-! ### A replica with one child at a loader and one that is detached -/

namespace PartlyHeld

open SoftlyHeld (apart apart_readable)

/-- The leaves of a map with two keys, which no parent writes inside its own encoding. -/
def first : KeyMap := Trie.leaf .map [0x10] (Ref.direct apart)

def second : KeyMap := Trie.leaf .map [0x20] (Ref.direct apart)

theorem one_lt : 1 < 16 := by decide

theorem two_lt : 2 < 16 := by decide

/-- A map with these two leaves, held in some way. -/
def forked (left right : Ref Cell) : KeyMap :=
  Trie.ofNode .map (.branch ⟨0, [], none, [(⟨1, one_lt⟩, left), (⟨2, two_lt⟩, right)], 2⟩)

/-- The map in memory. -/
def whole : KeyMap := forked first.ref second.ref

/-- The map with one leaf left to a loader and the other one detached. -/
def part : KeyMap := forked (Ref.ofMarker first.hash (some 0)) (Ref.detached second.hash)

/-- The encodings of the map, its leaves and its value. -/
def encodings : Set Bytes := {apart.encoding, first.cell.encoding, second.cell.encoding, whole.cell.encoding}

/-- A session whose store holds the first leaf only. -/
def lent : Session := ⟨SoftlyHeld.lent.loaders, [.memory ⟨[(first.cell.hash, ⟨first.cell, .persisted⟩)]⟩]⟩

theorem encodings_injective : Set.InjOn Hash.digest encodings := by
  have digests : ([apart.encoding, first.cell.encoding, second.cell.encoding, whole.cell.encoding].map
      Hash.digest).Nodup := by
    decide +kernel
  intro a at_a b at_b same
  refine List.inj_on_of_nodup_map digests ?_ ?_ same
  · simpa [encodings] using at_a
  · simpa [encodings] using at_b

theorem built_of_assoc {m v : KeyMap} {key : Bytes} (built : Trie.Built Cell.Obtained ⟨[], []⟩ m)
    (room : m.count.toNat + 1 < UInt64.size)
    (made : result (m.assoc key (Ref.direct apart)) ⟨[], []⟩ = (.ok (some v), ⟨[], []⟩)) :
    Trie.Built Cell.Obtained ⟨[], []⟩ v := by
  have obtained : apart.Obtained := .decoded (show decode none apart.encoding = .ok apart from rfl)
  exact .assoc built (Ref.result_value_direct _ apart _) rfl obtained room made

theorem first_built : Trie.Built Cell.Obtained ⟨[], []⟩ first :=
  built_of_assoc (.empty .map _) (by decide) (show result (KeyMap.assoc _ [0x10] _) _ = _ from rfl)

theorem second_built : Trie.Built Cell.Obtained ⟨[], []⟩ second :=
  built_of_assoc (.empty .map _) (by decide) (show result (KeyMap.assoc _ [0x20] _) _ = _ from rfl)

theorem whole_built : Trie.Built Cell.Obtained ⟨[], []⟩ whole :=
  built_of_assoc first_built (by decide) (show result (KeyMap.assoc _ [0x20] _) _ = _ from rfl)

theorem apart_genuine : apart.Genuine encodings := by
  refine .of_soft ⟨apart_readable, .inl rfl⟩ fun r member => ?_
  rw [Cell.refs, show apart.value = _ from Cell.value_ofValue _] at member
  rw [List.mem_singleton.mp member]
  rfl

theorem first_genuine : first.cell.Genuine encodings := apart_genuine.leaf (first_built.involved (.inr (.inl rfl)))

theorem second_genuine : second.cell.Genuine encodings :=
  apart_genuine.leaf (second_built.involved (.inr (.inr (.inl rfl))))

theorem part_shows : part.cell.Shows whole.cell := by
  rw [Cell.Shows, part.value_eq, whole.value_eq]
  rfl

theorem whole_genuine : whole.cell.Genuine encodings := by
  refine ⟨whole_built.involved (.inr (.inr (.inr rfl))), fun r member d held => ?_⟩
  rw [Cell.refs, whole.value_eq] at member
  rcases List.mem_pair.mp member with rfl | rfl
  · cases held
    exact first_genuine
  · cases held
    exact second_genuine

theorem part_genuine : part.cell.Genuine encodings := by
  have shown := whole_genuine.involved
  refine .of_soft ⟨shown.readable.ofShown part_shows, part_shows.encoding_eq ▸ shown.encoding⟩ fun r member => ?_
  rw [Cell.refs, part.value_eq] at member
  rcases List.mem_pair.mp member with rfl | rfl
  · rfl
  · rfl

theorem replica : whole.Replica encodings ⟨[], []⟩ part := by
  refine ⟨whole_built, .branch ?_ ?_, whole_genuine, part_genuine, part_shows.encoding_eq⟩
  · intro c member
    rcases List.mem_pair.mp member with rfl | rfl
    · rfl
    · rfl
  · intro c member t held
    have leaf : ∀ key, (Trie.leaf .map key (Ref.direct apart)).cell = t.cell → t.node.InMemory .map := by
      intro key same
      have value := t.value_eq
      rw [← same, Trie.value_eq, Value.trie.injEq] at value
      rw [← value.2]
      exact .leaf key _
    rcases List.mem_pair.mp member with rfl | rfl
    · exact leaf _ (Option.some.inj held)
    · exact leaf _ (Option.some.inj held)

theorem lent_honest : lent.Honest (Cell.GenuineFor encodings) := by
  constructor
  · intro l member e cached
    rw [List.mem_singleton.mp member] at cached
    cases cached
  · intro loader h
    cases loader with
    | zero =>
      have told : lent.told 0 h = .ok ((if first.cell.hash = h then some (⟨first.cell, .persisted⟩ : Held)
          else none).map fun e => (Ref.direct e.cell).withStatus e.status) := rfl
      rw [told]
      by_cases named : first.cell.hash = h
      · rw [if_pos named]
        exact .inr ⟨first.cell, Loader.accept_eq_ok.mpr ⟨_, rfl, rfl, named⟩, named, first_genuine⟩
      · rw [if_neg named]
        exact .inl rfl
    | succ loader => exact .inl rfl

theorem availability_lent : Set.InjOn Hash.digest encodings ∧ lent.Honest (Cell.GenuineFor encodings) ∧
    whole.Replica encodings ⟨[], []⟩ part ∧ Availability encodings ⟨[], []⟩ lent :=
  ⟨encodings_injective, lent_honest, replica, Session.availability encodings_injective lent_honest⟩

end PartlyHeld

end MerkleCells
