import MerkleCells.Proofs.Honest
import MerkleCells.Proofs.Obtained

/-!
A cell's identity does not depend on how its children are held. References that lead to the same targets, each in
whatever form, are put into forms that show the same before a parent holds them, so they make cells of the same
encoding, hash and embeddability, in two sessions as well as in one.
-/
namespace MerkleCells

open MerkleCells.Action

variable {I : Set Bytes} {s s' : Session}

/-! ### Targets -/

/-- The right cell for a hash: it has the hash and can be read, and its encoding is in `I`. -/
structure Cell.Right (I : Set Bytes) (h : Hash) (c : Cell) : Prop where
  named : c.hash = h
  involved : c.Involved I

/-- The right cells for one hash show the same, if there are no collisions. -/
theorem Cell.Right.shows (injective : Set.InjOn Hash.digest I) {h : Hash} {c c' : Cell} (right : c.Right I h)
    (right' : c'.Right I h) : c'.Shows c :=
  right'.involved.readable.shows_of_hash injective right'.involved.encoding right.involved.readable
    right.involved.encoding (right'.named.trans right.named.symm)

/-- Two cells have the same identity. -/
structure Cell.Same (c c' : Cell) : Prop where
  encoding : c.encoding = c'.encoding
  hash : c.hash = c'.hash
  embeddable : c.embeddable = c'.embeddable

theorem Cell.Shows.same {c c' : Cell} (shows : c.Shows c') : c.Same c' :=
  ⟨shows.encoding_eq, congrArg Mark.hash shows.mark_eq, shows.embeddable_eq⟩

namespace Ref

variable {r r' child : Ref Cell}

/-- A reference can be resolved, and what it holds directly is the right cell. -/
structure Proper (I : Set Bytes) (s : Session) (r : Ref Cell) : Prop where
  resolves : r.Resolves s
  right : ∀ d, r.cell? = some d → d.Right I r.hash

/-- References in two sessions lead to one target, each in its own form. -/
structure Agree (I : Set Bytes) (s s' : Session) (r r' : Ref Cell) : Prop where
  hash : r.hash = r'.hash
  left : r.Proper I s
  right : r'.Proper I s'

/-- A child stands for what a reference leads to. It is written inside its parent just if that is embeddable. -/
def StandsFor (s : Session) (r child : Ref Cell) : Prop :=
  child.hash = r.hash ∧ ∀ c, r.MayLead s c → child.isEmbedded = c.embeddable

theorem Proper.later (proper : r.Proper I s) (later : s.Later s') : r.Proper I s' :=
  { proper with resolves := proper.resolves.later later }

theorem Proper.yields (honest : s.Honest (Cell.Right I)) (proper : r.Proper I s) :
    Yields r.value s fun c _ => c.Right I r.hash := by
  obtain ⟨c, s₁, run, -⟩ := proper.resolves s (.refl s)
  exact ⟨c, s₁, run, right_of_value honest proper.right run⟩

theorem Proper.right_of_mayLead (honest : s.Honest (Cell.Right I)) (proper : r.Proper I s) {c : Cell}
    (leads : r.MayLead s c) : c.Right I r.hash := by
  obtain ⟨s₁, s₂, later, run⟩ := leads
  exact right_of_value (honest.later later) proper.right run

/-- A child that shows the right cell stands for the reference that led there. -/
theorem Proper.standsFor (injective : Set.InjOn Hash.digest I) (honest : s.Honest (Cell.Right I))
    (proper : r.Proper I s) {c : Cell} (right : c.Right I r.hash) (mark : child.mark = c.mark) :
    r.StandsFor s child := by
  refine ⟨(congrArg Mark.hash mark).trans right.named, fun d leads => ?_⟩
  have shows := Cell.Right.shows injective right (proper.right_of_mayLead honest leads)
  have inlined : child.inlined? = c.mark.inlined := congrArg Mark.inlined mark
  rw [shows.embeddable_eq, isEmbedded, inlined, Cell.mark]
  cases c.embeddable <;> rfl

/-- References in the form in which a parent holds them show the right cells. -/
theorem mapM_canonical_yields {items : List (Ref Cell)} (honest : s.Honest (Cell.Right I))
    (proper : ∀ r ∈ items, r.Proper I s) : Yields (items.mapM canonical) s fun children s₁ => s.Later s₁ ∧
      List.Forall₂ (fun r child => ∃ c : Cell, c.Right I r.hash ∧ child.mark = c.mark) items children := by
  induction items generalizing s with
  | nil => exact yields_pure.mpr ⟨.refl s, .nil⟩
  | cons r rest ih =>
    rw [List.mapM_cons]
    obtain ⟨c, s₁, run, right⟩ := (proper r (by simp)).yields honest
    refine (r.canonical_yields run right.named).bind ?_
    rintro child s₂ ⟨mark, later⟩
    refine (ih (honest.later later) fun q member => (proper q (by simp [member])).later later).bind ?_
    rintro children s₃ ⟨later', each⟩
    exact yields_pure.mpr ⟨later.trans later', .cons ⟨c, right, mark⟩ each⟩

theorem forall₂_standsFor (injective : Set.InjOn Hash.digest I) {items children : List (Ref Cell)}
    (honest : s.Honest (Cell.Right I)) (proper : ∀ r ∈ items, r.Proper I s)
    (each : List.Forall₂ (fun r child => ∃ c : Cell, c.Right I r.hash ∧ child.mark = c.mark) items children) :
    List.Forall₂ (StandsFor s) items children := by
  refine ((List.forall₂_and_left items children).mpr ⟨proper, each⟩).imp ?_
  rintro r child ⟨proper, c, right, mark⟩
  exact proper.standsFor injective honest right mark

theorem Agree.proper {items items' : List (Ref Cell)} (agree : List.Forall₂ (Agree I s s') items items') :
    (∀ r ∈ items, r.Proper I s) ∧ ∀ r ∈ items', r.Proper I s' := by
  induction agree with
  | nil => simp
  | cons first _ ih => simpa using ⟨⟨first.left, ih.1⟩, first.right, ih.2⟩

/-- References that lead to the same targets are held by a parent in forms that show the same. -/
theorem marks_eq (injective : Set.InjOn Hash.digest I) {items items' children children' : List (Ref Cell)}
    (agree : List.Forall₂ (Agree I s s') items items')
    (each : List.Forall₂ (fun r child => ∃ c : Cell, c.Right I r.hash ∧ child.mark = c.mark) items children)
    (each' : List.Forall₂ (fun r child => ∃ c : Cell, c.Right I r.hash ∧ child.mark = c.mark) items' children') :
    children.map mark = children'.map mark := by
  induction agree generalizing children children' with
  | nil =>
    cases each
    cases each'
    rfl
  | cons first _ ih =>
    obtain _ | ⟨⟨c, right, mark⟩, each⟩ := each
    obtain _ | ⟨⟨c', right', mark'⟩, each'⟩ := each'
    rw [← first.hash] at right'
    rw [List.map_cons, List.map_cons, ih each each', mark, mark', (Cell.Right.shows injective right' right).mark_eq]

end Ref

/-! ### Cells that list their children -/

namespace Cell.Form

/-- A form takes a number of children. -/
def Admits : Form → Nat → Prop
  | .vector, n => n ≤ Limits.fields
  | .record kind, n => kind.toNat < 16 ∧ n ≤ Limits.fields
  | .code opcode, n => opcode.toNat < 16 ∧ n ≤ Limits.fields

theorem checkLength_eq_ok {part : Sized} {n limit : Nat} (short : n ≤ limit) : checkLength part n limit = .ok () := by
  rw [checkLength, if_neg (not_lt.mpr short)]
  rfl

theorem checkDigit_eq_ok {part : Selector} {n : UInt8} (small : n.toNat < 16) :
    checkDigit part n = .ok ⟨n.toNat, small⟩ := by
  rw [checkDigit, dif_pos small]
  rfl

theorem shape_of_admits {form : Form} {n : Nat} (admits : form.Admits n) : ∃ value, form.shape n = .ok value := by
  cases form with
  | vector =>
    rw [shape, checkLength_eq_ok admits]
    exact ⟨_, rfl⟩
  | record kind =>
    rw [shape, checkDigit_eq_ok admits.1]
    dsimp only [bind, Except.bind]
    rw [checkLength_eq_ok admits.2]
    exact ⟨_, rfl⟩
  | code opcode =>
    rw [shape, checkDigit_eq_ok admits.1]
    dsimp only [bind, Except.bind]
    rw [checkLength_eq_ok admits.2]
    exact ⟨_, rfl⟩

/-- What is refused is refused for the form and the number of children alone. -/
theorem refused_of_not_admits {form : Form} {n : Nat} (refused : ¬ form.Admits n) : ∃ e, form.shape n = .error e := by
  cases shaped : form.shape n with
  | error e => exact ⟨e, rfl⟩
  | ok value =>
    refine absurd ?_ refused
    have short := (lists_of_shape shaped).1
    cases form with
    | vector => exact short
    | record kind =>
      refine ⟨?_, short⟩
      by_contra large
      rw [shape, checkDigit, dif_neg large] at shaped
      cases shaped
    | code opcode =>
      refine ⟨?_, short⟩
      by_contra large
      rw [shape, checkDigit, dif_neg large] at shaped
      cases shaped

/-- References to the same targets make cells of the same identity. -/
theorem make_same (injective : Set.InjOn Hash.digest I) (honest : s.Honest (Cell.Right I))
    (honest' : s'.Honest (Cell.Right I)) {items items' : List (Ref Cell)}
    (agree : List.Forall₂ (Ref.Agree I s s') items items') {form : Form} (admits : form.Admits items.length) :
    Yields (form.make items) s fun c _ => Yields (form.make items') s' fun c' _ =>
      c.Same c' ∧ List.Forall₂ (Ref.StandsFor s) items c.refs ∧ List.Forall₂ (Ref.StandsFor s') items' c'.refs := by
  obtain ⟨proper, proper'⟩ := Ref.Agree.proper agree
  obtain ⟨value, shaped⟩ := shape_of_admits admits
  obtain ⟨-, lists⟩ := lists_of_shape shaped
  have shaped' : form.shape items'.length = .ok value := by rw [← agree.length_eq, shaped]
  obtain ⟨children, s₁, run, -, each⟩ := Ref.mapM_canonical_yields honest proper
  obtain ⟨children', s₁', run', -, each'⟩ := Ref.mapM_canonical_yields honest' proper'
  have made : result (form.make items) s = (.ok (Cell.ofValue (value children)), s₁) := by
    rw [result_make, shaped]
    simp only [result_bind, run, result_pure]
  have made' : result (form.make items') s' = (.ok (Cell.ofValue (value children')), s₁') := by
    rw [result_make, shaped']
    simp only [result_bind, run', result_pure]
  have refs : ∀ cs, (Cell.ofValue (value cs)).refs = cs := fun cs => by
    rw [Cell.refs, Cell.value_ofValue, lists.refs]
  refine ⟨_, s₁, made, _, s₁', made', ?_, ?_, ?_⟩
  · refine Shows.same ?_
    rw [Shows, Cell.value_ofValue, Cell.value_ofValue]
    exact lists.marks _ _ (Ref.marks_eq injective agree each each')
  · rw [refs]
    exact Ref.forall₂_standsFor injective honest proper each
  · rw [refs]
    exact Ref.forall₂_standsFor injective honest' proper' each'

end Cell.Form

/-! ### Tries -/

namespace Trie

variable {kind : TrieKind} {t t' : Trie kind} {f : Content Mark} {key : Bytes} {r r' : Ref Cell}

/-- Tries in two sessions carry one content. -/
def Akin (s s' : Session) (t t' : Trie kind) : Prop := ∃ f, t.Carries s f ∧ t'.Carries s' f

/-- A key is bound in one session to what a reference leads to in another. -/
def Binds (s₁ : Session) (t : Trie kind) (key : Bytes) (s : Session) (r : Ref Cell) : Prop :=
  Yields (t.get? key) s₁ fun found _ => ∃ child, found = some child ∧ r.StandsFor s child

theorem Inserted.binds (injective : Set.InjOn Hash.digest I) (honest : s.Honest (Cell.Right I)) (proper : r.Proper I s)
    {c : Cell} (right : c.Right I r.hash) (admitted : f.Admitted kind) (admits : kind.Admits key c.mark) {s₁ : Session}
    {v : Trie kind} (inserted : Inserted s₁ f key c.mark (some v)) : v.Binds s₁ key s r := by
  refine (get?_yields key inserted.2 (admitted.put admits)).mono ?_
  rintro found s₂ ⟨bound, -⟩
  rw [Content.put_self] at bound
  obtain ⟨child, rfl, mark⟩ := Option.map_eq_some_iff.mp bound
  exact ⟨child, rfl, proper.standsFor injective honest right mark⟩

/-- Inserting references to one target into tries of one content comes to the same: either nothing changes, or both
results have one identity and bind the key to the target. -/
theorem insert_same (injective : Set.InjOn Hash.digest I) (honest : s.Honest (Cell.Right I))
    (honest' : s'.Honest (Cell.Right I)) (akin : t.Akin s s' t') (agree : r.Agree I s s' r')
    (admits : ∀ c : Cell, c.hash = r.hash → kind.Admits key c.mark) (room : t.count.toNat + 1 < UInt64.size) :
    Yields (t.insert key r) s fun u s₁ => Yields (t'.insert key r') s' fun u' s₁' =>
      (u.getD t).Akin s₁ s₁' (u'.getD t') ∧
        Option.Rel (fun v v' => v.cell.Same v'.cell ∧ v.Binds s₁ key s r ∧ v'.Binds s₁' key s' r') u u' := by
  obtain ⟨f, carries, carries'⟩ := akin
  obtain ⟨hash, proper, proper'⟩ := agree
  obtain ⟨c, s₀, run, right⟩ := proper.yields honest
  obtain ⟨c', s₀', run', right'⟩ := proper'.yields honest'
  have mark : c'.mark = c.mark := (Cell.Right.shows injective right (hash ▸ right')).mark_eq
  have fits := admits c right.named
  have fits' := mark.symm ▸ fits
  have room : (f.put key c.mark).size < UInt64.size := carries.room room c.mark
  refine (insert_yields run right.named carries.holds carries.admitted fits room).mono ?_
  rintro u s₁ ⟨later, inserted⟩
  rw [← mark] at room
  refine (insert_yields run' right'.named carries'.holds carries'.admitted fits' room).mono ?_
  rintro u' s₁' ⟨later', inserted'⟩
  -- what both leave is told by the content, which has a value of the target's hash already or not
  cases u with
  | none =>
    cases u' with
    | none => exact ⟨⟨f, carries.later later, carries'.later later'⟩, .none⟩
    | some v' =>
      obtain ⟨old, bound, same⟩ := inserted
      exact absurd (same.trans (congrArg Mark.hash mark.symm)) (inserted'.1 old bound)
  | some v =>
    cases u' with
    | none =>
      obtain ⟨old, bound, same⟩ := inserted'
      exact absurd (same.trans (congrArg Mark.hash mark)) (inserted.1 old bound)
    | some v' =>
      have holds' := inserted'.2
      rw [mark] at holds'
      have admitted := carries.admitted.put fits
      have readable : (f.put key c.mark).Readable := carries.readable.put right.involved.readable.mark
      refine ⟨⟨_, ⟨inserted.2, admitted, readable⟩, ⟨holds', admitted, readable⟩⟩, .some ⟨?_, ?_, ?_⟩⟩
      · exact (shows_of_holds inserted.2 holds').same
      · exact inserted.binds injective honest proper right carries.admitted fits
      · exact inserted'.binds injective honest' proper' right' carries'.admitted fits'

end Trie

/-- In two sessions, what is made of references to the same targets has the same identity, and embeddability is told
by an encoding alone. -/
structure Identity (I : Set Bytes) (s s' : Session) : Prop where
  /-- Vectors, records and code write a child inside just if its target is embeddable. What is refused is refused for
  the number of children or for the selector. -/
  lists : ∀ (form : Cell.Form) (items items' : List (Ref Cell)), List.Forall₂ (Ref.Agree I s s') items items' →
    (form.Admits items.length → Yields (form.make items) s fun c _ => Yields (form.make items') s' fun c' _ =>
      c.Same c' ∧ List.Forall₂ (Ref.StandsFor s) items c.refs ∧ List.Forall₂ (Ref.StandsFor s') items' c'.refs) ∧
    (¬ form.Admits items.length → ∃ e, result (form.make items) s = (.error e, s) ∧
      result (form.make items') s' = (.error e, s'))
  /-- So do maps of one content, which change alike or not at all and carry one content again. -/
  maps : ∀ (r r' : Ref Cell) (key : Bytes) (m m' : KeyMap), r.Agree I s s' r' → m.Akin s s' m' →
    m.count.toNat + 1 < UInt64.size →
    (KeyMap.ValidKey key → Yields (m.assoc key r) s fun u s₁ => Yields (m'.assoc key r') s' fun u' s₁' =>
      (u.getD m).Akin s₁ s₁' (u'.getD m') ∧
        Option.Rel (fun v v' => v.cell.Same v'.cell ∧ v.Binds s₁ key s r ∧ v'.Binds s₁' key s' r') u u') ∧
    (¬ KeyMap.ValidKey key → ∃ e, result (m.assoc key r) s = (.error e, s) ∧
      result (m'.assoc key r') s' = (.error e, s'))
  /-- So do sets of one content. -/
  sets : ∀ (r r' : Ref Cell) (t t' : ContentSet), r.Agree I s s' r' → t.Akin s s' t' →
    t.count.toNat + 1 < UInt64.size →
    Yields (t.conj r) s fun u s₁ => Yields (t'.conj r') s' fun u' s₁' =>
      (u.getD t).Akin s₁ s₁' (u'.getD t') ∧ Option.Rel (fun v v' =>
        v.cell.Same v'.cell ∧ v.Binds s₁ r.hash.bytes s r ∧ v'.Binds s₁' r.hash.bytes s' r') u u'
  /-- A cell is embeddable just if its encoding is short and no hash stands in it at any level of what is written
  inside. -/
  embeddable : ∀ c : Cell, c.Obtained → ∃ d, decode none c.encoding = .ok d ∧
    (c.embeddable = true ↔ c.encoding.length ≤ Limits.embedded ∧ ∀ k, ¬ d.Marks k)

theorem KeyMap.checkKey_error {key : Bytes} (invalid : ¬ ValidKey key) : ∃ e, checkKey key = .error e := by
  cases checked : checkKey key with
  | error e => exact ⟨e, rfl⟩
  | ok u => exact absurd (valid_of_checkKey checked) invalid

/-- An identity does not depend on how children are held, if stores are honest and there are no collisions. -/
theorem Session.identity (injective : Set.InjOn Hash.digest I) (honest : s.Honest (Cell.Right I))
    (honest' : s'.Honest (Cell.Right I)) : Identity I s s' := by
  constructor
  · intro form items items' agree
    constructor
    · intro admits
      exact Cell.Form.make_same injective honest honest' agree admits
    · intro refused
      obtain ⟨e, shaped⟩ := Cell.Form.refused_of_not_admits refused
      refine ⟨e, ?_, ?_⟩
      · rw [Cell.Form.result_make, shaped]
      · rw [Cell.Form.result_make, ← agree.length_eq, shaped]
  · intro r r' key m m' agree akin room
    constructor
    · intro valid
      have admits : ∀ c : Cell, c.hash = r.hash → TrieKind.map.Admits key c.mark := fun _ _ => valid
      have inserted := Trie.insert_same injective honest honest' akin agree admits room
      refine yields_bind.mpr (KeyMap.yields_checkKey valid (inserted.mono fun u s₁ both => ?_))
      exact yields_bind.mpr (KeyMap.yields_checkKey valid both)
    · intro invalid
      obtain ⟨e, refused⟩ := KeyMap.checkKey_error invalid
      refine ⟨e, ?_, ?_⟩
      · rw [KeyMap.assoc, result_bind, result_liftExcept, refused]
      · rw [KeyMap.assoc, result_bind, result_liftExcept, refused]
  · intro r r' t t' agree akin room
    rw [ContentSet.conj, ContentSet.conj, ← agree.hash]
    exact Trie.insert_same injective honest honest' akin agree (fun c named => congrArg Hash.bytes named.symm) room
  · intro c obtained
    exact obtained.embeddable_iff

/-! ### References through a loader -/

namespace SoftlyHeld

/-- A cell that no parent writes inside its own encoding, because a hash stands in it. -/
def apart : Cell := Cell.ofValue (.vector [Ref.ofMarker Hash.zero none])

/-- The encodings of that cell and of one that is embeddable. -/
def encodings : Set Bytes := {Cell.nil.encoding, apart.encoding}

/-- A session whose store holds both cells, behind a loader that keeps no more than one of them. -/
def lent : Session :=
  ⟨[⟨0, .empty 1 one_pos, 0, 0⟩],
    [.memory ⟨[(Cell.nil.hash, ⟨Cell.nil, .persisted⟩), (apart.hash, ⟨apart, .persisted⟩)]⟩]⟩

theorem digests_ne : Hash.digest Cell.nil.encoding ≠ Hash.digest apart.encoding := by decide +kernel

theorem encodings_injective : Set.InjOn Hash.digest encodings := by
  rintro a (rfl | rfl) b (rfl | rfl) same
  · rfl
  · exact absurd same digests_ne
  · exact absurd same.symm digests_ne
  · rfl

theorem apart_readable : apart.Readable := by
  have value : apart.value = .vector [Ref.ofMarker Hash.zero none] := Cell.value_ofValue _
  refine .ofValue ?_ ?_ (by decide +kernel) ?_ ?_
  · rw [value]
    exact (by decide : 1 ≤ Limits.fields)
  · rw [value]
    trivial
  · rw [Cell.refs, value]
    intro r member e inlined
    rw [List.mem_singleton.mp member] at inlined
    cases inlined
  · intro kind n shape
    rw [value] at shape
    cases shape

theorem right {c : Cell} (listed : c = Cell.nil ∨ c = apart) : c.Right encodings c.hash := by
  refine ⟨rfl, ?_, ?_⟩
  · rcases listed with rfl | rfl
    · exact Cell.Built.nil.readable
    · exact apart_readable
  · rcases listed with rfl | rfl
    · exact .inl rfl
    · exact .inr rfl

theorem told_eq (h : Hash) : lent.told 0 h = .ok ((if Cell.nil.hash = h then some (⟨Cell.nil, .persisted⟩ : Held)
    else if apart.hash = h then some ⟨apart, .persisted⟩ else none).map fun e =>
      (Ref.direct e.cell).withStatus e.status) := rfl

theorem told_lent (h : Hash) : lent.told 0 h = .ok none ∨
    ∃ c, (c = Cell.nil ∨ c = apart) ∧ c.hash = h ∧ Loader.accept h (lent.told 0 h) = .ok c := by
  rw [told_eq]
  by_cases first : Cell.nil.hash = h
  · rw [if_pos first]
    exact .inr ⟨Cell.nil, .inl rfl, first, Loader.accept_eq_ok.mpr ⟨_, rfl, rfl, first⟩⟩
  · rw [if_neg first]
    by_cases second : apart.hash = h
    · rw [if_pos second]
      exact .inr ⟨apart, .inr rfl, second, Loader.accept_eq_ok.mpr ⟨_, rfl, rfl, second⟩⟩
    · rw [if_neg second]
      exact .inl rfl

theorem told_ne {c : Cell} (listed : c = Cell.nil ∨ c = apart) : lent.told 0 c.hash ≠ .ok none := by
  intro absent
  rw [told_eq] at absent
  rcases listed with rfl | rfl
  · rw [if_pos rfl] at absent
    cases absent
  · split at absent
    · cases absent
    · rw [if_pos rfl] at absent
      cases absent

theorem lent_honest : lent.Honest (Cell.Right encodings) := by
  constructor
  · intro l member e cached
    rw [List.mem_singleton.mp member] at cached
    cases cached
  · intro loader h
    cases loader with
    | zero =>
      rcases told_lent h with none | ⟨c, listed, rfl, given⟩
      · exact .inl none
      · exact .inr ⟨c, given, right listed⟩
    | succ loader => exact .inl rfl

theorem agree {c : Cell} (listed : c = Cell.nil ∨ c = apart) :
    (Ref.direct c).Agree encodings ⟨[], []⟩ lent (Ref.soft c.hash 0) := by
  refine ⟨rfl, ⟨Ref.resolves_direct _ c _, ?_⟩, ⟨?_, ?_⟩⟩
  · intro d held
    cases held
    exact right listed
  · refine Ref.resolves_of_present lent_honest (fun h d right => right.named) ?_ ?_ ?_
    · intro d held
      cases held
    · intro loader marker
      cases marker
    · exact told_ne listed
  · intro d held
    cases held

theorem identity_lent : Set.InjOn Hash.digest encodings ∧ Session.Honest (Cell.Right encodings) ⟨[], []⟩ ∧
    lent.Honest (Cell.Right encodings) ∧
    List.Forall₂ (Ref.Agree encodings ⟨[], []⟩ lent) [Ref.direct Cell.nil, Ref.direct apart]
      [Ref.soft Cell.nil.hash 0, Ref.soft apart.hash 0] ∧ Identity encodings ⟨[], []⟩ lent := by
  have plain_honest : Session.Honest (Cell.Right encodings) ⟨[], []⟩ := by
    constructor
    · intro l member
      cases member
    · intro loader h
      exact .inl rfl
  refine ⟨encodings_injective, plain_honest, lent_honest, ?_, ?_⟩
  · exact .cons (agree (.inl rfl)) (.cons (agree (.inr rfl)) .nil)
  · exact Session.identity encodings_injective plain_honest lent_honest

end SoftlyHeld

end MerkleCells
