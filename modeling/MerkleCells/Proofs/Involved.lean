import MerkleCells.Proofs.Constructible

/-!
Contents that are told by hashes. The hash is taken to have no collisions on a set `I` of encodings. If that has
the encodings of all values, a hash stands for what its cell shows (`Hash.markIn`); and if it has those of all
nodes of some tries, tries of the same hash carry the same content (`telling_known`), which is what a merge
relies on.
-/
namespace MerkleCells

open MerkleCells.Action

variable {I : Set Bytes}

/-! ### Hashes of values -/

open Classical in
/-- What the cell of a hash shows, of the cells with encodings in `I`. -/
noncomputable def Hash.markIn (I : Set Bytes) (h : Hash) : Mark :=
  if found : ∃ c : Cell, c.Readable ∧ c.encoding ∈ I ∧ c.hash = h then found.choose.mark else ⟨h, none⟩

@[simp]
theorem Hash.hash_markIn (I : Set Bytes) (h : Hash) : (h.markIn I).hash = h := by
  rw [markIn]
  split
  · next found => exact found.choose_spec.2.2
  · rfl

/-- Cells that can be read and have the same hash show the same, if there are no collisions. -/
theorem Cell.Readable.shows_of_hash (injective : Set.InjOn Hash.digest I) {c c' : Cell} (readable : c.Readable)
    (involved : c.encoding ∈ I) (readable' : c'.Readable) (involved' : c'.encoding ∈ I) (same : c.hash = c'.hash) :
    c.Shows c' := by
  rw [c.hash_eq, c'.hash_eq] at same
  exact readable.shows readable' (injective involved involved' same)

theorem Cell.Readable.markIn_hash (injective : Set.InjOn Hash.digest I) {c : Cell} (readable : c.Readable)
    (involved : c.encoding ∈ I) : c.hash.markIn I = c.mark := by
  have found : ∃ d : Cell, d.Readable ∧ d.encoding ∈ I ∧ d.hash = c.hash := ⟨c, readable, involved, rfl⟩
  obtain ⟨readable', involved', same⟩ := found.choose_spec
  rw [Hash.markIn, dif_pos found]
  exact (readable'.shows_of_hash injective involved' readable involved same).mark_eq

/-- A reference leads to a cell of its hash that can be read and whose encoding is in `I`. -/
def Ref.Offers (I : Set Bytes) (s : Session) (r : Ref Cell) : Prop :=
  ∀ s', s.Later s' → Yields r.value s' fun c _ => c.hash = r.hash ∧ c.Readable ∧ c.encoding ∈ I

theorem Ref.Offers.later {s s' : Session} {r : Ref Cell} (offers : r.Offers I s) (later : s.Later s') : r.Offers I s' :=
  fun _ later' => offers _ (later.trans later')

theorem Ref.Offers.known {r : Ref Cell} {s : Session} (offers : r.Offers I s) :
    ∃ c : Cell, c.Readable ∧ c.encoding ∈ I ∧ c.hash = r.hash := by
  obtain ⟨c, -, -, named, readable, involved⟩ := offers s (.refl s)
  exact ⟨c, readable, involved, named⟩

theorem Ref.offers_direct {c : Cell} (readable : c.Readable) (involved : c.encoding ∈ I) (s : Session) :
    (Ref.direct c).Offers I s :=
  fun s' _ => ⟨c, s', rfl, rfl, readable, involved⟩

namespace Content

/-- What some bindings to hashes show. -/
noncomputable def marks (I : Set Bytes) (H : Content Hash) : Content Mark := fun k => (H k).map (Hash.markIn I)

variable {H H' : Content Hash} {key : Bytes} {h : Hash}

@[simp]
theorem marks_none : marks I .none = .none := rfl

theorem marks_put : (H.put key h).marks I = (H.marks I).put key (h.markIn I) := by
  funext k
  by_cases here : k = key <;> simp [marks, put, here]

theorem marks_erase : (H.erase key).marks I = (H.marks I).erase key := by
  funext k
  by_cases here : k = key <;> simp [marks, erase, here]

theorem marks_combine (op : SetOperation) : (op.combine H H').marks I = op.combine (H.marks I) (H'.marks I) := by
  funext k
  simp only [marks, SetOperation.combine]
  cases H k <;> cases H' k <;> simp only [Option.map_none, Option.map_some] <;> split <;> rfl

theorem keys_marks : (H.marks I).keys = H.keys := by
  ext k
  simp [mem_keys, marks]

theorem size_marks : (H.marks I).size = H.size := by rw [size, size, keys_marks]

end Content

theorem Trie.Updated.eq_marks (injective : Set.InjOn Hash.digest I) {H : Content Hash} {key : Bytes} {c : Cell}
    {f : Content Mark} (updated : Trie.Updated (H.marks I) key c.mark f) (readable : c.Readable)
    (involved : c.encoding ∈ I) : f = (H.put key c.hash).marks I := by
  have put : (H.put key c.hash).marks I = (H.marks I).put key c.mark := by
    rw [Content.marks_put, readable.markIn_hash injective involved]
  rw [put]
  rcases updated with rfl | ⟨rfl, old, bound, same⟩
  · rfl
  · -- the old value has the same hash, so it shows the same
    have equal : old = c.mark := by
      obtain ⟨h, -, rfl⟩ := Option.map_eq_some_iff.mp bound
      rw [Hash.hash_markIn] at same
      rw [same]
      exact readable.markIn_hash injective involved
    funext k
    by_cases here : k = key
    · rw [here, Content.put_self, bound, equal]
    · rw [Content.put_of_ne here]

/-! ### Hashes of nodes -/

/-- A node that is written as another one holds the same content, if there are no collisions below. -/
theorem Node.Holds.content_eq (injective : Set.InjOn Hash.digest I) {n n' : Node (Ref Cell)} {s s' : Session}
    {p q : Content Mark} (holds : n.Holds .set s p) (holds' : n'.Holds .set s' q) (admitted : p.Admitted .set)
    (admitted' : q.Admitted .set) (readable : p.Readable) (readable' : q.Readable)
    (involved : ∀ m, n.Reaches .set s m → (Value.trie .set m).encode ∈ I)
    (involved' : ∀ m, n'.Reaches .set s' m → (Value.trie .set m).encode ∈ I)
    (same : n.map Ref.mark = n'.map Ref.mark) : p = q := by
  induction holds generalizing n' s' q with
  | empty content =>
    cases holds' with
    | empty content' => rw [content, content']
    | leaf => cases same
    | branch => cases same
  | leaf key value content =>
    cases holds' with
    | empty => cases same
    | leaf key' value' content' =>
      rw [Node.map, Node.map, Node.leaf.injEq] at same
      rw [content, content', same.1, same.2]
    | branch => cases same
  | @branch s p b fits occupants found below ih =>
    cases n' with
    | empty => cases same
    | leaf => cases same
    | branch b' =>
      rw [Node.map, Node.map, Node.branch.injEq] at same
      have depth : b.depth = b'.depth := congrArg (fun c : Branch Mark => c.depth) same
      have parts' := holds'.parts
      have goesOn' := (holds'.fits.goesOn admitted' holds'.occupants).2
      rw [← depth] at parts' goesOn'
      refine (fits.goesOn admitted occupants).2.ext goesOn' fun d => ?_
      have child := Branch.child?_map_mark same d
      cases at_d : b.child? d with
      | none =>
        have absent := (fits.child_iff d).not.mp (by rw [at_d]; simp)
        rw [at_d, Option.map_none, eq_comm, Option.map_eq_none_iff] at child
        rw [not_not.mp absent, (parts' d).1 (by rw [← Branch.child?_eq, child])]
      | some r =>
        rw [at_d, Option.map_some, eq_comm] at child
        obtain ⟨r', at_d', mark⟩ := Option.map_eq_some_iff.mp child
        obtain ⟨t, s₁, run, shown⟩ := found d r at_d s (.refl s)
        obtain ⟨t', s₁', run', shown', -, child'⟩ := ((parts' d).2 r' (by rw [← Branch.child?_eq, at_d'])).2 s' (.refl s')
        have child := below d r at_d s (.refl s) t s₁ run
        have hash : t.cell.hash = t'.cell.hash := by
          have marks : t.cell.mark = t'.cell.mark := by rw [shown, shown', mark]
          exact congrArg Mark.hash marks
        have reaches : ∀ m, t.node.Reaches .set s₁ m → (Value.trie .set m).encode ∈ I := fun m reaches =>
          involved m (.child at_d run reaches)
        have reaches' : ∀ m, t'.node.Reaches .set s₁' m → (Value.trie .set m).encode ∈ I := fun m reaches =>
          involved' m (.child at_d' run' reaches)
        have shows : t.cell.Shows t'.cell :=
          (Trie.readable child (admitted.below _ d) (readable.below _ d)).shows_of_hash injective
            (by rw [t.encoding_eq]; exact reaches _ (.refl _ _))
            (Trie.readable child' (admitted'.below _ d) (readable'.below _ d))
            (by rw [t'.encoding_eq]; exact reaches' _ (.refl _ _)) hash
        rw [Cell.Shows, t.value_eq, t'.value_eq, Value.map, Value.map, Value.trie.injEq] at shows
        exact ih d r at_d s (.refl s) t s₁ run child' (admitted.below _ d) (admitted'.below _ d) (readable.below _ d)
          (readable'.below _ d) reaches reaches' shows.2

/-- The encodings of the nodes of sets that hold a content. -/
def Content.nodes (f : Content Mark) : Set Bytes :=
  {e | ∃ (s : Session) (t : ContentSet) (n : Node (Ref Cell)), t.node.Holds .set s f ∧ t.node.Reaches .set s n ∧
    (Value.trie .set n).encode = e}

/-- There is a set that carries a content and all of whose nodes have encodings in `I`. -/
def Content.Known (I : Set Bytes) (p : Content Mark) : Prop :=
  ∃ (s : Session) (t : ContentSet), t.Carries s p ∧ ∀ n, t.node.Reaches .set s n → (Value.trie .set n).encode ∈ I

/-- A node that holds what another one does leads to nodes with the same encodings. -/
theorem Node.Holds.reaches_same {kind : TrieKind} {s s' : Session} {n n' m : Node (Ref Cell)} {f : Content Mark}
    (holds : n.Holds kind s f) (holds' : n'.Holds kind s' f) (reaches : n.Reaches kind s m) :
    ∃ m', n'.Reaches kind s' m' ∧ (Value.trie kind m').encode = (Value.trie kind m).encode := by
  induction reaches generalizing n' s' f with
  | refl s n =>
    refine ⟨n', .refl s' n', ?_⟩
    have shows : (Trie.ofNode kind n').cell.Shows (Trie.ofNode kind n).cell := Trie.shows_of_holds holds' holds
    have same := shows.encoding_eq
    rwa [Trie.encoding_eq, Trie.encoding_eq] at same
  | @child s s₁ b d r t m found run _ ih =>
    cases n' with
    | empty => exact absurd (holds'.isEmpty_iff.mp rfl) (holds.fits.ne_none holds.occupants)
    | leaf => cases holds'.map_mark_eq holds
    | branch b' =>
      have same : b'.map Ref.mark = b.map Ref.mark := Node.branch.inj (holds'.map_mark_eq holds)
      have depth : b'.depth = b.depth := congrArg (fun c : Branch Mark => c.depth) same
      have child := Branch.child?_map_mark same d
      rw [found] at child
      obtain ⟨r', found', -⟩ := Option.map_eq_some_iff.mp child
      obtain ⟨-, -, below⟩ := (holds.leads found s (.refl s)).of_result run
      obtain ⟨t', s₁', run', -, -, below'⟩ := holds'.leads found' s' (.refl s')
      rw [depth] at below'
      obtain ⟨m', reaches', encoded⟩ := ih below below'
      exact ⟨m', .child found' run' reaches', encoded⟩

/-- The nodes of one set are all that there are for what it carries. -/
theorem Trie.Carries.nodes_subset {s : Session} {t : ContentSet} {f : Content Mark} (carries : t.Carries s f)
    (involved : ∀ n, t.node.Reaches .set s n → (Value.trie .set n).encode ∈ I) : f.nodes ⊆ I := by
  rintro e ⟨s', t', n, holds, reaches, rfl⟩
  obtain ⟨n', reaches', same⟩ := holds.reaches_same carries.holds reaches
  rw [← same]
  exact involved n' reaches'

theorem Trie.Carries.known {s : Session} {t : ContentSet} {f : Content Mark} (carries : t.Carries s f)
    (involved : f.nodes ⊆ I) : f.Known I :=
  ⟨s, t, carries, fun n reaches => involved ⟨s, t, n, carries.holds, reaches, rfl⟩⟩

/-- The part of a content below a digit before those that all keys share. -/
theorem Node.Holds.below_of_lt {kind : TrieKind} {s : Session} {n : Node (Ref Cell)} {p : Content Mark}
    (holds : n.Holds kind s p) {depth : Nat} (lt : depth < n.depth) (d : Digit) :
    p.below depth d = p ∨ p.below depth d = .none := by
  by_cases here : Digits.digit? n.path depth = some d
  · exact .inl (Content.below_eq_self fun k bound => by rw [(holds.within k bound).digit?_eq lt, here])
  · exact .inr (Content.below_eq_none fun k bound => by rwa [(holds.within k bound).digit?_eq lt])

/-- What is below a digit of a known content is known: it is everything, nothing or what a child holds. -/
theorem Content.Known.below {p : Content Mark} (known : p.Known I) (empty : (Content.none : Content Mark).Known I)
    {path : Bytes} {depth : Nat} (within : p.Within path depth) (d : Digit) : (p.below depth d).Known I := by
  by_cases nonempty : p = .none
  · rwa [nonempty, Content.below_none]
  have whole := known
  obtain ⟨s, t, carries, involved⟩ := known
  rcases Nat.lt_or_eq_of_le (carries.holds.le_depth nonempty within) with lt | eq
  · rcases carries.holds.below_of_lt lt d with same | gone
    · rwa [same]
    · rwa [gone]
  have holds := carries.holds
  cases shape : t.node with
  | empty => exact absurd (holds.isEmpty_iff.mp (by rw [shape]; rfl)) nonempty
  | leaf key value =>
    rw [shape] at holds eq
    have gone : p.below depth d = .none := Content.below_eq_none fun k bound here => by
      have inside := Digits.lt_count here
      cases holds with
      | leaf _ _ content =>
        rw [content, Content.keys_single] at bound
        cases bound
        rw [eq] at inside
        exact lt_irrefl _ inside
    rwa [gone]
  | branch b =>
    rw [shape] at holds eq involved
    obtain ⟨absent, present⟩ := holds.parts d
    rw [← show depth = b.depth from eq] at absent present
    cases at_d : Branch.childIn b.children d with
    | none => rwa [absent at_d]
    | some r =>
      obtain ⟨u, s₁, run, -, -, child⟩ := (present r at_d).2 s (.refl s)
      exact ⟨s₁, u, ⟨child, carries.admitted.below _ _, carries.readable.below _ _⟩, fun n reaches =>
        involved n (.child (by rw [Branch.child?_eq, at_d]) run reaches)⟩

/-- Without collisions, contents are told by the hashes of sets whose nodes are known. -/
theorem telling_known (injective : Set.InjOn Hash.digest I) (empty : (Content.none : Content Mark).Known I) :
    Trie.Telling (Content.Known I) := by
  refine ⟨fun p path depth d known within => known.below empty within d, ?_⟩
  · rintro p q ⟨s₁, u, carries, involved⟩ ⟨s₂, u', carries', involved'⟩ s s' t t' holds holds' same
    have shows := Trie.shows_of_holds holds carries.holds
    have shows' := Trie.shows_of_holds holds' carries'.holds
    have hash : u.cell.hash = u'.cell.hash := by
      have marks : u.cell.mark.hash = u'.cell.mark.hash := by
        rw [← shows.mark_eq, ← shows'.mark_eq]
        exact same
      exact marks
    have shown : u.cell.Shows u'.cell := carries.cell_readable.shows_of_hash injective
      (by rw [u.encoding_eq]; exact involved _ (.refl _ _)) carries'.cell_readable
      (by rw [u'.encoding_eq]; exact involved' _ (.refl _ _)) hash
    rw [Cell.Shows, u.value_eq, u'.value_eq, Value.map, Value.map, Value.trie.injEq] at shown
    exact carries.holds.content_eq injective carries'.holds carries.admitted carries'.admitted carries.readable
      carries'.readable involved involved' shown.2

end MerkleCells
