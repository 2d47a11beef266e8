import MerkleCells.Proofs.Elements
import MerkleCells.Proofs.Involved

/-!
Histories of sets. A set is made by adding and removing elements and by operations on other sets;
`ContentSet.History.Allowed.carries` says that it carries the elements that are left in the end, if the hash has no
collisions on the encodings of the elements and of the nodes that operations compare.
-/
namespace MerkleCells

open MerkleCells.Action

variable {I : Set Bytes}

namespace ContentSet

/-- What is done to get a set. -/
inductive History where
  | empty
  | ofElements (elements : List (Ref Cell))
  | conj (past : History) (element : Ref Cell)
  | disj (past : History) (h : Hash)
  | merge (op : SetOperation) (left right : History)

/-- What a set shows whose elements have some hashes. -/
noncomputable def shown (I : Set Bytes) (E : Set Hash) : Content Mark := (Content.ofHashes E).marks I

@[simp]
theorem shown_empty (I : Set Bytes) : shown I ∅ = .none := by rw [shown, ← Content.none_eq_ofHashes, Content.marks_none]

theorem carries_empty (I : Set Bytes) (s : Session) : (ContentSet.empty).Carries s (shown I ∅) := by
  rw [shown_empty]
  exact .empty .set s

/-- Encodings in `I` are all that an operation on two sets may compare: those of the nodes of both, of what the
operation keeps, and of the empty set. -/
def Compares (I : Set Bytes) (op : SetOperation) (A B : Set Hash) : Prop :=
  ∀ E ∈ [∅, A, B, op.kept A B], (shown I E).nodes ⊆ I

namespace History

/-- Makes the set. -/
def run : History → Action ContentSet
  | .empty => return ContentSet.empty
  | .ofElements elements => ContentSet.ofElements elements
  | .conj past element => do
    let t ← past.run
    return (← t.conj element).getD t
  | .disj past h => do
    let t ← past.run
    return (← t.disj h).getD t
  | .merge op left right => do Trie.merge op (← left.run) (← right.run)

/-- The hashes of the elements in the end. -/
def elements : History → Set Hash
  | .empty => ∅
  | .ofElements elements => Ref.hash '' {r | r ∈ elements}
  | .conj past element => insert element.hash past.elements
  | .disj past h => past.elements \ {h}
  | .merge op left right => op.kept left.elements right.elements

/-- All elements can be resolved, there are never more of them than a count can tell, and what operations compare
is in `I`. -/
def Allowed (I : Set Bytes) (s : Session) : History → Prop
  | .empty => True
  | .ofElements elements => (∀ r ∈ elements, r.Offers I s) ∧ (Ref.hash '' {r | r ∈ elements}).ncard < UInt64.size
  | .conj past element =>
    past.Allowed I s ∧ element.Offers I s ∧ (insert element.hash past.elements).ncard < UInt64.size
  | .disj past _ => past.Allowed I s
  | .merge op left right => left.Allowed I s ∧ right.Allowed I s ∧
    (left.elements ∪ right.elements).ncard < UInt64.size ∧ Compares I op left.elements right.elements

theorem Allowed.later {past : History} {s s' : Session} (allowed : past.Allowed I s) (later : s.Later s') :
    past.Allowed I s' := by
  induction past with
  | empty => trivial
  | ofElements elements => exact ⟨fun r member => (allowed.1 r member).later later, allowed.2⟩
  | conj past element ih => exact ⟨ih allowed.1, allowed.2.1.later later, allowed.2.2⟩
  | disj past h ih => exact ih allowed
  | merge op left right ih ih' => exact ⟨ih allowed.1, ih' allowed.2.1, allowed.2.2⟩

end History

/-- Finitely many hashes, each of a cell that can be read and whose encoding is in `I`. -/
structure Offered (I : Set Bytes) (E : Set Hash) : Prop where
  finite : E.Finite
  known : ∀ h ∈ E, ∃ c : Cell, c.Readable ∧ c.encoding ∈ I ∧ c.hash = h

theorem Offered.union {A B : Set Hash} (offered : Offered I A) (offered' : Offered I B) : Offered I (A ∪ B) :=
  ⟨offered.finite.union offered'.finite, fun h member => member.elim (offered.known h) (offered'.known h)⟩

theorem Offered.subset {A B : Set Hash} (offered : Offered I B) (sub : A ⊆ B) : Offered I A :=
  ⟨offered.finite.subset sub, fun h member => offered.known h (sub member)⟩

theorem Offered.insert {E : Set Hash} (offered : Offered I E) {r : Ref Cell} {s : Session} (offers : r.Offers I s) :
    Offered I (insert r.hash E) := by
  refine ⟨offered.finite.insert _, fun h member => ?_⟩
  rcases Set.mem_insert_iff.mp member with rfl | old
  · exact offers.known
  · exact offered.known h old

theorem kept_subset (op : SetOperation) (A B : Set Hash) : op.kept A B ⊆ A ∪ B := by
  rintro h (⟨left, -⟩ | ⟨-, right, -⟩ | ⟨left, -⟩)
  · exact .inl left
  · exact .inr right
  · exact .inl left

theorem History.Allowed.offered {past : History} {s : Session} (allowed : past.Allowed I s) :
    Offered I past.elements := by
  induction past with
  | empty => exact ⟨Set.finite_empty, fun h member => member.elim⟩
  | ofElements elements =>
    refine ⟨(List.finite_toSet elements).image _, ?_⟩
    rintro h ⟨r, member, rfl⟩
    exact (allowed.1 r member).known
  | conj past element ih => exact (ih allowed.1).insert allowed.2.1
  | disj past h ih => exact (ih allowed).subset Set.sdiff_subset
  | merge op left right ih ih' => exact ((ih allowed.1).union (ih' allowed.2.1)).subset (kept_subset op _ _)

theorem size_shown (I : Set Bytes) (E : Set Hash) : (shown I E).size = E.ncard := by
  rw [shown, Content.size_marks, Content.size, Content.keys_ofHashes]
  exact Set.ncard_image_of_injective E Content.bytes_injective

section Steps

variable {s : Session} {t : ContentSet} {E : Set Hash}

theorem carries_insert (injective : Set.InjOn Hash.digest I) (carries : t.Carries s (shown I E)) {element : Ref Cell}
    {c : Cell} {s₁ : Session} (target : result element.value s = (.ok c, s₁)) (named : c.hash = element.hash)
    (readable : c.Readable) (involved : c.encoding ∈ I) (room : (insert element.hash E).ncard < UInt64.size) :
    Yields (t.conj element) s fun r s' => s.Later s' ∧ (r.getD t).Carries s' (shown I (insert element.hash E)) := by
  have put : shown I (insert element.hash E) = (shown I E).put element.hash.bytes c.mark := by
    rw [shown, ← Content.put_ofHashes, Content.marks_put, ← named, readable.markIn_hash injective involved]
    rfl
  rw [← size_shown I, put] at room
  refine (carries_conj carries target named readable room).mono ?_
  rintro r s' ⟨later, f, carries', updated⟩
  rw [updated.eq_marks injective readable involved, named, Content.put_ofHashes] at carries'
  exact ⟨later, carries'⟩

theorem carries_remove (carries : t.Carries s (shown I E)) (h : Hash) :
    Yields (t.disj h) s fun r s' => s.Later s' ∧ (r.getD t).Carries s' (shown I (E \ {h})) := by
  rw [shown, ← Content.erase_ofHashes, Content.marks_erase]
  exact carries_disj carries h

/-- For hashes of cells that can be read there is a set. -/
theorem exists_carries (injective : Set.InjOn Hash.digest I) (offered : Offered I E) (room : E.ncard < UInt64.size) :
    ∃ s, ∃ t : ContentSet, t.Carries s (shown I E) := by
  obtain ⟨finite, known⟩ := offered
  induction E, finite using Set.Finite.induction_on with
  | empty => exact ⟨⟨[], []⟩, ContentSet.empty, carries_empty I _⟩
  | @insert h E new finite ih =>
    have fewer : E.ncard < UInt64.size := lt_of_le_of_lt (Set.ncard_le_ncard (Set.subset_insert h E) (finite.insert h)) room
    obtain ⟨s, t, carries⟩ := ih fewer fun h' member => known h' (Set.mem_insert_of_mem h member)
    obtain ⟨c, readable, involved, rfl⟩ := known h (Set.mem_insert h E)
    have target : result (Ref.value (Ref.direct c)) s = (.ok c, s) := rfl
    obtain ⟨r, s', -, -, carries'⟩ := carries_insert injective carries target rfl readable involved room
    exact ⟨s', _, carries'⟩

end Steps

/-- An operation on two sets keeps the elements that it should keep. -/
theorem carries_kept (injective : Set.InjOn Hash.digest I) {op : SetOperation} {A B : Set Hash} (offered : Offered I A)
    (offered' : Offered I B) (compares : Compares I op A B) {left right : ContentSet} {s : Session}
    (carries : left.Carries s (shown I A)) (carries' : right.Carries s (shown I B))
    (room : (A ∪ B).ncard < UInt64.size) :
    Yields (Trie.merge op left right) s fun t s' => s.Later s' ∧ t.Carries s' (shown I (op.kept A B)) := by
  have combine : op.combine (shown I A) (shown I B) = shown I (op.kept A B) := by
    rw [shown, shown, ← Content.marks_combine, Content.combine_ofHashes]
    rfl
  have union := offered.union offered'
  have nothing : (Content.none : Content Mark).Known I := by
    rw [← shown_empty I]
    exact (carries_empty I s).known (compares ∅ (by simp))
  have known : (shown I (op.kept A B)).Known I := by
    have fewer := Set.ncard_le_ncard (kept_subset op A B) union.finite
    obtain ⟨s', t, carries⟩ := exists_carries injective (union.subset (kept_subset op A B)) (lt_of_le_of_lt fewer room)
    exact carries.known (compares _ (by simp))
  have told : Trie.Told (Content.Known I) op (shown I A) (shown I B) :=
    ⟨carries.known (compares A (by simp)), carries'.known (compares B (by simp)), combine ▸ known⟩
  have room' : ((shown I A).keys ∪ (shown I B).keys).ncard < UInt64.size := by
    rw [shown, shown, Content.keys_marks, Content.keys_marks, Content.keys_ofHashes, Content.keys_ofHashes,
      ← Set.image_union, Set.ncard_image_of_injective _ Content.bytes_injective]
    exact room
  refine (carries_merge (telling_known injective nothing) op carries carries' room').mono ?_
  rintro t s' ⟨later, h, merged, agrees⟩
  rw [agrees told, combine] at merged
  exact ⟨later, merged⟩

/-- Elements that are added one after another. -/
theorem carries_elements (injective : Set.InjOn Hash.digest I) (elements : List (Ref Cell)) {s : Session} {t : ContentSet}
    {E : Set Hash} (carries : t.Carries s (shown I E)) (offered : Offered I E) (offers : ∀ r ∈ elements, r.Offers I s)
    (room : (E ∪ Ref.hash '' {r | r ∈ elements}).ncard < UInt64.size) :
    Yields (elements.foldlM (fun s r => return (← ContentSet.conj s r).getD s) t) s fun t' s' =>
      s.Later s' ∧ t'.Carries s' (shown I (E ∪ Ref.hash '' {r | r ∈ elements})) := by
  induction elements generalizing s t E with
  | nil =>
    refine yields_pure.mpr ⟨.refl s, ?_⟩
    simpa using carries
  | cons r rest ih =>
    have split : E ∪ Ref.hash '' {q | q ∈ r :: rest} = insert r.hash E ∪ Ref.hash '' {q | q ∈ rest} := by
      have cons : {q | q ∈ r :: rest} = insert r {q | q ∈ rest} := by
        ext q
        simp
      rw [cons, Set.image_insert_eq, Set.union_insert, Set.insert_union]
    rw [split] at room ⊢
    have first := offers r (by simp)
    obtain ⟨c, s₁, target, named, readable, involved⟩ := first s (.refl s)
    have finite := (offered.insert first).finite.union ((List.finite_toSet rest).image Ref.hash)
    have fewer := Set.ncard_le_ncard (Set.subset_union_left (s := insert r.hash E)) finite
    rw [List.foldlM_cons]
    have added : Yields (do return (← ContentSet.conj t r).getD t) s fun t' s' =>
        s.Later s' ∧ t'.Carries s' (shown I (insert r.hash E)) :=
      (carries_insert injective carries target named readable involved (lt_of_le_of_lt fewer room)).bind
        fun _ _ both => yields_pure.mpr both
    refine added.bind ?_
    rintro t₁ s' ⟨later, carries'⟩
    refine (ih carries' (offered.insert first) (fun q member => (offers q (by simp [member])).later later) room).mono ?_
    rintro t' s'' ⟨later', carries''⟩
    exact ⟨later.trans later', carries''⟩

/-- A history succeeds, and the set that it leads to carries the elements that are left in the end. -/
theorem History.Allowed.carries {past : History} {s : Session} (allowed : past.Allowed I s)
    (injective : Set.InjOn Hash.digest I) : Yields past.run s fun t s' => s.Later s' ∧ t.Carries s' (shown I past.elements) := by
  induction past generalizing s with
  | empty => exact yields_pure.mpr ⟨.refl s, carries_empty I s⟩
  | ofElements elements =>
    have all := carries_elements injective elements (carries_empty I s) ⟨Set.finite_empty, fun h member => member.elim⟩ allowed.1
      (by rw [Set.empty_union]; exact allowed.2)
    rw [Set.empty_union] at all
    exact all
  | conj past element ih =>
    obtain ⟨before, offers, room⟩ := allowed
    refine (ih before).bind ?_
    rintro t s' ⟨later, carries⟩
    obtain ⟨c, s₁, target, named, readable, involved⟩ := offers s' later
    refine (carries_insert injective carries target named readable involved room).bind ?_
    rintro r s'' ⟨later', carries'⟩
    exact yields_pure.mpr ⟨later.trans later', carries'⟩
  | disj past h ih =>
    refine (ih allowed).bind ?_
    rintro t s' ⟨later, carries⟩
    refine (carries_remove carries h).bind ?_
    rintro r s'' ⟨later', carries'⟩
    exact yields_pure.mpr ⟨later.trans later', carries'⟩
  | merge op left right ih ih' =>
    obtain ⟨before, before', room, compares⟩ := allowed
    refine (ih before).bind ?_
    rintro l s' ⟨later, carries⟩
    refine (ih' (before'.later later)).bind ?_
    rintro r s'' ⟨later', carries'⟩
    refine (carries_kept injective before.offered before'.offered compares (carries.later later') carries' room).mono ?_
    rintro t s₃ ⟨later'', kept⟩
    exact ⟨(later.trans later').trans later'', kept⟩

end ContentSet

/-! ### What is involved in some sets -/

namespace Sample

open ContentSet

/-- The hashes of some of the elements. -/
def keys (xs : List Sample) : Set Hash := {h | ∃ x ∈ xs, x.key = h}

/-- A set to which two elements and a third one have been added. -/
def added (x : Sample) : ContentSet.History :=
  .conj (.conj (.conj .empty (Ref.direct two.element)) (Ref.direct four.element)) (Ref.direct x.element)

theorem offers (x : Sample) (s : Session) : (Ref.direct x.element).Offers encodings s :=
  Ref.offers_direct x.obtained.readable x.element_listed s

theorem hash_direct (x : Sample) : (Ref.direct x.element).hash = x.key := x.hash_element

theorem keys_nil : keys [] = ∅ := by
  ext h
  simp [keys]

theorem insert_keys (x : Sample) (xs : List Sample) : insert x.key (keys xs) = keys (x :: xs) := by
  ext h
  simp [keys, eq_comm]

theorem union_keys (xs ys : List Sample) : keys xs ∪ keys ys = keys (xs ++ ys) := by
  ext h
  simp [keys, or_and_right, exists_or]

theorem image_keys (xs : List Sample) : Ref.hash '' {r | r ∈ xs.map fun x => Ref.direct x.element} = keys xs := by
  ext h
  simp [keys, hash_direct]

theorem ncard_keys {xs : List Sample} (short : xs.length ≤ 8) : (keys xs).ncard < UInt64.size := by
  have image : keys xs = ((xs.map key).toFinset : Set Hash) := by
    ext h
    simp [keys]
  rw [image, Set.ncard_coe_finset]
  refine lt_of_le_of_lt ((List.toFinset_card_le _).trans ?_) (show 8 < UInt64.size by decide)
  rwa [List.length_map]

theorem kept_union (A B : Set Hash) : SetOperation.union.kept A B = A ∪ B := by
  ext h
  simp only [SetOperation.kept, SetOperation.keeps, SetOperation.outcome, Set.mem_ofPred_eq, Set.mem_union]
  tauto

theorem elements_added (x : Sample) : (added x).elements = keys [x, four, two] := by
  simp only [added, ContentSet.History.elements, hash_direct, ← insert_keys, keys_nil]

theorem added_allowed (x : Sample) (s : Session) : (added x).Allowed encodings s := by
  refine ⟨⟨⟨trivial, two.offers s, ?_⟩, four.offers s, ?_⟩, x.offers s, ?_⟩ <;>
    simp only [ContentSet.History.elements, hash_direct, ← keys_nil, insert_keys] <;> exact ncard_keys (by simp)

/-- A set with another element carries its hash. -/
theorem carries_of_insert {t v : ContentSet} {x : Sample} {xs : List Sample}
    (carries : t.Carries away (shown encodings (keys xs))) (short : xs.length < 8)
    (made : result (t.insert x.key.bytes (Ref.direct x.element)) away = (.ok (some v), away)) :
    v.Carries away (shown encodings (keys (x :: xs))) := by
  have conj : result (t.conj (Ref.direct x.element)) away = (.ok (some v), away) := by
    rw [ContentSet.conj, hash_direct]
    exact made
  have target : result (Ref.value (Ref.direct x.element)) away = (.ok x.element, away) := rfl
  have room : (insert (Ref.direct x.element).hash (keys xs)).ncard < UInt64.size := by
    rw [hash_direct, insert_keys]
    exact ncard_keys short
  have carries' := ((carries_insert encodings_injective carries target rfl x.obtained.readable x.element_listed
    room).of_result conj).2
  rwa [hash_direct, insert_keys] at carries'

theorem carries_pair : pair.Carries away (shown encodings (keys [four, two])) := by
  have nothing := ContentSet.carries_empty encodings away
  rw [← keys_nil] at nothing
  exact carries_of_insert (carries_of_insert nothing (by decide) two.insert_empty) (by decide) insert_two

theorem carries_whole {x : Sample} (new : x ≠ two ∧ x ≠ four) :
    x.whole.Carries away (shown encodings (keys [x, four, two])) :=
  carries_of_insert carries_pair (by decide) (insert_pair new)

theorem carries_joined : joined.Carries away (shown encodings (keys [twin, twelve, four, two])) :=
  carries_of_insert (carries_whole (by decide)) (by decide) insert_whole

/-- All nodes of a set have encodings that are listed. -/
def Listed (t : ContentSet) : Prop := ∀ n, t.node.Reaches .set away n → (Value.trie .set n).encode ∈ encodings

theorem listed_leaf (x : Sample) : Listed x.leaf := by
  intro n reaches
  cases reaches with
  | refl =>
    rw [← Trie.encoding_eq]
    exact x.leaf_listed

/-- The nodes of a branch that holds its children directly are the branch itself and those of its children. -/
theorem listed_branch {b : Branch (Ref Cell)} (own : (Trie.ofNode .set (.branch b)).cell.encoding ∈ encodings)
    (children : ∀ d r, b.child? d = some r → ∃ t, r = Trie.ref t ∧ Listed t) :
    Listed (Trie.ofNode .set (.branch b)) := by
  intro n reaches
  cases reaches with
  | refl =>
    rw [← Trie.encoding_eq]
    exact own
  | child found run below =>
    obtain ⟨t, rfl, inside⟩ := children _ _ found
    obtain ⟨rfl, rfl⟩ := (Trie.yields_resolve_direct t .unknown away).of_result run
    exact inside _ below

theorem listed_whole {x : Sample} (new : x ≠ two ∧ x ≠ four) : Listed x.whole := by
  refine listed_branch (whole_listed new) fun d r found => ?_
  obtain ⟨y, -, -, rfl⟩ := child_fork found
  exact ⟨y.leaf, rfl, y.listed_leaf⟩

theorem listed_twins : Listed twins := by
  refine listed_branch (root_listed (by simp [roots, twins])) fun d r found => ?_
  have member := Branch.mem_of_childIn ((Branch.child?_eq _ _).symm.trans found)
  simp only [List.mem_cons, List.not_mem_nil, or_false, Prod.mk.injEq] at member
  rcases member with ⟨-, rfl⟩ | ⟨-, rfl⟩
  · exact ⟨twin.leaf, rfl, twin.listed_leaf⟩
  · exact ⟨twelve.leaf, rfl, twelve.listed_leaf⟩

theorem listed_joined : Listed joined := by
  refine listed_branch (root_listed (by simp [roots, joined])) fun d r found => ?_
  have member := Branch.mem_of_childIn ((Branch.child?_eq _ _).symm.trans found)
  simp only [List.mem_cons, List.not_mem_nil, or_false, Prod.mk.injEq] at member
  rcases member with ⟨-, rfl⟩ | ⟨-, rfl⟩ | ⟨-, rfl⟩
  · exact ⟨two.leaf, rfl, two.listed_leaf⟩
  · exact ⟨four.leaf, rfl, four.listed_leaf⟩
  · exact ⟨twins, rfl, listed_twins⟩

/-- The union of two such sets compares nothing but nodes that are listed. -/
theorem compares_union : Compares encodings .union (keys [twelve, four, two]) (keys [twin, four, two]) := by
  have both : SetOperation.union.kept (keys [twelve, four, two]) (keys [twin, four, two]) =
      keys [twin, twelve, four, two] := by
    rw [kept_union]
    ext h
    simp only [keys, Set.mem_union, Set.mem_ofPred_eq, List.mem_cons, List.not_mem_nil, or_false, exists_eq_or_imp,
      exists_eq_left]
    tauto
  intro E member
  simp only [List.mem_cons, List.not_mem_nil, or_false] at member
  rcases member with rfl | rfl | rfl | rfl
  · refine (ContentSet.carries_empty encodings away).nodes_subset fun n reaches => ?_
    cases reaches
    rw [← Trie.encoding_eq]
    exact root_listed (by simp [roots])
  · exact (carries_whole (by decide)).nodes_subset (listed_whole (by decide))
  · exact (carries_whole (by decide)).nodes_subset (listed_whole (by decide))
  · rw [both]
    exact carries_joined.nodes_subset listed_joined

theorem union_allowed (s : Session) :
    (ContentSet.History.merge .union (added twelve) (added twin)).Allowed encodings s := by
  refine ⟨added_allowed twelve s, added_allowed twin s, ?_, ?_⟩
  · rw [elements_added, elements_added, union_keys]
    exact ncard_keys (by decide)
  · rw [elements_added, elements_added]
    exact compares_union

end Sample

end MerkleCells
