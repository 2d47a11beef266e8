import MerkleCells.Proofs.Obtained
import MerkleCells.Proofs.Trie.Combine

/-!
Sets of hashes as contents. In a set every key is the hash of its element, so what it binds is told by the set of
these hashes: `Content.ofHashes` binds each hash of a set to itself. Updates and operations on such contents are
updates and operations on the sets of hashes. At the end there are some elements whose hashes are known, for examples
of sets.
-/
namespace MerkleCells

/-- The elements that an operation keeps, told by where they are present. -/
def SetOperation.kept (op : SetOperation) (A B : Set Hash) : Set Hash :=
  {h | (h ∈ A ∧ h ∉ B ∧ op.keeps .left = true) ∨ (h ∉ A ∧ h ∈ B ∧ op.keeps .right = true) ∨
    (h ∈ A ∧ h ∈ B ∧ op.keeps .both = true)}

theorem Hash.ofBytes?_eq_some_iff {k : Bytes} {h : Hash} : ofBytes? k = some h ↔ k = h.bytes := by
  rw [ofBytes?]
  split
  · next length =>
    constructor
    · intro same
      cases same
      rfl
    · rintro rfl
      rfl
  · next length =>
    constructor
    · intro none
      cases none
    · rintro rfl
      exact absurd h.length_eq length

namespace Content

open Classical in
/-- The bindings of a set whose elements have some hashes. -/
noncomputable def ofHashes (E : Set Hash) : Content Hash := fun k =>
  (Hash.ofBytes? k).bind fun h => if h ∈ E then some h else Option.none

variable {A B E : Set Hash} {k : Bytes} {h x : Hash}

theorem ofHashes_eq_some_iff : ofHashes E k = some x ↔ k = x.bytes ∧ x ∈ E := by
  rw [ofHashes, Option.bind_eq_some_iff, ← Hash.ofBytes?_eq_some_iff]
  constructor
  · rintro ⟨y, found, member⟩
    split at member
    · cases member
      exact ⟨found, ‹_›⟩
    · cases member
  · rintro ⟨found, member⟩
    exact ⟨x, found, if_pos member⟩

theorem ofHashes_bytes_eq_none (absent : h ∉ E) : ofHashes E h.bytes = Option.none := by
  rw [Option.eq_none_iff_forall_ne_some]
  intro x found
  obtain ⟨same, member⟩ := ofHashes_eq_some_iff.mp found
  rw [← Hash.ofBytes?_eq_some_iff, Hash.ofBytes?_eq_some_iff.mpr rfl, Option.some.injEq] at same
  exact absent (same ▸ member)

theorem ofHashes_bytes (member : h ∈ E) : ofHashes E h.bytes = some h := ofHashes_eq_some_iff.mpr ⟨rfl, member⟩

/-- Bindings of hashes to themselves are told by the hashes that are bound. -/
theorem eq_ofHashes {H : Content Hash} (same : ∀ k x, H k = some x ↔ k = x.bytes ∧ x ∈ E) : H = ofHashes E := by
  funext k
  refine Option.ext fun x => ?_
  rw [same, ofHashes_eq_some_iff]

theorem none_eq_ofHashes : (.none : Content Hash) = ofHashes ∅ :=
  eq_ofHashes fun _ _ => ⟨nofun, fun bound => bound.2.elim⟩

theorem bytes_injective : Function.Injective Hash.bytes := by
  rintro ⟨a, _⟩ ⟨b, _⟩ same
  cases same
  rfl

theorem put_ofHashes : (ofHashes E).put h.bytes h = ofHashes (insert h E) := by
  refine eq_ofHashes fun k x => ?_
  rw [Set.mem_insert_iff]
  by_cases here : k = h.bytes
  · subst here
    rw [put_self, Option.some.injEq]
    constructor
    · rintro rfl
      exact ⟨rfl, .inl rfl⟩
    · rintro ⟨same, -⟩
      exact bytes_injective same
  · rw [put_of_ne here, ofHashes_eq_some_iff]
    constructor
    · rintro ⟨same, member⟩
      exact ⟨same, .inr member⟩
    · rintro ⟨same, rfl | member⟩
      · exact absurd same here
      · exact ⟨same, member⟩

theorem erase_ofHashes : (ofHashes E).erase h.bytes = ofHashes (E \ {h}) := by
  refine eq_ofHashes fun k x => ?_
  rw [Set.mem_sdiff, Set.mem_singleton_iff]
  by_cases here : k = h.bytes
  · subst here
    rw [erase_self]
    refine ⟨nofun, ?_⟩
    rintro ⟨same, -, other⟩
    exact absurd (bytes_injective same).symm other
  · rw [erase_of_ne here, ofHashes_eq_some_iff]
    constructor
    · rintro ⟨same, member⟩
      exact ⟨same, member, fun equal => here (equal ▸ same)⟩
    · rintro ⟨same, member, -⟩
      exact ⟨same, member⟩

theorem combine_ofHashes (op : SetOperation) : op.combine (ofHashes A) (ofHashes B) = ofHashes (op.kept A B) := by
  refine eq_ofHashes fun k x => ?_
  constructor
  · intro bound
    have same : k = x.bytes := by
      rcases op.combine_from _ _ k x bound with left | right
      · exact (ofHashes_eq_some_iff.mp left).1
      · exact (ofHashes_eq_some_iff.mp right).1
    subst same
    refine ⟨rfl, ?_⟩
    rw [SetOperation.combine] at bound
    by_cases left : x ∈ A <;> by_cases right : x ∈ B
    · rw [ofHashes_bytes left, ofHashes_bytes right] at bound
      exact .inr (.inr ⟨left, right, by simpa using bound⟩)
    · rw [ofHashes_bytes left, ofHashes_bytes_eq_none right] at bound
      exact .inl ⟨left, right, by simpa using bound⟩
    · rw [ofHashes_bytes_eq_none left, ofHashes_bytes right] at bound
      exact .inr (.inl ⟨left, right, by simpa using bound⟩)
    · rw [ofHashes_bytes_eq_none left, ofHashes_bytes_eq_none right] at bound
      cases bound
  · rintro ⟨rfl, kept⟩
    rw [SetOperation.combine]
    rcases kept with ⟨left, right, keep⟩ | ⟨left, right, keep⟩ | ⟨left, right, keep⟩
    · rw [ofHashes_bytes left, ofHashes_bytes_eq_none right]
      exact if_pos keep
    · rw [ofHashes_bytes_eq_none left, ofHashes_bytes right]
      exact if_pos keep
    · rw [ofHashes_bytes left, ofHashes_bytes right]
      exact if_pos keep

theorem keys_ofHashes : (ofHashes E).keys = Hash.bytes '' E := by
  ext k
  rw [mem_keys, Option.ne_none_iff_exists']
  constructor
  · rintro ⟨x, found⟩
    obtain ⟨rfl, member⟩ := ofHashes_eq_some_iff.mp found
    exact ⟨x, member, rfl⟩
  · rintro ⟨x, member, rfl⟩
    exact ⟨x, ofHashes_bytes member⟩

end Content

/-! ### Some elements and their sets -/

/-- Elements that are named after the first digits of their hashes. Two of them share that digit. -/
inductive Sample where
  | two
  | four
  | seven
  | twelve
  | twin
  deriving DecidableEq

namespace Sample

open MerkleCells.Action

theorem two_lt : 2 < 16 := by decide

theorem three_lt : 3 < 16 := by decide

theorem four_lt : 4 < 16 := by decide

theorem seven_lt : 7 < 16 := by decide

theorem twelve_lt : 12 < 16 := by decide

theorem thirteen_lt : 13 < 16 := by decide

def digit : Sample → Digit
  | two => ⟨2, two_lt⟩
  | four => ⟨4, four_lt⟩
  | seven => ⟨7, seven_lt⟩
  | twelve => ⟨12, twelve_lt⟩
  | twin => ⟨12, twelve_lt⟩

def byte : Sample → UInt8
  | two => 4
  | four => 9
  | seven => 2
  | twelve => 3
  | twin => 17

/-- A cell that refers to a hash of equal bytes, and so is not embeddable. -/
def element (x : Sample) : Cell :=
  Cell.ofValue (.vector [Ref.ofMarker ⟨List.replicate 32 x.byte, List.length_replicate⟩ none])

/-- The hash of the element. -/
def key : Sample → Hash
  | two => ⟨[0x22, 0xB6, 0xDC, 0xCC, 0xB9, 0x5A, 0x7D, 0xCB, 0xF3, 0xF9, 0x54, 0xCB, 0x9E, 0x89, 0xA4, 0x56, 0x7D,
      0xE1, 0x20, 0x84, 0xD6, 0xFC, 0x85, 0xA6, 0xF9, 0xB0, 0x34, 0x41, 0x3B, 0x88, 0x68, 0x88], rfl⟩
  | four => ⟨[0x4F, 0x66, 0x13, 0xB6, 0xDD, 0x07, 0x52, 0x5D, 0xEB, 0xF6, 0x4A, 0xB9, 0x8C, 0x27, 0x74, 0x96, 0xF7,
      0x48, 0x97, 0x9C, 0x4E, 0x49, 0x8D, 0x58, 0xBC, 0xB0, 0x72, 0x49, 0x61, 0x4B, 0x12, 0x2C], rfl⟩
  | seven => ⟨[0x7A, 0xE6, 0x4B, 0xDE, 0x15, 0x30, 0x6C, 0x0B, 0x72, 0x83, 0x8D, 0xAE, 0x46, 0x94, 0x21, 0x8B, 0xA4,
      0xB5, 0x01, 0xA5, 0x6B, 0xEC, 0x27, 0xB1, 0xD9, 0x9E, 0x09, 0x03, 0xBB, 0x14, 0x18, 0x3D], rfl⟩
  | twelve => ⟨[0xCD, 0x35, 0xA2, 0xED, 0x83, 0x07, 0x47, 0x6B, 0xE4, 0x0C, 0xE1, 0x1D, 0xE8, 0x33, 0x47, 0x68, 0xE1,
      0x78, 0x6E, 0xAB, 0x69, 0xC3, 0x56, 0xC1, 0x55, 0x87, 0xFD, 0xB2, 0x82, 0x44, 0x80, 0x78], rfl⟩
  | twin => ⟨[0xC3, 0xE7, 0xA5, 0x7C, 0xF2, 0xB8, 0x83, 0x5B, 0x40, 0x70, 0x20, 0x52, 0xB4, 0x9C, 0xD3, 0xE3, 0x2B,
      0x62, 0x67, 0x12, 0x27, 0xD3, 0x93, 0x88, 0xFE, 0xB4, 0xDA, 0x2E, 0x27, 0x0C, 0x72, 0x2D], rfl⟩

/-- The set of the one element. -/
def leaf (x : Sample) : ContentSet := Trie.leaf .set x.key.bytes (Ref.direct x.element)

/-- The hash of that leaf. -/
def mark : Sample → Hash
  | two => ⟨[0x7E, 0x05, 0x9B, 0x28, 0x47, 0xC4, 0xE6, 0x9F, 0x11, 0x89, 0x11, 0xE8, 0x53, 0x88, 0x60, 0xB8, 0xDF,
      0x1B, 0x30, 0xAC, 0x39, 0xFA, 0x50, 0xF5, 0x01, 0x39, 0x72, 0xA2, 0xE7, 0x54, 0x2F, 0x51], rfl⟩
  | four => ⟨[0x90, 0xF9, 0xD6, 0xF5, 0x50, 0xB1, 0x6B, 0x34, 0x94, 0x84, 0xCB, 0xB3, 0xC7, 0xD4, 0x7F, 0x30, 0xC3,
      0x71, 0x09, 0xBB, 0x29, 0xB5, 0x8C, 0xC3, 0xB3, 0xC4, 0xE2, 0xAA, 0x17, 0x27, 0x0F, 0xD2], rfl⟩
  | seven => ⟨[0x48, 0x65, 0x48, 0x01, 0x03, 0x45, 0x07, 0x9B, 0x04, 0x2D, 0x7A, 0x93, 0xEA, 0x7D, 0x59, 0xF7, 0xCE,
      0x57, 0x9F, 0xBA, 0xA4, 0x82, 0x6C, 0xB3, 0xB7, 0xBC, 0x33, 0x40, 0x40, 0x87, 0xCB, 0x2D], rfl⟩
  | twelve => ⟨[0x36, 0x5E, 0xFC, 0x8A, 0x49, 0xAC, 0xEF, 0xD1, 0x51, 0x34, 0x6A, 0x4D, 0x29, 0x35, 0x24, 0x65, 0xDB,
      0x4A, 0x00, 0x84, 0xB8, 0xB9, 0xA9, 0x7A, 0xE1, 0x8C, 0x39, 0x48, 0x9B, 0xC8, 0xC1, 0xD5], rfl⟩
  | twin => ⟨[0x4F, 0xB9, 0x1F, 0x88, 0x1A, 0x6C, 0x51, 0xF4, 0x63, 0x16, 0xAB, 0xF7, 0x04, 0x08, 0xE9, 0x42, 0x5B,
      0xF1, 0x54, 0x63, 0xC1, 0xC7, 0x01, 0x1D, 0xD0, 0x33, 0x45, 0x9D, 0xD6, 0x3D, 0x83, 0xB5], rfl⟩

/-- The branch of a set of two elements and a third one, whose leaves are held in some way. -/
def fork (hold : Sample → Ref Cell) (x : Sample) : Branch (Ref Cell) :=
  ⟨0, [], none, [(two.digit, hold two), (four.digit, hold four), (x.digit, hold x)], 3⟩

theorem mem_fork {hold : Sample → Ref Cell} {x : Sample} {c : Digit × Ref Cell} (member : c ∈ (fork hold x).children) :
    ∃ y ∈ [two, four, x], c = (y.digit, hold y) := by
  simp only [fork, List.mem_cons, List.not_mem_nil, or_false] at member
  rcases member with rfl | rfl | rfl
  · exact ⟨two, by simp, rfl⟩
  · exact ⟨four, by simp, rfl⟩
  · exact ⟨x, by simp, rfl⟩

theorem child_fork {hold : Sample → Ref Cell} {x : Sample} {d : Digit} {r : Ref Cell}
    (found : (fork hold x).child? d = some r) : ∃ y ∈ [two, four, x], d = y.digit ∧ r = hold y := by
  obtain ⟨y, among, same⟩ := mem_fork (Branch.mem_of_childIn ((Branch.child?_eq _ _).symm.trans found))
  exact ⟨y, among, Prod.mk.inj same⟩

/-- The set of two elements and a third one in memory. -/
def whole (x : Sample) : ContentSet := Trie.ofNode .set (.branch (fork (fun y => y.leaf.ref) x))

/-- The set of the two. -/
def pair : ContentSet :=
  Trie.ofNode .set (.branch ⟨0, [], none, [(two.digit, two.leaf.ref), (four.digit, four.leaf.ref)], 2⟩)

/-- The set of the elements that share a digit. -/
def twins : ContentSet :=
  Trie.ofNode .set (.branch ⟨1, [0xC0], none,
    [(⟨3, three_lt⟩, twin.leaf.ref), (⟨13, thirteen_lt⟩, twelve.leaf.ref)], 2⟩)

/-- The set of the two and of those that share a digit. -/
def joined : ContentSet :=
  Trie.ofNode .set (.branch ⟨0, [], none,
    [(two.digit, two.leaf.ref), (four.digit, four.leaf.ref), (twelve.digit, twins.ref)], 4⟩)

/-! #### Their hashes -/

def all : List Sample := [two, four, seven, twelve, twin]

theorem mem_all (x : Sample) : x ∈ all := by
  cases x <;> decide

/-- The nodes of the sets that are no leaves of an element. -/
def roots : List ContentSet := [ContentSet.empty, seven.whole, twelve.whole, twin.whole, twins, joined]

-- One statement, so that the hash of a leaf is worked out once for all nodes above it.
theorem hashes : (∀ x ∈ all, x.element.hash = x.key ∧ x.leaf.cell.hash = x.mark) ∧
    (all.map key ++ all.map mark ++ roots.map fun t => t.cell.hash).Nodup := by
  decide +kernel

theorem hash_element (x : Sample) : x.element.hash = x.key := (hashes.1 x x.mem_all).1

theorem hash_leaf (x : Sample) : x.leaf.cell.hash = x.mark := (hashes.1 x x.mem_all).2

/-- The encodings of the elements, of their leaves and of the other nodes of their sets. -/
def listed : List Bytes :=
  all.map (fun x => x.element.encoding) ++ all.map (fun x => x.leaf.cell.encoding) ++ roots.map fun t => t.cell.encoding

def encodings : Set Bytes := { e | e ∈ listed }

theorem encodings_injective : Set.InjOn Hash.digest encodings := by
  have apart : (listed.map Hash.digest).Nodup := by
    simp only [listed, List.map_append, List.map_map, Function.comp_def, ← Cell.hash_eq, hash_element, hash_leaf]
    exact hashes.2
  exact fun x inside y inside' same => List.inj_on_of_nodup_map apart inside inside' same

theorem element_listed (x : Sample) : x.element.encoding ∈ encodings :=
  List.mem_append_left _ (List.mem_append_left _ (List.mem_map_of_mem x.mem_all))

theorem leaf_listed (x : Sample) : x.leaf.cell.encoding ∈ encodings :=
  List.mem_append_left _ (List.mem_append_right _ (List.mem_map_of_mem x.mem_all))

theorem root_listed {t : ContentSet} (member : t ∈ roots) : t.cell.encoding ∈ encodings :=
  List.mem_append_right _ (List.mem_map_of_mem member)

theorem whole_listed {x : Sample} (new : x ≠ two ∧ x ≠ four) : x.whole.cell.encoding ∈ encodings := by
  refine root_listed ?_
  cases x with
  | two => exact absurd rfl new.1
  | four => exact absurd rfl new.2
  | _ => simp [roots]

theorem obtained (x : Sample) : x.element.Obtained :=
  .decoded (show decode none x.element.encoding = .ok x.element by cases x <;> rfl)

/-! #### The sets are made by adding the elements one by one -/

/-- A session without loaders and stores. -/
def away : Session := ⟨[], []⟩

theorem insert_empty (x : Sample) :
    result (ContentSet.empty.insert x.key.bytes (Ref.direct x.element)) away = (.ok (some x.leaf), away) := by
  cases x <;> rfl

theorem insert_two :
    result (two.leaf.insert four.key.bytes (Ref.direct four.element)) away = (.ok (some pair), away) :=
  rfl

theorem insert_pair {x : Sample} (new : x ≠ two ∧ x ≠ four) :
    result (pair.insert x.key.bytes (Ref.direct x.element)) away = (.ok (some x.whole), away) := by
  cases x with
  | two => exact absurd rfl new.1
  | four => exact absurd rfl new.2
  | _ => rfl

theorem insert_whole :
    result (twelve.whole.insert twin.key.bytes (Ref.direct twin.element)) away = (.ok (some joined), away) :=
  rfl

end Sample

end MerkleCells
