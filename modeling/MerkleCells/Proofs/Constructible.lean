import MerkleCells.Proofs.Trie.Carries

/-!
Cells that can be made. `Trie.Built` and `Cell.Built` are closed under everything that makes tries and cells, and
under holding their children in other ways. Whatever is built can be decoded as it was encoded, which
`Cell.Built.decode_encoding` states child by child.
-/
namespace MerkleCells

open MerkleCells.Action

/-- The tries that are made from values in `V`, by operations that succeed in some session. -/
inductive Trie.Built (V : Cell → Prop) : {kind : TrieKind} → Session → Trie kind → Prop
  | empty (kind : TrieKind) (s : Session) : Built V s (Trie.empty kind)
  | later {kind : TrieKind} {s s' : Session} {t : Trie kind} (built : Built V s t) (later : s.Later s') : Built V s' t
  | held {kind : TrieKind} {s s' : Session} {t t' : Trie kind} (built : Built V s t)
      (held : t.node.HeldAs kind s s' t'.node) : Built V s' t'
  | assoc {s s₁ s' : Session} {m : KeyMap} {key : Bytes} {value : Ref Cell} {c : Cell} {r : Option KeyMap}
      (built : Built V s m) (target : result value.value s = (.ok c, s₁)) (named : c.hash = value.hash) (possible : V c)
      (room : m.count.toNat + 1 < UInt64.size) (made : result (m.assoc key value) s = (.ok r, s')) :
      Built V s' (r.getD m)
  | dissoc {s s' : Session} {m : KeyMap} {key : Bytes} {r : Option KeyMap} (built : Built V s m)
      (made : result (m.dissoc key) s = (.ok r, s')) : Built V s' (r.getD m)
  | conj {s s₁ s' : Session} {t : ContentSet} {element : Ref Cell} {c : Cell} {r : Option ContentSet}
      (built : Built V s t) (target : result element.value s = (.ok c, s₁)) (named : c.hash = element.hash)
      (possible : V c) (room : t.count.toNat + 1 < UInt64.size) (made : result (t.conj element) s = (.ok r, s')) :
      Built V s' (r.getD t)
  | disj {s s' : Session} {t : ContentSet} {h : Hash} {r : Option ContentSet} (built : Built V s t)
      (made : result (t.disj h) s = (.ok r, s')) : Built V s' (r.getD t)
  | merge {s s' : Session} {op : SetOperation} {left right t : ContentSet} (left_built : Built V s left)
      (right_built : Built V s right) (room : left.count.toNat + right.count.toNat < UInt64.size)
      (made : result (Trie.merge op left right) s = (.ok t, s')) : Built V s' t

/-- A reference may lead to a cell, now or after more has been loaded. -/
def Ref.MayLead (r : Ref Cell) (s : Session) (c : Cell) : Prop :=
  ∃ s₁ s₂, s.Later s₁ ∧ result r.value s₁ = (.ok c, s₂)

/-- References that lead to nothing but cells of their hash. -/
def Ref.Named (s : Session) (items : List (Ref Cell)) : Prop := ∀ r ∈ items, ∀ c, r.MayLead s c → c.hash = r.hash

/-- The cells that can be made. -/
inductive Cell.Built : Cell → Prop
  | nil : Built .nil
  | bool (b : Bool) : Built (.bool b)
  | integer (i : Int64) : Built (.integer i)
  | double (bits : UInt64) : Built (.double bits)
  | string {text : String} {c : Cell} (made : Cell.string text = .ok c) : Built c
  | blob {bytes : Bytes} {c : Cell} (made : Cell.blob bytes = .ok c) : Built c
  | symbol {name : String} {c : Cell} (made : Cell.symbol name = .ok c) : Built c
  | keyword {name : String} {c : Cell} (made : Cell.keyword name = .ok c) : Built c
  | extension {kind : UInt8} {value : UInt64} {c : Cell} (made : Cell.extension kind value = .ok c) : Built c
  | vector {items : List (Ref Cell)} {s s' : Session} {c : Cell} (named : Ref.Named s items)
      (built : ∀ r ∈ items, ∀ d, r.MayLead s d → Built d) (made : result (Cell.vector items) s = (.ok c, s')) : Built c
  | record {kind : UInt8} {fields : List (Ref Cell)} {s s' : Session} {c : Cell} (named : Ref.Named s fields)
      (built : ∀ r ∈ fields, ∀ d, r.MayLead s d → Built d) (made : result (Cell.record kind fields) s = (.ok c, s')) :
      Built c
  | code {opcode : UInt8} {operands : List (Ref Cell)} {s s' : Session} {c : Cell} (named : Ref.Named s operands)
      (built : ∀ r ∈ operands, ∀ d, r.MayLead s d → Built d)
      (made : result (Cell.code opcode operands) s = (.ok c, s')) : Built c
  | trie {V : Cell → Prop} {kind : TrieKind} {s : Session} {t : Trie kind} (values : ∀ c, V c → Built c)
      (built : Trie.Built V s t) : Built t.cell
  | held {c c' : Cell} (built : Built c) (shows : c'.Shows c) : Built c'

/-! ### Tries -/

/-- A trie that is built carries some content. -/
theorem Trie.Built.carries {V : Cell → Prop} {kind : TrieKind} {s : Session} {t : Trie kind} (built : Trie.Built V s t)
    (readable : ∀ c, V c → c.Readable) : ∃ f, t.Carries s f := by
  induction built with
  | empty kind s => exact ⟨_, .empty kind s⟩
  | later _ later ih =>
    obtain ⟨f, carries⟩ := ih
    exact ⟨f, carries.later later⟩
  | held _ held ih =>
    obtain ⟨f, carries⟩ := ih
    exact ⟨f, carries.held held⟩
  | @assoc s s₁ s' m key value c r _ target named possible room made ih =>
    obtain ⟨f, carries⟩ := ih
    have valid : KeyMap.ValidKey key := by
      rw [KeyMap.assoc, result_bind, result_liftExcept] at made
      cases checked : KeyMap.checkKey key with
      | error e => rw [checked] at made; cases made
      | ok u => exact KeyMap.valid_of_checkKey checked
    obtain ⟨-, f', carries', -⟩ := (KeyMap.carries_assoc carries valid target named (readable c possible)
      (carries.room room c.mark)).of_result made
    exact ⟨f', carries'⟩
  | dissoc _ made ih =>
    obtain ⟨f, carries⟩ := ih
    exact ⟨_, ((KeyMap.carries_dissoc carries _).of_result made).2⟩
  | @conj s s₁ s' t element c r _ target named possible room made ih =>
    obtain ⟨f, carries⟩ := ih
    obtain ⟨-, f', carries', -⟩ := (ContentSet.carries_conj carries target named (readable c possible)
      (carries.room room c.mark)).of_result made
    exact ⟨f', carries'⟩
  | disj _ made ih =>
    obtain ⟨f, carries⟩ := ih
    exact ⟨_, ((ContentSet.carries_disj carries _).of_result made).2⟩
  | @merge s s' op left right t _ _ room made ih ih' =>
    obtain ⟨f, carries⟩ := ih
    obtain ⟨g, carries'⟩ := ih'
    obtain ⟨-, h, merged, -⟩ := (ContentSet.carries_merge Trie.telling_nothing op carries carries'
      (carries.room_both carries' room)).of_result made
    exact ⟨h, merged⟩

/-! ### Children -/

namespace Ref

/-- A reference that has been put into the form in which a parent holds it shows a cell that it led to. -/
theorem mark_of_canonical {r r' : Ref Cell} {s s' : Session} (made : result r.canonical s = (.ok r', s')) :
    ∃ c, r.MayLead s c ∧ (c.hash = r.hash → r'.mark = c.mark) := by
  have target : ∃ c s₁, result r.value s = (.ok c, s₁) := by
    obtain ⟨status, cell | ⟨h, loader, byMarker⟩⟩ := r
    · exact ⟨cell, s, rfl⟩
    · rw [canonical, result_bind] at made
      cases answer : result (value ⟨status, .soft h loader byMarker⟩) s with
      | mk resolved s₁ =>
        cases resolved with
        | ok c => exact ⟨c, s₁, rfl⟩
        | error e => rw [answer] at made; cases made
  obtain ⟨c, s₁, target⟩ := target
  exact ⟨c, ⟨s, s₁, .refl s, target⟩, fun named => ((r.canonical_yields target named).of_result made).1⟩

theorem MayLead.of_later {r : Ref Cell} {s s' : Session} {c : Cell} (leads : r.MayLead s' c) (later : s.Later s') :
    r.MayLead s c := by
  obtain ⟨s₁, s₂, later', run⟩ := leads
  exact ⟨s₁, s₂, later.trans later', run⟩

theorem later_canonical (r : Ref Cell) (s : Session) : s.Later (result r.canonical s).2 := by
  have later := r.later_value s
  obtain ⟨status, cell | ⟨h, loader, byMarker⟩⟩ := r
  · exact .refl s
  · rw [canonical, result_bind]
    generalize result (value ⟨status, .soft h loader byMarker⟩) s = answer at later
    obtain ⟨e | c, s'⟩ := answer
    · exact later
    · by_cases small : c.embeddable
      · simpa [small] using later
      · simpa [small] using later

/-- Each of some references that have been put into that form shows a cell that one of them led to. -/
theorem marks_of_canonical {items items' : List (Ref Cell)} {s s' : Session} (named : Named s items)
    (made : result (items.mapM canonical) s = (.ok items', s')) :
    items'.length = items.length ∧ ∀ r' ∈ items', ∃ r ∈ items, ∃ c, r.MayLead s c ∧ r'.mark = c.mark := by
  induction items generalizing items' s with
  | nil =>
    cases made
    exact ⟨rfl, fun r' member => by cases member⟩
  | cons r rest ih =>
    have later := r.later_canonical s
    rw [List.mapM_cons, result_bind] at made
    cases first : result r.canonical s with
    | mk answer s₁ =>
      rw [first] at made later
      cases answer with
      | error e => cases made
      | ok r₁ =>
        simp only [result_bind] at made
        cases others : result (rest.mapM canonical) s₁ with
        | mk answer s₂ =>
          rw [others] at made
          cases answer with
          | error e => cases made
          | ok rest' =>
            cases made
            obtain ⟨length, each⟩ := ih (fun q member c leads => named q (by simp [member]) c (leads.of_later later)) others
            obtain ⟨c, leads, mark⟩ := mark_of_canonical first
            refine ⟨by rw [List.length_cons, List.length_cons, length], fun r' member => ?_⟩
            rcases List.mem_cons.mp member with rfl | member
            · exact ⟨r, by simp, c, leads, mark (named r (by simp) c leads)⟩
            · obtain ⟨q, old, d, leads', same⟩ := each r' member
              exact ⟨q, by simp [old], d, leads'.of_later later, same⟩

end Ref

/-! ### Cells -/

namespace Cell

variable {c : Cell}

/-- Whether a cell can be read does not depend on how its children are held. -/
theorem Readable.ofShown {c' : Cell} (readable : c.Readable) (shows : c'.Shows c) : c'.Readable := by
  refine ⟨?_, shows.encoding_eq ▸ readable.short, fun loader depth fits => ?_⟩
  · have showing := readable.showing
    have same : c'.value.map Ref.mark = c.value.map Ref.mark := shows
    generalize c'.value = v' at same
    generalize c.value = v at same showing
    cases v' with
    | trie kind n' =>
      obtain ⟨n, rfl, nodes⟩ := Value.eq_trie_of_map same.symm
      cases n' with
      | branch b' =>
        cases n with
        | branch b =>
          intro own
          refine showing ?_
          rw [Node.map, Node.map, Node.branch.injEq] at nodes
          have entry := congrArg (fun c : Branch Mark => c.entry.isSome) nodes
          simpa [Branch.map] using entry.trans (by simpa [Branch.map] using own)
        | _ => cases nodes
      | _ => trivial
    | _ => trivial
  · obtain ⟨c₁, read, shown, decoded⟩ := readable.reads loader depth fun r member e inlined => by
      have member' : r.mark ∈ c'.refs.map Ref.mark := by
        rw [shows.refs_eq]
        exact List.mem_map_of_mem member
      obtain ⟨r', held, mark⟩ := List.mem_map.mp member'
      exact fits r' held e ((congrArg Mark.inlined mark).trans inlined)
    rw [shows.encoding_eq]
    exact ⟨c₁, read, shown.trans shows.symm, decoded⟩

/-- A value that is no trie can be read if it is within the limits and its references show cells that can be read. -/
theorem Readable.ofItems {v : Value (Ref Cell)} (value : v.Readable) (other : v.isTrie = false)
    (refs : ∀ r ∈ v.refs, ∃ c : Cell, c.Readable ∧ r.mark = c.mark) : (Cell.ofValue v).Readable := by
  have same := value_ofValue v
  have noTrie : ∀ kind n, v ≠ .trie kind n := by
    rintro kind n rfl
    cases other
  have showing : v.Showing := by
    cases v with
    | trie kind n => cases other
    | _ => trivial
  refine .ofValue ?_ ?_ ?_ ?_ ?_
  · rwa [same]
  · rwa [same]
  · rw [encoding_eq, same]
    exact Value.length_encode_le value fun kind n shape => absurd shape (noTrie kind n)
  · rw [Cell.refs, same]
    intro r member
    obtain ⟨c, readable, mark⟩ := refs r member
    rw [mark]
    exact readable.mark
  · rw [same]
    exact fun kind n shape => absurd shape (noTrie kind n)

theorem le_of_checkLength {part : Sized} {length limit : Nat} (checked : checkLength part length limit = .ok ()) :
    length ≤ limit := by
  rw [checkLength] at checked
  split at checked
  · cases checked
  · rename_i short
    exact not_lt.mp short

theorem name_of_checkName {name : String} (checked : checkName name = .ok ()) :
    name.isEmpty = false ∧ name.utf8ByteSize ≤ Limits.symbol := by
  rw [checkName] at checked
  split at checked
  · cases checked
  · rename_i nonempty
    exact ⟨Bool.eq_false_iff.mpr nonempty, le_of_checkLength checked⟩

theorem of_checked {α : Type} {check : Except Error Unit} {a b : α} (made : (do check; return a) = .ok b) :
    check = .ok () ∧ a = b := by
  cases check with
  | error e => cases made
  | ok u => cases made; exact ⟨rfl, rfl⟩

theorem of_checkedItems {part : Sized} {items : List (Ref Cell)} {limit : Nat} {make : List (Ref Cell) → Cell}
    {s s' : Session} (made : result (do
      liftM (checkLength part items.length limit)
      return make (← items.mapM Ref.canonical) : Action Cell) s = (.ok c, s')) :
    items.length ≤ limit ∧ ∃ items', result (items.mapM Ref.canonical) s = (.ok items', s') ∧ c = make items' := by
  rw [result_bind, result_liftExcept] at made
  cases checked : checkLength part items.length limit with
  | error e => rw [checked] at made; cases made
  | ok u =>
    rw [checked] at made
    simp only [result_bind] at made
    cases run : result (items.mapM Ref.canonical) s with
    | mk answer s₁ =>
      rw [run] at made
      cases answer with
      | error e => cases made
      | ok items' =>
        cases made
        exact ⟨le_of_checkLength checked, items', rfl, rfl⟩

theorem of_checkedDigit {part : Selector} {n : UInt8} {make : Digit → Action Cell} {s s' : Session}
    (made : result (do make (← liftM (checkDigit part n))) s = (.ok c, s')) :
    ∃ d, result (make d) s = (.ok c, s') := by
  rw [result_bind, result_liftExcept] at made
  cases checked : checkDigit part n with
  | error e => rw [checked] at made; cases made
  | ok d =>
    rw [checked] at made
    exact ⟨d, made⟩

/-- Items in the form in which a parent holds them show cells that they may lead to. -/
theorem shown_of_canonical {items items' : List (Ref Cell)} {s s' : Session} (named : Ref.Named s items)
    (readable : ∀ r ∈ items, ∀ d, r.MayLead s d → d.Readable)
    (run : result (items.mapM Ref.canonical) s = (.ok items', s')) :
    items'.length = items.length ∧ ∀ r' ∈ items', ∃ d : Cell, d.Readable ∧ r'.mark = d.mark := by
  obtain ⟨length, each⟩ := Ref.marks_of_canonical named run
  refine ⟨length, fun r' member => ?_⟩
  obtain ⟨r, old, d, leads, mark⟩ := each r' member
  exact ⟨d, readable r old d leads, mark⟩

/-- A cell that is built can be read back. -/
theorem Built.readable (built : c.Built) : c.Readable := by
  have none : ∀ r ∈ ([] : List (Ref Cell)), ∃ d : Cell, d.Readable ∧ r.mark = d.mark := fun r member => by cases member
  induction built with
  | nil => exact .ofItems trivial rfl none
  | bool b => exact .ofItems trivial rfl none
  | integer i => exact .ofItems trivial rfl none
  | double bits =>
    refine .ofItems (fun isNaN => ?_) rfl none
    split
    · rfl
    · rename_i number
      rw [if_neg number] at isNaN
      exact absurd isNaN number
  | string made =>
    obtain ⟨checked, rfl⟩ := of_checked made
    exact .ofItems (le_of_checkLength checked) rfl none
  | blob made =>
    obtain ⟨checked, rfl⟩ := of_checked made
    exact .ofItems (le_of_checkLength checked) rfl none
  | symbol made =>
    obtain ⟨checked, rfl⟩ := of_checked made
    exact .ofItems (name_of_checkName checked) rfl none
  | keyword made =>
    obtain ⟨checked, rfl⟩ := of_checked made
    exact .ofItems (name_of_checkName checked) rfl none
  | @extension kind value c made =>
    rw [Cell.extension] at made
    cases checked : checkDigit .extensionKind kind with
    | error e => rw [checked] at made; cases made
    | ok d =>
      rw [checked] at made
      cases made
      exact .ofItems trivial rfl none
  | vector named _ made ih =>
    obtain ⟨short, items', run, rfl⟩ := of_checkedItems made
    obtain ⟨length, each⟩ := shown_of_canonical named ih run
    exact .ofItems (v := .vector items') (length.trans_le short) rfl each
  | @record kind fields s s' c named _ made ih =>
    rw [Cell.record] at made
    obtain ⟨d, made⟩ := of_checkedDigit made
    obtain ⟨short, items', run, rfl⟩ := of_checkedItems made
    obtain ⟨length, each⟩ := shown_of_canonical named ih run
    exact .ofItems (v := .record d items') (length.trans_le short) rfl each
  | @code opcode operands s s' c named _ made ih =>
    rw [Cell.code] at made
    obtain ⟨d, made⟩ := of_checkedDigit made
    obtain ⟨short, items', run, rfl⟩ := of_checkedItems made
    obtain ⟨length, each⟩ := shown_of_canonical named ih run
    exact .ofItems (v := .code d items') (length.trans_le short) rfl each
  | trie values built ih =>
    obtain ⟨f, carries⟩ := built.carries ih
    exact carries.cell_readable
  | held _ shows ih => exact ih.ofShown shows

/-- What decoding with a loader makes of a child: the cell of the same encoding, held directly and known to be
embedded, if the child is embeddable, and otherwise a reference by its hash that is yet to be resolved. -/
def ChildDecoded (loader : Option LoaderId) (r r' : Ref Cell) : Prop :=
  (∃ c c', r.cell? = some c ∧ c.embeddable ∧ r' = ⟨.embedded, .direct c'⟩ ∧ c'.encoding = c.encoding) ∨
    ((∀ c, r.cell? = some c → c.embeddable = false) ∧ r' = Ref.ofMarker r.hash loader)

theorem childDecoded_of_mark {loader : Option LoaderId} {r r' : Ref Cell} (decoded : r'.Decoded loader)
    (same : r'.mark = r.mark) : ChildDecoded loader r r' := by
  have hash : r'.hash = r.hash := congrArg Mark.hash same
  have inlined : r'.inlined? = r.inlined? := congrArg Mark.inlined same
  rcases decoded with ⟨c', rfl, small⟩ | soft
  · have written : r.inlined? = some c'.encoding := by
      rw [← inlined]
      exact if_pos small
    obtain ⟨c, held, embeddable, encoding, -⟩ := Ref.inlined?_eq_some written
    exact .inl ⟨c, c', held, embeddable, rfl, encoding.symm⟩
  · refine .inr ⟨fun c held => ?_, hash ▸ soft⟩
    rw [soft] at inlined
    by_contra small
    rw [Bool.not_eq_false] at small
    obtain ⟨status, target⟩ := r
    cases target with
    | soft h loader byMarker => cases held
    | direct d =>
      cases held
      have written : (⟨status, .direct c⟩ : Ref Cell).inlined? = some c.encoding := if_pos small
      rw [written] at inlined
      cases inlined

/-- Whatever can be made is decoded as it was encoded: the cell that decoding gives has the same encoding, is
embeddable if the cell was, and has the same value but for the form in which its children are held. -/
theorem Built.decode_encoding (built : c.Built) (loader : Option LoaderId) : ∃ c', decode loader c.encoding = .ok c' ∧
    c'.encoding = c.encoding ∧ c'.embeddable = c.embeddable ∧
    c'.value.map (fun _ => ()) = c.value.map (fun _ => ()) ∧
    List.Forall₂ (ChildDecoded loader) c.refs c'.refs := by
  obtain ⟨c', decoded, shows, each⟩ := built.readable.decode loader
  refine ⟨c', decoded, shows.encoding_eq, shows.embeddable_eq, ?_, ?_⟩
  · have shape := congrArg (Value.map fun _ : Mark => ()) (show c'.value.map Ref.mark = c.value.map Ref.mark from shows)
    rwa [Value.map_map, Value.map_map] at shape
  · have marks := shows.refs_eq
    generalize c'.refs = refs' at each marks
    generalize c.refs = refs at marks
    induction refs' generalizing refs with
    | nil =>
      cases refs with
      | nil => exact .nil
      | cons r rest => cases marks
    | cons r' rest' ih =>
      cases refs with
      | nil => cases marks
      | cons r rest =>
        rw [List.map_cons, List.map_cons, List.cons.injEq] at marks
        exact .cons (childDecoded_of_mark (each r' (by simp)) marks.1)
          (ih (fun q member => each q (by simp [member])) rest marks.2)

/-- The entry of a map, bound to a vector of one cell. -/
def entryOf (item : Cell) : KeyMap := Trie.leaf .map [1, 2] (Ref.direct (Cell.ofValue (.vector [Ref.direct item])))

theorem three_lt : 3 < 16 := by decide

/-- A record of a truth value and a map in which a key is bound to a vector of one cell. -/
def nested (item : Cell) : Cell :=
  Cell.ofValue (.record ⟨3, three_lt⟩ [Ref.direct (Cell.bool true), Ref.direct (entryOf item).cell])

theorem nested_built {item : Cell} (built : item.Built) : (nested item).Built := by
  have leads : ∀ (d d' : Cell) (s : Session), (Ref.direct d).MayLead s d' → d' = d := by
    rintro d d' s ⟨s₁, s₂, -, run⟩
    cases run
    rfl
  have named : ∀ (items : List Cell) (s : Session), Ref.Named s (items.map Ref.direct) := by
    intro items s r member c mayLead
    obtain ⟨d, -, rfl⟩ := List.mem_map.mp member
    rw [leads d c s mayLead]
    rfl
  have all : ∀ (items : List Cell) (s : Session), (∀ d ∈ items, d.Built) →
      ∀ r ∈ items.map Ref.direct, ∀ d, r.MayLead s d → d.Built := by
    intro items s each r member d mayLead
    obtain ⟨d', listed, rfl⟩ := List.mem_map.mp member
    exact leads d' d s mayLead ▸ each d' listed
  have items : (Cell.ofValue (.vector [Ref.direct item])).Built :=
    .vector (named [item] ⟨[], []⟩) (all [item] ⟨[], []⟩ (by simpa using built)) rfl
  have made : result (KeyMap.assoc KeyMap.empty [1, 2] (Ref.direct (Cell.ofValue (.vector [Ref.direct item]))))
      ⟨[], []⟩ = (.ok (some (entryOf item)), ⟨[], []⟩) := rfl
  have map : (entryOf item).cell.Built :=
    .trie (fun _ built => built) (.assoc (.empty .map ⟨[], []⟩) rfl rfl items (by decide) made)
  have made' : result (Cell.record 3 ([Cell.bool true, (entryOf item).cell].map Ref.direct)) ⟨[], []⟩ =
      (.ok (nested item), ⟨[], []⟩) := rfl
  refine .record (named _ ⟨[], []⟩) (all _ ⟨[], []⟩ ?_) made'
  simpa using ⟨.bool true, map⟩

theorem decode_nested : ∃ text, Cell.string "merkle" = .ok text ∧ (nested text).Built ∧
    ∃ c', decode (some 0) (nested text).encoding = .ok c' ∧ c'.encoding = (nested text).encoding ∧
      c'.embeddable = (nested text).embeddable ∧
      c'.value.map (fun _ => ()) = (nested text).value.map (fun _ => ()) ∧
      List.Forall₂ (ChildDecoded (some 0)) (nested text).refs c'.refs := by
  have text : Cell.string "merkle" = .ok (Cell.ofValue (.string "merkle")) := rfl
  have built := nested_built (.string text)
  exact ⟨_, text, built, built.decode_encoding (some 0)⟩

end Cell

end MerkleCells
