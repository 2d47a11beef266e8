import MerkleCells.Proofs.Coherent
import MerkleCells.Proofs.Trie.Sorted

/-!
Tries whose children come from stores that may have anything. A decoder looks at the children that are written inside a
branch, and at no others: `Trie.Formed` is what that is worth. If each child that is loaded by its hash has its place
below its digit as well (`Trie.Placed`), a walk that ends without a failure comes across keys that ascend, and a lookup
finds each of them again (`Trie.list_placed`). Nothing looks at the place of a child that is loaded, so without that
neither is true (`Misplaced.unsorted`).
-/
namespace MerkleCells

open MerkleCells.Action

/-! ### Places -/

/-- A node has its place below a digit of a branch: it is not empty, and extends the path of the branch by the digit. -/
structure Branch.Places (b : Branch (Ref Cell)) (d : Digit) (n : Node (Ref Cell)) : Prop where
  nonempty : n.isEmpty = false
  deeper : b.depth < n.depth
  shares : Digits.Shares n.path b.path b.depth
  digit : Digits.digit? n.path b.depth = some d

/-- What the reader of nodes asks of a node, where it looks at the children only that are written inside. -/
def Node.Formed (kind : TrieKind) : Node (Ref Cell) → Prop
  | .empty => True
  | .leaf key value => kind.Admits key value.mark
  | .branch b => b.Readable kind ∧ ∀ d r, b.child? d = some r → r.isEmbedded →
      ∀ u : Trie kind, r.cell? = some u.cell → b.Places d u.node

variable {kind : TrieKind}

namespace Branch

variable {b b' : Branch (Ref Cell)} {d : Digit} {n n' : Node (Ref Cell)}

/-- A node has its place wherever a node does that is written alike. -/
theorem Places.ofShown (places : b.Places d n) (same : b'.map Ref.mark = b.map Ref.mark)
    (like : n'.map Ref.mark = n.map Ref.mark) : b'.Places d n' := by
  have depth : b'.depth = b.depth := congrArg (fun c : Branch Mark => c.depth) same
  have path : b'.path = b.path := congrArg (fun c : Branch Mark => c.path) same
  have isEmpty := congrArg Node.isEmpty like
  have path' := congrArg Node.path like
  have depth' := congrArg Node.depth like
  rw [Node.isEmpty_map, Node.isEmpty_map] at isEmpty
  rw [Node.path_map, Node.path_map] at path'
  rw [Node.depth_map, Node.depth_map] at depth'
  refine ⟨isEmpty.trans places.nonempty, ?_, ?_, ?_⟩
  · rw [depth, depth']
    exact places.deeper
  · rw [depth, path, path']
    exact places.shares
  · rw [depth, path']
    exact places.digit

theorem Readable.ofShown (readable : b.Readable kind) (same : b'.map Ref.mark = b.map Ref.mark) :
    b'.Readable kind := by
  have depth : b'.depth = b.depth := congrArg (fun c : Branch Mark => c.depth) same
  have path : b'.path = b.path := congrArg (fun c : Branch Mark => c.path) same
  have count : b'.count = b.count := congrArg (fun c : Branch Mark => c.count) same
  have entry : b'.entry.map Ref.mark = b.entry.map Ref.mark := congrArg Branch.entry same
  have own : b'.entry.isSome = b.entry.isSome := by rw [← Option.isSome_map (f := Ref.mark), entry, Option.isSome_map]
  have children : (b'.children.map fun c => (c.1, c.2.mark)) = b.children.map fun c => (c.1, c.2.mark) :=
    congrArg Branch.children same
  refine ⟨?_, ?_, ?_, ?_, ?_, ?_, ?_⟩
  · rw [depth]
    exact readable.depth_le
  · rw [depth, path]
    exact readable.path_eq
  · have ascending := readable.ascending.map Ref.mark
    rw [← children] at ascending
    rw [Ascending, List.pairwise_map] at ascending
    exact ascending
  · intro none
    rw [none, List.map_nil] at children
    exact readable.children_ne_nil (List.map_eq_nil_iff.mp children.symm)
  · rw [occupants_eq same]
    exact readable.occupants
  · rw [occupants_eq same, count]
    exact readable.occupants_le
  · rw [own, depth]
    exact readable.entry

end Branch

namespace Trie

variable {t u : Trie kind} {s s' s₁ : Session} {b : Branch (Ref Cell)} {d : Digit} {r : Ref Cell}

/-- The decoder has looked at the place of each child that it holds. -/
theorem places_of_accepted {loader : Option LoaderId} (accepted : t.cell.Accepted loader) (shape : t.node = .branch b)
    (found : b.child? d = some r) {c : Cell} (held : r.cell? = some c) :
    ∃ n, c.value = .trie kind n ∧ b.Places d n := by
  have checked := accepted.value.2 kind t.node t.value_eq
  rw [shape] at checked
  obtain ⟨total, run, -⟩ := Branch.of_checkChildren checked.2
  obtain ⟨n, value, nonempty, deeper, shares, digit⟩ :=
    Branch.grows_of_foldlM run (d, r) (Branch.mem_of_childIn found) c held
  exact ⟨n, value, nonempty, deeper, shares, digit⟩

/-- A child that is written inside a cell of a trie that can be decoded has its place. -/
theorem formed (genuine : t.cell.Genuine Set.univ) : t.node.Formed kind := by
  obtain ⟨c, decoded, shows, -⟩ := genuine.involved.readable.decode none
  have accepted := (of_decode decoded).2
  obtain ⟨t', read, rfl, like⟩ := exists_of_shows shows
  have nodes := accepted.value.2 kind t'.node t'.value_eq
  rcases Node.alike_cases like with
    ⟨shape, -⟩ | ⟨key, value, value', shape, shape', mark⟩ | ⟨b, b', shape, shape', same⟩
  · rw [shape]
    trivial
  · rw [shape'] at nodes
    rw [shape]
    show kind.Admits key value.mark
    rw [← mark]
    exact nodes
  · rw [shape'] at nodes
    rw [shape]
    refine ⟨nodes.1.ofShown same.symm, fun d r found inside u held => ?_⟩
    have member := mem_refs_of_child shape (Branch.mem_of_childIn found)
    -- the decoded cell has the same child, written inside it
    have child := Branch.child?_map_mark same d
    rw [found] at child
    obtain ⟨r', found', mark⟩ := Option.map_eq_some_iff.mp child
    have member' := mem_refs_of_child shape' (Branch.mem_of_childIn found')
    obtain ⟨e, inlined⟩ := Option.isSome_iff_exists.mp inside
    obtain ⟨c₁, held₁, small, rfl, -⟩ := Ref.inlined?_eq_some inlined
    rw [held] at held₁
    cases held₁
    obtain ⟨c', held', small', encoding, -⟩ :=
      Ref.inlined?_eq_some ((congrArg Mark.inlined mark).trans inlined)
    obtain ⟨n, value, places⟩ := places_of_accepted accepted shape' found' held'
    have readable' : c'.Readable := (accepted.held member' held').readable
      ((Cell.length_le_of_embeddable small').trans (by decide))
    have shows' := (genuine.held member held).involved.readable.shows readable' encoding.symm
    refine places.ofShown same.symm ?_
    rw [Cell.Shows, value, u.value_eq, Value.map, Value.map, Value.trie.injEq] at shows'
    exact shows'.2

end Trie

/-- What is decoded can be read, and so can what is written inside it. -/
theorem Cell.Accepted.genuine {loader : Option LoaderId} {c : Cell} (accepted : c.Accepted loader)
    (short : c.encoding.length ≤ Limits.encoding) : c.Genuine Set.univ := by
  induction accepted with
  | intro c value refs children ih =>
    have readable : c.Readable := Cell.Accepted.readable (.intro c value refs children) short
    refine ⟨⟨readable, trivial⟩, fun r member d held => ih r member d held ?_⟩
    rcases refs r member with ⟨d', same, small⟩ | marker
    · rw [same] at held
      cases held
      exact (Cell.length_le_of_embeddable small).trans (by decide)
    · rw [marker] at held
      cases held

/-! ### What is reached -/

/-- Whatever a store behind a loader gives can be decoded, and so can all that it holds directly. -/
def Session.Legible (s : Session) : Prop :=
  ∀ id h c, Loader.accept h (s.told id h) = .ok c → c.Genuine Set.univ

namespace Trie

variable {t u : Trie kind} {s s' s₁ : Session} {b : Branch (Ref Cell)} {d : Digit} {r : Ref Cell}

/-- Each child that is written by its hash, of any branch on the way down, leads to a node that has its place there. -/
def Placed (s : Session) (t : Trie kind) : Prop :=
  ∀ b, t.node.Reaches kind s (.branch b) → ∀ d r, b.child? d = some r → r.isEmbedded = false →
    ∀ u s₁, result (resolve kind r) s = (.ok u, s₁) → b.Places d u.node

/-- A trie of cells that can be decoded, down to what is loaded, with each loaded node at its place. -/
structure Orderly (s : Session) (t : Trie kind) : Prop where
  coherent : s.Coherent
  legible : s.Legible
  genuine : t.cell.Genuine Set.univ
  placed : t.Placed s

/-- What is reached does not depend on what has been loaded before. -/
theorem reaches_again {n m : Node (Ref Cell)} (coherent : s.Coherent) {s₁ s₂ : Session} (later₁ : s.Later s₁)
    (later₂ : s.Later s₂) (reaches : n.Reaches kind s₁ m) : n.Reaches kind s₂ m := by
  induction reaches generalizing s₂ with
  | refl s₁ n => exact .refl s₂ n
  | @child s₁ s₁' b d r t n found run _ ih =>
    obtain ⟨s₂', run', later'⟩ := coherent.resolve_again later₁ later₂ run
    exact .child found run' (ih (later₁.trans (later_of_resolve run)) later')

theorem genuine_of_resolve (legible : s.Legible) (coherent : s.Coherent) (later : s.Later s')
    (held : ∀ c, r.cell? = some c → c.Genuine Set.univ) (run : result (resolve kind r) s' = (.ok u, s₁)) :
    u.cell.Genuine Set.univ := by
  rw [resolve, result_bind] at run
  cases answer : result r.value s' with
  | mk found s₂ =>
    rw [answer] at run
    cases found with
    | error e => cases run
    | ok c =>
      have read : ofCell kind c = .ok u := congrArg Prod.fst run
      rw [cell_of_ofCell read]
      obtain ⟨status, c' | ⟨h, id, byMarker⟩⟩ := r
      · cases answer
        exact held c rfl
      · cases id with
        | none => cases answer
        | some id =>
          have loaded := congrArg Prod.fst (Ref.load_of_value answer).1
          rw [((coherent.later later id).load h).1, Session.told_later later] at loaded
          exact legible id h c loaded

namespace Orderly

/-- What a child leads to is orderly in turn, and has its place. -/
theorem child (orderly : t.Orderly s) (shape : t.node = .branch b) (found : b.child? d = some r) (later : s.Later s')
    (run : result (resolve kind r) s' = (.ok u, s₁)) : u.Orderly s ∧ b.Places d u.node := by
  have coherent := orderly.coherent
  have member := mem_refs_of_child shape (Branch.mem_of_childIn found)
  have genuine : u.cell.Genuine Set.univ := genuine_of_resolve orderly.legible coherent later
    (fun c held => orderly.genuine.held member held) run
  obtain ⟨s₂, run₂, later₂⟩ := coherent.resolve_again later (.refl s) run
  refine ⟨⟨coherent, orderly.legible, genuine, fun b' reaches => orderly.placed b' ?_⟩, ?_⟩
  · rw [shape]
    exact .child found run₂ (reaches_again coherent (.refl s) later₂ reaches)
  · cases inside : r.isEmbedded with
    | false => exact orderly.placed b (by rw [shape]; exact .refl s _) d r found inside u s₂ run₂
    | true =>
      obtain ⟨c, held, -⟩ := Ref.cell_of_isEmbedded inside
      have formed := formed orderly.genuine
      rw [shape] at formed
      refine formed.2 d r found inside u ?_
      rw [Ref.eq_direct held, resolve, result_bind, Ref.result_value_direct] at run₂
      rw [held, cell_of_ofCell (congrArg Prod.fst run₂)]

end Orderly

/-! ### Walks -/

/-- Entries whose keys extend the path of a node and ascend. A lookup from the node finds each of them, now and after
more has been loaded. -/
structure Recovers (s : Session) (n : Node (Ref Cell)) (kind : TrieKind) (entries : List Entry) : Prop where
  within : ∀ e ∈ entries, Digits.Shares e.key n.path n.depth
  ascending : entries.Pairwise fun e e' => Digits.Before e.key e'.key
  found : ∀ e ∈ entries, ∀ s', s.Later s' → ∀ fuel, kind.maxDigits < fuel + n.depth →
    Yields (getWithin kind e.key fuel n) s' fun v s'' => v = some e.value ∧ s.Later s''

/-- A walk that has come to its end is one walk after another, and both have come to their ends. -/
theorem of_run_append {x x₂ : StateM Session (Listing Entry)} {entries : List Entry} {s s₃ : Session}
    (run : StateT.run (do
      let l ← x
      if l.failure.isSome then return l
      return l.append (← x₂)) s = (⟨entries, none⟩, s₃)) :
    ∃ first second s₂, StateT.run x s = (⟨first, none⟩, s₂) ∧ StateT.run x₂ s₂ = (⟨second, none⟩, s₃) ∧
      entries = first ++ second := by
  cases run₁ : StateT.run x s with
  | mk l s₂ =>
    cases run₂ : StateT.run x₂ s₂ with
    | mk l₂ s₃' =>
      rw [run_append run₁ run₂] at run
      obtain ⟨first, _ | e⟩ := l
      · obtain ⟨second, failure⟩ := l₂
        cases run
        exact ⟨first, second, s₂, rfl, run₂, rfl⟩
      · cases run

theorem of_run_listChildren_cons {visit : Trie kind → StateM Session (Listing Entry)} {c : Digit × Ref Cell}
    {rest : List (Digit × Ref Cell)} {entries : List Entry} {s s₃ : Session}
    (run : StateT.run (listChildren visit (c :: rest)) s = (⟨entries, none⟩, s₃)) :
    ∃ u s₁ first second s₂, result (resolve kind c.2) s = (.ok u, s₁) ∧
      StateT.run (visit u) s₁ = (⟨first, none⟩, s₂) ∧
      StateT.run (listChildren visit rest) s₂ = (⟨second, none⟩, s₃) ∧ entries = first ++ second := by
  have resolved : StateT.run (ExceptT.run (resolve kind c.2)) s = result (resolve kind c.2) s := rfl
  rw [listChildren, StateT.run_bind, resolved] at run
  cases found : result (resolve kind c.2) s with
  | mk answer s₁ =>
    rw [found] at run
    cases answer with
    | error e => cases run
    | ok u =>
      obtain ⟨first, second, s₂, visited, others, split⟩ := of_run_append run
      exact ⟨u, s₁, first, second, s₂, rfl, visited, others, split⟩

/-- Entries that are found below some children of a branch. -/
structure RecoversBelow (s : Session) (b : Branch (Ref Cell)) (kind : TrieKind) (children : List (Digit × Ref Cell))
    (entries : List Entry) : Prop where
  below : ∀ e ∈ entries, ∃ c ∈ children, Digits.Shares e.key b.path b.depth ∧
    Digits.digit? e.key b.depth = some c.1 ∧ ∃ (u : Trie kind) (s₁ : Session),
      result (resolve kind c.2) s = (.ok u, s₁) ∧ b.depth < u.node.depth ∧
        ∃ listed, Recovers s u.node kind listed ∧ e ∈ listed
  ascending : entries.Pairwise fun e e' => Digits.Before e.key e'.key

/-- Each of some children has its place below a branch, and a visit to it that ends without a failure comes across
entries that are found from it. -/
def RecoversEach (s : Session) (b : Branch (Ref Cell)) (visit : Trie kind → StateM Session (Listing Entry))
    (children : List (Digit × Ref Cell)) : Prop :=
  ∀ c ∈ children, ∀ u s' s₁, s.Later s' → result (resolve kind c.2) s' = (.ok u, s₁) → b.Places c.1 u.node ∧
    ∀ entries s₂, StateT.run (visit u) s₁ = (⟨entries, none⟩, s₂) → s.Later s₂ ∧ Recovers s u.node kind entries

/-- A walk through some children that ends without a failure has come across entries that are found below them. -/
theorem listChildren_recovers {visit : Trie kind → StateM Session (Listing Entry)} (coherent : s.Coherent)
    {children : List (Digit × Ref Cell)} (ascending : Branch.Ascending children)
    (each : RecoversEach s b visit children) {entries : List Entry} (later : s.Later s')
    (run : StateT.run (listChildren visit children) s' = (⟨entries, none⟩, s₁)) :
    s.Later s₁ ∧ RecoversBelow s b kind children entries := by
  induction children generalizing s' entries with
  | nil =>
    cases run
    exact ⟨later, fun e none => (by cases none), .nil⟩
  | cons c rest ih =>
    obtain ⟨least, ascending⟩ := List.pairwise_cons.mp ascending
    obtain ⟨u, s₂, first, second, s₃, found, visited, others, rfl⟩ := of_run_listChildren_cons run
    obtain ⟨place, visits⟩ := each c List.mem_cons_self u s' s₂ later found
    obtain ⟨later₃, recovers⟩ := visits first s₃ visited
    obtain ⟨later₁, below⟩ := ih ascending (fun c' member => each c' (List.mem_cons_of_mem c member)) later₃ others
    obtain ⟨s₂', found', -⟩ := coherent.resolve_again later (.refl s) found
    -- what lies below the first child shares the path of the branch and goes on with the digit of the child
    have here : ∀ e ∈ first, Digits.Shares e.key b.path b.depth ∧ Digits.digit? e.key b.depth = some c.1 := by
      intro e member
      have shares := recovers.within e member
      refine ⟨(shares.mono place.deeper.le).trans place.shares, ?_⟩
      rw [shares.digit?_eq place.deeper, place.digit]
    refine ⟨later₁, fun e member => ?_, ?_⟩
    · rcases List.mem_append.mp member with member | member
      · exact ⟨c, List.mem_cons_self, (here e member).1, (here e member).2, u, s₂', found', place.deeper, first,
          recovers, member⟩
      · obtain ⟨c', at_rest, found⟩ := below.below e member
        exact ⟨c', List.mem_cons_of_mem c at_rest, found⟩
    · refine List.pairwise_append.mpr ⟨recovers.ascending, below.ascending, fun e member e' member' => ?_⟩
      obtain ⟨c', at_rest, shares', digit', -⟩ := below.below e' member'
      exact ⟨b.depth, (here e member).1.trans shares'.symm,
        .inr ⟨c.1, c'.1, (here e member).2, digit', least c' at_rest⟩⟩

theorem recovers_leaf {key : Bytes} {value : Ref Cell} (admits : kind.Admits key value.mark) :
    Recovers s (.leaf key value) kind [⟨key, value⟩] := by
  refine ⟨fun e member => ?_, List.pairwise_singleton _ _, fun e member s' later fuel enough => ?_⟩
  · rw [List.mem_singleton.mp member]
    exact .refl (Nat.le_refl _)
  · rw [List.mem_singleton.mp member]
    have short : (Node.leaf key value).depth ≤ kind.maxDigits := admits.count_le
    obtain ⟨fuel, rfl⟩ : ∃ m, fuel = m + 1 := ⟨fuel - 1, by omega⟩
    exact yields_pure.mpr ⟨if_pos rfl, later⟩

theorem maxDepth_le (kind : TrieKind) : kind.maxDepth ≤ kind.maxDigits := by cases kind <;> decide

/-- The own entry of a branch, if it has one. -/
def ownEntries (b : Branch (Ref Cell)) : List Entry := (b.entry.map fun value => ⟨b.path, value⟩).toList

theorem of_mem_ownEntries (readable : b.Readable kind) {e : Entry} (member : e ∈ ownEntries b) :
    e.key = b.path ∧ b.entry = some e.value ∧ Digits.count b.path = b.depth := by
  obtain ⟨value, entry, rfl⟩ := Option.map_eq_some_iff.mp (Option.mem_toList.mp member)
  exact ⟨rfl, entry, (readable.path_ends (by rw [entry]; rfl)).2.1⟩

theorem pairwise_ownEntries (R : Entry → Entry → Prop) (b : Branch (Ref Cell)) : (ownEntries b).Pairwise R := by
  rw [ownEntries]
  cases b.entry with
  | none => exact .nil
  | some value => exact List.pairwise_singleton _ _

/-- A lookup that comes to a branch finds the branch's own entry. -/
theorem found_own (readable : b.Readable kind) {e : Entry} (member : e ∈ ownEntries b) (later : s.Later s')
    (fuel : Nat) :
    Yields (getWithin kind e.key (fuel + 1) (.branch b)) s' fun v s'' => v = some e.value ∧ s.Later s'' := by
  obtain ⟨key, entry, ends⟩ := of_mem_ownEntries readable member
  have begins : Digits.beginsWith e.key b.path b.depth = true := by
    rw [Digits.beginsWith_iff, key]
    exact .refl ends.ge
  rw [getWithin]
  simp only [begins, Bool.not_true, Bool.false_eq_true, ↓reduceIte]
  rw [if_pos (by rw [key, ends])]
  exact yields_pure.mpr ⟨entry, later⟩

/-- A lookup that comes to a branch goes on to what is found below a child. -/
theorem found_below (coherent : s.Coherent) (readable : b.Readable kind) {entries : List Entry}
    (below : RecoversBelow s b kind b.children entries) {e : Entry} (member : e ∈ entries) (later : s.Later s')
    {fuel : Nat} (enough : kind.maxDigits < fuel + 1 + b.depth) :
    Yields (getWithin kind e.key (fuel + 1) (.branch b)) s' fun v s'' => v = some e.value ∧ s.Later s'' := by
  obtain ⟨c, at_b, shares, digit, u, s₁, found, deeper, listed, recovers, member⟩ := below.below e member
  have begins := (Digits.beginsWith_iff _ _ _).mpr shares
  have goes := Digits.lt_count digit
  rw [getWithin]
  simp only [begins, Bool.not_true, Bool.false_eq_true, ↓reduceIte]
  rw [if_neg (by omega)]
  refine yields_bind.mpr (yields_digitAt digit ?_)
  simp only [Branch.child?_eq, readable.ascending.childIn_of_mem at_b]
  obtain ⟨s₂, found', later₂⟩ := coherent.resolve_again (.refl s) later found
  exact yields_bind.mpr ⟨u, s₂, found', recovers.found e member s₂ later₂ fuel (by omega)⟩

/-- The own entry of a branch, and what is found below its children, is found from the branch. -/
theorem recovers_branch (coherent : s.Coherent) (readable : b.Readable kind) {entries : List Entry}
    (below : RecoversBelow s b kind b.children entries) : Recovers s (.branch b) kind (ownEntries b ++ entries) := by
  refine ⟨fun e member => ?_, ?_, fun e member s' later fuel enough => ?_⟩
  · rcases List.mem_append.mp member with member | member
    · obtain ⟨key, -, ends⟩ := of_mem_ownEntries readable member
      rw [key]
      exact .refl ends.ge
    · obtain ⟨-, -, shares, -⟩ := below.below e member
      exact shares
  · refine List.pairwise_append.mpr ⟨pairwise_ownEntries _ b, below.ascending, fun e member e' member' => ?_⟩
    obtain ⟨key, -, ends⟩ := of_mem_ownEntries readable member
    obtain ⟨c, -, shares, digit, -⟩ := below.below e' member'
    rw [key]
    exact ⟨b.depth, shares.symm, .inl ⟨ends, Digits.lt_count digit⟩⟩
  · have shallow : b.depth ≤ kind.maxDigits := readable.depth_le.trans (maxDepth_le kind)
    have enough : kind.maxDigits < fuel + b.depth := enough
    obtain ⟨fuel, rfl⟩ : ∃ m, fuel = m + 1 := ⟨fuel - 1, by omega⟩
    rcases List.mem_append.mp member with member | member
    · exact found_own readable member later fuel
    · exact found_below coherent readable below member later enough

/-- A walk that comes to its end at a branch begins with the branch's own entry and goes on through the children. -/
theorem of_run_branch {fuel : Nat} {entries : List Entry}
    (run : StateT.run (listWithin kind .ok (fuel + 1) (.branch b)) s = (⟨entries, none⟩, s₁)) :
    ∃ rest, entries = ownEntries b ++ rest ∧ StateT.run
      (listChildren (fun u : Trie kind => listWithin kind .ok fuel u.node) b.children) s = (⟨rest, none⟩, s₁) := by
  obtain ⟨own, rest, s₂, first, others, rfl⟩ := of_run_append (x := pure _) run
  have given : own = ownEntries b ∧ s = s₂ := by
    rw [ownEntries]
    cases entry : b.entry with
    | none =>
      rw [entry] at first
      cases first
      exact ⟨rfl, rfl⟩
    | some value =>
      rw [entry] at first
      cases first
      exact ⟨rfl, rfl⟩
  obtain ⟨rfl, rfl⟩ := given
  exact ⟨rest, rfl, others⟩

/-- A walk that ends without a failure has come across entries that ascend and are found again. -/
theorem listWithin_recovers (fuel : Nat) {t : Trie kind} {s' s₁ : Session} {entries : List Entry}
    (orderly : t.Orderly s) (later : s.Later s')
    (run : StateT.run (listWithin kind .ok fuel t.node) s' = (⟨entries, none⟩, s₁)) :
    s.Later s₁ ∧ Recovers s t.node kind entries := by
  induction fuel generalizing t s' s₁ entries with
  | zero => cases run
  | succ fuel ih =>
    have formed := formed orderly.genuine
    cases shape : t.node with
    | empty =>
      rw [shape] at run
      cases run
      exact ⟨later, fun e none => (by cases none), .nil, fun e none => by cases none⟩
    | leaf key value =>
      rw [shape] at run formed
      cases run
      exact ⟨later, recovers_leaf formed⟩
    | branch b =>
      rw [shape] at run formed
      obtain ⟨readable, -⟩ := formed
      obtain ⟨rest, rfl, others⟩ := of_run_branch run
      have each : RecoversEach s b (fun u : Trie kind => listWithin kind .ok fuel u.node) b.children := by
        intro c member u s₂ s₃ later₂ resolved
        obtain ⟨below, place⟩ := orderly.child shape (readable.ascending.childIn_of_mem member) later₂ resolved
        exact ⟨place, fun entries s₄ visited => ih below (later₂.trans (later_of_resolve resolved)) visited⟩
      obtain ⟨later₁, found⟩ := listChildren_recovers orderly.coherent readable.ascending each later others
      exact ⟨later₁, recovers_branch orderly.coherent readable found⟩

/-- A trie is decoded, and its children come from stores that may have anything that can be decoded. If each child that
is loaded by its hash has its place, a walk that ends without a failure comes across ascending keys, and each of them is
found again. -/
theorem list_placed {loader : Option LoaderId} {bytes : Bytes} (coherent : s.Coherent) (legible : s.Legible)
    (decoded : decode loader bytes = .ok t.cell) (placed : t.Placed s) {entries : List Entry}
    (run : StateT.run t.list s = (⟨entries, none⟩, s₁)) :
    (entries.Pairwise fun e e' => e.key < e'.key) ∧
      ∀ e ∈ entries, ∀ s', s₁.Later s' → Yields (t.get? e.key) s' fun v _ => v = some e.value := by
  obtain ⟨encoding, accepted⟩ := of_decode decoded
  have genuine : t.cell.Genuine Set.univ := accepted.genuine (by rw [encoding]; exact short_of_decode decoded)
  obtain ⟨fuel, s', levels, rfl, -⟩ := t.yields_levels s
  have levels : StateT.run (ExceptT.run t.levels) s' = (.ok fuel, s') := levels
  rw [list, listWith, StateT.run_bind, levels] at run
  obtain ⟨later, recovers⟩ := listWithin_recovers fuel ⟨coherent, legible, genuine, placed⟩ (.refl s') run
  refine ⟨recovers.ascending.imp fun before => Digits.before_iff_lt.mp before, fun e member s₂ later₂ => ?_⟩
  refine (t.yields_levels s₂).bind ?_
  rintro fuel' s₃ ⟨rfl, enough⟩
  exact (recovers.found e member s₃ (later.trans later₂) fuel' (by omega)).mono fun v _ same => same.1

end Trie

/-! ### Leaves in a store -/

namespace Misplaced

open PartlyHeld (first second forked)

/-- The hashes of two leaves, of the keys `10` and `20`. -/
def firstHash : Hash :=
  ⟨[0x3F, 0xBC, 0x6F, 0xAF, 0xB8, 0xFD, 0xD1, 0xD0, 0x99, 0x7C, 0xD3, 0xAB, 0x02, 0xC7, 0xC6, 0xF4, 0x97, 0x4D, 0xBC,
    0x62, 0xF4, 0xDE, 0x02, 0x77, 0x92, 0x85, 0xFA, 0x7E, 0x08, 0x57, 0xC9, 0xA9], rfl⟩

def secondHash : Hash :=
  ⟨[0xE1, 0xDC, 0xE5, 0xB8, 0xFF, 0x49, 0x40, 0x69, 0x33, 0xA2, 0x2B, 0x6A, 0xA1, 0xD3, 0x6B, 0xDF, 0x1F, 0x6F, 0xEA,
    0x4D, 0xD6, 0x94, 0xDB, 0x20, 0xCF, 0x45, 0x28, 0xE4, 0x80, 0x9A, 0xC3, 0x40], rfl⟩

theorem hash_first : first.cell.hash = firstHash := by decide +kernel

theorem hash_second : second.cell.hash = secondHash := by decide +kernel

/-- A session whose store holds both leaves. -/
def lent : Session :=
  ⟨[⟨0, .empty 1 Nat.one_pos, 0, 0⟩],
    [.memory ⟨[(firstHash, ⟨first.cell, .persisted⟩), (secondHash, ⟨second.cell, .persisted⟩)]⟩]⟩

/-- A map that has its two children from the store. -/
def stored (left right : Hash) : KeyMap := forked (Ref.ofMarker left (some 0)) (Ref.ofMarker right (some 0))

theorem coherent : lent.Coherent := by
  intro id l here e member
  have listed : l ∈ lent.loaders := List.mem_of_getElem? here
  rw [List.mem_singleton.mp listed] at member
  cases member

theorem genuine {c : Cell} (genuine : c.Genuine PartlyHeld.encodings) : c.Genuine Set.univ := by
  induction genuine with
  | mk involved _ ih => exact .mk ⟨involved.readable, trivial⟩ fun r member d held => ih r member d held

theorem told_eq (h : Hash) : lent.told 0 h =
    .ok ((if firstHash = h then some (⟨first.cell, .persisted⟩ : Held)
      else if secondHash = h then some ⟨second.cell, .persisted⟩ else none).map
        fun e => (Ref.direct e.cell).withStatus e.status) := rfl

/-- The store gives the two leaves, each by its hash, and nothing else. -/
theorem of_accept {id : LoaderId} {h : Hash} {c : Cell} (accepted : Loader.accept h (lent.told id h) = .ok c) :
    (firstHash = h ∧ c = first.cell) ∨ (secondHash = h ∧ c = second.cell) := by
  obtain ⟨r, told, held, -⟩ := Loader.accept_eq_ok.mp accepted
  cases id with
  | succ id => cases told
  | zero =>
    rw [told_eq] at told
    by_cases at_first : firstHash = h
    · rw [if_pos at_first] at told
      cases told
      cases held
      exact .inl ⟨at_first, rfl⟩
    · rw [if_neg at_first] at told
      by_cases at_second : secondHash = h
      · rw [if_pos at_second] at told
        cases told
        cases held
        exact .inr ⟨at_second, rfl⟩
      · rw [if_neg at_second] at told
        cases told

theorem legible : lent.Legible := by
  intro id h c accepted
  rcases of_accept accepted with ⟨-, rfl⟩ | ⟨-, rfl⟩
  · exact genuine PartlyHeld.first_genuine
  · exact genuine PartlyHeld.second_genuine

/-- A child whose leaf the store holds is resolved to that leaf. -/
theorem resolve_leaf {t : KeyMap} {h : Hash} {r : Ref Cell} (told : lent.told 0 h = .ok (some r))
    (held : r.cell? = some t.cell) (named : t.cell.hash = h) (large : t.cell.embeddable = false) {u : KeyMap}
    {s₁ : Session} (run : result (Trie.resolve .map (Ref.ofMarker h (some 0))) lent = (.ok u, s₁)) : u = t := by
  have loaded : (lent.load 0 h).1 = .ok t.cell := by
    rw [((coherent 0).load h).1]
    exact Loader.accept_eq_ok.mpr ⟨r, told, held, named⟩
  have answer := congrArg Prod.fst run
  rw [Trie.answer_resolve, Ref.ofMarker, Ref.answer_value_soft, loaded, if_pos rfl,
    Loader.asChild_eq_ok.mpr ⟨rfl, large⟩] at answer
  have read : Trie.ofCell .map t.cell = .ok u := answer
  rw [Trie.ofCell_cell] at read
  exact (Except.ok.inj read).symm

/-- The map whose leaves are below the digits with which their keys begin. -/
theorem placed : (stored firstHash secondHash).Placed lent := by
  have leaves : ∀ b, (stored firstHash secondHash).node = .branch b → ∀ d r, b.child? d = some r → ∀ u s₁,
      result (Trie.resolve .map r) lent = (.ok u, s₁) →
        (∃ key value, u.node = .leaf key value) ∧ b.Places d u.node := by
    intro b shape d r found u s₁ run
    cases shape
    rcases List.mem_pair.mp (Branch.mem_of_childIn found) with same | same
    · cases same
      obtain rfl : u = first := resolve_leaf rfl rfl hash_first rfl run
      exact ⟨⟨_, _, rfl⟩, rfl, by decide, .zero _ _, rfl⟩
    · cases same
      obtain rfl : u = second := resolve_leaf rfl rfl hash_second rfl run
      exact ⟨⟨_, _, rfl⟩, rfl, by decide, .zero _ _, rfl⟩
  intro b reaches d r found apart u s₁ run
  generalize shape : (stored firstHash secondHash).node = n at reaches
  cases reaches with
  | refl => exact (leaves b shape d r found u s₁ run).2
  | child found' run' below =>
    obtain ⟨⟨key, value, leaf⟩, -⟩ := leaves _ shape _ _ found' _ _ run'
    rw [leaf] at below
    cases below

theorem list_placed_stored : ∃ entries s₁, StateT.run (stored firstHash secondHash).list lent = (⟨entries, none⟩, s₁) ∧
    entries.length = 2 ∧ (entries.Pairwise fun e e' => e.key < e'.key) ∧ ∀ e ∈ entries, ∀ s', s₁.Later s' →
      Yields ((stored firstHash secondHash).get? e.key) s' fun v _ => v = some e.value := by
  have decoded : decode (some 0) (stored firstHash secondHash).cell.encoding =
      .ok (stored firstHash secondHash).cell := rfl
  have walk : (StateT.run (stored firstHash secondHash).list lent).1.items.length = 2 ∧
      (StateT.run (stored firstHash secondHash).list lent).1.failure.isNone := by
    decide +kernel
  cases run : StateT.run (stored firstHash secondHash).list lent with
  | mk l s₁ =>
    obtain ⟨entries, failure⟩ := l
    rw [run] at walk
    obtain ⟨two, ended⟩ := walk
    obtain rfl : failure = none := Option.isNone_iff_eq_none.mp ended
    exact ⟨entries, s₁, rfl, two, Trie.list_placed coherent legible decoded placed run⟩

/-- With the leaves the other way round the map is decoded as well, and its children are. A walk ends without a failure,
but the keys descend, and a lookup finds none of them. -/
theorem unsorted : lent.Coherent ∧ lent.Legible ∧
    decode (some 0) (stored secondHash firstHash).cell.encoding = .ok (stored secondHash firstHash).cell ∧
    ∃ entries s₁, StateT.run (stored secondHash firstHash).list lent = (⟨entries, none⟩, s₁) ∧
      entries.map (·.key) = [[0x20], [0x10]] ∧ ¬ (entries.Pairwise fun e e' => e.key < e'.key) ∧
      ∀ e ∈ entries,
        (result ((stored secondHash firstHash).get? e.key) s₁).1.toOption.map Option.isNone = some true := by
  have walk : (StateT.run (stored secondHash firstHash).list lent).1.items.map (·.key) = [[0x20], [0x10]] ∧
      (StateT.run (stored secondHash firstHash).list lent).1.failure.isNone ∧ ∀ key ∈ [[0x20], [0x10]],
        (result ((stored secondHash firstHash).get? key)
          (StateT.run (stored secondHash firstHash).list lent).2).1.toOption.map Option.isNone = some true := by
    decide +kernel
  cases run : StateT.run (stored secondHash firstHash).list lent with
  | mk l s₁ =>
    obtain ⟨entries, failure⟩ := l
    rw [run] at walk
    obtain ⟨keys, ended, lookups⟩ := walk
    obtain rfl : failure = none := Option.isNone_iff_eq_none.mp ended
    refine ⟨coherent, legible, rfl, entries, s₁, rfl, keys, fun ascending => ?_, fun e member => ?_⟩
    · have sorted : (entries.map (·.key)).Pairwise (· < ·) := List.pairwise_map.mpr ascending
      rw [show entries.map (·.key) = [[0x20], [0x10]] from keys] at sorted
      exact absurd sorted (by decide)
    · exact lookups e.key (keys ▸ List.mem_map_of_mem member)

end Misplaced

end MerkleCells
