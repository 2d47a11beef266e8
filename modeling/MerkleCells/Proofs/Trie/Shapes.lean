import MerkleCells.Proofs.Trie.Totals

/-!
Shapes of nodes that walks over tries count on. The path of a branch has the digits of its depth wherever a branch is
made (`Node.Spelled`), and of a decoded set it is also known where its leaves and branches are (`Node.Shaped`). A cell
has all its nodes of a kind (`Cell.Throughout`) as far as it holds children directly, and a session as far as it holds
cells (`Session.Throughout`): in caches and in memory stores, since what other stores give is decoded. A child that is
resolved there is of that kind, and loading changes nothing about it.
-/
namespace MerkleCells

open MerkleCells.Action

/-- The path of a node has the digits of its depth. -/
def Node.Spelled (n : Node (Ref Cell)) : Prop := n.depth ≤ Digits.count n.path

/-- The shape of a node as decoders leave it: its path has the digits of its depth, and a leaf of a set ends at the
digits of a hash, where no branch of a set is. -/
def Node.Shaped (kind : TrieKind) : Node (Ref Cell) → Prop
  | .empty => True
  | .leaf key _ => kind = .set → Digits.count key = TrieKind.set.maxDigits
  | .branch b => b.depth ≤ Digits.count b.path ∧ (kind = .set → b.depth < TrieKind.set.maxDigits)

theorem Node.Shaped.spelled {kind : TrieKind} {n : Node (Ref Cell)} (shaped : n.Shaped kind) : n.Spelled := by
  cases n with
  | empty => exact Nat.le_refl 0
  | leaf key value => exact Nat.le_refl _
  | branch b => exact shaped.1

theorem Node.Accepted.shaped (kind : TrieKind) (n : Node (Ref Cell)) (accepted : n.Accepted kind) : n.Shaped kind := by
  cases n with
  | empty => exact trivial
  | leaf key value =>
    rintro rfl
    have same : key = value.mark.hash.bytes := accepted
    rw [Digits.count, same, Hash.length_eq]
    rfl
  | branch b =>
    obtain ⟨readable, -⟩ := accepted
    have length := (Digits.leading?_spec readable.path_eq).2.1
    refine ⟨by rw [Digits.count]; omega, ?_⟩
    rintro rfl
    exact Nat.lt_succ_of_le readable.depth_le

section Throughout

variable {P : TrieKind → Node (Ref Cell) → Prop}

/-- All nodes of tries in a cell are of a kind, as far as children are held directly. -/
inductive Cell.Throughout (P : TrieKind → Node (Ref Cell) → Prop) : Cell → Prop where
  | intro (c : Cell) (node : ∀ kind n, c.value = .trie kind n → P kind n)
      (children : ∀ kind b, c.value = .trie kind (.branch b) → ∀ e ∈ b.children, ∀ d, e.2.cell? = some d →
        Throughout P d) : Throughout P c

/-- What a reader accepts is of a kind if the nodes that it accepts are. -/
theorem Cell.Accepted.throughout {loader : Option LoaderId} {c : Cell} (accepted : c.Accepted loader)
    (nodes : ∀ kind n, n.Accepted kind → P kind n) : c.Throughout P := by
  induction accepted with
  | intro c value _ _ ih =>
    refine .intro c (fun kind n same => nodes kind n (value.2 kind n same)) fun kind b same e member d held => ?_
    exact ih e.2 (mem_refs same member) d held

/-- What a reference holds directly is of a kind. -/
def Ref.Throughout (P : TrieKind → Node (Ref Cell) → Prop) (r : Ref Cell) : Prop :=
  ∀ c, r.cell? = some c → c.Throughout P

/-- What is cached and what is held in memory is of a kind. -/
structure Session.Throughout (P : TrieKind → Node (Ref Cell) → Prop) (s : Session) : Prop where
  caches : s.Caches fun _ c => c.Throughout P
  memories : ∀ m, Store.memory m ∈ s.stores → ∀ e ∈ m.held, e.2.cell.Throughout P

namespace Session.Throughout

variable {s s' : Session}

theorem answers (session : s.Throughout P) (nodes : ∀ kind n, n.Accepted kind → P kind n) :
    s.Answers fun _ c => c.Throughout P := by
  intro id l h c _ accepted
  rw [answerTo] at accepted
  cases behind : s.stores[l.store]? with
  | none =>
    rw [behind] at accepted
    cases accepted
  | some store =>
    have given := Loader.ends_accept (h := h) (store.ends_answer id h)
    simp only [behind] at accepted
    rw [accepted] at given
    rcases given with read | ⟨m, rfl, e, member, rfl⟩
    · exact read.throughout nodes
    · exact session.memories m (List.mem_of_getElem? behind) e member

theorem load (session : s.Throughout P) (nodes : ∀ kind n, n.Accepted kind → P kind n) (id : LoaderId) (h : Hash) :
    (s.load id h).2.Throughout P := by
  refine ⟨(session.caches.load (session.answers nodes) id h).2, fun m member => ?_⟩
  rw [Session.load] at member
  split at member
  · exact session.memories m member
  · split at member
    · exact session.memories m member
    · obtain ⟨i, bound, same⟩ := List.mem_iff_getElem.mp member
      rw [List.getElem_modify] at same
      rw [List.length_modify] at bound
      refine session.memories m (List.mem_iff_getElem.mpr ⟨i, bound, ?_⟩)
      split at same
      · cases held : s.stores[i] <;> rw [held] at same <;> cases same
        rfl
      · exact same

theorem later (session : s.Throughout P) (nodes : ∀ kind n, n.Accepted kind → P kind n) (later : s.Later s') :
    s'.Throughout P := by
  induction later with
  | refl => exact session
  | load id h _ ih => exact ih.load nodes id h

end Session.Throughout

theorem Ref.throughout_of_value {r : Ref Cell} {s s' : Session} {c : Cell} (session : s.Throughout P)
    (nodes : ∀ kind n, n.Accepted kind → P kind n) (held : r.Throughout P) (run : result r.value s = (.ok c, s')) :
    c.Throughout P := by
  obtain ⟨status, d | ⟨h, loader, byMarker⟩⟩ := r
  · cases run
    exact held c rfl
  · cases loader with
    | none => cases run
    | some id =>
      exact (session.caches.load (session.answers nodes) id h).1 c (congrArg Prod.fst (load_of_value run).1)

namespace Cell.Throughout

variable {kind : TrieKind} {s s' : Session} {t u : Trie kind} {b : Branch (Ref Cell)} {d : Digit} {r : Ref Cell}

theorem node (throughout : t.cell.Throughout P) : P kind t.node := by
  obtain ⟨_, node, -⟩ := throughout
  exact node kind t.node t.value_eq

/-- What a branch holds of a child is of the kind that the branch is. -/
theorem children (throughout : t.cell.Throughout P) (shape : t.node = .branch b) :
    ∀ e ∈ b.children, e.2.Throughout P := by
  obtain ⟨_, -, children⟩ := throughout
  exact children kind b (by rw [t.value_eq, shape])

/-- A trie is of a kind if its root is, and what this holds of its children. -/
theorem of_root (root : P kind t.node) (children : ∀ b, t.node = .branch b → ∀ e ∈ b.children, e.2.Throughout P) :
    t.cell.Throughout P := by
  refine .intro t.cell (fun kind' n same => ?_) fun kind' b same => ?_
  · obtain ⟨rfl, rfl⟩ := Value.trie.inj (t.value_eq.symm.trans same)
    exact root
  · obtain ⟨-, shape⟩ := Value.trie.inj (t.value_eq.symm.trans same)
    exact children b shape

/-- A child that is resolved is of a kind, whether its branch or a store has it. -/
theorem child_of_resolve (throughout : t.cell.Throughout P) (session : s.Throughout P)
    (nodes : ∀ kind n, n.Accepted kind → P kind n) (shape : t.node = .branch b) (found : b.child? d = some r)
    (run : result (Trie.resolve kind r) s = (.ok u, s')) : u.cell.Throughout P :=
  have member := Branch.mem_of_childIn ((b.child?_eq d).symm.trans found)
  Ref.throughout_of_value session nodes (throughout.children shape _ member) (Trie.of_resolve run)

end Cell.Throughout

end Throughout

theorem Node.Accepted.spelled (kind : TrieKind) (n : Node (Ref Cell)) (accepted : n.Accepted kind) : n.Spelled :=
  (shaped kind n accepted).spelled

/-- All branches in a cell have the digits of their depths. -/
abbrev Cell.Spelled : Cell → Prop := Cell.Throughout fun _ n => n.Spelled

/-- All branches that are cached or held in memory have the digits of their depths. -/
abbrev Session.Spelled : Session → Prop := Session.Throughout fun _ n => n.Spelled

/-- All nodes in a cell have the shapes of decoded ones. -/
abbrev Cell.Shaped : Cell → Prop := Cell.Throughout Node.Shaped

/-- All nodes that are cached or held in memory have the shapes of decoded ones. -/
abbrev Session.Shaped : Session → Prop := Session.Throughout Node.Shaped

end MerkleCells
