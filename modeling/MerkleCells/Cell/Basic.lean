import MerkleCells.Cell.Encoding

/-!
Cells: immutable values together with their facts. `Cell.ofValue` and `Cell.value` are inverse to
each other, so a cell is nothing but a value whose children are cells again, and `Cell.facts_eq`
says that the facts it carries are the facts of that value. `Cell.induction` is induction on the
cells that are held directly.
-/
namespace MerkleCells

/-- A value with claimed facts, whose children claim facts of their own. -/
inductive Draft where
  | mk (facts : Facts) (value : Value (Ref Draft))

namespace Draft

def claim : Draft → Facts
  | .mk facts _ => facts

def value : Draft → Value (Ref Draft)
  | .mk _ value => value

instance : Addressed Draft := ⟨claim⟩

/-- The claims are true, here and in every child that is held directly. -/
inductive Coherent : Draft → Prop where
  | mk (value : Value (Ref Draft)) (children : ∀ r ∈ value.refs, ∀ d, r.cell? = some d → Coherent d) :
      Coherent (.mk (Facts.of value) value)

theorem Coherent.children {d : Draft} (h : d.Coherent) :
    ∀ r ∈ d.value.refs, ∀ c, r.cell? = some c → c.Coherent := by
  cases h with
  | mk value children => exact children

theorem Coherent.claim_eq {d : Draft} (h : d.Coherent) : d.claim = Facts.of d.value := by
  cases h with
  | mk value children => rfl

end Draft

/-- An immutable value that knows its encoding, its hash and whether it is embeddable. -/
structure Cell where
  draft : Draft
  coherent : draft.Coherent

namespace Cell

instance : Addressed Cell := ⟨fun c => c.draft.claim⟩

def value (c : Cell) : Value (Ref Cell) :=
  c.draft.value.pmap (fun r h => r.pmap (fun d h => ⟨d, h⟩) h) c.coherent.children

/-- The cell of a value. Its facts are worked out here, once. -/
def ofValue (v : Value (Ref Cell)) : Cell where
  draft := .mk (Facts.of v) (v.map (Ref.map draft))
  coherent := by
    have claims := Facts.of_map (f := draft) (fun _ => rfl) v
    rw [← claims]
    refine .mk _ fun r member d held => ?_
    rw [Value.refs_map] at member
    obtain ⟨r', _, rfl⟩ := List.mem_map.mp member
    rw [Ref.cell?_map] at held
    obtain ⟨c, _, rfl⟩ := Option.map_eq_some_iff.mp held
    exact c.coherent

/-- The canonical encoding. -/
def encoding (c : Cell) : Bytes := (facts c).encoding

/-- The content address. -/
def hash (c : Cell) : Hash := (facts c).hash

/-- Whether a parent writes this cell inside its own encoding. -/
def embeddable (c : Cell) : Bool := (facts c).embeddable

/-- Levels of cells that are held directly, this one included. -/
def height (c : Cell) : Nat := (facts c).height

/-- The references to the children, in the order of the encoding. -/
def refs (c : Cell) : List (Ref Cell) := c.value.refs

/-- Cells are the same content if they have the same hash. -/
instance : BEq Cell := ⟨fun a b => a.hash == b.hash⟩

theorem value_ofValue (v : Value (Ref Cell)) : (ofValue v).value = v := by
  have all : ∀ h : ∀ r ∈ (v.map (Ref.map draft)).refs, ∀ d, r.cell? = some d → d.Coherent,
      (v.map (Ref.map draft)).pmap (fun r h => r.pmap (fun d h => (⟨d, h⟩ : Cell)) h) h = v := by
    intro h
    rw [Value.pmap_map]
    refine Value.pmap_eq_self v _ fun r hr => ?_
    rcases r with ⟨_, _ | _⟩ <;> rfl
  exact all _

theorem draft_value (c : Cell) : c.value.map (Ref.map draft) = c.draft.value := by
  have all : ∀ v : Value (Ref Draft), ∀ h : ∀ r ∈ v.refs, ∀ d, r.cell? = some d → d.Coherent,
      (v.pmap (fun r h => r.pmap (fun d h => (⟨d, h⟩ : Cell)) h) h).map (Ref.map draft) = v := by
    intro v h
    rw [Value.map_pmap]
    refine Value.pmap_eq_self v _ fun r hr => ?_
    rcases r with ⟨_, _ | _⟩ <;> rfl
  exact all _ c.coherent.children

/-- A cell carries the facts of its value. -/
theorem facts_eq (c : Cell) : facts c = Facts.of c.value := by
  show c.draft.claim = _
  rw [c.coherent.claim_eq, ← draft_value c]
  exact Facts.of_map (f := draft) (fun _ => rfl) c.value

theorem facts_ofValue (v : Value (Ref Cell)) : facts (ofValue v) = Facts.of v := rfl

theorem ofValue_value (c : Cell) : ofValue c.value = c := by
  obtain ⟨d, h⟩ := c
  have value := draft_value ⟨d, h⟩
  have claim := facts_eq ⟨d, h⟩
  cases d with
  | mk claimed v =>
    simp only [ofValue, mk.injEq, Draft.mk.injEq]
    exact ⟨claim.symm, value⟩

theorem encoding_eq (c : Cell) : c.encoding = c.value.encode := congrArg Facts.encoding (facts_eq c)

/-- A cell's hash is the digest of its encoding. -/
theorem hash_eq (c : Cell) : c.hash = Hash.digest c.encoding := by
  have same := facts_eq c
  show (facts c).hash = Hash.digest (facts c).encoding
  rw [same]
  rfl

theorem embeddable_eq (c : Cell) :
    c.embeddable = (c.refs.all Ref.isEmbedded && decide (c.encoding.length ≤ Limits.embedded)) := by
  have same := facts_eq c
  show (facts c).embeddable = (c.refs.all Ref.isEmbedded && decide ((facts c).encoding.length ≤ Limits.embedded))
  rw [same]
  rfl

/-- Induction on the cells that are held directly. -/
theorem induction {motive : Cell → Prop}
    (step : ∀ c : Cell, (∀ r ∈ c.refs, ∀ d, r.cell? = some d → motive d) → motive c) (c : Cell) : motive c := by
  have all : ∀ d : Draft, d.Coherent → ∀ h : d.Coherent, motive ⟨d, h⟩ := by
    intro d coherent
    induction coherent with
    | mk v children ih =>
      intro h
      refine step _ fun r member c held => ?_
      have member' : r.map draft ∈ v.refs := by
        have : (r.map draft) ∈ ((⟨.mk (Facts.of v) v, h⟩ : Cell).value.map (Ref.map draft)).refs := by
          rw [Value.refs_map]
          exact List.mem_map_of_mem member
        rwa [draft_value] at this
      have held' : (r.map draft).cell? = some c.draft := by rw [Ref.cell?_map, held]; rfl
      exact ih _ member' _ held' c.coherent
  exact all c.draft c.coherent c.coherent

end Cell

/-- The reference that holds a cell. What is embeddable needs no storing of its own. -/
def Ref.direct (cell : Cell) : Ref Cell :=
  ⟨if cell.embeddable then .embedded else .unknown, .direct cell⟩

/-- References are equal if their targets have the same hash, whatever their status. -/
instance : BEq (Ref Cell) := ⟨fun a b => a.hash == b.hash⟩

end MerkleCells
