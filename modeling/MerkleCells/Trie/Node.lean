import MerkleCells.Digits
import MerkleCells.Trie.Kind

/-!
Nodes of a trie. A branch sits at a depth: all keys below it share the first `depth` digits, which
`path` holds, and it has at most one child for each digit that follows. The type of references is a
parameter.
-/
namespace MerkleCells

/-- A branch of a trie. -/
structure Branch (ρ : Type) where
  /-- Number of digits that all keys below share. -/
  depth : Nat
  /-- Those digits, filled up to whole bytes with a zero digit. -/
  path : Bytes
  /-- The value of the key that ends here, which is `path`. -/
  entry : Option ρ
  /-- The children by their next digit, ascending. -/
  children : List (Digit × ρ)
  /-- Number of entries below. -/
  count : UInt64

/-- A node of a trie. -/
inductive Node (ρ : Type) where
  | empty
  | leaf (key : Bytes) (value : ρ)
  | branch (branch : Branch ρ)

namespace Branch

variable {ρ σ τ : Type}

def child? (b : Branch ρ) (d : Digit) : Option ρ :=
  (b.children.find? fun c => c.1 == d).map (·.2)

/-- One bit for each digit that has a child. -/
def mask (b : Branch ρ) : Nat := b.children.foldr (fun c m => m ||| (1 <<< c.1.val)) 0

/-- Puts a child into a list that is ascending by digit, in place of any child of that digit. -/
def setChild (d : Digit) (r : ρ) : List (Digit × ρ) → List (Digit × ρ)
  | [] => [(d, r)]
  | c :: rest =>
    if d < c.1 then (d, r) :: c :: rest
    else if c.1 = d then (d, r) :: rest
    else c :: setChild d r rest

/-- Takes the child of a digit out. -/
def eraseChild (d : Digit) (children : List (Digit × ρ)) : List (Digit × ρ) :=
  children.filter fun c => c.1 != d

/-- All references of a branch: its own entry's value, then its children. -/
def refs (b : Branch ρ) : List ρ := b.entry.toList ++ b.children.map (·.2)

/-- The same branch with other references. -/
def map (f : ρ → σ) (b : Branch ρ) : Branch σ :=
  { b with entry := b.entry.map f, children := b.children.map fun c => (c.1, f c.2) }

/-- Like `map`, for a function that needs a fact about each reference. -/
def pmap {P : ρ → Prop} (f : ∀ r, P r → σ) (b : Branch ρ) (h : ∀ r ∈ b.refs, P r) : Branch σ :=
  { b with
    entry := b.entry.pmap f (fun r hr => h r (by
      simp only [refs, List.mem_append, Option.mem_toList]; exact .inl hr))
    children := b.children.pmap (P := fun c => P c.2) (fun c hc => (c.1, f c.2 hc)) (fun c hc => h c.2 (by
      simp only [refs, List.mem_append, List.mem_map]; exact .inr ⟨c, hc, rfl⟩)) }

theorem refs_map (f : ρ → σ) (b : Branch ρ) : (b.map f).refs = b.refs.map f := by
  cases b with
  | mk _ _ entry _ _ => cases entry <;> simp [refs, map, Function.comp_def]

theorem map_id (b : Branch ρ) : b.map id = b := by
  simp [map]

theorem map_map (f : ρ → σ) (g : σ → τ) (b : Branch ρ) : (b.map f).map g = b.map (g ∘ f) := by
  simp [map, Function.comp_def]

theorem map_pmap {P : ρ → Prop} (f : ∀ r, P r → σ) (g : σ → τ) (b : Branch ρ) (h : ∀ r ∈ b.refs, P r) :
    (b.pmap f h).map g = b.pmap (fun r hr => g (f r hr)) h := by
  cases b with
  | mk _ _ entry _ _ => cases entry <;> simp [pmap, map, List.map_pmap]

theorem pmap_eq_map {P : ρ → Prop} (f : ρ → σ) (b : Branch ρ) (h : ∀ r ∈ b.refs, P r) :
    b.pmap (fun r _ => f r) h = b.map f := by
  cases b with
  | mk _ _ entry _ _ => cases entry <;> simp [pmap, map]

theorem pmap_map {P : σ → Prop} (f : ∀ s, P s → τ) (g : ρ → σ) (b : Branch ρ) (h : ∀ s ∈ (b.map g).refs, P s) :
    (b.map g).pmap f h = b.pmap (fun r hr => f (g r) hr)
      (fun r hr => h (g r) (by rw [refs_map]; exact List.mem_map_of_mem hr)) := by
  cases b with
  | mk _ _ entry _ _ => cases entry <;> simp [pmap, map, List.pmap_map]

/-- A bit of the mask is set where there is a child. -/
theorem testBit_mask (b : Branch ρ) (d : Digit) :
    b.mask.testBit d.val = (b.children.any fun c => c.1 == d) := by
  have all : ∀ children : List (Digit × ρ),
      (children.foldr (fun c m => m ||| (1 <<< c.1.val)) 0).testBit d.val = children.any fun c => c.1 == d := by
    intro children
    induction children with
    | nil => simp
    | cons c rest ih =>
      rw [List.foldr_cons, Nat.testBit_or, ih, List.any_cons, Bool.or_comm]
      congr 1
      rw [Nat.one_shiftLeft, Nat.testBit_two_pow, Bool.eq_iff_iff]
      simp [Fin.ext_iff]
  exact all b.children

end Branch

namespace Node

variable {ρ σ τ : Type}

def count : Node ρ → UInt64
  | .empty => 0
  | .leaf .. => 1
  | .branch b => b.count

def isEmpty : Node ρ → Bool
  | .empty => true
  | _ => false

def isLeaf : Node ρ → Bool
  | .leaf .. => true
  | _ => false

/-- The digits that all keys below share, in whole bytes. -/
def path : Node ρ → Bytes
  | .empty => []
  | .leaf key _ => key
  | .branch b => b.path

/-- How many digits of `path` count. -/
def depth : Node ρ → Nat
  | .empty => 0
  | .leaf key _ => Digits.count key
  | .branch b => b.depth

/-- All references of a node, in the order of its encoding. -/
def refs : Node ρ → List ρ
  | .empty => []
  | .leaf _ value => [value]
  | .branch b => b.refs

/-- The same node with other references. -/
def map (f : ρ → σ) : Node ρ → Node σ
  | .empty => .empty
  | .leaf key value => .leaf key (f value)
  | .branch b => .branch (b.map f)

/-- Like `map`, for a function that needs a fact about each reference. -/
def pmap {P : ρ → Prop} (f : ∀ r, P r → σ) : (n : Node ρ) → (∀ r ∈ n.refs, P r) → Node σ
  | .empty, _ => .empty
  | .leaf key value, h => .leaf key (f value (h value (List.mem_singleton_self value)))
  | .branch b, h => .branch (b.pmap f h)

theorem refs_map (f : ρ → σ) (n : Node ρ) : (n.map f).refs = n.refs.map f := by
  cases n with
  | branch b => exact Branch.refs_map f b
  | _ => rfl

theorem map_id (n : Node ρ) : n.map id = n := by
  cases n with
  | branch b => exact congrArg Node.branch (Branch.map_id b)
  | _ => rfl

theorem map_map (f : ρ → σ) (g : σ → τ) (n : Node ρ) : (n.map f).map g = n.map (g ∘ f) := by
  cases n with
  | branch b => exact congrArg Node.branch (Branch.map_map f g b)
  | _ => rfl

theorem map_pmap {P : ρ → Prop} (f : ∀ r, P r → σ) (g : σ → τ) (n : Node ρ) (h : ∀ r ∈ n.refs, P r) :
    (n.pmap f h).map g = n.pmap (fun r hr => g (f r hr)) h := by
  cases n with
  | branch b => exact congrArg Node.branch (Branch.map_pmap f g b h)
  | _ => rfl

theorem pmap_eq_map {P : ρ → Prop} (f : ρ → σ) (n : Node ρ) (h : ∀ r ∈ n.refs, P r) :
    n.pmap (fun r _ => f r) h = n.map f := by
  cases n with
  | branch b => exact congrArg Node.branch (Branch.pmap_eq_map f b h)
  | _ => rfl

theorem pmap_map {P : σ → Prop} (f : ∀ s, P s → τ) (g : ρ → σ) (n : Node ρ) (h : ∀ s ∈ (n.map g).refs, P s) :
    (n.map g).pmap f h = n.pmap (fun r hr => f (g r) hr)
      (fun r hr => h (g r) (by rw [refs_map]; exact List.mem_map_of_mem hr)) := by
  cases n with
  | branch b => exact congrArg Node.branch (Branch.pmap_map f g b h)
  | _ => rfl

end Node

end MerkleCells
