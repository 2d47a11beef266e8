/-!
Tables that number names in the order in which they are first seen. Equal names get one number.
-/
namespace MerkleCells

/-- The names seen so far, first seen first. -/
structure SymbolTable where
  names : List String

namespace SymbolTable

def empty : SymbolTable := ⟨[]⟩

def size (t : SymbolTable) : Nat := t.names.length

/-- The number of a name, which is added if it is new. -/
def intern (t : SymbolTable) (name : String) : Nat × SymbolTable :=
  match t.names.idxOf? name with
  | some i => (i, t)
  | none => (t.size, ⟨t.names ++ [name]⟩)

/-- A name keeps its number. -/
theorem intern_intern (t : SymbolTable) (name : String) :
    (t.intern name).2.intern name = t.intern name := by
  unfold intern
  cases found : t.names.idxOf? name with
  | some i => simp [found]
  | none =>
    have here : (t.names ++ [name]).idxOf? name = some t.names.length := by
      rw [List.idxOf?] at found ⊢
      rw [List.findIdx?_append, found]
      simp [List.findIdx?_cons]
    simp only [here, size]

end SymbolTable

end MerkleCells
