/-!
Sizes that an encoding keeps to.
-/
namespace MerkleCells.Limits

/-- The longest encoding that is written inside its parent's. -/
def embedded : Nat := 140

/-- The longest encoding that is read. -/
def encoding : Nat := 16383

/-- The deepest nesting of cells inside one encoding. -/
def depth : Nat := 128

/-- The longest string, blob or map key. -/
def blob : Nat := 4096

/-- The longest name of a symbol or keyword, in bytes. -/
def symbol : Nat := 128

/-- The most children of a vector, record or code cell. -/
def fields : Nat := 16

/-- Bytes of a child that is written as its hash. -/
def ref : Nat := 33

end MerkleCells.Limits
