import MerkleCells.Cell.Basic
import MerkleCells.Error

/-!
Texts for looking at references and cells. Texts, blobs, doubles and tries show only what kind of
value they are.
-/
namespace MerkleCells

/-- The members of a structure between braces. -/
def showFields (name : String) (fields : List (String × String)) : String :=
  name ++ " \x7b " ++ ", ".intercalate (fields.map fun (field, text) => field ++ ": " ++ text) ++ " \x7d"

/-- Items between brackets. -/
def showList (items : List String) : String := "[" ++ ", ".intercalate items ++ "]"

/-- The text of a reference, given that of its target. -/
def Ref.showWith (showCell : Cell → String) (r : Ref Cell) : String :=
  match r.target with
  | .direct cell => "Ref::Direct(" ++ showCell cell ++ ", " ++ r.status.name ++ ")"
  | .soft hash loader _ =>
    "Ref::Soft(" ++ hash.short ++ ", " ++ r.status.name ++ (if loader.isNone then ", detached" else "") ++ ")"

/-- The text of a value, given those of its children. -/
def Value.showWith (showRef : Ref Cell → String) : Value (Ref Cell) → String
  | .nil => "Nil"
  | .bool b => "Bool(" ++ toString b ++ ")"
  | .integer i => "Integer(" ++ toString i.toInt ++ ")"
  | .vector items => "Vector(" ++ showList (items.map showRef) ++ ")"
  | .record kind fields =>
    showFields "Record" [("kind", toString kind.val), ("fields", showList (fields.map showRef))]
  | .code opcode operands =>
    showFields "Code" [("opcode", toString opcode.val), ("operands", showList (operands.map showRef))]
  | .extension kind value =>
    showFields "Extension" [("kind", toString kind.val), ("value", toString value.toNat)]
  | other => other.typeName

/-- The text of a cell, down to `depth` levels. -/
def Cell.showWithin : (depth : Nat) → Cell → String
  | 0, _ => ""
  | depth + 1, c =>
    showFields "Cell" [("tag", hexByte c.value.tag),
      ("value", c.value.showWith (Ref.showWith (showWithin depth)))]

def Cell.show (c : Cell) : String := c.showWithin c.height

def Ref.show (r : Ref Cell) : String := r.showWith Cell.show

end MerkleCells
