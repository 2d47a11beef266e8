import MerkleCells.Session

/-!
Building cells. Sizes and selectors are checked; children are first put into the form in which a
parent holds them, so that soft references to embeddable cells are resolved.
-/
namespace MerkleCells

/-- Refuses what is longer than a limit. -/
def checkLength (part : Sized) (length limit : Nat) : Except Error Unit :=
  if length > limit then throw (.invalid (.overLimit part length limit)) else return ()

/-- The digit of a selector, if the value is one. -/
def checkDigit (part : Selector) (value : UInt8) : Except Error Digit :=
  if h : value.toNat < 16 then return ⟨value.toNat, h⟩
  else throw (.invalid (.outsideDigit part value.toNat))

/-- Refuses names that are empty or too long. -/
def checkName (name : String) : Except Error Unit :=
  if name.isEmpty then throw (.invalid .emptyName)
  else checkLength .symbol name.utf8ByteSize Limits.symbol

namespace Cell

def nil : Cell := ofValue .nil

def bool (b : Bool) : Cell := ofValue (.bool b)

def integer (i : Int64) : Cell := ofValue (.integer i)

/-- The cell of a double. All bits that stand for no number are stored alike. -/
def double (bits : UInt64) : Cell := ofValue (.double (if Value.isNaN bits then Value.nanBits else bits))

def string (text : String) : Except Error Cell := do
  checkLength .string text.utf8ByteSize Limits.blob
  return ofValue (.string text)

def blob (bytes : Bytes) : Except Error Cell := do
  checkLength .blob bytes.length Limits.blob
  return ofValue (.blob bytes)

def symbol (name : String) : Except Error Cell := do
  checkName name
  return ofValue (.symbol name)

def keyword (name : String) : Except Error Cell := do
  checkName name
  return ofValue (.keyword name)

def extension (kind : UInt8) (value : UInt64) : Except Error Cell := do
  let kind ← checkDigit .extensionKind kind
  return ofValue (.extension kind value)

def vector (items : List (Ref Cell)) : Action Cell := do
  checkLength .vector items.length Limits.fields
  return ofValue (.vector (← items.mapM Ref.canonical))

def record (kind : UInt8) (fields : List (Ref Cell)) : Action Cell := do
  let kind ← checkDigit .recordKind kind
  checkLength .record fields.length Limits.fields
  return ofValue (.record kind (← fields.mapM Ref.canonical))

def code (opcode : UInt8) (operands : List (Ref Cell)) : Action Cell := do
  let opcode ← checkDigit .opcode opcode
  checkLength .code operands.length Limits.fields
  return ofValue (.code opcode (← operands.mapM Ref.canonical))

end Cell

end MerkleCells
