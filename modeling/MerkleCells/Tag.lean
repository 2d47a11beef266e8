import MerkleCells.Bytes

/-!
Tags: the byte that begins every encoding and says what follows. A tag never changes its meaning.
-/
namespace MerkleCells.Tag

def null : UInt8 := 0x00
def integer : UInt8 := 0x10
def double : UInt8 := 0x1D
/-- Marks a child that is written as its hash. -/
def ref : UInt8 := 0x20
def string : UInt8 := 0x30
def blob : UInt8 := 0x31
def symbol : UInt8 := 0x32
def keyword : UInt8 := 0x33
def vector : UInt8 := 0x80
def set : UInt8 := 0x83
def map : UInt8 := 0x84
/-- The first of sixteen record tags; the low half is the kind of record. -/
def record : UInt8 := 0xA0
def false_ : UInt8 := 0xB0
def true_ : UInt8 := 0xB1
/-- The first of sixteen code tags; the low half is the opcode. -/
def code : UInt8 := 0xC0
/-- The first of sixteen extension tags; the low half is the kind of extension. -/
def extension : UInt8 := 0xE0

/-- Coarse groups of tags. -/
inductive Category where
  | null
  | numeric
  | ref
  | text
  | blob
  | collection
  | record
  | boolean
  | code
  | extension
  deriving DecidableEq

def lowHalf (tag : UInt8) : UInt8 := tag % 16

/-- The group of a tag, if the tag is in use. -/
def category? (tag : UInt8) : Option Category :=
  if tag = null then some .null
  else if tag = integer ∨ tag = double then some .numeric
  else if tag = ref then some .ref
  else if tag = string ∨ tag = symbol ∨ tag = keyword then some .text
  else if tag = blob then some .blob
  else if tag = vector ∨ tag = set ∨ tag = map then some .collection
  else if tag = false_ ∨ tag = true_ then some .boolean
  else match tag.toNat / 16 with
    | 0xA => some .record
    | 0xC => some .code
    | 0xE => some .extension
    | _ => none

def Category.name : Category → String
  | .null => "Null"
  | .numeric => "Numeric"
  | .ref => "Ref"
  | .text => "Text"
  | .blob => "Blob"
  | .collection => "Collection"
  | .record => "Record"
  | .boolean => "Boolean"
  | .code => "Code"
  | .extension => "Extension"

end MerkleCells.Tag
