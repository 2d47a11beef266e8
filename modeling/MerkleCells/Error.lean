import MerkleCells.Hash.Basic
import MerkleCells.Quantity
import MerkleCells.Trie.Kind

/-!
Why an operation fails, one constructor for each cause. `Error.message` is the text shown for one.
-/
namespace MerkleCells

/-- Why bytes are not the encoding of a cell. -/
inductive FormatFault where
  | quantity (fault : Quantity.Fault)
  | emptyEncoding
  | encodingTooLong (length : Nat)
  | trailing (count : Nat)
  | notCanonical
  | endOfInput
  | beyondInput (declared remaining : Nat)
  | overLimit (length limit : Nat)
  | inlineTooLarge (tag : UInt8)
  | tooDeep
  | badNaN
  | badText
  | emptyName
  | markerAsValue
  | unknownTag (tag : UInt8)
  | branchTooDeep (depth : Nat)
  | branchPadding
  | branchEntryDepth
  | branchEntryFlag (flag : UInt8)
  | branchTooFew
  | branchCountLow (count occupants : Nat)
  | branchChildAlien
  | branchChildEmpty
  | branchChildAstray
  | branchCountWrong (count total : Nat)
  | emptyKey
  | embeddableByHash (hash : Hash)
  deriving DecidableEq

/-- The parts of a cell whose length is limited. -/
inductive Sized where
  | string
  | blob
  | symbol
  | vector
  | record
  | code
  deriving DecidableEq

/-- The parts of a cell that are one digit. -/
inductive Selector where
  | recordKind
  | opcode
  | extensionKind
  deriving DecidableEq

/-- Why a value cannot be built. -/
inductive StructureFault where
  | overLimit (part : Sized) (length limit : Nat)
  | outsideDigit (part : Selector) (value : Nat)
  | emptyName
  | wrongKind (expected : TrieKind) (found : String)
  | forkInsideBranch
  | mixedShapes
  | emptyMapKey
  | mapKeyTooLong (length limit : Nat)
  | frameTooLarge
  deriving DecidableEq

/-- How stored data contradicts what is known of it. -/
inductive Corruption where
  | unresolved (hash : Hash)
  | mismatch (requested returned : Hash)
  | countAboveChildren
  | countBelowSubtree
  | countBelowChildren
  | keyNotHash
  | emptyFrame
  deriving DecidableEq

/-- Why a file is no store file. -/
inductive FileFault where
  | truncatedHeader
  | badMagic
  | badStatus (byte : UInt8)
  deriving DecidableEq

/-- Why settings are refused. -/
inductive SettingsFault where
  | loaderCapacity
  | cacheCapacity
  | compressionLevel (level : Int)
  deriving DecidableEq

/-- Why an operation fails. -/
inductive Error where
  /-- Bytes are not an encoding. -/
  | format (fault : FormatFault)
  /-- No loader could find a hash; it may be there later. -/
  | missing (hash : Hash)
  /-- A value cannot be built. -/
  | invalid (fault : StructureFault)
  /-- Stored data is not what was asked for. -/
  | corruption (fault : Corruption)
  /-- A file is no store file. -/
  | file (fault : FileFault)
  /-- A store file has another version. -/
  | version (found : Nat)
  /-- Settings are refused. -/
  | settings (fault : SettingsFault)
  /-- A file or a frame in it cannot be read or written. -/
  | io
  /-- A settings text cannot be read. -/
  | json
  /-- A digit of a key was asked for that the key has not. -/
  | outOfRange
  /-- A code stands for no set operation. -/
  | unknownSetOperation (code : UInt8)
  /-- A walk came back to a node that contains itself. -/
  | endless
  /-- A count does not fit in 64 bits. -/
  | overflow
  deriving DecidableEq

def fileVersion : Nat := 1

/-- A byte in hexadecimal after `0x`. -/
def hexByte (b : UInt8) : String := "0x" ++ Bytes.hex [b]

namespace FormatFault

def message : FormatFault → String
  | .quantity fault => fault.message
  | .emptyEncoding => "empty encoding"
  | .encodingTooLong n => s!"encoding of {n} bytes exceeds limit of {Limits.encoding}"
  | .trailing n => s!"{n} trailing bytes after cell"
  | .notCanonical => "non-canonical encoding"
  | .endOfInput => "unexpected end of input"
  | .beyondInput declared remaining => s!"declared length {declared} exceeds remaining {remaining} bytes"
  | .overLimit length limit => s!"length {length} exceeds limit {limit}"
  | .inlineTooLarge tag => s!"inline child with tag {hexByte tag} is not embeddable"
  | .tooDeep => "nesting exceeds decode depth limit"
  | .badNaN => "non-canonical NaN"
  | .badText => "invalid UTF-8"
  | .emptyName => "empty symbol name"
  | .markerAsValue => "ref tag where a value was expected"
  | .unknownTag tag => s!"unknown tag {hexByte tag}"
  | .branchTooDeep depth => s!"branch depth {depth} too deep"
  | .branchPadding => "non-zero padding nibble in branch prefix"
  | .branchEntryDepth => "branch entry must sit at a whole-byte depth"
  | .branchEntryFlag flag => s!"bad branch entry flag {flag}"
  | .branchTooFew => "branch with fewer than two occupants"
  | .branchCountLow count occupants => s!"branch count {count} below its {occupants} occupants"
  | .branchChildAlien => "branch child is not a node of the same trie"
  | .branchChildEmpty => "empty node as branch child"
  | .branchChildAstray => "branch child does not extend its prefix"
  | .branchCountWrong count total => s!"branch count {count} does not match children total {total}"
  | .emptyKey => "empty map key"
  | .embeddableByHash hash => s!"child {hash} is embeddable but was referenced by hash"

end FormatFault

def Sized.name : Sized → String
  | .string => "string"
  | .blob => "blob"
  | .symbol => "symbol"
  | .vector => "vector"
  | .record => "record"
  | .code => "code"

def Selector.name : Selector → String
  | .recordKind => "record kind"
  | .opcode => "opcode"
  | .extensionKind => "extension kind"

def StructureFault.message : StructureFault → String
  | .overLimit part length limit => s!"{part.name} length {length} exceeds limit {limit}"
  | .outsideDigit part value => s!"{part.name} {value} out of range 0..=15"
  | .emptyName => "empty symbol name"
  | .wrongKind expected found => s!"expected {expected.name} trie node, found {found}"
  | .forkInsideBranch => "only a leaf can end at a fork point"
  | .mixedShapes => "set trie nodes with inconsistent shapes"
  | .emptyMapKey => "map keys must be non-empty"
  | .mapKeyTooLong length limit => s!"map key of {length} bytes exceeds limit {limit}"
  | .frameTooLarge => "frame larger than 4 GiB"

def Corruption.message : Corruption → String
  | .unresolved hash => s!"store returned unresolved ref for {hash}"
  | .mismatch requested returned => s!"requested {requested}, store returned {returned}"
  | .countAboveChildren => "branch count exceeds its children"
  | .countBelowSubtree => "subtree count exceeds branch count"
  | .countBelowChildren => "branch count below its children"
  | .keyNotHash => "set key is not a hash"
  | .emptyFrame => "Empty frame"

def FileFault.message : FileFault → String
  | .truncatedHeader => "truncated header"
  | .badMagic => "Invalid magic bytes"
  | .badStatus byte => s!"Invalid status byte: {byte}"

def SettingsFault.message : SettingsFault → String
  | .loaderCapacity => "cache capacity must be > 0"
  | .cacheCapacity => "cache_capacity must be > 0"
  | .compressionLevel level => s!"compression_level {level} outside 1..=22"

/-- The text shown for an error. Errors that come from outside the library have none of its own. -/
def Error.message : Error → String
  | .format fault => "Format error: " ++ fault.message
  | .missing hash => s!"Missing data: {hash}"
  | .invalid fault => "Invalid structure: " ++ fault.message
  | .corruption fault => "Corruption detected: " ++ fault.message
  | .file fault => "Invalid store file: " ++ fault.message
  | .version found => s!"Version mismatch: expected {fileVersion}, found {found}"
  | .settings fault => "Config error: " ++ fault.message
  | .io => "IO error"
  | .json => "JSON error"
  | .outOfRange => "digit out of range"
  | .unknownSetOperation code => s!"invalid set operation code {code}"
  | .endless => "trie or cell contains itself"
  | .overflow => "attempt to add with overflow"

end MerkleCells
