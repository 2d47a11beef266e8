import MerkleCells.Error
import MerkleCells.Json.Basic
import MerkleCells.Settings
import MerkleCells.Status

/-!
Settings, statuses and hashes in JSON. Settings are an object, whose unknown members are passed over
and whose absent ones keep their defaults, or an array of the first members in their order. A
status is its name, alone or as the only member of an object with the value null. A hash is the
array of its bytes.
-/
namespace MerkleCells

namespace Json

/-- The number of a JSON integer that lies between two bounds. -/
def between? (low high : Int) (json : Json) : Option Int := do
  let n ← json.integer?
  if low ≤ n ∧ n ≤ high then some n else none

end Json

namespace Settings

/-- The members of settings. -/
inductive Member where
  | cacheCapacity
  | compressionLevel
  | syncOnDrop
  deriving DecidableEq

namespace Member

/-- The members in their order. -/
def all : List Member := [.cacheCapacity, .compressionLevel, .syncOnDrop]

def name : Member → String
  | .cacheCapacity => "cache_capacity"
  | .compressionLevel => "compression_level"
  | .syncOnDrop => "sync_on_drop"

def ofName? (name : String) : Option Member := all.find? fun m => m.name == name

end Member

/-- Settings with one member read. -/
def readMember (s : Settings) (m : Member) (json : Json) : Option Settings :=
  match m with
  | .cacheCapacity => (json.between? 0 (UInt64.size - 1)).map fun n => { s with cacheCapacity := UInt64.ofNat n.toNat }
  | .compressionLevel => (json.between? Int32.minValue.toInt Int32.maxValue.toInt).map fun n => { s with compressionLevel := Int32.ofInt n }
  | .syncOnDrop => json.bool?.map fun b => { s with syncOnDrop := b }

/-- Reads the members of an object, none of them twice. -/
def readMembers (s : Settings) (seen : List Member) : List (Option String × Json) → Option Settings
  | [] => some s
  | (none, _) :: _ => none
  | (some name, json) :: rest =>
    match Member.ofName? name with
    | none => readMembers s seen rest
    | some m =>
      if m ∈ seen then none
      else do readMembers (← readMember s m json) (m :: seen) rest

/-- Reads the items of an array as the members in their order. -/
def readItems (s : Settings) : List Member → List Json → Option Settings
  | _, [] => some s
  | [], _ :: _ => none
  | m :: rest, json :: more => do readItems (← readMember s m json) rest more

/-- The settings that a JSON value stands for. -/
def ofJson? : Json → Option Settings
  | .object members => readMembers {} [] members
  | .array items => readItems {} Member.all items
  | _ => none

/-- The usable settings that a text writes. -/
def parse (text : String) : Except Error Settings := do
  match (Json.parse text).bind ofJson? with
  | none => throw .json
  | some s =>
    s.validate
    return s

/-- The usable settings in a file, if there is one. -/
def load (file : Option String) : Except Error Settings :=
  match file with
  | none => .error .io
  | some text => parse text

end Settings

namespace Status

def parse (text : String) : Except Error Status :=
  let found : Option Status := match Json.parse text with
    | some (.string (some name)) => ofName? name
    | some (.object [(some name, .null)]) => ofName? name
    | _ => none
  match found with
  | some status => .ok status
  | none => .error .json

def toJson (s : Status) : String := "\"" ++ s.name ++ "\""

end Status

namespace Hash

def parse (text : String) : Except Error Hash :=
  let found : Option Hash := match Json.parse text with
    | some (.array items) => do ofBytes? (← items.mapM fun json => (json.between? 0 255).map fun n => UInt8.ofNat n.toNat)
    | _ => none
  match found with
  | some hash => .ok hash
  | none => .error .json

def toJson (h : Hash) : String := "[" ++ ",".intercalate (h.bytes.map fun b => toString b.toNat) ++ "]"

end Hash

end MerkleCells
