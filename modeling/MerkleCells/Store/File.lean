import MerkleCells.Cell.Reader
import MerkleCells.Codec
import MerkleCells.Loader
import MerkleCells.Settings
import MerkleCells.Store.Image

/-!
Stores in one file. The file is a header of 64 bytes, the frames of the cells, and an index of
entries sorted by hash. Only `FileStore.sync` writes the index, at the place where the next frame
will go; the header says where that is and how many entries there are.
-/
namespace MerkleCells

/-- Where a frame lies and what status its cell has. -/
structure IndexEntry where
  offset : Nat
  size : Nat
  status : Status
  deriving DecidableEq

/-- An open store file. -/
structure FileStore where
  /-- The file as it is on disk. -/
  image : Image
  index : Table IndexEntry
  /-- Where the next frame goes. -/
  writeOffset : Nat
  codec : Codec
  level : Int
  syncOnDrop : Bool

namespace FileStore

def headerSize : Nat := 64

/-- The bytes that begin a store file. -/
def magic : Bytes := [0x4C, 0x43, 0x45, 0x4C, 0x4C, 0x53, 0x30, 0x31]

/-- Bytes of an index entry: hash, offset, size and status. -/
def entrySize : Nat := 45

/-- Places in a file are below this. -/
def placeLimit : Nat := 0x8000000000000000

def entryBytes (hash : Hash) (e : IndexEntry) : Bytes :=
  hash.bytes ++ Bytes.littleEndian 8 e.offset ++ Bytes.littleEndian 4 e.size ++ [e.status.toByte]

def readEntry (bytes : Bytes) : Except Error (Hash × IndexEntry) := do
  match Hash.ofBytes? (bytes.take 32) with
  | none => throw .io
  | some hash =>
    let status := bytes.getLastD 0
    match Status.ofByte? status with
    | none => throw (.file (.badStatus status))
    | some status =>
      return (hash, {
        offset := Bytes.ofLittleEndian (bytes.slice 32 8)
        size := Bytes.ofLittleEndian (bytes.slice 40 4)
        status })

/-- Reads `count` index entries from a place of a file on. A later entry of the same hash wins. -/
def readIndex (img : Image) (place : Nat) : (count : Nat) → Table IndexEntry → Except Error (Table IndexEntry)
  | 0, index => return index
  | count + 1, index =>
    match img.read? place entrySize with
    | none => throw .io
    | some bytes => do
      let (hash, e) ← readEntry bytes
      readIndex img (place + entrySize) count (index.put hash e)

/-- The header of a file that has no index yet. -/
def newHeader : Bytes := magic ++ Bytes.littleEndian 4 fileVersion ++ List.replicate 52 0

def create (codec : Codec) (settings : Settings) : Except Error FileStore := do
  settings.validate
  return {
    image := .ofBytes newHeader
    index := []
    writeOffset := headerSize
    codec
    level := settings.compressionLevel.toInt
    syncOnDrop := settings.syncOnDrop }

/-- Opens a store file, if there is one. -/
def openImage (codec : Codec) (settings : Settings) (file : Option Image) : Except Error FileStore := do
  settings.validate
  match file with
  | none => throw .io
  | some image =>
    match image.read? 0 headerSize with
    | none => throw (.file .truncatedHeader)
    | some header =>
      if header.take 8 ≠ magic then throw (.file .badMagic)
      let version := Bytes.ofLittleEndian (header.slice 8 4)
      if version ≠ fileVersion then throw (.version version)
      let count := Bytes.ofLittleEndian (header.slice 16 8)
      let offset := Bytes.ofLittleEndian (header.slice 24 8)
      let index ←
        if offset = 0 ∨ count = 0 then pure []
        else if placeLimit ≤ offset then throw .io
        else readIndex image offset count []
      return {
        image
        index
        writeOffset := if offset = 0 then image.size else offset
        codec
        level := settings.compressionLevel.toInt
        syncOnDrop := settings.syncOnDrop }

/-- Opens a store file, or makes a new one if there is none. -/
def openOrCreate (codec : Codec) (settings : Settings) (file : Option Image) : Except Error FileStore :=
  match file with
  | none => create codec settings
  | some _ => openImage codec settings file

def size (s : FileStore) : Nat := s.index.length

def status? (s : FileStore) (h : Hash) : Option Status := (s.index.find? h).map (·.status)

/-- The encoding stored under a hash. -/
def readEncoding (s : FileStore) (h : Hash) : Except Error (Option Bytes) := do
  match s.index.find? h with
  | none => return none
  | some e =>
    if placeLimit ≤ e.offset then throw .io
    -- Nothing is read for an empty frame, so it may lie anywhere.
    let frame := if e.size = 0 then some [] else s.image.read? e.offset e.size
    match frame with
    | none => throw .io
    | some [] => throw (.corruption .emptyFrame)
    | some frame =>
      match s.codec.decompress frame with
      | none => throw .io
      | some encoding => return some encoding

/-- The answer to a request for a hash by a loader. -/
def answer (s : FileStore) (loader : LoaderId) (h : Hash) : Answer := do
  match s.status? h with
  | none => return none
  | some status =>
    match ← s.readEncoding h with
    | none => return none
    | some encoding =>
      let cell ← decode (some loader) encoding
      return some ((Ref.direct cell).withStatus status)

/-- Records a cell with at least `status`. The answer carries the status held, or `own` if that is
higher. A cell that is not held yet is appended to the frames. -/
def record (s : FileStore) (cell : Cell) (own status : Status) : Except Error (Ref Cell) × FileStore :=
  match s.index.find? cell.hash with
  | some e =>
    let held := e.status.max status
    (.ok ((Ref.direct cell).withStatus (held.max own)),
      { s with index := s.index.put cell.hash { e with status := held } })
  | none =>
    match s.codec.compress s.level cell.encoding with
    | none => (.error .io, s)
    | some frame =>
      if UInt32.size ≤ frame.length then (.error (.invalid .frameTooLarge), s)
      else if placeLimit ≤ s.writeOffset + frame.length then (.error .io, s)
      else
        (.ok ((Ref.direct cell).withStatus (status.max own)),
          { s with
            image := s.image.write s.writeOffset frame
            index := s.index.put cell.hash ⟨s.writeOffset, frame.length, status⟩
            writeOffset := s.writeOffset + frame.length })

/-- The index as it is written, sorted by hash. -/
def indexBytes (s : FileStore) : Bytes :=
  (s.index.mergeSort fun a b => (compare a.1 b.1).isLE).flatMap fun (hash, e) => entryBytes hash e

/-- Writes the header's counters and then the index after the last frame, which ends the file. -/
def sync (s : FileStore) : Except Error Unit × FileStore :=
  let image := s.image.write 16 (Bytes.littleEndian 8 s.index.length ++ Bytes.littleEndian 8 s.writeOffset)
  let bytes := s.indexBytes
  if placeLimit ≤ s.writeOffset + bytes.length then (.error .io, { s with image })
  else (.ok (), { s with
    image := (image.write s.writeOffset bytes).resize (s.writeOffset + bytes.length) })

/-- The file that a store leaves behind when it is closed. -/
def close (s : FileStore) : Image := if s.syncOnDrop then s.sync.2.image else s.image

end FileStore

end MerkleCells
