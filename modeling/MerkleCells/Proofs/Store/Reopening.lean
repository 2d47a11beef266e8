import MerkleCells.Cell.Make
import MerkleCells.Proofs.Frame
import MerkleCells.Proofs.Store.Index
import MerkleCells.Proofs.Store.Recording

/-!
What a store file still tells when the store is opened anew, whatever codec it is made with. `Run codec s last` says that
`s` can come about by making a file, recording, syncing and opening it again, and that `last` is the store as it was at
the last sync. Opening the file then gives what was held at the last sync, or nothing if there was none (`Run.reopens`),
provided that nothing has been appended since: a frame that is appended after a sync is written over the index on disk,
and the cells that were synced are lost with it (`append_after_sync`).
-/
namespace MerkleCells.FileStore

variable {codec : Codec} {s s' t : FileStore}

/-! ### What every step keeps -/

/-- A store file with a header before its frames, and with an index that can be written. -/
structure Regular (s : FileStore) : Prop where
  headed : Headed s.image
  after : headerSize ≤ s.writeOffset
  distinct : s.index.keys.Nodup
  fits : ∀ e ∈ s.index, e.2.Fits

/-- The entries of the index in the order in which they are written. -/
def sorted (s : FileStore) : Table IndexEntry := s.index.mergeSort fun a b => (compare a.1 b.1).isLE

theorem sorted_perm (s : FileStore) : s.sorted.Perm s.index := List.mergeSort_perm _ _

theorem length_sorted (s : FileStore) : (bytesOf s.sorted).length = entrySize * s.index.length := by
  rw [length_bytesOf, s.sorted_perm.length_eq]

theorem Regular.put (regular : s.Regular) (h : Hash) {e : IndexEntry} (fits : e.Fits) :
    Regular { s with index := s.index.put h e } where
  headed := regular.headed
  after := regular.after
  distinct := Table.nodup_put regular.distinct h e
  fits := by
    rintro ⟨k, x⟩ member
    rcases Table.mem_put member with same | old
    · cases same
      exact fits
    · exact regular.fits _ old

theorem Regular.append (regular : s.Regular) {h : Hash} {frame : Bytes} (small : frame.length < UInt32.size)
    (near : s.writeOffset + frame.length < placeLimit) (status : Status) : (s.append h frame status).Regular := by
  have fits : IndexEntry.Fits ⟨s.writeOffset, frame.length, status⟩ :=
    ⟨Nat.lt_trans (Nat.lt_of_le_of_lt (Nat.le_add_right _ _) near) placeLimit_lt, small⟩
  have kept := regular.put h fits
  exact {
    headed := regular.headed.write (Nat.le_trans (by decide) regular.after) _
    after := Nat.le_trans regular.after (Nat.le_add_right _ _)
    distinct := kept.distinct
    fits := kept.fits }

theorem Regular.raise (regular : s.Regular) {h : Hash} {e : IndexEntry} (found : s.index.find? h = some e)
    (status : Status) : (s.raise h e status).Regular :=
  have old := regular.fits _ (Table.mem_of_find? found)
  regular.put h ⟨old.offset, old.size⟩

theorem Regular.record (regular : s.Regular) (cell : Cell) (own status : Status) :
    (s.record cell own status).2.Regular := by
  have records := s.records cell own status
  generalize s.record cell own status = outcome at records
  cases records with
  | held found => exact regular.raise found status
  | new _ _ small near => exact regular.append small near status
  | refused => exact regular

/-! ### A file that was synced -/

/-- The file tells what the store holds. -/
structure Synced (s : FileStore) : Prop where
  counts : s.image.Has 16 (counters s.index.length s.writeOffset)
  near : s.writeOffset + entrySize * s.index.length < placeLimit
  entries : s.index ≠ [] → s.image.Has s.writeOffset (bytesOf s.sorted)

/-- The file after a sync. -/
def syncedImage (s : FileStore) : Image :=
  ((s.image.write 16 (counters s.index.length s.writeOffset)).write s.writeOffset (bytesOf s.sorted)).resize
    (s.writeOffset + (bytesOf s.sorted).length)

theorem sync_eq (s : FileStore) : s.sync =
    if placeLimit ≤ s.writeOffset + (bytesOf s.sorted).length then
      (.error .io, { s with image := s.image.write 16 (counters s.index.length s.writeOffset) })
    else (.ok (), { s with image := s.syncedImage }) := rfl

theorem sync_of_near (near : s.writeOffset + entrySize * s.index.length < placeLimit) :
    s.sync = (.ok (), { s with image := s.syncedImage }) := by
  rw [← length_sorted] at near
  rw [sync_eq, if_neg (Nat.not_le.mpr near)]

theorem sync_done (near : s.writeOffset + entrySize * s.index.length < placeLimit) : s.sync.1 = .ok () := by
  rw [sync_of_near near]

theorem near_of_sync (done : s.sync.1 = .ok ()) : s.writeOffset + entrySize * s.index.length < placeLimit := by
  rw [← length_sorted]
  by_contra far
  rw [sync_eq, if_pos (Nat.not_lt.mp far)] at done
  cases done

theorem Regular.sync (regular : s.Regular) (done : s.sync.1 = .ok ()) : s.sync.2.Regular ∧ s.sync.2.Synced := by
  have near := near_of_sync done
  have after : 64 ≤ s.writeOffset := regular.after
  have counts : (s.image.write 16 (counters s.index.length s.writeOffset)).Has 16
      (counters s.index.length s.writeOffset) :=
    Image.has_write _ _ fun none => by cases none
  rw [sync_of_near near]
  constructor
  · exact {
      headed := ((regular.headed.write (by decide) _).write (by omega) _).resize
        (Nat.le_trans regular.after (Nat.le_add_right _ _))
      after := regular.after
      distinct := regular.distinct
      fits := regular.fits }
  · refine ⟨?_, near, fun nonempty => ?_⟩
    · refine (counts.write (.inl ?_)).resize ?_
      · rw [length_counters]
        omega
      · rw [length_counters]
        omega
    · refine (Image.has_write _ _ fun none => nonempty ?_).resize (Nat.le_refl _)
      have length := length_sorted s
      rw [none, List.length_nil, entrySize] at length
      exact List.length_eq_zero_iff.mp (show s.index.length = 0 by omega)

/-- Opening a file that was synced gives the store that was synced, with the entries of its index sorted. -/
theorem Synced.reopen (synced : s.Synced) (regular : s.Regular) {settings : Settings}
    (valid : settings.validate = .ok ()) :
    openImage codec settings (some s.image) = .ok (opened codec settings s.image s.writeOffset s.sorted) := by
  have near := synced.near
  have after := regular.after
  have room := placeLimit_lt
  simp only [entrySize, headerSize] at near after
  rw [openImage_of_header valid regular.headed synced.counts (by omega) (by omega)]
  by_cases empty : s.index = []
  · have none : s.sorted = [] := List.Perm.eq_nil (empty ▸ s.sorted_perm)
    rw [if_pos (.inr (by rw [empty]; rfl)), none]
    rfl
  · have some : ¬ (s.writeOffset = 0 ∨ s.index.length = 0) := by
      rw [List.length_eq_zero_iff]
      rintro (none | none)
      · omega
      · exact empty none
    have distinct : ([] ++ s.sorted : Table IndexEntry).keys.Nodup :=
      (s.sorted_perm.map _).nodup_iff.mpr regular.distinct
    have read := readIndex_of_has (synced.entries empty)
      (fun e member => regular.fits e (s.sorted_perm.mem_iff.mp member)) []
    rw [if_neg some, if_neg (by omega), ← s.sorted_perm.length_eq, read,
      Table.foldl_put distinct]
    rfl

/-- When a frame is appended after a sync, it stands where the header says that the index begins. -/
theorem Synced.append (synced : s.Synced) (regular : s.Regular) (h : Hash) {frame : Bytes} (nonempty : frame ≠ [])
    (status : Status) :
    (s.append h frame status).image.Has 16 (counters s.index.length s.writeOffset) ∧
      (s.append h frame status).image.Has s.writeOffset frame := by
  have after : 64 ≤ s.writeOffset := regular.after
  constructor
  · refine synced.counts.write (.inl ?_)
    rw [length_counters]
    omega
  · exact Image.has_write _ _ nonempty

/-- Opening a file that was never synced gives an empty store. -/
theorem reopen_unsynced (headed : Headed s.image) (counts : s.image.Has 16 (counters 0 0)) {settings : Settings}
    (valid : settings.validate = .ok ()) :
    openImage codec settings (some s.image) = .ok (opened codec settings s.image 0 []) := by
  rw [openImage_of_header valid headed counts (by decide) (by decide), if_pos (.inl rfl)]
  rfl

/-! ### Runs -/

/-- The runs of a store file: `s` is the store as it is now and `last` the store as it was at the last sync. Reading
changes nothing, so it is no step. A store that is closed without a sync, or is gone with its process, leaves its
file as it is, and may be opened again if nothing has been appended since the last sync. -/
inductive Run (codec : Codec) : FileStore → Option FileStore → Prop
  | create {settings : Settings} {s : FileStore} (made : create codec settings = .ok s) : Run codec s none
  | record {s : FileStore} {last : Option FileStore} (cell : Cell) (own status : Status) (run : Run codec s last) :
      Run codec (s.record cell own status).2 last
  | sync {s : FileStore} {last : Option FileStore} (run : Run codec s last) (done : s.sync.1 = .ok ()) :
      Run codec s.sync.2 (some s.sync.2)
  | reopen {s s' : FileStore} {last : Option FileStore} {settings : Settings} (run : Run codec s last)
      (still : ∀ t, last = some t → s.writeOffset = t.writeOffset)
      (opened : openImage codec settings (some s.image) = .ok s') : Run codec s' last

/-- What the steps of a run keep. As long as nothing is appended after a sync, the file stays as it is. -/
structure Tracks (codec : Codec) (s : FileStore) (last : Option FileStore) : Prop where
  regular : s.Regular
  codec_eq : s.codec = codec
  never : last = none → s.image.Has 16 (counters 0 0)
  since : ∀ t, last = some t → t.Regular ∧ t.Synced ∧ t.codec = codec ∧ t.writeOffset ≤ s.writeOffset ∧
    (s.writeOffset = t.writeOffset → s.image = t.image)

variable {last : Option FileStore}

theorem valid_of_ok {α : Type} {settings : Settings} {x : Except Error α} {a : α}
    (made : (do settings.validate; x) = .ok a) : settings.validate = .ok () ∧ x = .ok a := by
  cases checked : settings.validate with
  | error e => rw [checked] at made; cases made
  | ok u => rw [checked] at made; exact ⟨rfl, made⟩

theorem has_newHeader {place : Nat} (before data after : Bytes) (parts : newHeader = before ++ data ++ after)
    (here : before.length = place) : (Image.ofBytes newHeader).Has place data := by
  rw [parts, ← here]
  exact Image.has_ofBytes before data after

theorem tracks_create {settings : Settings} (made : create codec settings = .ok s) : s.Tracks codec none := by
  obtain ⟨-, made⟩ := valid_of_ok made
  cases made
  exact {
    regular := {
      headed := {
        size := Nat.le_refl 64
        magic := has_newHeader [] magic (Bytes.littleEndian 4 fileVersion ++ List.replicate 52 0) (by decide) rfl
        version := has_newHeader magic (Bytes.littleEndian 4 fileVersion) (List.replicate 52 0) (by decide) rfl }
      after := Nat.le_refl _
      distinct := List.nodup_nil
      fits := fun e member => by cases member }
    codec_eq := rfl
    never := fun _ => has_newHeader (magic ++ Bytes.littleEndian 4 fileVersion ++ List.replicate 4 0) (counters 0 0)
      (List.replicate 32 0) (by decide) (by decide)
    since := fun t none => by cases none }

theorem Tracks.record (tracks : s.Tracks codec last) (faithful : codec.Faithful) (cell : Cell) (own status : Status) :
    (s.record cell own status).2.Tracks codec last := by
  have records := s.records cell own status
  generalize s.record cell own status = outcome at records
  cases records with
  | held found => exact ⟨tracks.regular.raise found status, tracks.codec_eq, tracks.never, tracks.since⟩
  | @new frame _ made small near =>
    have after : 64 ≤ s.writeOffset := tracks.regular.after
    refine ⟨tracks.regular.append small near status, tracks.codec_eq, fun none => ?_, fun t synced => ?_⟩
    · exact (tracks.never none).write (.inl (by rw [length_counters]; omega))
    · obtain ⟨regular, synced, coded, le, -⟩ := tracks.since t synced
      rw [tracks.codec_eq] at made
      have grown := List.length_pos_iff.mpr (faithful.ne_nil made)
      refine ⟨regular, synced, coded, Nat.le_trans le (Nat.le_add_right _ _), fun unmoved => ?_⟩
      exact absurd unmoved (by show s.writeOffset + _ ≠ _; omega)
  | refused => exact tracks

theorem Tracks.sync (tracks : s.Tracks codec last) (done : s.sync.1 = .ok ()) :
    s.sync.2.Tracks codec (some s.sync.2) := by
  obtain ⟨regular, synced⟩ := tracks.regular.sync done
  have coded : s.sync.2.codec = codec := by
    rw [sync_of_near (near_of_sync done)]
    exact tracks.codec_eq
  refine ⟨regular, coded, fun none => (by cases none), fun t same => ?_⟩
  cases same
  exact ⟨regular, synced, coded, Nat.le_refl _, fun _ => rfl⟩

/-- Opening the file gives the store as it was at the last sync, or an empty one if there was none. -/
theorem Tracks.open (tracks : s.Tracks codec last) (still : ∀ t, last = some t → s.writeOffset = t.writeOffset)
    {settings : Settings} (valid : settings.validate = .ok ()) :
    openImage codec settings (some s.image) = .ok (match last with
      | none => opened codec settings s.image 0 []
      | some t => opened codec settings t.image t.writeOffset t.sorted) := by
  cases last with
  | none => exact reopen_unsynced tracks.regular.headed (tracks.never rfl) valid
  | some t =>
    obtain ⟨regular, synced, -, -, same⟩ := tracks.since t rfl
    rw [same (still t rfl)]
    exact synced.reopen regular valid

theorem Tracks.reopen (tracks : s.Tracks codec last) (still : ∀ t, last = some t → s.writeOffset = t.writeOffset)
    {settings : Settings} (reopened : openImage codec settings (some s.image) = .ok s') : s'.Tracks codec last := by
  obtain ⟨valid, -⟩ := valid_of_ok reopened
  rw [tracks.open still valid] at reopened
  cases reopened
  cases last with
  | none =>
    exact ⟨⟨tracks.regular.headed, tracks.regular.headed.size, List.nodup_nil, fun e member => by cases member⟩, rfl,
      fun _ => tracks.never rfl, fun t none => by cases none⟩
  | some t =>
    obtain ⟨regular, synced, coded, -, -⟩ := tracks.since t rfl
    have after : 64 ≤ t.writeOffset := regular.after
    have offset : (opened codec settings t.image t.writeOffset t.sorted).writeOffset = t.writeOffset :=
      if_neg (by omega)
    refine ⟨⟨regular.headed, by rw [offset]; exact regular.after, ?_, ?_⟩, rfl, fun none => (by cases none),
      fun t' same => ?_⟩
    · exact (t.sorted_perm.map _).nodup_iff.mpr regular.distinct
    · exact fun e member => regular.fits e (t.sorted_perm.mem_iff.mp member)
    · cases same
      exact ⟨regular, synced, coded, Nat.le_of_eq offset.symm, fun _ => rfl⟩

theorem Run.tracks (run : Run codec s last) (faithful : codec.Faithful) : s.Tracks codec last := by
  induction run with
  | create made => exact tracks_create made
  | record cell own status _ ih => exact ih.record faithful cell own status
  | sync _ done ih => exact ih.sync done
  | reopen _ still reopened ih => exact ih.reopen still reopened

/-- A store whose index has the same entries in another order, and whose file is the same, holds the same. -/
theorem holds_opened (regular : t.Regular) (coded : t.codec = codec) (settings : Settings) (offset : Nat) (h : Hash) :
    (opened codec settings t.image offset t.sorted).status? h = t.status? h ∧
      (opened codec settings t.image offset t.sorted).readEncoding h = t.readEncoding h := by
  have same : t.sorted.find? h = t.index.find? h :=
    (Table.find?_perm regular.distinct t.sorted_perm.symm h).symm
  simp only [status?, readEncoding, opened, same, coded, and_self]

/-- A store file that was closed or left without a sync can be opened, and it holds what it held at the last sync,
or nothing if there was none, as long as nothing has been appended since. -/
theorem Run.reopens (run : Run codec s last) (faithful : codec.Faithful)
    (still : ∀ t, last = some t → s.writeOffset = t.writeOffset) {settings : Settings}
    (valid : settings.validate = .ok ()) :
    ∃ s', openImage codec settings (some s.image) = .ok s' ∧ s'.size = (last.map size).getD 0 ∧
      ∀ h, s'.status? h = last.bind (·.status? h) ∧
        s'.readEncoding h = (last.map (·.readEncoding h)).getD (.ok none) := by
  have reopened := (run.tracks faithful).open still valid
  cases last with
  | none => exact ⟨_, reopened, rfl, fun h => ⟨rfl, rfl⟩⟩
  | some t =>
    obtain ⟨regular, -, coded, -⟩ := (run.tracks faithful).since t rfl
    exact ⟨_, reopened, t.sorted_perm.length_eq, holds_opened regular coded settings t.writeOffset⟩

/-! ### Files that are left behind -/

/-- Settings of a store that is closed without a sync. -/
def unsynced : Settings := { syncOnDrop := false }

theorem valid_unsynced : unsynced.validate = .ok () := rfl

/-- A new file. -/
def empty : FileStore := ⟨.ofBytes newHeader, [], headerSize, Frame.codec, 3, false⟩

theorem run_empty : Run Frame.codec empty none := .create (show create Frame.codec unsynced = .ok empty from rfl)

/-- A store that has been synced. -/
def synced (s : FileStore) : FileStore := { s with image := s.syncedImage }

theorem sorted_synced (s : FileStore) : s.synced.sorted = s.sorted := rfl

theorem Run.synced (run : Run codec s last) (near : s.writeOffset + entrySize * s.index.length < placeLimit) :
    Run codec s.synced (some s.synced) := by
  have done := run.sync (sync_done near)
  rwa [sync_of_near near] at done

theorem still_self : ∀ t, some s = some t → s.writeOffset = t.writeOffset :=
  fun _ same => congrArg writeOffset (Option.some.inj same)

/-- A file with two cells in it. -/
def pair : FileStore := ((empty.record (.integer 2) .unknown .stored).2.record (.integer 1) .unknown .stored).2

theorem near_pair : pair.writeOffset + entrySize * pair.index.length < placeLimit := by decide +kernel

theorem run_pair : Run Frame.codec pair.synced (some pair.synced) := by
  have run : Run Frame.codec pair none := by
    rw [pair]
    exact (run_empty.record (.integer 2) .unknown .stored).record (.integer 1) .unknown .stored
  exact run.synced near_pair

/-- The store that the file of `pair` is opened as. -/
def resumed : FileStore := opened Frame.codec unsynced pair.synced.image pair.synced.writeOffset pair.index

theorem sorted_pair : pair.sorted = pair.index := List.mergeSort_of_pairwise (by decide +kernel)

theorem open_pair : openImage Frame.codec unsynced (some pair.synced.image) = .ok resumed := by
  have opens := (run_pair.tracks Frame.codec_faithful).open still_self valid_unsynced
  dsimp only at opens
  rwa [sorted_synced, sorted_pair] at opens

theorem run_resumed : Run Frame.codec resumed (some pair.synced) := run_pair.reopen still_self open_pair

/-- That store when a status was raised and another cell was appended. -/
def grown : FileStore := ((resumed.record (.integer 1) .unknown .persisted).2.record (.integer 3) .unknown .stored).2

theorem near_grown : grown.writeOffset + entrySize * grown.index.length < placeLimit := by decide +kernel

theorem run_grown : Run Frame.codec grown.synced (some grown.synced) := by
  have run : Run Frame.codec grown (some pair.synced) := by
    rw [grown]
    exact (run_resumed.record (.integer 1) .unknown .persisted).record (.integer 3) .unknown .stored
  exact run.synced near_grown

/-- The store after the last sync, when one more status was raised. -/
def left : FileStore := (grown.synced.record (.integer 2) .unknown .persisted).2

theorem run_left : Run Frame.codec left (some grown.synced) := by
  rw [left]
  exact run_grown.record (.integer 2) .unknown .persisted

/-- A status that is raised after the last sync is lost with a store that was not closed, and nothing else is: neither
what was appended before the last sync nor what was there when the file was opened before that. -/
theorem reopens_grown : ∃ s', openImage Frame.codec unsynced (some left.image) = .ok s' ∧
    s'.size = 3 ∧
    s'.status? (Cell.integer 1).hash = some .persisted ∧
    s'.status? (Cell.integer 2).hash = some .stored ∧
    s'.status? (Cell.integer 3).hash = some .stored ∧
    ∀ h, s'.readEncoding h = grown.synced.readEncoding h := by
  have still : left.writeOffset = grown.synced.writeOffset := by decide +kernel
  have statuses : grown.synced.size = 3 ∧ grown.synced.status? (Cell.integer 1).hash = some .persisted ∧
      grown.synced.status? (Cell.integer 2).hash = some .stored ∧
      grown.synced.status? (Cell.integer 3).hash = some .stored := by
    decide +kernel
  obtain ⟨s', opened, size, held⟩ := run_left.reopens Frame.codec_faithful
    (fun t same => still.trans (still_self t same)) valid_unsynced
  simp only [Option.map_some, Option.bind_some, Option.getD_some] at size held
  refine ⟨s', opened, size.trans statuses.1, ?_, ?_, ?_, fun h => (held h).2⟩
  · exact (held _).1.trans statuses.2.1
  · exact (held _).1.trans statuses.2.2.1
  · exact (held _).1.trans statuses.2.2.2

/-! ### A frame after a sync -/

/-- A file that was synced with one cell in it. -/
def single : FileStore := (empty.record (.integer 1) .unknown .stored).2.synced

theorem run_single : Run Frame.codec single (some single) :=
  (run_empty.record (.integer 1) .unknown .stored).synced (by decide +kernel)

/-- The first cell is lost when a frame is appended after it was synced and the store is not closed. -/
theorem append_after_sync : Run Frame.codec (single.record (.integer 2) .unknown .stored).2 (some single) ∧
    single.status? (Cell.integer 1).hash = some .stored ∧
    ∃ s', openImage Frame.codec unsynced (some (single.record (.integer 2) .unknown .stored).2.image) = .ok s' ∧
      s'.status? (Cell.integer 1).hash = none := by
  refine ⟨run_single.record (.integer 2) .unknown .stored, by decide +kernel, ?_⟩
  have lost : ((openImage Frame.codec unsynced (some (single.record (.integer 2) .unknown .stored).2.image)).map
      fun s => s.status? (Cell.integer 1).hash).toOption = some none := by decide +kernel
  generalize openImage Frame.codec unsynced (some (single.record (.integer 2) .unknown .stored).2.image) = answer at lost ⊢
  cases answer with
  | error e => cases lost
  | ok s' => exact ⟨s', rfl, Option.some.inj lost⟩

end MerkleCells.FileStore
