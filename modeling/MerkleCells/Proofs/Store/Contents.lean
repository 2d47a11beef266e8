import MerkleCells.Proofs.Decoding
import MerkleCells.Proofs.Store.Recording
import MerkleCells.Proofs.Store.Reopening
import Mathlib.Data.Finset.Card
import Mathlib.Order.Bounds.Defs

/-!
What a store holds, told by what was recorded in it. A store `Reflects` a log if it holds the hashes in it and no
others, each with the highest status that was recorded for it and with the encoding that was recorded first. A record
keeps that for the longer log, in memory (`MemoryStore.Holds.record`) and in a file (`FileStore.Holds.record`). In a
file every index entry tells of a frame between the header and the place where the next frame goes, so neither a
frame that is appended nor an index that is written after the frames touches it (`FileStore.Framed`), and what a file
is opened with is what it was written from (`FileStore.Holds.reopen`).
-/
namespace MerkleCells

/-! ### Logs -/

/-- The cells that were recorded and the statuses that they were recorded with, the earliest first. -/
abbrev Log := List (Cell × Status)

namespace Log

variable {log : Log} {c : Cell} {status : Status} {h : Hash}

/-- The hashes in a log. -/
def hashes (log : Log) : Finset Hash := (log.map fun e => e.1.hash).toFinset

/-- The statuses that were recorded for a hash. -/
def statuses (log : Log) (h : Hash) : Set Status := {a | ∃ e ∈ log, e.1.hash = h ∧ e.2 = a}

/-- The cell that was the first to be recorded under a hash. -/
def first? (log : Log) (h : Hash) : Option Cell := (log.find? fun e => e.1.hash = h).map (·.1)

theorem mem_hashes : h ∈ log.hashes ↔ ∃ e ∈ log, e.1.hash = h := by
  rw [hashes, List.mem_toFinset, List.mem_map]

theorem mem_statuses_append {a : Status} :
    a ∈ statuses (log ++ [(c, status)]) h ↔ a ∈ log.statuses h ∨ c.hash = h ∧ status = a := by
  simp [statuses, or_and_right, exists_or]

theorem statuses_empty : log.statuses h = ∅ ↔ h ∉ log.hashes := by
  rw [mem_hashes, Set.eq_empty_iff_forall_notMem]
  constructor
  · rintro none ⟨e, member, named⟩
    exact none e.2 ⟨e, member, named, rfl⟩
  · rintro none a ⟨e, member, named, -⟩
    exact none ⟨e, member, named⟩

theorem first?_eq_none : log.first? h = none ↔ h ∉ log.hashes := by
  simp [first?, mem_hashes]

theorem first?_append :
    first? (log ++ [(c, status)]) h = (log.first? h).or (if c.hash = h then some c else none) := by
  rw [first?, first?, List.find?_append]
  cases log.find? fun e => e.1.hash = h with
  | some e => rfl
  | none => by_cases here : c.hash = h <;> simp [here]

theorem first?_append_of_some {d : Cell} (first : log.first? h = some d) :
    first? (log ++ [(c, status)]) h = some d := by
  rw [first?_append, first, Option.some_or]

/-- A table that has the hashes of a log, each once, has as many entries as the log has hashes. -/
theorem length_eq_card {α : Type} {t : Table α} (distinct : t.keys.Nodup)
    (same : ∀ h, (t.find? h).isSome ↔ h ∈ log.hashes) : t.length = log.hashes.card := by
  have keys : t.keys.toFinset = log.hashes := by
    ext h
    rw [← same, List.mem_toFinset]
    constructor
    · intro member
      obtain ⟨⟨k, a⟩, inside, rfl⟩ := List.mem_map.mp member
      rw [(Table.find?_eq_some_iff distinct).mpr inside]
      rfl
    · intro found
      obtain ⟨a, found⟩ := Option.isSome_iff_exists.mp found
      exact Table.mem_keys_of_mem (Table.mem_of_find? found)
  rw [← keys, List.toFinset_card_of_nodup distinct, Table.keys, List.length_map]

end Log

/-! ### Statuses -/

/-- A status is held for the hashes of a log and for no others, and it is the highest that was recorded. -/
structure Raised (log : Log) (status? : Hash → Option Status) : Prop where
  holds : ∀ h, (status? h).isSome ↔ h ∈ log.hashes
  highest : ∀ h held, status? h = some held → IsGreatest (log.statuses h) held

namespace Raised

variable {log : Log} {status? status?' : Hash → Option Status} {c : Cell} {status : Status}

theorem nil (none : ∀ h, status? h = none) : Raised [] status? where
  holds h := by simp [none, Log.hashes]
  highest h held found := by
    rw [none] at found
    cases found

theorem record (raised : Raised log status?)
    (step : ∀ h, status?' h = if c.hash = h then some (Store.raised status (status? h)) else status? h) :
    Raised (log ++ [(c, status)]) status?' where
  holds h := by
    have hashes : h ∈ Log.hashes (log ++ [(c, status)]) ↔ h ∈ log.hashes ∨ c.hash = h := by
      simp [Log.mem_hashes, or_and_right, exists_or]
    rw [hashes, ← raised.holds, step]
    by_cases here : c.hash = h <;> simp [here]
  highest h held found := by
    rw [step] at found
    by_cases here : c.hash = h
    · rw [if_pos here] at found
      cases found
      cases held : status? h with
      | none =>
        have new : log.statuses h = ∅ := by
          rw [Log.statuses_empty, ← raised.holds, held]
          exact Bool.false_ne_true
        refine ⟨Log.mem_statuses_append.mpr (.inr ⟨here, rfl⟩), fun a member => ?_⟩
        rcases Log.mem_statuses_append.mp member with old | ⟨-, rfl⟩
        · rw [new] at old
          cases old
        · exact Status.le_refl _
      | some old =>
        obtain ⟨member, above⟩ := raised.highest h old held
        constructor
        · show old.max status ∈ _
          rw [Log.mem_statuses_append, Status.max]
          split
          · exact .inr ⟨here, rfl⟩
          · exact .inl member
        · intro a member
          rcases Log.mem_statuses_append.mp member with member | ⟨-, rfl⟩
          · exact Status.le_trans (above member) (Status.le_max_left old status)
          · exact Status.le_max_right old _
    · rw [if_neg here] at found
      obtain ⟨member, above⟩ := raised.highest h held found
      refine ⟨Log.mem_statuses_append.mpr (.inl member), fun a member => ?_⟩
      exact above ((Log.mem_statuses_append.mp member).resolve_right fun new => here new.1)

end Raised

/-! ### Stores in memory -/

namespace MemoryStore

variable {s : MemoryStore} {log : Log}

/-- A store in memory holds the cells that were recorded first. -/
structure Holds (s : MemoryStore) (log : Log) : Prop where
  raised : Raised log s.status?
  distinct : s.held.keys.Nodup
  first : ∀ h e, s.held.find? h = some e → log.first? h = some e.cell

theorem holds_empty : empty.Holds [] where
  raised := .nil fun _ => rfl
  distinct := List.nodup_nil
  first h e found := by cases found

theorem Holds.record (holds : s.Holds log) (cell : Cell) (own status : Status) :
    (s.record cell own status).2.Holds (log ++ [(cell, status)]) where
  raised := holds.raised.record (s.status?_record cell own status)
  distinct := Table.nodup_put holds.distinct _ _
  first h e found := by
    simp only [MemoryStore.record, Table.find?_put] at found
    by_cases here : cell.hash = h
    · rw [if_pos here] at found
      cases old : s.held.find? cell.hash with
      | some e' =>
        rw [old] at found
        cases found
        exact Log.first?_append_of_some (holds.first h e' (here ▸ old))
      | none =>
        rw [old] at found
        cases found
        have new : log.first? h = none := by
          rw [Log.first?_eq_none, ← holds.raised.holds, status?, ← here, old]
          exact Bool.false_ne_true
        rw [Log.first?_append, new, if_pos here, Option.none_or]
    · rw [if_neg here] at found
      exact Log.first?_append_of_some (holds.first h e found)

end MemoryStore

/-! ### Stores in a file -/

namespace FileStore

variable {s t : FileStore} {log : Log} {e : IndexEntry} {bytes : Bytes} {img : Image}

/-- An index entry tells of a frame between the header and the place of the next frame, and some bytes are in it. -/
structure Framed (s : FileStore) (e : IndexEntry) (bytes : Bytes) : Prop where
  frame : ∃ frame, s.image.Has e.offset frame ∧ frame.length = e.size ∧ frame ≠ [] ∧
    s.codec.decompress frame = some bytes
  after : headerSize ≤ e.offset
  before : e.offset + e.size ≤ s.writeOffset
  near : e.offset + e.size < placeLimit

theorem Framed.readEncoding {h : Hash} (framed : s.Framed e bytes) (found : s.index.find? h = some e) :
    s.readEncoding h = .ok (some bytes) := by
  obtain ⟨frame, has, length, nonempty, decoded⟩ := framed.frame
  have read := has.read?
  rw [length] at read
  have size : e.size ≠ 0 := fun none => nonempty (List.eq_nil_of_length_eq_zero (length.trans none))
  have near : ¬ placeLimit ≤ e.offset := by
    have := framed.near
    omega
  rw [FileStore.readEncoding, found]
  dsimp only
  rw [if_neg near, if_neg size, read]
  obtain ⟨b, rest, rfl⟩ := List.exists_cons_of_ne_nil nonempty
  dsimp only [bind, Except.bind, pure, Except.pure]
  rw [decoded]

/-- A frame stays as long as the file stays the same where frames are. -/
theorem Framed.mono (framed : s.Framed e bytes) (coded : t.codec = s.codec) (further : s.writeOffset ≤ t.writeOffset)
    (kept : ∀ frame, headerSize ≤ e.offset → e.offset + frame.length ≤ s.writeOffset → s.image.Has e.offset frame →
      t.image.Has e.offset frame) : t.Framed e bytes where
  frame := by
    obtain ⟨frame, has, length, rest⟩ := framed.frame
    exact ⟨frame, kept frame framed.after (length ▸ framed.before) has, length, coded ▸ rest⟩
  after := framed.after
  before := Nat.le_trans framed.before further
  near := framed.near

/-- A store file has a frame for every index entry, of the cell that was recorded first. -/
structure Holds (s : FileStore) (log : Log) : Prop where
  raised : Raised log s.status?
  regular : s.Regular
  faithful : s.codec.Faithful
  first : ∀ h e, s.index.find? h = some e → ∃ c, log.first? h = some c ∧ s.Framed e c.encoding

theorem holds_create {codec : Codec} (faithful : codec.Faithful) {settings : Settings}
    (made : create codec settings = .ok s) : s.Holds [] := by
  have tracks := tracks_create made
  obtain ⟨-, made⟩ := valid_of_ok made
  cases made
  exact ⟨.nil fun _ => rfl, tracks.regular, faithful, fun h e none => by cases none⟩

theorem new_of_find?_none (holds : s.Holds log) {h : Hash} (none : s.index.find? h = none) :
    log.first? h = Option.none := by
  rw [Log.first?_eq_none, ← holds.raised.holds, status?, none]
  exact Bool.false_ne_true

/-- A cell that is recorded is told of by a frame of its own, unless it was held before. -/
theorem Holds.record (holds : s.Holds log) {cell : Cell} {own status : Status} {r : Ref Cell} {s' : FileStore}
    (run : s.record cell own status = (.ok r, s')) : s'.Holds (log ++ [(cell, status)]) := by
  have step : (Store.file s).record cell own status = (.ok r, .file s') := by rw [Store.record, run]
  have raised : Raised (log ++ [(cell, status)]) s'.status? :=
    holds.raised.record (Store.status?_record step)
  have records := s.records cell own status
  rw [run] at records
  cases records with
  | @held e old =>
    refine ⟨raised, holds.regular.raise old status, holds.faithful, fun h e' found => ?_⟩
    rw [raise, Table.find?_put] at found
    by_cases here : cell.hash = h
    · rw [if_pos here] at found
      cases found
      obtain ⟨c, first, framed⟩ := holds.first h e (here ▸ old)
      exact ⟨c, Log.first?_append_of_some first, framed.frame, framed.after, framed.before, framed.near⟩
    · rw [if_neg here] at found
      obtain ⟨c, first, framed⟩ := holds.first h e' found
      exact ⟨c, Log.first?_append_of_some first, framed.mono rfl (Nat.le_refl _) fun _ _ _ has => has⟩
  | @new frame absent made small near =>
    have nonempty := holds.faithful.ne_nil made
    refine ⟨raised, holds.regular.append small near status, holds.faithful, fun h e found => ?_⟩
    rw [append, Table.find?_put] at found
    by_cases here : cell.hash = h
    · rw [if_pos here] at found
      cases found
      refine ⟨cell, ?_, ⟨frame, Image.has_write _ _ nonempty, rfl, nonempty, holds.faithful.inverse made⟩,
        holds.regular.after, Nat.le_refl _, near⟩
      rw [Log.first?_append, new_of_find?_none holds (here ▸ absent), if_pos here, Option.none_or]
    · rw [if_neg here] at found
      obtain ⟨c, first, framed⟩ := holds.first h e found
      refine ⟨c, Log.first?_append_of_some first, framed.mono rfl (Nat.le_add_right _ _) fun frame _ before has => ?_⟩
      exact has.write (.inl before)

/-! ### Synced files -/

/-- A file tells what a store holds: it is that of a synced store with the same index entries. -/
def Written (s : FileStore) (img : Image) : Prop :=
  ∃ t : FileStore, t.Regular ∧ t.Synced ∧ t.image = img ∧ t.writeOffset = s.writeOffset ∧ t.index.Perm s.index

theorem Regular.written (regular : s.Regular) (done : s.sync.1 = .ok ()) : s.sync.2.Written s.sync.2.image := by
  obtain ⟨kept, synced⟩ := regular.sync done
  exact ⟨_, kept, synced, rfl, rfl, .refl _⟩

/-- Writing the index touches no frame. -/
theorem Holds.sync (holds : s.Holds log) (done : s.sync.1 = .ok ()) : s.sync.2.Holds log := by
  have regular := (holds.regular.sync done).1
  have near := near_of_sync done
  rw [sync_of_near near] at regular ⊢
  refine ⟨holds.raised, regular, holds.faithful, fun h e found => ?_⟩
  obtain ⟨c, first, framed⟩ := holds.first h e found
  refine ⟨c, first, framed.mono rfl (Nat.le_refl _) fun frame after before has => ?_⟩
  have header : (counters s.index.length s.writeOffset).length = 16 := length_counters _ _
  rw [headerSize] at after
  exact ((has.write (.inr (by omega))).write (.inl before)).resize (Nat.le_trans before (Nat.le_add_right _ _))

theorem Written.near (written : s.Written img) : s.writeOffset + entrySize * s.index.length < placeLimit := by
  obtain ⟨t, -, synced, -, offset, perm⟩ := written
  rw [← offset, ← perm.length_eq]
  exact synced.near

/-- A file that tells what a store holds can be opened, and gives a store that holds the same and whose file it is. -/
theorem Written.open (written : s.Written s.image) (holds : s.Holds log) {settings : Settings}
    (valid : settings.validate = .ok ()) :
    ∃ s', openImage s.codec settings (some s.image) = .ok s' ∧ s'.Holds log ∧ s'.Written s'.image := by
  obtain ⟨t, regular, synced, image, offset, perm⟩ := written
  have opens : openImage s.codec settings (some t.image) =
      .ok (opened s.codec settings t.image t.writeOffset t.sorted) := synced.reopen regular valid
  have place : (opened s.codec settings s.image t.writeOffset t.sorted).writeOffset = t.writeOffset :=
    if_neg (Nat.ne_of_gt (Nat.lt_of_lt_of_le (by decide) regular.after))
  have same : t.sorted.Perm s.index := t.sorted_perm.trans perm
  have distinct : t.sorted.keys.Nodup := (same.map _).nodup_iff.mpr holds.regular.distinct
  have find : ∀ h, t.sorted.find? h = s.index.find? h := Table.find?_perm distinct same
  rw [image] at opens
  refine ⟨_, opens, ⟨?_, ⟨?_, ?_, distinct, ?_⟩, holds.faithful, fun h e found => ?_⟩, ?_⟩
  · have statuses : (opened s.codec settings s.image t.writeOffset t.sorted).status? = s.status? := by
      funext h
      simp only [status?, opened, find]
    rw [statuses]
    exact holds.raised
  · exact holds.regular.headed
  · rw [place]
    exact regular.after
  · exact fun e member => holds.regular.fits e (same.mem_iff.mp member)
  · obtain ⟨c, first, framed⟩ := holds.first h e ((find h).symm.trans found)
    exact ⟨c, first, framed.mono rfl (Nat.le_of_eq (offset.symm.trans place.symm)) fun _ _ _ has => has⟩
  · exact ⟨t, regular, synced, image, place.symm, t.sorted_perm.symm⟩

/-- A file that was closed tells what the store holds if nothing has been recorded since it was synced, or if it is
synced when it is closed. -/
theorem Holds.reopen (holds : s.Holds log) (synced : s.Written s.image ∨ s.syncOnDrop = true ∧ s.sync.1 = .ok ())
    {settings : Settings} (valid : settings.validate = .ok ()) :
    ∃ s', openImage s.codec settings (some s.close) = .ok s' ∧ s'.Holds log ∧ s'.Written s'.image := by
  cases drop : s.syncOnDrop with
  | true =>
    have done : s.sync.1 = .ok () := by
      rcases synced with written | ⟨-, done⟩
      · rw [sync_of_near written.near]
      · exact done
    have coded : s.sync.2.codec = s.codec := by rw [sync_of_near (near_of_sync done)]
    rw [close, if_pos drop, ← coded]
    exact (holds.regular.written done).open (holds.sync done) valid
  | false =>
    have written : s.Written s.image := synced.resolve_right fun dropped => by
      rw [drop] at dropped
      cases dropped.1
    rw [close, if_neg (by rw [drop]; exact Bool.false_ne_true)]
    exact written.open holds valid

end FileStore

/-! ### Stores of both kinds -/

namespace Store

variable {held held' : Store} {log : Log} {h : Hash}

/-- What was recorded in a store is held in memory or in a file. -/
def Holds (log : Log) : Store → Prop
  | .memory s => s.Holds log
  | .untrusted _ => False
  | .file s => s.Holds log

/-- The encoding that is held under a hash. -/
def read (h : Hash) : Store → Except Error (Option Bytes)
  | .memory s => .ok ((s.held.find? h).map fun e => e.cell.encoding)
  | .untrusted s => .ok ((s.slots.find? h).bind fun slot => slot.encoding)
  | .file s => s.readEncoding h

/-- What a store holds is told by a log: which hashes, with which statuses, how many, and with which encodings. -/
structure Reflects (held : Store) (log : Log) : Prop where
  holds : ∀ h, held.contains h ↔ h ∈ log.hashes
  highest : ∀ h status, held.status? h = some status → IsGreatest (log.statuses h) status
  size : held.size = log.hashes.card
  read : ∀ h, held.read h = .ok ((log.first? h).map Cell.encoding)
  /-- A loader that asks for a hash is given a cell with the encoding that was recorded first. -/
  answer : ∀ loader h, ∃ found, held.answer loader h = .ok found ∧
    (found.bind Ref.cell?).map Cell.encoding = (log.first? h).map Cell.encoding

theorem Holds.raised (holds : held.Holds log) : Raised log held.status? := by
  cases held with
  | memory s => exact MemoryStore.Holds.raised holds
  | untrusted s => exact holds.elim
  | file s => exact FileStore.Holds.raised holds

theorem Holds.record {cell : Cell} {own status : Status} {r : Ref Cell} (holds : held.Holds log)
    (run : held.record cell own status = (.ok r, held')) : held'.Holds (log ++ [(cell, status)]) := by
  cases held with
  | memory s =>
    cases run
    exact MemoryStore.Holds.record holds cell own status
  | untrusted s => exact holds.elim
  | file s =>
    simp only [Store.record, Prod.mk.injEq] at run
    obtain ⟨answered, rfl⟩ := run
    exact FileStore.Holds.record holds (Prod.ext answered rfl)

theorem reflects_memory {s : MemoryStore} (holds : s.Holds log) : Reflects (.memory s) log := by
  have same : ∀ h, (s.status? h).isSome = (s.held.find? h).isSome := fun h => Option.isSome_map
  have first : ∀ h, (s.held.find? h).map Held.cell = log.first? h := by
    intro h
    cases found : s.held.find? h with
    | some e => exact (holds.first h e found).symm
    | none =>
      symm
      rw [Option.map_none, Log.first?_eq_none, ← holds.raised.holds, same, found]
      exact Bool.false_ne_true
  refine ⟨holds.raised.holds, holds.raised.highest, ?_, fun h => ?_, fun loader h => ⟨_, rfl, ?_⟩⟩
  · exact Log.length_eq_card holds.distinct fun h => by rw [← same, holds.raised.holds]
  · rw [← first, Option.map_map]
    rfl
  · rw [← first]
    cases s.held.find? h <;> rfl

theorem reflects_file {s : FileStore} (holds : s.Holds log) (readable : ∀ e ∈ log, e.1.Readable) :
    Reflects (.file s) log := by
  have same : ∀ h, (s.status? h).isSome = (s.index.find? h).isSome := fun h => Option.isSome_map
  have read : ∀ h, s.readEncoding h = .ok ((log.first? h).map Cell.encoding) := by
    intro h
    cases found : s.index.find? h with
    | some e =>
      obtain ⟨c, first, framed⟩ := holds.first h e found
      rw [framed.readEncoding found, first, Option.map_some]
    | none =>
      rw [FileStore.new_of_find?_none holds found, FileStore.readEncoding, found]
      rfl
  refine ⟨holds.raised.holds, holds.raised.highest, ?_, read, fun loader h => ?_⟩
  · exact Log.length_eq_card holds.regular.distinct fun h => by rw [← same, holds.raised.holds]
  · cases held : s.status? h with
    | none =>
      have absent : log.first? h = none := by
        rw [Log.first?_eq_none, ← holds.raised.holds, held]
        exact Bool.false_ne_true
      refine ⟨none, ?_, by rw [absent]; rfl⟩
      rw [answer, FileStore.answer, held]
      rfl
    | some status =>
      obtain ⟨c, first⟩ : ∃ c, log.first? h = some c := Option.ne_none_iff_exists'.mp fun absent => by
        rw [Log.first?_eq_none, ← holds.raised.holds, held] at absent
        exact absent rfl
      obtain ⟨e, member, rfl⟩ := Option.map_eq_some_iff.mp first
      obtain ⟨c', decoded, shows, -⟩ := (readable e (List.mem_of_find?_eq_some member)).decode (some loader)
      refine ⟨some ((Ref.direct c').withStatus status), ?_, ?_⟩
      · rw [answer, FileStore.answer, held]
        simp only [read, first, Option.map_some, bind, Except.bind, decoded]
        rfl
      · rw [first]
        exact congrArg some shows.encoding_eq

/-- What was recorded in a store is what the store tells. -/
theorem Holds.reflects (holds : held.Holds log) (readable : ∀ e ∈ log, e.1.Readable) : held.Reflects log := by
  cases held with
  | memory s => exact reflects_memory holds
  | untrusted s => exact holds.elim
  | file s => exact reflects_file holds readable

end Store

end MerkleCells
