import MerkleCells.Proofs.Coherent
import MerkleCells.Proofs.Partial
import MerkleCells.Proofs.Store.Agreement

/-!
Walks by child indexes, down from a cell that a new loader loads. Over a store in a file a walk comes to what was
recorded, and to nothing else (`FileStore.Tells.walk_eq`). A store in memory gives the very cells that were recorded,
with their own references, so over it a walk comes to the same if each of these references asks the loader, or leads to
what was recorded anyway (`Cell.Bound`, `MemoryStore.walk_eq`). Nothing makes the references ask the loader, and without
that the two stores may differ (`Hanging.unbound`).
-/
namespace MerkleCells

open MerkleCells.Action

/-! ### Walks -/

/-- Goes down from a cell by child indexes, where `value` gives the cell behind a reference. There may be no child at
an index. -/
def Cell.descend {m : Type → Type} [Monad m] (value : Ref Cell → m Cell) : List Nat → Cell → m (Option Cell)
  | [], c => pure (some c)
  | i :: path, c =>
    match c.refs[i]? with
    | none => pure none
    | some r => do descend value path (← value r)

/-- Loads a cell and goes down from it. -/
def walk (id : LoaderId) (h : Hash) (path : List Nat) : Action (Option Cell) := do
  Cell.descend Ref.value path (← load id h)

/-- What can be told of the cell at which a walk ends. -/
def outcome (found : Except Error (Option Cell)) : Except Error (Option Bytes) := found.map (Option.map Cell.encoding)

theorem outcome_some (c : Cell) : outcome (.ok (some c)) = .ok (some c.encoding) := rfl

theorem outcome_error (e : Error) : outcome (.error e) = .error e := rfl

section Load

variable {s : Session} {id : LoaderId} {h : Hash} {path : List Nat} {c : Cell} {e : Error}

theorem result_walk_ok (found : (s.load id h).1 = .ok c) :
    result (walk id h path) s = result (c.descend Ref.value path) (s.load id h).2 := by
  simp only [walk, load, result_bind, result_ofStep]
  generalize s.load id h = answer at found
  obtain ⟨_, s'⟩ := answer
  cases found
  rfl

theorem result_walk_error (failed : (s.load id h).1 = .error e) :
    result (walk id h path) s = (.error e, (s.load id h).2) := by
  simp only [walk, load, result_bind, result_ofStep]
  generalize s.load id h = answer at failed
  obtain ⟨_, s'⟩ := answer
  cases failed
  rfl

end Load

namespace Log

variable {log : Log} {r r' : Ref Cell} {c d : Cell} {e : Error} {h : Hash}

/-- The cell that was recorded under a hash. -/
def held (log : Log) (h : Hash) : Except Error Cell :=
  match log.first? h with
  | none => .error (.missing h)
  | some c => .ok c

/-- What is behind a reference to a child: it is written inside its parent, or has to have been recorded. -/
def child (log : Log) (r : Ref Cell) : Except Error Cell :=
  match r.cell?.filter Cell.embeddable with
  | some c => .ok c
  | none => Loader.asChild r.hash (log.held r.hash)

/-- A walk that looks at nothing but what was recorded. -/
def walk (log : Log) (h : Hash) (path : List Nat) : Except Error (Option Cell) := do
  Cell.descend log.child path (← log.held h)

/-- All cells in a log, and all that they hold directly, can be read. -/
def Genuine (log : Log) : Prop := ∀ e ∈ log, e.1.Genuine Set.univ

/-- Why a walk fails: a cell was not recorded, or it was and should have been written inside its parent. -/
inductive Fails (log : Log) : Error → Prop
  | missing {h : Hash} (new : h ∉ log.hashes) : Fails log (.missing h)
  | small {h : Hash} {c : Cell} (first : log.first? h = some c) (small : c.embeddable = true) :
      Fails log (.format (.embeddableByHash h))

/-- What was the first under a hash was recorded, and has it. -/
theorem mem_of_first? (first : log.first? h = some c) : (∃ status, (c, status) ∈ log) ∧ c.hash = h := by
  obtain ⟨⟨c, status⟩, found, rfl⟩ := Option.map_eq_some_iff.mp first
  have named := List.find?_some found
  exact ⟨⟨status, List.mem_of_find?_eq_some found⟩, of_decide_eq_true named⟩

theorem held_eq_ok : log.held h = .ok c ↔ log.first? h = some c := by
  rw [held]
  cases log.first? h <;> simp

theorem fails_of_held (failed : log.held h = .error e) : log.Fails e := by
  rw [held] at failed
  cases first : log.first? h with
  | none =>
    rw [first] at failed
    cases failed
    exact .missing (first?_eq_none.mp first)
  | some c =>
    rw [first] at failed
    cases failed

theorem child_of_inlined (log : Log) {bytes : Bytes} (inlined : r.inlined? = some bytes) :
    ∃ c, log.child r = .ok c ∧ r.cell? = some c ∧ c.encoding = bytes := by
  obtain ⟨c, held, small, encoding, -⟩ := Ref.inlined?_eq_some inlined
  refine ⟨c, ?_, held, encoding⟩
  rw [child, held, Option.filter_some_pos small]

theorem child_of_apart (apart : r.inlined? = none) : log.child r = Loader.asChild r.hash (log.held r.hash) := by
  have none : r.cell?.filter Cell.embeddable = none := by
    obtain ⟨status, c | ⟨h, loader, byMarker⟩⟩ := r
    · by_contra small
      obtain ⟨d, kept⟩ := Option.ne_none_iff_exists'.mp small
      obtain ⟨same, small⟩ := Option.filter_eq_some_iff.mp kept
      cases same
      rw [Ref.inlined?_direct small] at apart
      cases apart
    · rfl
  rw [child, none]

theorem child_ofMarker (log : Log) (h : Hash) (id : Option LoaderId) :
    log.child (Ref.ofMarker h id) = Loader.asChild h (log.held h) :=
  child_of_apart rfl

/-- What is behind a reference is told by its mark. -/
theorem child_congr (log : Log) (same : r.mark = r'.mark) :
    (log.child r).map Cell.encoding = (log.child r').map Cell.encoding := by
  have inlined : r.inlined? = r'.inlined? := congrArg Mark.inlined same
  have hash : r.hash = r'.hash := congrArg Mark.hash same
  cases inside : r'.inlined? with
  | none => rw [child_of_apart inside, child_of_apart (inlined.trans inside), hash]
  | some bytes =>
    obtain ⟨c, run, -, encoding⟩ := child_of_inlined log inside
    obtain ⟨d, run', -, encoding'⟩ := child_of_inlined log (inlined.trans inside)
    rw [run, run', Except.map, Except.map, encoding, encoding']

theorem fails_of_child (failed : log.child r = .error e) : log.Fails e := by
  cases inlined : r.inlined? with
  | some bytes =>
    obtain ⟨c, run, -⟩ := child_of_inlined log inlined
    rw [run] at failed
    cases failed
  | none =>
    rw [child_of_apart inlined] at failed
    cases found : log.held r.hash with
    | error e' =>
      rw [found] at failed
      cases failed
      exact fails_of_held found
    | ok c =>
      rw [found] at failed
      cases small : c.embeddable with
      | true =>
        simp only [Loader.asChild, bind, Except.bind, small, ↓reduceIte] at failed
        cases failed
        exact .small (held_eq_ok.mp found) small
      | false =>
        rw [Loader.asChild_eq_ok.mpr ⟨rfl, small⟩] at failed
        cases failed

section Descend

variable {i : Nat} {path : List Nat}

theorem descend_none (none : c.refs[i]? = none) : c.descend log.child (i :: path) = .ok Option.none := by
  rw [Cell.descend, none]
  rfl

theorem descend_ok (at_i : c.refs[i]? = some r) (found : log.child r = .ok d) :
    c.descend log.child (i :: path) = d.descend log.child path := by
  rw [Cell.descend, at_i]
  simp only [found]
  rfl

theorem descend_error (at_i : c.refs[i]? = some r) (failed : log.child r = .error e) :
    c.descend log.child (i :: path) = .error e := by
  rw [Cell.descend, at_i]
  simp only [failed]
  rfl

theorem walk_ok (found : log.held h = .ok c) : log.walk h path = c.descend log.child path := by
  rw [walk, found]
  rfl

theorem walk_error (failed : log.held h = .error e) : log.walk h path = .error e := by
  rw [walk, failed]
  rfl

theorem fails_of_descend (failed : c.descend log.child path = .error e) : log.Fails e := by
  induction path generalizing c with
  | nil => cases failed
  | cons i path ih =>
    cases at_i : c.refs[i]? with
    | none =>
      rw [descend_none at_i] at failed
      cases failed
    | some r =>
      cases found : log.child r with
      | error e' =>
        rw [descend_error at_i found] at failed
        cases failed
        exact fails_of_child found
      | ok d => exact ih ((descend_ok at_i found).symm.trans failed)

theorem fails_of_walk (failed : log.walk h path = .error e) : log.Fails e := by
  cases found : log.held h with
  | error e' =>
    rw [walk_error found] at failed
    cases failed
    exact fails_of_held found
  | ok c => exact fails_of_descend ((walk_ok found).symm.trans failed)

end Descend

namespace Genuine

theorem first (genuine : log.Genuine) (first : log.first? h = some c) : c.Genuine Set.univ := by
  obtain ⟨⟨status, member⟩, -⟩ := mem_of_first? first
  exact genuine _ member

theorem child (genuine : log.Genuine) (known : c.Genuine Set.univ) (member : r ∈ c.refs) (run : log.child r = .ok d) :
    d.Genuine Set.univ := by
  cases inlined : r.inlined? with
  | some bytes =>
    obtain ⟨d', run', held, -⟩ := child_of_inlined log inlined
    rw [run] at run'
    cases run'
    exact known.held member held
  | none =>
    rw [child_of_apart inlined] at run
    exact genuine.first (held_eq_ok.mp (Loader.asChild_eq_ok.mp run).1)

theorem readable (genuine : log.Genuine) : ∀ e ∈ log, e.1.Readable :=
  fun e member => (genuine e member).involved.readable

end Genuine

end Log

/-! ### Walks that follow a log -/

/-- Answers that tell the same are the same failure, or both found something. -/
theorem cases_of_map_eq {α β : Type} {f : α → β} {x y : Except Error α} (same : x.map f = y.map f) :
    (∃ e, x = .error e ∧ y = .error e) ∨ ∃ a b, x = .ok a ∧ y = .ok b ∧ f a = f b := by
  rcases x with e | a <;> rcases y with e' | b
  · cases same
    exact .inl ⟨e, rfl, rfl⟩
  · cases same
  · cases same
  · exact .inr ⟨a, b, rfl, rfl, Except.ok.inj same⟩

/-- Whether a cell may stand behind a hash is told by its encoding. -/
theorem Loader.asChild_congr {h : Hash} {found found' : Except Error Cell}
    (same : found.map Cell.encoding = found'.map Cell.encoding) (readable : ∀ c, found = .ok c → c.Readable)
    (readable' : ∀ c, found' = .ok c → c.Readable) :
    (asChild h found).map Cell.encoding = (asChild h found').map Cell.encoding := by
  obtain ⟨e, rfl, rfl⟩ | ⟨c, c', rfl, rfl, encoding⟩ := cases_of_map_eq same
  · rfl
  · have small := ((readable c rfl).shows (readable' c' rfl) encoding).embeddable_eq
    simp only [asChild, bind, Except.bind, small]
    split
    · rfl
    · exact same

/-- Cells whose references come to what a log has for them, whatever is loaded before, and lead to such cells again. -/
structure Session.Follows (s : Session) (log : Log) (P : Cell → Prop) : Prop where
  readable : ∀ d, P d → d.Readable
  child : ∀ d, P d → ∀ r ∈ d.refs, ∀ s', s.Later s' →
    (result r.value s').1.map Cell.encoding = (log.child r).map Cell.encoding
  below : ∀ d, P d → ∀ r ∈ d.refs, ∀ s', s.Later s' → ∀ d', (result r.value s').1 = .ok d' → P d'

namespace Session.Follows

variable {s s' : Session} {log : Log} {P : Cell → Prop} {c d : Cell} {id : LoaderId} {h : Hash}

/-- Step by step, a walk down from such a cell comes to what a walk over the log comes to. -/
theorem descend (follows : s.Follows log P) (genuine : log.Genuine) (later : s.Later s') (holds : P d)
    (known : c.Genuine Set.univ) (same : d.encoding = c.encoding) (path : List Nat) :
    outcome (result (d.descend Ref.value path) s').1 = outcome (c.descend log.child path) := by
  induction path generalizing c d s' with
  | nil => exact congrArg (Except.ok ∘ some) same
  | cons i path ih =>
    have shows := (follows.readable d holds).shows known.involved.readable same
    have at_i : d.refs[i]?.map Ref.mark = c.refs[i]?.map Ref.mark := by
      rw [← List.getElem?_map, shows.refs_eq, List.getElem?_map]
    cases at_c : c.refs[i]? with
    | none =>
      rw [at_c, Option.map_none, Option.map_eq_none_iff] at at_i
      rw [Log.descend_none at_c, Cell.descend, at_i]
      rfl
    | some r =>
      rw [at_c] at at_i
      obtain ⟨r', at_d, mark⟩ := Option.map_eq_some_iff.mp at_i
      have member := List.mem_of_getElem? at_d
      have child := (follows.child d holds r' member s' later).trans (log.child_congr mark)
      have below := follows.below d holds r' member s' later
      have later := later.trans (r'.later_value s')
      rw [Cell.descend, at_d]
      simp only [result_bind]
      generalize result r'.value s' = answer at child below later
      obtain ⟨answer, s₁⟩ := answer
      obtain ⟨e, rfl, expected⟩ | ⟨d', c', rfl, expected, encoding⟩ := cases_of_map_eq child
      · rw [Log.descend_error at_c expected]
      · rw [Log.descend_ok at_c expected]
        exact ih later (below d' rfl) (genuine.child known (List.mem_of_getElem? at_c) expected) encoding

theorem walk (follows : s.Follows log P) (genuine : log.Genuine)
    (same : (s.load id h).1.map Cell.encoding = (log.held h).map Cell.encoding)
    (holds : ∀ d, (s.load id h).1 = .ok d → P d) (path : List Nat) :
    outcome (result (MerkleCells.walk id h path) s).1 = outcome (log.walk h path) := by
  obtain ⟨e, failed, expected⟩ | ⟨d, c, found, expected, encoding⟩ := cases_of_map_eq same
  · rw [Log.walk_error expected, result_walk_error failed]
  · rw [Log.walk_ok expected, result_walk_ok found]
    exact follows.descend genuine (s.later_load id h) (holds d found) (genuine.first (Log.held_eq_ok.mp expected))
      encoding path

end Session.Follows

/-! ### Stores in a file -/

namespace FileStore

variable {f : FileStore} {log : Log} {s : Session} {id : LoaderId} {l : Loader}

/-- A file has what was recorded and nothing else. -/
def Tells (f : FileStore) (log : Log) : Prop := ∀ h, f.readEncoding h = .ok ((log.first? h).map Cell.encoding)

namespace Tells

/-- What is read from a file is what was recorded, bound to the loader that asks. -/
theorem accept_answer (tells : f.Tells log) (genuine : log.Genuine) (id : LoaderId) (h : Hash) :
    (Loader.accept h (f.answer id h)).map Cell.encoding = (log.held h).map Cell.encoding ∧
      ∀ d, Loader.accept h (f.answer id h) = .ok d → d.Accepted (some id) ∧ d.Readable := by
  have read := tells h
  cases first : log.first? h with
  | none =>
    rw [first] at read
    have absent : f.answer id h = .ok none := by
      rw [answer, read]
      cases f.status? h <;> rfl
    rw [absent, Log.held, first]
    exact ⟨rfl, fun d none => by cases none⟩
  | some c =>
    rw [first] at read
    obtain ⟨status, held⟩ : ∃ status, f.status? h = some status := by
      refine Option.ne_none_iff_exists'.mp fun none => ?_
      rw [readEncoding, Option.map_eq_none_iff.mp none] at read
      cases read
    have known := (genuine.first first).involved.readable
    obtain ⟨d, decoded, shows, -⟩ := known.decode (some id)
    have given : f.answer id h = .ok (some ((Ref.direct d).withStatus status)) := by
      rw [answer, held]
      simp only [read, Option.map_some, bind, Except.bind, decoded]
      rfl
    have named : d.hash = h := by
      rw [← (Log.mem_of_first? first).2, Cell.hash_eq, Cell.hash_eq, shows.encoding_eq]
    have accepted := (of_decode decoded).2
    rw [Loader.accept_eq_ok.mpr ⟨_, given, rfl, named⟩, Log.held, first]
    refine ⟨congrArg Except.ok shows.encoding_eq, ?_⟩
    rintro _ ⟨⟩
    exact ⟨accepted, accepted.readable (shows.encoding_eq ▸ known.short)⟩

/-- Over a file, whatever a loader loads goes on to what was recorded. -/
theorem follows (tells : f.Tells log) (genuine : log.Genuine) (coherent : s.CoherentAt id)
    (here : s.loaders[id]? = some l) (behind : s.stores[l.store]? = some (.file f)) :
    s.Follows log fun d => d.Accepted (some id) ∧ d.Readable := by
  have loads : ∀ h s', s.Later s' → (s'.load id h).1 = Loader.accept h (f.answer id h) := by
    intro h s' later
    rw [((coherent.later later).load h).1, Session.told_later later, Session.told_eq here behind]
    rfl
  refine ⟨fun d like => like.2, fun d ⟨accepted, _⟩ r member s' later => ?_,
    fun d ⟨accepted, _⟩ r member s' later d' run => ?_⟩
  · rcases accepted.decoded member with ⟨c, rfl, small⟩ | marker
    · rw [Log.child, Ref.cell?, Option.filter_some_pos small]
      rfl
    · obtain ⟨same, known⟩ := tells.accept_answer genuine id r.hash
      rw [marker, Log.child_ofMarker, Ref.ofMarker, Ref.answer_value_soft, if_pos rfl, loads _ _ later]
      refine Loader.asChild_congr same (fun c given => (known c given).2) fun c given => ?_
      exact (genuine.first (Log.held_eq_ok.mp given)).involved.readable
  · rcases accepted.decoded member with ⟨c, rfl, small⟩ | marker
    · cases run
      have inside := accepted.held member rfl
      exact ⟨inside, inside.readable ((Cell.length_le_of_embeddable small).trans (by decide))⟩
    · rw [marker, Ref.ofMarker, Ref.answer_value_soft, if_pos rfl, loads _ _ later] at run
      exact (tells.accept_answer genuine id r.hash).2 d' (Loader.asChild_eq_ok.mp run).1

/-- Over a file, a walk comes to what was recorded. -/
theorem walk_eq (tells : f.Tells log) (genuine : log.Genuine) (coherent : s.CoherentAt id)
    (here : s.loaders[id]? = some l) (behind : s.stores[l.store]? = some (.file f)) (h : Hash) (path : List Nat) :
    outcome (result (walk id h path) s).1 = outcome (log.walk h path) := by
  have loaded : (s.load id h).1 = Loader.accept h (f.answer id h) := by
    rw [(coherent.load h).1, Session.told_eq here behind]
    rfl
  obtain ⟨same, known⟩ := tells.accept_answer genuine id h
  rw [← loaded] at same known
  exact (tells.follows genuine coherent here behind).walk genuine same known path

end Tells

end FileStore

/-! ### Stores in memory -/

/-- A reference that asks a loader for a child, as a decoder makes it. -/
def Ref.Asks (id : LoaderId) (r : Ref Cell) : Prop := r.target = .soft r.hash (some id) true

/-- Each reference of a cell asks a loader, or comes to what a log has for it, whatever is loaded before, and leads to
such a cell again. -/
inductive Cell.Bound (s : Session) (id : LoaderId) (log : Log) : Cell → Prop
  | mk {c : Cell} (readable : c.Readable)
    (others : ∀ r ∈ c.refs, ¬ r.Asks id → ∀ s', s.Later s' →
      (result r.value s').1.map Cell.encoding = (log.child r).map Cell.encoding)
    (below : ∀ r ∈ c.refs, ¬ r.Asks id → ∀ s', s.Later s' → ∀ d, (result r.value s').1 = .ok d → Bound s id log d) :
    Bound s id log c

/-- What was decoded for a loader is bound to it. -/
theorem Cell.Accepted.bound {s : Session} {id : LoaderId} {log : Log} {c : Cell} (accepted : c.Accepted (some id))
    (short : c.encoding.length ≤ Limits.encoding) : c.Bound s id log := by
  induction accepted with
  | intro c value refs children ih =>
    have accepted : c.Accepted (some id) := .intro c value refs children
    have direct : ∀ r ∈ c.refs, ¬ r.Asks id → ∃ d : Cell, r = ⟨.embedded, .direct d⟩ ∧ d.embeddable := by
      intro r member other
      refine (refs r member).resolve_right fun marker => other ?_
      rw [marker]
      rfl
    refine ⟨accepted.readable short, fun r member other s' later => ?_, fun r member other s' later d run => ?_⟩
    · obtain ⟨d, rfl, small⟩ := direct r member other
      rw [Log.child, Ref.cell?, Option.filter_some_pos small]
      rfl
    · obtain ⟨d', rfl, small⟩ := direct r member other
      cases run
      exact ih _ member _ rfl ((Cell.length_le_of_embeddable small).trans (by decide))

namespace MemoryStore

variable {m : MemoryStore} {log : Log} {s : Session} {id : LoaderId} {l : Loader}

/-- A store in memory gives the cells that were recorded. -/
theorem accept_answer (holds : m.Holds log) (h : Hash) : Loader.accept h (m.answer h) = log.held h := by
  cases found : m.held.find? h with
  | some e =>
    have first := holds.first h e found
    have given : m.answer h = .ok (some ((Ref.direct e.cell).withStatus e.status)) := by
      rw [answer, found]
      rfl
    rw [Loader.accept_eq_ok.mpr ⟨_, given, rfl, (Log.mem_of_first? first).2⟩, Log.held_eq_ok.mpr first]
  | none =>
    have absent : log.first? h = none := by
      rw [Log.first?_eq_none, ← holds.raised.holds, status?, found]
      exact Bool.false_ne_true
    rw [Log.held, absent, answer, found]
    rfl

/-- Over a store in memory, cells that are bound go on to what was recorded. -/
theorem follows (holds : m.Holds log) (bound : ∀ e ∈ log, e.1.Bound s id log) (coherent : s.CoherentAt id)
    (here : s.loaders[id]? = some l) (behind : s.stores[l.store]? = some (.memory m)) :
    s.Follows log (Cell.Bound s id log) := by
  have asks : ∀ r : Ref Cell, r.Asks id → ∀ s', s.Later s' →
      r.inlined? = none ∧ (result r.value s').1 = Loader.asChild r.hash (log.held r.hash) := by
    rintro ⟨status, c | ⟨h, loader, byMarker⟩⟩ asks s' later <;> cases asks
    rw [Ref.answer_value_soft, if_pos rfl, ((coherent.later later).load h).1, Session.told_later later,
      Session.told_eq here behind]
    exact ⟨rfl, congrArg (Loader.asChild h) (accept_answer holds h)⟩
  refine ⟨fun d bound => ?_, fun d bound r member s' later => ?_, fun d known r member s' later d' run => ?_⟩
  · cases bound with
    | mk readable => exact readable
  · cases bound with
    | mk _ others =>
      by_cases asked : r.Asks id
      · obtain ⟨apart, answer⟩ := asks r asked s' later
        rw [answer, Log.child_of_apart apart]
      · exact others r member asked s' later
  · cases known with
    | mk _ _ below =>
      by_cases asked : r.Asks id
      · rw [(asks r asked s' later).2] at run
        obtain ⟨⟨status, recorded⟩, -⟩ := Log.mem_of_first? (Log.held_eq_ok.mp (Loader.asChild_eq_ok.mp run).1)
        exact bound _ recorded
      · exact below r member asked s' later d' run

/-- Over a store in memory, a walk comes to what was recorded if all recorded cells are bound. -/
theorem walk_eq (holds : m.Holds log) (genuine : log.Genuine) (bound : ∀ e ∈ log, e.1.Bound s id log)
    (coherent : s.CoherentAt id) (here : s.loaders[id]? = some l) (behind : s.stores[l.store]? = some (.memory m))
    (h : Hash) (path : List Nat) : outcome (result (walk id h path) s).1 = outcome (log.walk h path) := by
  have loaded : (s.load id h).1 = log.held h := by
    rw [(coherent.load h).1, Session.told_eq here behind]
    exact accept_answer holds h
  refine (follows holds bound coherent here behind).walk genuine (congrArg _ loaded) (fun d found => ?_) path
  rw [loaded] at found
  obtain ⟨⟨status, recorded⟩, -⟩ := Log.mem_of_first? (Log.held_eq_ok.mp found)
  exact bound _ recorded

end MemoryStore

/-! ### Stores of both kinds -/

/-- A loader that is new has nothing cached. -/
theorem Session.coherentAt_new {s : Session} {id : LoaderId} {l : Loader} {store : StoreId} {capacity : Nat}
    (new : Loader.new store capacity = .ok l) (here : s.loaders[id]? = some l) :
    s.CoherentAt id ∧ l.store = store := by
  rw [Loader.new] at new
  split at new
  · cases new
    refine ⟨fun l' here' e member => ?_, rfl⟩
    rw [here] at here'
    cases here'
    cases member
  · cases new

namespace Watch

variable {codec : Codec} {store : StoreId} {w w' : Watch} {last : Option FileStore}

/-- A store in memory and a store in a file that were given the same calls hold the same. -/
theorem Together.read_eq (both : Together codec store w w' last) (faithful : codec.Faithful) (roomy : Roomy w'.past)
    (legible : w'.Legible) :
    w.log = w'.log ∧ ∃ m f, w.session.stores[store]? = some (.memory m) ∧ w'.session.stores[store]? = some (.file f) ∧
      ∀ h, (Store.memory m).read h = (Store.file f).read h := by
  obtain ⟨-, ⟨m, at_m⟩, ⟨f, at_f⟩, log⟩ := both.twins faithful roomy
  obtain ⟨held, at_held, holds⟩ := (both.memory.stocked faithful).keeps
  obtain ⟨held', at_held', holds'⟩ := (both.file.stocked faithful).keeps
  cases Option.some.inj (at_m.symm.trans at_held)
  cases Option.some.inj (at_f.symm.trans at_held')
  exact ⟨log, m, f, at_m, at_f, (Store.Holds.matches (log ▸ holds) holds' legible).read⟩

/-- A store in memory and a store in a file hold the same, as they do when they were given the same calls. A walk with a
new loader over the file comes to what was recorded. If it fails, that is because something was not recorded, or was
written by its hash although it is small. The same walk with a new loader over the store in memory comes to the same,
if all that was recorded is bound to that loader. -/
theorem Course.walks (course : Course codec store w none) (faithful : codec.Faithful) {m : MemoryStore} {f : FileStore}
    (memory : w.session.stores[store]? = some (.memory m))
    (same : ∀ h, (Store.memory m).read h = (Store.file f).read h) (genuine : w.log.Genuine) {s s' : Session}
    {i i' : StoreId} (held : s.stores[i]? = some (.memory m)) (held' : s'.stores[i']? = some (.file f))
    {id id' : LoaderId} {l l' : Loader} {capacity capacity' : Nat}
    (new : Loader.new i capacity = .ok l) (here : s.loaders[id]? = some l)
    (new' : Loader.new i' capacity' = .ok l') (here' : s'.loaders[id']? = some l') :
    (∀ h path, outcome (result (walk id' h path) s').1 = outcome (w.log.walk h path)) ∧
    (∀ h path e, (result (walk id' h path) s').1 = .error e → w.log.Fails e) ∧
    ((∀ e ∈ w.log, e.1.Bound s id w.log) → ∀ h path,
      outcome (result (walk id h path) s).1 = outcome (result (walk id' h path) s').1) := by
  obtain ⟨coherent, behind⟩ := Session.coherentAt_new new here
  obtain ⟨coherent', behind'⟩ := Session.coherentAt_new new' here'
  obtain ⟨_, at_store, holds⟩ := (course.stocked faithful).keeps
  cases Option.some.inj (memory.symm.trans at_store)
  have tells : f.Tells w.log := fun h => (same h).symm.trans ((Store.Holds.reflects holds genuine.readable).read h)
  have walks := tells.walk_eq genuine coherent' here' (by rw [behind', held'])
  refine ⟨walks, fun h path e failed => ?_, fun bound h path => ?_⟩
  · obtain ⟨e', given, expected⟩ | ⟨_, _, given, -⟩ := cases_of_map_eq (walks h path)
    · rw [failed] at given
      cases given
      exact Log.fails_of_walk expected
    · rw [failed] at given
      cases given
  · rw [walks]
    exact MemoryStore.walk_eq holds genuine bound coherent here (by rw [behind, held]) h path

end Watch

/-! ### A child that is written by its hash -/

/-- A cell that a file has room for is recorded, in a frame that is not much longer than the cell's encoding. -/
theorem FileStore.record_room {f : FileStore} {c : Cell} (coded : f.codec = Frame.codec)
    (small : 4 * c.encoding.length + 9 < UInt32.size)
    (room : f.writeOffset + (4 * c.encoding.length + 9) < placeLimit) (own status : Status) :
    (∃ r, (f.record c own status).1 = .ok r) ∧ (f.record c own status).2.codec = Frame.codec ∧
      (f.record c own status).2.writeOffset ≤ f.writeOffset + (4 * c.encoding.length + 9) := by
  have short := Frame.length_encode_le (min f.level.toNat 22) c.encoding
  have made : f.codec.compress f.level c.encoding = some (Frame.encode (min f.level.toNat 22) c.encoding) := by
    rw [coded]
    rfl
  rw [record]
  cases f.index.find? c.hash with
  | some e => exact ⟨⟨_, rfl⟩, coded, Nat.le_add_right _ _⟩
  | none =>
    simp only [made]
    rw [if_neg (by omega), if_neg (by omega)]
    exact ⟨⟨_, rfl⟩, coded, Nat.add_le_add_left short _⟩

theorem Watch.storeCell_room {store : StoreId} {w : Watch} {f : FileStore} {c : Cell}
    (here : w.session.stores[store]? = some (.file f)) (coded : f.codec = Frame.codec)
    (small : 4 * c.encoding.length + 9 < UInt32.size)
    (room : f.writeOffset + (4 * c.encoding.length + 9) < FileStore.placeLimit) :
    let w' := w.called (storeCell store c) (Watched.storeCell store c)
    (∃ f', w'.session.stores[store]? = some (.file f') ∧ f'.codec = Frame.codec ∧
      f'.writeOffset ≤ f.writeOffset + (4 * c.encoding.length + 9)) ∧
      w'.log = w.log ++ [(c, .stored)] ∧ (Roomy w.past → Roomy w'.past) := by
  obtain ⟨⟨r, recorded⟩, coded', further⟩ := FileStore.record_room coded small room (Ref.direct c).status .stored
  have run : result (storeRef store ⟨(Ref.direct c).status, .direct c⟩ .stored) w.session =
      (.ok r, w.session.withStore store (.file (f.record c (Ref.direct c).status .stored).2)) := by
    rw [Session.result_storeRef, here]
    exact Prod.ext recorded rfl
  have called : w.called (storeCell store c) (Watched.storeCell store c) =
      (w.after ⟨.resolved (Ref.direct c) (.ok c), w.session⟩).after ⟨.recorded c .stored
        (result (storeRef store ⟨(Ref.direct c).status, .direct c⟩ .stored) w.session).1,
        (result (storeRef store ⟨(Ref.direct c).status, .direct c⟩ .stored) w.session).2⟩ := rfl
  rw [called, run]
  refine ⟨⟨_, Session.stores_withStore here _, coded', further⟩, ?_, fun roomy d status e s member => ?_⟩
  · rw [Watch.log_after, Watch.log_after_of_none rfl]
    rfl
  · rcases List.mem_cons.mp member with same | member
    · cases same
    · rcases List.mem_cons.mp member with same | member
      · cases same
      · exact roomy d status e s member

namespace Hanging

open SoftlyHeld (apart apart_readable)
open Reopened (vacant fresh)

/-- The hashes of a vector with a child that nothing holds, and of a vector with that vector as its child. -/
def apartHash : Hash :=
  ⟨[0xE9, 0x9E, 0xCB, 0xE8, 0xBB, 0x47, 0x2A, 0x04, 0xFC, 0xB1, 0xB9, 0x85, 0x13, 0x22, 0x48, 0xB9, 0xC4, 0xB4, 0xBC,
    0x7D, 0xE1, 0x16, 0x2D, 0x39, 0xEB, 0xB6, 0x4C, 0xF0, 0x86, 0x7E, 0x73, 0xF3], rfl⟩

def parentHash : Hash :=
  ⟨[0x29, 0xE6, 0x19, 0x9B, 0x69, 0xB9, 0x9A, 0x04, 0xAD, 0x13, 0x15, 0x08, 0x90, 0x7E, 0x8D, 0x30, 0x64, 0x43, 0x52,
    0xE0, 0x3E, 0x75, 0x63, 0x2C, 0x17, 0x8C, 0x8F, 0x45, 0xBC, 0x6F, 0x7B, 0x58], rfl⟩

/-- The outer vector as it is decoded, for a loader or for none. -/
def parent (id : Option LoaderId) : Cell := Cell.ofValue (.vector [Ref.ofMarker apartHash id])

/-- What is seen when both vectors are stored. -/
def stored (start : Session) (id : Option LoaderId) : Watch :=
  (Watch.called ⟨start, []⟩ (storeCell 0 apart) (Watched.storeCell 0 apart)).called (storeCell 0 (parent id))
    (Watched.storeCell 0 (parent id))

/-- The stores, with a new loader over the first one. -/
def lent (w : Watch) : Session := ⟨[⟨0, .empty 1 Nat.one_pos, 0, 0⟩], w.session.stores⟩

theorem encoding_parent (id : Option LoaderId) : (parent id).encoding = (parent none).encoding := rfl

theorem hash_apart : apart.hash = apartHash := by decide +kernel

theorem hash_parent (id : Option LoaderId) : (parent id).hash = parentHash := by
  rw [Cell.hash_eq, encoding_parent]
  decide +kernel

theorem apart_large : apart.embeddable = false := rfl

theorem apart_refs : apart.refs = [Ref.ofMarker Hash.zero none] := congrArg Value.refs (Cell.value_ofValue _)

theorem parent_refs (id : Option LoaderId) : (parent id).refs = [Ref.ofMarker apartHash id] :=
  congrArg Value.refs (Cell.value_ofValue _)

theorem parent_child (id : Option LoaderId) : (parent id).refs[0]? = some (Ref.ofMarker apartHash id) := by
  rw [parent_refs, List.getElem?_cons_zero]

theorem together (id : Option LoaderId) : Watch.Together Frame.codec 0 (stored vacant id) (stored fresh id) none := by
  have start : Watch.Together Frame.codec 0 ⟨vacant, []⟩ ⟨fresh, []⟩ none :=
    .start (show FileStore.create Frame.codec FileStore.unsynced = .ok FileStore.empty from rfl) rfl rfl Reopened.alike
  exact (start.storeCell apart).storeCell (parent id)

theorem recorded (id : Option LoaderId) :
    (stored fresh id).log = [(apart, .stored), (parent id, .stored)] ∧ Roomy (stored fresh id).past := by
  have start : FileStore.empty.writeOffset = 64 := rfl
  have limit : 1000 < FileStore.placeLimit := by decide
  have length : apart.encoding.length = 35 := rfl
  have length' : (parent id).encoding.length = 35 := by
    rw [encoding_parent]
    decide
  have new : (Watch.mk fresh []).session.stores[0]? = some (.file FileStore.empty) := rfl
  have size : 1000 < UInt32.size := by decide
  obtain ⟨⟨f, here, coded, further⟩, log, roomy⟩ :=
    Watch.storeCell_room (c := apart) new rfl (by omega) (by rw [start, length]; omega)
  rw [start, length] at further
  obtain ⟨-, log', roomy'⟩ := Watch.storeCell_room (c := parent id) here coded (by omega) (by omega)
  refine ⟨log'.trans ?_, roomy' (roomy fun _ _ _ _ member => by cases member)⟩
  rw [log]
  rfl

theorem genuine (id : Option LoaderId) : (stored fresh id).log.Genuine := by
  have shallow : ∀ {c : Cell}, c.Readable → (∀ r ∈ c.refs, r.cell? = none) → c.Genuine Set.univ :=
    fun readable soft => ⟨⟨readable, trivial⟩, fun r member d held => by
      rw [soft r member] at held
      cases held⟩
  have readable : (parent id).Readable := by
    refine .ofItems (v := .vector [Ref.ofMarker apartHash id]) (show 1 ≤ Limits.fields by decide) rfl fun r member => ?_
    rw [List.mem_singleton.mp member, ← hash_apart]
    exact ⟨apart, apart_readable, by rw [Cell.mark, apart_large]; rfl⟩
  intro e member
  rw [(recorded id).1] at member
  rcases List.mem_pair.mp member with rfl | rfl
  · refine shallow apart_readable fun r member => ?_
    rw [apart_refs] at member
    rw [List.mem_singleton.mp member]
    rfl
  · refine shallow readable fun r member => ?_
    rw [parent_refs] at member
    rw [List.mem_singleton.mp member]
    rfl

theorem first?_eq (id : Option LoaderId) (h : Hash) : (stored fresh id).log.first? h =
    if apartHash = h then some apart else if parentHash = h then some (parent id) else none := by
  rw [(recorded id).1, Log.first?, List.find?_cons, List.find?_cons, hash_apart, hash_parent]
  by_cases at_apart : apartHash = h
  · simp only [at_apart, decide_true, Option.map_some, if_true]
  · by_cases at_parent : parentHash = h
    · simp only [at_apart, at_parent, decide_false, decide_true, Option.map_some, if_true, if_false]
    · simp only [at_apart, at_parent, decide_false, List.find?_nil, Option.map_none, if_false]

/-- Both vectors were recorded, and nothing was recorded for the child of the inner one. -/
theorem held_eq (id : Option LoaderId) : (stored fresh id).log.held Hash.zero = .error (.missing Hash.zero) ∧
    (stored fresh id).log.held apartHash = .ok apart ∧ (stored fresh id).log.held parentHash = .ok (parent id) := by
  have zero_apart : apartHash ≠ Hash.zero := by decide
  have zero_parent : parentHash ≠ Hash.zero := by decide
  have distinct : apartHash ≠ parentHash := by decide
  refine ⟨?_, Log.held_eq_ok.mpr ?_, Log.held_eq_ok.mpr ?_⟩
  · rw [Log.held, first?_eq, if_neg zero_apart, if_neg zero_parent]
  · rw [first?_eq, if_pos rfl]
  · rw [first?_eq, if_neg distinct, if_pos rfl]

/-- Over what was recorded, a walk goes down to the inner vector, and no further. -/
theorem walk_log (id : Option LoaderId) :
    (stored fresh id).log.walk parentHash [0] = .ok (some apart) ∧
      (stored fresh id).log.walk parentHash [0, 0] = .error (.missing Hash.zero) := by
  obtain ⟨at_zero, at_apart, at_parent⟩ := held_eq id
  have child : (stored fresh id).log.child (Ref.ofMarker apartHash id) = .ok apart := by
    rw [Log.child_ofMarker, at_apart, Loader.asChild_eq_ok.mpr ⟨rfl, apart_large⟩]
  have below : (stored fresh id).log.child (Ref.ofMarker Hash.zero none) = .error (.missing Hash.zero) := by
    rw [Log.child_ofMarker, at_zero]
    rfl
  have further : apart.refs[0]? = some (Ref.ofMarker Hash.zero none) := by rw [apart_refs, List.getElem?_cons_zero]
  rw [Log.walk_ok at_parent, Log.walk_ok at_parent, Log.descend_ok (parent_child id) child,
    Log.descend_ok (parent_child id) child, Log.descend_error further below]
  exact ⟨rfl, rfl⟩

/-- A new loader over the first store. -/
theorem loader_new : Loader.new 0 1 = .ok ⟨0, .empty 1 Nat.one_pos, 0, 0⟩ := rfl

theorem loader_lent (w : Watch) : (lent w).loaders[0]? = some ⟨0, .empty 1 Nat.one_pos, 0, 0⟩ := rfl

/-- The outer vector was decoded for the loader, and the child that the inner one lacks was not recorded. -/
theorem bound (s : Session) : ∀ e ∈ (stored fresh (some 0)).log, e.1.Bound s 0 (stored fresh (some 0)).log := by
  intro e member
  have readable := (genuine (some 0) e member).involved.readable
  rw [(recorded (some 0)).1] at member
  rcases List.mem_pair.mp member with rfl | rfl
  · refine ⟨readable, fun r member other s' later => ?_, fun r member other s' later d run => ?_⟩
    · rw [apart_refs] at member
      rw [List.mem_singleton.mp member, Log.child_ofMarker, (held_eq (some 0)).1]
      rfl
    · rw [apart_refs] at member
      rw [List.mem_singleton.mp member] at run
      cases run
  · have decoded : decode (some 0) (parent (some 0)).encoding = .ok (parent (some 0)) := rfl
    exact (of_decode decoded).2.bound readable.short

/-- Decoded for the loader that asks, the outer vector is found in both stores with the inner one. -/
theorem walks_parent :
    (∀ h path, outcome (result (walk 0 h path) (lent (stored vacant (some 0)))).1 =
      outcome (result (walk 0 h path) (lent (stored fresh (some 0)))).1) ∧
    outcome (result (walk 0 parentHash [0]) (lent (stored vacant (some 0)))).1 = .ok (some apart.encoding) ∧
    outcome (result (walk 0 parentHash [0, 0]) (lent (stored vacant (some 0)))).1 = .error (.missing Hash.zero) := by
  have genuine := genuine (some 0)
  obtain ⟨log, m, f, memory, file, same⟩ := (together (some 0)).read_eq Frame.codec_faithful
    (recorded (some 0)).2 genuine.readable
  have bound : ∀ e ∈ (stored vacant (some 0)).log,
      e.1.Bound (lent (stored vacant (some 0))) 0 (stored vacant (some 0)).log := by
    rw [log]
    exact bound _
  have held : (lent (stored vacant (some 0))).stores[0]? = some (.memory m) := memory
  have held' : (lent (stored fresh (some 0))).stores[0]? = some (.file f) := file
  obtain ⟨walks, -, agree⟩ := (together (some 0)).memory.walks Frame.codec_faithful memory same (log ▸ genuine) held held'
    loader_new (loader_lent _) loader_new (loader_lent _)
  have agree := agree bound
  refine ⟨agree, ?_, ?_⟩
  · rw [agree, walks, log, (walk_log (some 0)).1, outcome_some]
  · rw [agree, walks, log, (walk_log (some 0)).2, outcome_error]

/-- Decoded for no loader, the outer vector is found in both stores, and the inner one is. But a walk goes from one to
the other over the file only. -/
theorem unbound : Watch.Together Frame.codec 0 (stored vacant none) (stored fresh none) none ∧ Roomy (stored fresh none).past ∧
    (stored fresh none).log.Genuine ∧
    outcome (result (walk 0 apartHash []) (lent (stored vacant none))).1 = .ok (some apart.encoding) ∧
    outcome (result (walk 0 parentHash [0]) (lent (stored vacant none))).1 = .error (.missing apartHash) ∧
    outcome (result (walk 0 parentHash [0]) (lent (stored fresh none))).1 = .ok (some apart.encoding) := by
  have genuine := genuine none
  have roomy := (recorded none).2
  obtain ⟨log, m, f, memory, file, same⟩ := (together none).read_eq Frame.codec_faithful roomy genuine.readable
  obtain ⟨held, at_store, holds⟩ := ((together none).memory.stocked Frame.codec_faithful).keeps
  cases Option.some.inj (memory.symm.trans at_store)
  have holds : m.Holds (stored fresh none).log := log ▸ holds
  have coherent : ∀ w, (lent w).CoherentAt 0 := fun w => (Session.coherentAt_new loader_new (loader_lent w)).1
  have loads : ∀ h, ((lent (stored vacant none)).load 0 h).1 = (stored fresh none).log.held h := fun h => by
    rw [((coherent _).load h).1, Session.told_eq (s := lent (stored vacant none)) (loader_lent _) memory]
    exact MemoryStore.accept_answer holds h
  refine ⟨together none, roomy, genuine, ?_, ?_, ?_⟩
  · rw [result_walk_ok ((loads apartHash).trans (held_eq none).2.1)]
    rfl
  · rw [result_walk_ok ((loads parentHash).trans (held_eq none).2.2), Cell.descend, parent_child]
    rfl
  · have tells : f.Tells (stored fresh none).log := fun h =>
      (same h).symm.trans ((Store.reflects_memory holds).read h)
    rw [tells.walk_eq genuine (coherent (stored fresh none)) (loader_lent _) file, (walk_log none).1, outcome_some]

end Hanging

end MerkleCells
