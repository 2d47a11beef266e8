import MerkleCells.Proofs.Loading
import MerkleCells.Proofs.Markers
import MerkleCells.Proofs.Store.Watching

/-!
A store is closed at every moment. However a walk ends, it records a cell as persisted only after all that the cell
refers to was settled: believed, found to be held, or recorded before (`keeps_persistWithin`). So in every session that
a run of calls passes through, inside the calls too, whatever the store holds as persisted refers to nothing but what
it holds as persisted (`Watch.Run.upheld`). This takes that a reference which claims to be persisted is so in this
store when it is believed.
-/
namespace MerkleCells

open MerkleCells.Action

/-! ### Children before their parents -/

/-- The target of a reference was persisted at some time, as far as what was seen tells. -/
inductive Settled (past : List Moment) (q : Ref Cell) : Prop
  | trusted {s : Session} (seen : ⟨.trusted q, s⟩ ∈ past)
  | held {s : Session} {held : Status} (seen : ⟨.asked q.hash (.ok (some held)), s⟩ ∈ past)
      (reaches : .persisted ≤ held)
  | recorded {s s' : Session} {c : Cell} {r : Ref Cell} (target : ⟨.resolved q (.ok c), s⟩ ∈ past)
      (seen : ⟨.recorded c .persisted (.ok r), s'⟩ ∈ past)

theorem Settled.mono {past past' : List Moment} {q : Ref Cell} (settled : Settled past q) (sub : past ⊆ past') :
    Settled past' q := by
  cases settled with
  | trusted seen => exact .trusted (sub seen)
  | held seen reaches => exact .held (sub seen) reaches
  | recorded target seen => exact .recorded (sub target) (sub seen)

/-- Whenever a cell was recorded as persisted, all its children that are not embedded had been settled. -/
inductive Orderly : List Moment → Prop
  | nil : Orderly []
  | cons {m : Moment} {past : List Moment} (orderly : Orderly past)
      (below : ∀ c status answer, m.event = .recorded c status answer → .persisted ≤ status →
        ∀ q ∈ c.refs, q.isEmbedded = false → Settled past q) : Orderly (m :: past)

namespace Watch

variable {store : StoreId} {w w' w'' : Watch}

/-- A watch that comes from another one by steps on a store, children before their parents. -/
def Proceeds (store : StoreId) (w w' : Watch) : Prop := w.Leads store w' ∧ (Orderly w.past → Orderly w'.past)

theorem Proceeds.refl (w : Watch) : w.Proceeds store w := ⟨.refl, id⟩

theorem Proceeds.trans (first : w.Proceeds store w') (second : w'.Proceeds store w'') : w.Proceeds store w'' :=
  ⟨first.1.trans second.1, second.2 ∘ first.2⟩

/-- A step that records nothing. -/
theorem Proceeds.step {m : Moment} (follows : m.Follows store w.session)
    (no : ∀ c status answer, m.event ≠ .recorded c status answer) : w.Proceeds store (w.after m) :=
  ⟨.single follows, fun orderly => orderly.cons fun c status answer seen => absurd seen (no c status answer)⟩

end Watch

namespace Watched

variable {store : StoreId} {r : Ref Cell} {w : Watch} {fuel : Nat}

theorem proceeds_asked (h : Hash) : w.Proceeds store (askedFor store h w) :=
  .step (.asked h) fun _ _ _ seen => by cases seen

theorem keeps_resolve : Keeps (Watch.Proceeds store) (resolve r) w fun c w' =>
    ∃ s, ⟨.resolved r (.ok c), s⟩ ∈ w'.past := by
  refine ⟨.step (.resolved r) fun _ _ _ seen => (by cases seen), fun c run => ⟨(Action.result r.value w.session).2, ?_⟩⟩
  rw [resolve, result_seen] at run ⊢
  rw [show (Action.result r.value w.session).1 = .ok c from run]
  exact List.mem_cons_self

/-- A cell may be recorded once its children are settled. -/
theorem keeps_record {c : Cell} {own status : Status}
    (below : ∀ q ∈ c.refs, q.isEmbedded = false → Settled w.past q) :
    Keeps (Watch.Proceeds store) (record store c own status) w
      fun r w' => ∃ s, ⟨.recorded c status (.ok r), s⟩ ∈ w'.past := by
  refine ⟨⟨leads_record c own status, fun orderly => orderly.cons ?_⟩, fun r run => ?_⟩
  · intro d status' answer seen _
    cases seen
    exact below
  · refine ⟨(Action.result (MerkleCells.storeRef store ⟨own, .direct c⟩ status) w.session).2, ?_⟩
    rw [record, result_seen] at run ⊢
    rw [show (Action.result (MerkleCells.storeRef store ⟨own, .direct c⟩ status) w.session).1 = .ok r from run]
    exact List.mem_cons_self

/-- Whatever a walk comes to, it records children before their parents; and if it succeeds, its target is settled. -/
theorem keeps_persistWithin :
    Keeps (Watch.Proceeds store) (persistWithin store fuel r) w fun _ w' => Settled w'.past r := by
  induction fuel generalizing r w with
  | zero => exact ⟨.refl w, fun _ failed => by cases failed⟩
  | succ fuel ih =>
    by_cases claims : r.status.reaches .persisted
    · rw [Keeps, persistWithin_of_reaches claims]
      refine ⟨.step (.trusted claims) fun _ _ _ seen => (by cases seen), fun _ _ => ?_⟩
      exact .trusted List.mem_cons_self
    by_cases missing : w.session.Persisted store r.hash
    · obtain ⟨held, found, reaches⟩ := missing
      rw [Keeps, persistWithin_of_held claims found (decide_eq_true reaches)]
      refine ⟨proceeds_asked r.hash, fun _ _ => .held (s := w.session) ?_ reaches⟩
      rw [askedFor, found]
      exact List.mem_cons_self
    rw [Keeps, persistWithin_of_missing claims missing]
    suffices walk : Keeps (Watch.Proceeds store) (do
        let cell ← resolve r
        cell.refs.forM fun child => do
          if !child.isEmbedded then
            let _ ← persistWithin store fuel child
        record store cell (Ref.direct cell).status .persisted) (askedFor store r.hash w)
        fun _ w' => Settled w'.past r from ⟨(proceeds_asked r.hash).trans walk.1, walk.2⟩
    refine keeps_resolve.bind Watch.Proceeds.trans fun c w₁ _ target => ?_
    have children : Keeps (Watch.Proceeds store) (c.refs.forM fun child => do
        if !child.isEmbedded then
          let _ ← persistWithin store fuel child) w₁
        fun _ w₂ => ∀ q ∈ c.refs, q.isEmbedded = false → Settled w₂.past q := by
      refine keeps_forM .refl Watch.Proceeds.trans (fun q w' w'' further done apart => ?_) fun q _ w' _ => ?_
      · exact (done apart).mono further.1.past_subset
      · cases apart : q.isEmbedded with
        | true => exact ⟨.refl w', fun _ _ no => by cases no⟩
        | false => exact ih.bind Watch.Proceeds.trans fun _ w'' _ settled => ⟨.refl w'', fun _ _ _ => settled⟩
    refine children.bind Watch.Proceeds.trans fun _ w₂ further below => ?_
    refine (keeps_record below).mono fun _ w₃ further' recorded => ?_
    obtain ⟨s, target⟩ := target
    obtain ⟨s', seen⟩ := recorded
    exact .recorded (further'.1.past_subset (further.1.past_subset target)) seen

theorem proceeds_persist (store : StoreId) (w : Watch) (r : Ref Cell) :
    w.Proceeds store (result (persist store r) w).2 := by
  simp only [persist, result_bind, result_get]
  exact keeps_persistWithin.1

theorem proceeds_storeCell (store : StoreId) (w : Watch) (c : Cell) :
    w.Proceeds store (result (storeCell store c) w).2 := by
  refine ⟨leads_storeRef store w _ _, fun orderly => .cons (orderly.cons fun d status answer seen => ?_) ?_⟩
  · cases seen
  · intro d status answer seen high
    cases seen
    exact absurd high (by decide)

end Watched

/-! ### Standing -/

/-- What a run comes upon. A reference that was believed had its target persisted in the store at that time, and a cell
that was recorded can be read. -/
structure Fair (I : Set Bytes) (store : StoreId) (past : List Moment) : Prop where
  trusted : ∀ r s, ⟨.trusted r, s⟩ ∈ past → s.Persisted store r.hash
  recorded : ∀ c status answer s, ⟨.recorded c status answer, s⟩ ∈ past → c.Involved I

theorem Fair.mono {I : Set Bytes} {store : StoreId} {past past' : List Moment} (fair : Fair I store past')
    (sub : past ⊆ past') : Fair I store past where
  trusted r s seen := fair.trusted r s (sub seen)
  recorded c status answer s seen := fair.recorded c status answer s (sub seen)

/-- What a moment tells is true in the session that it left. -/
inductive Moment.True (store : StoreId) : Moment → Prop
  | asked {h : Hash} {s : Session} {answer : Except Error (Option Status)}
      (told : answer = .ok (s.status? store h)) : True store ⟨.asked h answer, s⟩
  | trusted (r : Ref Cell) (s : Session) : True store ⟨.trusted r, s⟩
  | resolved {r : Ref Cell} {s : Session} {answer : Except Error Cell}
      (named : ∀ c, answer = .ok c → c.hash = r.hash) : True store ⟨.resolved r answer, s⟩
  | recorded {c : Cell} {status : Status} {s : Session} {answer : Except Error (Ref Cell)}
      (held : ∀ r, answer = .ok r → .persisted ≤ status → s.Persisted store c.hash) :
      True store ⟨.recorded c status answer, s⟩

namespace Watch

variable {I : Set Bytes} {store : StoreId} {w w' : Watch}

/-- A store is closed, in the session as it is and at every moment before; and what was told then is true still. -/
structure Standing (I : Set Bytes) (store : StoreId) (w : Watch) : Prop where
  closed : w.session.Closed I store
  named : w.session.Named
  past_closed : ∀ m ∈ w.past, m.session.Closed I store
  past_true : ∀ m ∈ w.past, m.True store
  stays : ∀ m ∈ w.past, ∀ h, m.session.Persisted store h → w.session.Persisted store h

/-- The target of a settled reference is persisted. -/
theorem Standing.settled (standing : w.Standing I store) (fair : Fair I store w.past) {q : Ref Cell}
    (settled : Settled w.past q) : w.session.Persisted store q.hash := by
  cases settled with
  | trusted seen => exact standing.stays _ seen _ (fair.trusted _ _ seen)
  | held seen reaches =>
    cases standing.past_true _ seen with
    | asked told => exact standing.stays _ seen _ ⟨_, (Except.ok.inj told).symm, reaches⟩
  | recorded target seen =>
    cases standing.past_true _ target with
    | resolved named =>
      cases standing.past_true _ seen with
      | recorded held =>
        rw [← named _ rfl]
        exact standing.stays _ seen _ (held _ rfl (Status.le_refl _))

theorem Standing.after {m : Moment} (standing : w.Standing I store) (closed : m.session.Closed I store)
    (named : m.session.Named) (told : m.True store)
    (stays : ∀ h, w.session.Persisted store h → m.session.Persisted store h) : (w.after m).Standing I store where
  closed := closed
  named := named
  past_closed m' member := by
    rcases List.mem_cons.mp member with rfl | member
    · exact closed
    · exact standing.past_closed m' member
  past_true m' member := by
    rcases List.mem_cons.mp member with rfl | member
    · exact told
    · exact standing.past_true m' member
  stays m' member h persisted := by
    rcases List.mem_cons.mp member with rfl | member
    · exact persisted
    · exact stays h (standing.stays m' member h persisted)

/-- A step of a call keeps a store closed if it records nothing before its children and believes nothing false. -/
theorem Standing.step (injective : Set.InjOn Hash.digest I) {m : Moment} (standing : w.Standing I store)
    (follows : m.Follows store w.session) (orderly : Orderly (m :: w.past)) (fair : Fair I store (m :: w.past)) :
    (w.after m).Standing I store := by
  cases follows with
  | asked h => exact standing.after standing.closed standing.named (.asked rfl) fun _ => id
  | trusted claims => exact standing.after standing.closed standing.named (.trusted _ _) fun _ => id
  | resolved r =>
    have later := r.later_value w.session
    have named : ∀ c, (result r.value w.session).1 = .ok c → c.hash = r.hash := fun c run =>
      Ref.hash_of_value standing.named (Prod.ext run rfl)
    exact standing.after (standing.closed.congr (later.status? store)) (standing.named.later later) (.resolved named)
      fun h persisted => later.onward (I := I).persisted persisted
  | recorded c own status =>
    cases orderly with
    | cons orderly below =>
      have past := fair.mono (List.subset_cons_self _ _)
      have involved := fair.recorded _ _ _ _ List.mem_cons_self
      have children : .persisted ≤ status → ∀ k ∈ c.markers, w.session.Persisted store k := by
        intro high k member
        obtain ⟨q, inside, apart, rfl⟩ := (Cell.marks_iff.mpr member).exists_apart
        exact standing.settled past (below c status _ rfl high q inside apart)
      have held : ∀ r, (result (storeRef store ⟨own, .direct c⟩ status) w.session).1 = .ok r → .persisted ≤ status →
          (result (storeRef store ⟨own, .direct c⟩ status) w.session).2.Persisted store c.hash := fun r run high =>
        (Session.persisted_storeRef (Prod.ext run rfl)).mpr (.inl ⟨rfl, high⟩)
      exact standing.after (standing.closed.storeRef injective involved children) (standing.named.storeRef c own status)
        (.recorded held) fun h persisted => persisted.storeRef c own status

/-- A store that is closed stays so, whatever is done to it, as long as children come before their parents. -/
theorem Leads.standing (injective : Set.InjOn Hash.digest I) (leads : w.Leads store w') (standing : w.Standing I store)
    (orderly : Orderly w'.past) (fair : Fair I store w'.past) : w'.Standing I store := by
  induction leads with
  | refl => exact standing
  | step _ follows ih =>
    cases orderly with
    | cons earlier below =>
      have before := ih earlier (fair.mono (List.subset_cons_self _ _))
      exact before.step injective follows (.cons earlier below) fair

/-! ### Runs -/

/-- The runs of calls that store a cell or persist a reference, on a store that held nothing at first. Calls may fail.
Between them anything may be done that leaves the statuses in the store alone. -/
inductive Run (store : StoreId) : Watch → Prop
  | start {s : Session} (vacant : ∀ h, s.status? store h = none) (named : s.Named) : Run store ⟨s, []⟩
  | storeCell {w : Watch} (c : Cell) (run : Run store w) :
      Run store (w.called (storeCell store c) (Watched.storeCell store c))
  | persist {w : Watch} (r : Ref Cell) (run : Run store w) :
      Run store (w.called (persist store r) (Watched.persist store r))
  | aside {w : Watch} {s : Session} (run : Run store w)
      (same : ∀ h, s.status? store h = w.session.status? store h) (named : s.Named) : Run store ⟨s, w.past⟩

theorem Run.orderly (run : w.Run store) : Orderly w.past := by
  induction run with
  | start => exact .nil
  | storeCell c _ ih => exact (Watched.proceeds_storeCell store _ c).2 ih
  | persist r _ ih => exact (Watched.proceeds_persist store _ r).2 ih
  | aside _ _ _ ih => exact ih

theorem Run.standing (injective : Set.InjOn Hash.digest I) (run : w.Run store) (fair : Fair I store w.past) :
    w.Standing I store := by
  have orderly := run.orderly
  induction run with
  | start vacant named =>
    refine ⟨fun h k persisted _ => ?_, named, fun m none => (by cases none), fun m none => (by cases none),
      fun m none => (by cases none)⟩
    obtain ⟨held, found, -⟩ := persisted
    rw [vacant h] at found
    cases found
  | @storeCell w c run ih =>
    rw [called_eq (Watched.tells_storeCell store c)] at fair orderly ⊢
    have leads := (Watched.proceeds_storeCell store w c).1
    exact leads.standing injective (ih (fair.mono leads.past_subset) run.orderly) orderly fair
  | @persist w r run ih =>
    rw [called_eq (Watched.tells_persist store r)] at fair orderly ⊢
    have leads := (Watched.proceeds_persist store w r).1
    exact leads.standing injective (ih (fair.mono leads.past_subset) run.orderly) orderly fair
  | aside run same named ih =>
    have standing := ih fair run.orderly
    refine ⟨standing.closed.congr same, named, standing.past_closed, standing.past_true, fun m member h persisted => ?_⟩
    obtain ⟨held, found, reaches⟩ := standing.stays m member h persisted
    exact ⟨held, (same h).trans found, reaches⟩

end Watch

/-- Whatever cell a store holds as persisted, all hashes that stand in its encoding are held as persisted. -/
def Session.Upheld (I : Set Bytes) (store : StoreId) (s : Session) : Prop :=
  ∀ c : Cell, c.Involved I → s.Persisted store c.hash → ∀ k, c.Marks k → s.Persisted store k

theorem Session.upheld_of_closed {I : Set Bytes} {store : StoreId} {s : Session} (closed : s.Closed I store) :
    s.Upheld I store :=
  fun c involved persisted k marks => closed c.hash k persisted ⟨c, involved, rfl, Cell.marks_iff.mp marks⟩

/-- In a run of calls that store cells and persist references, whatever comes of them, all that a persisted cell refers
to is persisted: after every call, and at every moment inside a call. -/
theorem Watch.Run.upheld {I : Set Bytes} (injective : Set.InjOn Hash.digest I) {store : StoreId} {w : Watch}
    (run : w.Run store) (fair : Fair I store w.past) :
    w.session.Upheld I store ∧ ∀ m ∈ w.past, m.session.Upheld I store := by
  have standing := run.standing injective fair
  exact ⟨Session.upheld_of_closed standing.closed,
    fun m member => Session.upheld_of_closed (standing.past_closed m member)⟩

/-! ### A walk that fails midway -/

namespace Halfway

open Claimed

variable {c d e : Cell} {h : Hash} {past : List Moment}

theorem doubted (c : Cell) : ¬ (Ref.direct c).status.reaches .persisted := by
  show ¬ (if c.embeddable then Status.embedded else .unknown).reaches .persisted = true
  split <;> decide

theorem missing_vacant (h : Hash) : ¬ vacant.Persisted 0 h := by
  rintro ⟨held, found, -⟩
  cases found

/-- The session whose store holds one cell. -/
def one (c : Cell) : Session := ⟨[], [.memory ⟨[(c.hash, ⟨c, .persisted⟩)]⟩]⟩

/-- The session whose store holds two cells. -/
def two (c d : Cell) : Session := (result (storeRef 0 (Ref.direct d) .persisted) (one c)).2

/-- What is seen before a cell is recorded or its children are looked at. -/
def reached (c : Cell) (past : List Moment) : List Moment :=
  ⟨.resolved (Ref.direct c) (.ok c), vacant⟩ :: ⟨.asked c.hash (.ok none), vacant⟩ :: past

theorem reaches (past : List Moment) : Watched.result (Watched.resolve (Ref.direct c))
    (Watched.askedFor 0 (Ref.direct c).hash ⟨vacant, past⟩) = (.ok c, ⟨vacant, reached c past⟩) := rfl

theorem record_one (c : Cell) (past : List Moment) : ∃ r,
    Watched.result (Watched.record 0 c (Ref.direct c).status .persisted) ⟨vacant, past⟩ =
      (.ok r, ⟨one c, ⟨.recorded c .persisted (.ok r), one c⟩ :: past⟩) := by
  rw [Watched.record, Watched.result_seen, Session.result_storeRef]
  exact ⟨_, rfl⟩

theorem record_two (c d : Cell) (past : List Moment) : ∃ r,
    Watched.result (Watched.record 0 d (Ref.direct d).status .persisted) ⟨one c, past⟩ =
      (.ok r, ⟨two c d, ⟨.recorded d .persisted (.ok r), two c d⟩ :: past⟩) := by
  rw [Watched.record, Watched.result_seen]
  exact ⟨_, rfl⟩

theorem persisted_two (c d : Cell) (h : Hash) :
    (two c d).Persisted 0 h ↔ h = d.hash ∨ (one c).Persisted 0 h := by
  obtain ⟨r, run⟩ : ∃ r, result (storeRef 0 ⟨(Ref.direct d).status, .direct d⟩ .persisted) (one c) = (.ok r, two c d) :=
    ⟨_, rfl⟩
  rw [Session.persisted_storeRef run, and_iff_left (Status.le_refl _)]

theorem persist_leaf (leaf : c.refs = []) (past : List Moment) : ∃ r,
    Watched.result (Watched.persistWithin 0 2 (Ref.direct c)) ⟨vacant, past⟩ =
      (.ok r, ⟨one c, ⟨.recorded c .persisted (.ok r), one c⟩ :: reached c past⟩) := by
  rw [Watched.persistWithin_of_missing (doubted c) (missing_vacant _), Watched.result_bind, reaches]
  simp only [leaf, List.forM, Watched.result_bind, Watched.result_pure]
  exact record_one c _

theorem persist_parent (leaf : c.refs = []) (apart : (Ref.direct c).isEmbedded = false) (refs : d.refs = [Ref.direct c])
    (past : List Moment) : ∃ r r', Watched.result (Watched.persistWithin 0 3 (Ref.direct d)) ⟨vacant, past⟩ =
      (.ok r', ⟨two c d, ⟨.recorded d .persisted (.ok r'), two c d⟩ :: ⟨.recorded c .persisted (.ok r), one c⟩ ::
        reached c (reached d past)⟩) := by
  obtain ⟨r, child⟩ := persist_leaf leaf (reached d past)
  rw [Watched.persistWithin_of_missing (doubted d) (missing_vacant _), Watched.result_bind, reaches]
  simp only [refs, List.forM, apart, Bool.not_false, ↓reduceIte, Watched.result_bind, child, Watched.result_pure]
  exact ⟨r, record_two c d _⟩

theorem persist_detached {s : Session} (away : ¬ s.Persisted 0 h) (past : List Moment) :
    Watched.result (Watched.persistWithin 0 3 (Ref.detached h)) ⟨s, past⟩ =
      (.error (.missing h), ⟨s, ⟨.resolved (Ref.detached h) (.error (.missing h)), s⟩ ::
        ⟨.asked h (.ok (s.status? 0 h)), s⟩ :: past⟩) := by
  have doubted : ¬ (Ref.detached h : Ref Cell).status.reaches .persisted := Bool.false_ne_true
  rw [Watched.persistWithin_of_missing doubted away, Watched.result_bind, Watched.resolve, Watched.result_seen]
  rfl

/-- What is seen of a walk down from a cell with two children, the first with a child and the second not at hand. -/
def stopped (c d e : Cell) (h : Hash) (r r' : Ref Cell) : List Moment :=
  ⟨.resolved (Ref.detached h) (.error (.missing h)), two c d⟩ ::
    ⟨.asked h (.ok ((two c d).status? 0 h)), two c d⟩ :: ⟨.recorded d .persisted (.ok r'), two c d⟩ ::
    ⟨.recorded c .persisted (.ok r), one c⟩ :: reached c (reached d (reached e []))

theorem stops (leaf : c.refs = []) (apart : (Ref.direct c).isEmbedded = false) (refs : d.refs = [Ref.direct c])
    (apart' : (Ref.direct d).isEmbedded = false) (away : ¬ (two c d).Persisted 0 h)
    (refs' : e.refs = [Ref.direct d, Ref.detached h]) :
    ∃ r r', Watched.result (Watched.persistWithin 0 4 (Ref.direct e)) ⟨vacant, []⟩ =
      (.error (.missing h), ⟨two c d, stopped c d e h r r'⟩) := by
  have soft : (Ref.detached h : Ref Cell).isEmbedded = false := rfl
  obtain ⟨r, r', child⟩ := persist_parent leaf apart refs (reached e [])
  refine ⟨r, r', ?_⟩
  rw [Watched.persistWithin_of_missing (doubted e) (missing_vacant _), Watched.result_bind, reaches]
  simp only [refs', List.forM, apart', soft, Bool.not_false, ↓reduceIte, Watched.result_bind, child,
    persist_detached away, Watched.result_pure]
  rfl

/-- The hash of a cell that no store has. -/
def away : Hash := (Cell.integer 1).hash

/-- A cell with a child by hash. -/
def parent : Cell := Cell.ofValue (.vector [Ref.direct large])

/-- A cell with a child that can be persisted, and after it one that cannot be found. -/
def half : Cell := Cell.ofValue (.vector [Ref.direct parent, Ref.detached away])

/-- The encodings of the cells that are recorded. -/
def recorded : Set Bytes := {large.encoding, parent.encoding}

theorem hashes_apart : large.hash ≠ parent.hash ∧ away ≠ parent.hash ∧ away ≠ large.hash := by decide +kernel

theorem recorded_injective : Set.InjOn Hash.digest recorded := by
  have apart : Hash.digest large.encoding ≠ Hash.digest parent.encoding := by
    rw [← Cell.hash_eq, ← Cell.hash_eq]
    exact hashes_apart.1
  rintro x (rfl | rfl) y (rfl | rfl) same
  · rfl
  · exact absurd same apart
  · exact absurd same.symm apart
  · rfl

theorem large_readable : large.Readable :=
  .ofItems (v := .blob (List.replicate 200 7)) (show 200 ≤ Limits.blob by decide) rfl fun r none => by cases none

theorem parent_readable : parent.Readable := by
  refine .ofItems (v := .vector [Ref.direct large]) (show 1 ≤ Limits.fields by decide) rfl fun r member => ?_
  rw [show r = Ref.direct large from List.mem_singleton.mp member]
  exact ⟨large, large_readable, rfl⟩

theorem parent_refs : parent.refs = [Ref.direct large] := by
  rw [Cell.refs, parent, Cell.value_ofValue]
  rfl

theorem large_apart : (Ref.direct large).isEmbedded = false := by decide +kernel

theorem run_half : ∃ r r', Watch.Run 0 ⟨two large parent, stopped large parent half away r r'⟩ := by
  have leaf : large.refs = [] := by
    rw [Cell.refs, large, Cell.value_ofValue]
    rfl
  have refs : half.refs = [Ref.direct parent, Ref.detached away] := by
    rw [Cell.refs, half, Cell.value_ofValue]
    rfl
  have apart : (Ref.direct parent).isEmbedded = false := by decide +kernel
  have missing : ¬ (two large parent).Persisted 0 away := by
    intro persisted
    rcases (persisted_two large parent away).mp persisted with same | old
    · exact hashes_apart.2.1 same
    · exact hashes_apart.2.2 ((persisted_holding away).mp old)
  have fuel : (Ref.direct half).height + vacant.depth + 1 = 4 := by decide +kernel
  obtain ⟨r, r', walk⟩ := stops leaf large_apart parent_refs apart missing refs
  have start : Watch.Run 0 ⟨vacant, []⟩ := .start (fun h => rfl) fun l none => by cases none
  have run := start.persist (Ref.direct half)
  rw [Watch.called_eq (Watched.tells_persist 0 _)] at run
  simp only [Watched.persist, Watched.result_bind, Watched.result_get, fuel, walk] at run
  exact ⟨r, r', run⟩

theorem fair_half (r r' : Ref Cell) : Fair recorded 0 (stopped large parent half away r r') where
  trusted q s seen := by
    simp [stopped, reached] at seen
  recorded c status answer s seen := by
    simp only [stopped, reached, List.mem_cons, Moment.mk.injEq, reduceCtorEq, false_and, false_or,
      Event.recorded.injEq, List.not_mem_nil, or_false] at seen
    rcases seen with ⟨⟨rfl, -⟩, -⟩ | ⟨⟨rfl, -⟩, -⟩
    · exact ⟨parent_readable, .inr rfl⟩
    · exact ⟨large_readable, .inl rfl⟩

/-- A walk that persisted a child and what is below it, and failed at the next child, leaves the store closed. -/
theorem upheld_half : (two large parent).Persisted 0 parent.hash ∧ parent.Marks large.hash ∧
    (two large parent).Upheld recorded 0 := by
  obtain ⟨r, r', run⟩ := run_half
  refine ⟨?_, ?_, (run.upheld recorded_injective (fair_half r r')).1⟩
  · exact (persisted_two large parent _).mpr (.inl rfl)
  · exact .here (r := Ref.direct large) (by rw [parent_refs]; exact List.mem_singleton_self _) large_apart

end Halfway

end MerkleCells
