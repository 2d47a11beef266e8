import MerkleCells.Proofs.Canonical
import MerkleCells.Proofs.Coherent

/-!
What loading fails by. Readers fail for reasons of format only and stores for reasons of their own (`Error.OfStore`),
so that a load fails because the hash is missing, or because of what a store has in its place (`Error.OfLoad`), whatever
the stores and the caches hold (`Session.ends_load`, `Ref.runs_value`). It is missing just if the store behind the loader
has none (`Ref.absent_of_missing`).
-/
namespace MerkleCells

open MerkleCells.Action

/-! ### Loading -/

/-- The errors that a store can answer with. That it has nothing for a hash is no error of the store. -/
inductive Error.OfStore : Error → Prop where
  | format (fault : FormatFault) : OfStore (.format fault)
  | corruption (fault : Corruption) : OfStore (.corruption fault)
  | io : OfStore .io

/-- The errors that a load of a hash can fail by. -/
inductive Error.OfLoad (h : Hash) : Error → Prop where
  | missing : OfLoad h (.missing h)
  | ofStore {e : Error} (error : e.OfStore) : OfLoad h e

theorem Error.OfLoad.ne_endless {h : Hash} {e : Error} (error : e.OfLoad h) : e ≠ .endless := by
  rintro rfl
  cases error with
  | ofStore error => cases error

theorem ends_decode (loader : Option LoaderId) (bytes : Bytes) :
    Ends Error.OfStore (fun c => c.Accepted loader) (decode loader bytes) := by
  rcases decode_split loader bytes with ⟨reason, failed, -⟩ | ⟨c, decoded, -, accepted⟩
  · rw [failed]
    exact .format reason
  · rw [decoded]
    exact accepted

theorem FileStore.ends_readEncoding (f : FileStore) (h : Hash) :
    Ends Error.OfStore (fun _ => True) (f.readEncoding h) := by
  rw [readEncoding]
  cases f.index.find? h with
  | none => exact trivial
  | some e =>
    dsimp only
    by_cases far : placeLimit ≤ e.offset
    · rw [if_pos far]
      exact .io
    · rw [if_neg far]
      generalize (if e.size = 0 then some [] else f.image.read? e.offset e.size) = frame
      rcases frame with _ | _ | ⟨b, rest⟩
      · exact .io
      · exact .corruption .emptyFrame
      · dsimp only
        cases f.codec.decompress (b :: rest) with
        | none => exact .io
        | some encoding => exact trivial

/-- A cell that a store answers with was accepted by a reader, or the store holds it in memory. -/
def Store.Gives (store : Store) (loader : LoaderId) (c : Cell) : Prop :=
  c.Accepted (some loader) ∨ ∃ m, store = .memory m ∧ ∃ e ∈ m.held, e.2.cell = c

theorem Store.ends_answer (store : Store) (loader : LoaderId) (h : Hash) :
    Ends Error.OfStore (fun held => ∀ r, held = some r → ∀ c, r.cell? = some c → store.Gives loader c)
      (store.answer loader h) := by
  -- what was decoded, with a status
  have decoded : ∀ (bytes : Bytes) (status : Status),
      Ends Error.OfStore (fun held => ∀ r, held = some r → ∀ c, r.cell? = some c → store.Gives loader c)
        (decode (some loader) bytes >>= fun cell => pure (some ((Ref.direct cell).withStatus status))) := by
    intro bytes status
    refine (ends_decode (some loader) bytes).bind fun c accepted => ?_
    rintro _ ⟨⟩ _ ⟨⟩
    exact .inl accepted
  cases store with
  | memory m =>
    intro r answer c held
    obtain ⟨e, found, rfl⟩ := Option.map_eq_some_iff.mp answer
    cases held
    exact .inr ⟨m, rfl, (h, e), Table.mem_of_find? found, rfl⟩
  | untrusted u =>
    show Ends _ _ (u.answer loader h)
    rw [UntrustedStore.answer]
    rcases u.slots.find? h with _ | ⟨_ | bytes, status⟩
    · rintro _ ⟨⟩
    · rintro _ ⟨⟩ _ ⟨⟩
    · exact decoded bytes status
  | file f =>
    show Ends _ _ (f.answer loader h)
    rw [FileStore.answer]
    cases f.status? h with
    | none => rintro _ ⟨⟩
    | some status =>
      refine (f.ends_readEncoding h).bind fun encoding? _ => ?_
      cases encoding? with
      | none => rintro _ ⟨⟩
      | some encoding => exact decoded encoding status

namespace Loader

theorem ends_accept {P : Cell → Prop} {h : Hash} {answer : Answer}
    (ends : Ends Error.OfStore (fun held => ∀ r, held = some r → ∀ c, r.cell? = some c → P c) answer) :
    Ends (Error.OfLoad h) P (accept h answer) := by
  refine (ends.mono (fun _ => .ofStore) fun _ holds => holds).bind fun held right => ?_
  cases held with
  | none => exact .missing
  | some r =>
    dsimp only
    cases at_hand : r.cell? with
    | none => exact .ofStore (.corruption _)
    | some c =>
      dsimp only
      split
      · exact right r rfl c at_hand
      · exact .ofStore (.corruption _)

/-- A loader does not find a hash only if the store has none. -/
theorem eq_none_of_accept {h k : Hash} {answer : Answer} (given : Ends Error.OfStore (fun _ => True) answer)
    (refused : accept h answer = .error (.missing k)) : answer = .ok none := by
  rcases answer with e | _ | r
  · cases refused
    cases given
  · rfl
  · have other : Ends Error.OfStore (fun _ => True) (accept h (.ok (some r))) := by
      have answered : Ends Error.OfStore (fun held => held = some r) (.ok (some r) : Answer) := rfl
      refine answered.bind fun held same => ?_
      subst same
      dsimp only
      cases r.cell? with
      | none => exact .corruption _
      | some c =>
        dsimp only
        split
        · exact trivial
        · exact .corruption _
    rw [refused] at other
    cases other

theorem ends_asChild {h : Hash} {found : Except Error Cell} (ends : Ends (Error.OfLoad h) (fun _ => True) found) :
    Ends (Error.OfLoad h) (fun _ => True) (asChild h found) := by
  refine ends.bind fun c _ => ?_
  dsimp only
  split
  · exact .ofStore (.format _)
  · exact trivial

end Loader

namespace Session

theorem ends_answerTo (s : Session) (id : LoaderId) (l : Loader) (h : Hash) :
    Ends Error.OfStore (fun _ => True) (s.answerTo id l h) := by
  rw [answerTo]
  cases s.stores[l.store]? with
  | none => exact trivial
  | some store => exact (store.ends_answer id h).mono (fun _ error => error) fun _ _ => trivial

/-- A load fails for a reason of loading only, whatever is cached and whatever the stores hold. -/
theorem ends_load (s : Session) (id : LoaderId) (h : Hash) : Ends (Error.OfLoad h) (fun _ => True) (s.load id h).1 := by
  rw [load]
  cases s.loaders[id]? with
  | none => exact .missing
  | some l =>
    dsimp only
    cases l.get? h with
    | some hit => exact trivial
    | none =>
      have accepted : Ends (Error.OfLoad h) (fun _ => True) (Loader.accept h (s.answerTo id l h)) :=
        Loader.ends_accept ((s.ends_answerTo id l h).mono (fun _ error => error) fun _ _ _ _ _ _ => trivial)
      dsimp only
      rw [Loader.receive]
      cases received : Loader.accept h (s.answerTo id l h) with
      | error e =>
        rw [received] at accepted
        exact accepted
      | ok c => exact trivial

/-- A load does not find a hash only if the store behind the loader has none. -/
theorem told_of_missing {s : Session} {id : LoaderId} {h k : Hash} (failed : (s.load id h).1 = .error (.missing k)) :
    s.told id h = .ok none := by
  rw [load] at failed
  rw [told]
  cases at_id : s.loaders[id]? with
  | none => rfl
  | some l =>
    rw [at_id] at failed
    dsimp only at failed
    cases hit : l.get? h with
    | some found =>
      rw [hit] at failed
      cases failed
    | none =>
      rw [hit] at failed
      dsimp only at failed
      cases received : Loader.accept h (s.answerTo id l h) with
      | error e =>
        rw [Loader.receive_of_refused received] at failed
        cases failed
        exact Loader.eq_none_of_accept (s.ends_answerTo id l h) received
      | ok c =>
        rw [Loader.receive_of_accept received] at failed
        cases failed

end Session

/-- Resolving a reference fails for a reason of loading only. -/
theorem Ref.runs_value (r : Ref Cell) (s : Session) :
    Runs Session.Later (Error.OfLoad r.hash) r.value s fun _ _ => True := by
  refine ⟨r.later_value s, ?_⟩
  obtain ⟨status, c | ⟨h, loader, byMarker⟩⟩ := r
  · exact trivial
  · cases loader with
    | none => exact .missing
    | some id =>
      rw [answer_value_soft]
      split
      · exact Loader.ends_asChild (s.ends_load id h)
      · exact s.ends_load id h

/-- A reference leads to nothing only if it is not at hand. -/
theorem Ref.absent_of_missing {r : Ref Cell} {s : Session} {h : Hash}
    (failed : (result r.value s).1 = .error (.missing h)) : r.hash = h ∧ r.Absent s := by
  have named : r.hash = h := by
    have error := (r.runs_value s).2
    rw [failed] at error
    cases error with
    | missing => rfl
    | ofStore error => cases error
  refine ⟨named, ?_⟩
  obtain ⟨status, c | ⟨k, loader, byMarker⟩⟩ := r
  · cases failed
  · cases loader with
    | none => exact trivial
    | some id =>
      rw [answer_value_soft] at failed
      cases load : (s.load id k).1 with
      | error e =>
        rw [load] at failed
        have same : (Except.error e : Except Error Cell) = .error (.missing h) := by
          split at failed <;> exact failed
        cases same
        exact Session.told_of_missing load
      | ok c =>
        rw [load] at failed
        cases byMarker with
        | false => cases failed
        | true =>
          -- what was found is refused for its format only
          cases small : c.embeddable <;>
            simp only [Loader.asChild, bind, Except.bind, small, ↓reduceIte] at failed <;> cases failed

end MerkleCells
