import MerkleCells.Proofs.Involved

/-!
Histories of maps. A map is made from some entries and then updated; `KeyMap.History.Allowed.carries` says that it carries
what is bound in the end, if the hash has no collisions on the encodings of the values.
-/
namespace MerkleCells

open MerkleCells.Action

variable {I : Set Bytes}

namespace KeyMap

/-- An update binds a valid key to a value that can be read, or unbinds any byte string. -/
def Update.Offered (I : Set Bytes) (s : Session) : Update → Prop
  | .assoc key value => ValidKey key ∧ value.Offers I s
  | .dissoc _ => True

/-- A map is made from some entries and then updated. -/
structure History where
  entries : List (Bytes × Ref Cell)
  updates : List Update

namespace History

/-- Makes the map. -/
def run (past : History) : Action KeyMap := do past.updates.foldlM Update.run (← ofEntries past.entries)

/-- All updates of a history, those that bind its entries first. -/
def all (past : History) : List Update := (past.entries.map fun e => .assoc e.1 e.2) ++ past.updates

/-- What is bound in the end. -/
def bindings (past : History) : Content Hash := KeyMap.bindings past.all

/-- All values can be resolved, and there are never more keys bound than a count can tell. -/
structure Allowed (I : Set Bytes) (s : Session) (past : History) : Prop where
  offered : ∀ u ∈ past.all, u.Offered I s
  room : ∀ first, first <+: past.all → (KeyMap.bindings first).size < UInt64.size

theorem run_eq (past : History) : past.run = past.all.foldlM Update.run empty := by
  rw [run, all, List.foldlM_append, List.foldlM_map]
  rfl

end History

theorem carries_update (injective : Set.InjOn Hash.digest I) {s : Session} {m : KeyMap} {H : Content Hash}
    (carries : m.Carries s (H.marks I)) {u : Update} (offered : u.Offered I s) (room : (u.bind H).size < UInt64.size) :
    Yields (u.run m) s fun m' s' => s.Later s' ∧ m'.Carries s' ((u.bind H).marks I) := by
  cases u with
  | assoc key value =>
    obtain ⟨valid, offers⟩ := offered
    obtain ⟨c, s₁, target, named, readable, involved⟩ := offers s (.refl s)
    have bind : Update.bind H (.assoc key value) = H.put key c.hash := by rw [named]; rfl
    rw [bind] at room ⊢
    have room' : ((H.marks I).put key c.mark).size < UInt64.size := by
      rwa [← readable.markIn_hash injective involved, ← Content.marks_put, Content.size_marks]
    refine (carries_assoc carries valid target named readable room').bind ?_
    rintro r s' ⟨later, f, carries', updated⟩
    rw [updated.eq_marks injective readable involved] at carries'
    exact yields_pure.mpr ⟨later, carries'⟩
  | dissoc key =>
    refine (carries_dissoc carries key).bind ?_
    rintro r s' ⟨later, carries'⟩
    rw [← Content.marks_erase] at carries'
    exact yields_pure.mpr ⟨later, carries'⟩

theorem carries_updates (injective : Set.InjOn Hash.digest I) (updates : List Update) {s : Session} {m : KeyMap}
    {H : Content Hash} (carries : m.Carries s (H.marks I)) (offered : ∀ u ∈ updates, u.Offered I s)
    (room : ∀ first, first <+: updates → (first.foldl Update.bind H).size < UInt64.size) :
    Yields (updates.foldlM Update.run m) s fun m' s' => m'.Carries s' ((updates.foldl Update.bind H).marks I) := by
  induction updates generalizing s m H with
  | nil => exact yields_pure.mpr carries
  | cons u rest ih =>
    refine (carries_update injective carries (offered u (by simp)) (room [u] (List.prefix_append [u] rest))).bind ?_
    rintro m' s' ⟨later, carries'⟩
    refine ih carries' (fun u' member => ?_) fun first initial => room (u :: first) (List.prefix_cons_inj u |>.mpr initial)
    have before := offered u' (List.mem_cons_of_mem u member)
    cases u' with
    | assoc key value => exact ⟨before.1, before.2.later later⟩
    | dissoc key => trivial

/-- A history succeeds, and the map that it leads to carries what is bound in the end. -/
theorem History.Allowed.carries {past : History} {s : Session} (allowed : past.Allowed I s)
    (injective : Set.InjOn Hash.digest I) : Yields past.run s fun m s' => m.Carries s' (past.bindings.marks I) := by
  rw [past.run_eq]
  exact carries_updates injective past.all (Trie.Carries.empty .map s) allowed.offered allowed.room

end KeyMap

end MerkleCells
