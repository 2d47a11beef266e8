import MerkleCells.Proofs.Reading

/-!
Readers that accept nothing but what is written. `Reader.Takes x Q` says what a reader may take from the front
of its input for what it gives; a reader made of several takes one part after the other, whatever it decides
on the way. It is the converse of `Reader.Reads`.
-/
namespace MerkleCells

theorem Bytes.ofText_of_toText? {bytes : Bytes} {text : String} (read : bytes.toText? = some text) : ofText text = bytes := by
  rw [toText?, String.fromUTF8?] at read
  split at read
  · cases read
    rfl
  · cases read

namespace Reader

variable {α β : Type}

/-- `Q` relates what a reader takes from the front of an input to what it gives, and it fails for reasons of format only,
but never because of an encoding that is not canonical. -/
def Takes (x : Reader α) (Q : Bytes → α → Prop) : Prop :=
  ∀ input, match StateT.run x input with
    | .ok (a, rest) => ∃ enc, input = enc ++ rest ∧ Q enc a
    | .error e => ∃ reason, e = .format reason ∧ reason ≠ .notCanonical

namespace Takes

variable {x : Reader α} {f : α → Reader β} {P P' : Bytes → α → Prop} {Q : Bytes → β → Prop}

theorem of_ok (takes : Takes x P) {input rest : Bytes} {a : α} (run : StateT.run x input = .ok (a, rest)) :
    ∃ enc, input = enc ++ rest ∧ P enc a := by
  have found := takes input
  rwa [run] at found

theorem done {a : α} (holds : P [] a) : Takes (pure a) P := fun _ => ⟨[], rfl, holds⟩

theorem fault {reason : FormatFault} (other : reason ≠ .notCanonical) : Takes (fault reason) P := by
  intro _
  exact ⟨reason, rfl, other⟩

theorem bind (first : Takes x P) (second : ∀ enc a, P enc a → Takes (f a) fun enc' b => Q (enc ++ enc') b) :
    Takes (x >>= f) Q := by
  intro input
  have start := first input
  rw [StateT.run_bind]
  cases run : StateT.run x input with
  | error e =>
    rw [run] at start
    exact start
  | ok answer =>
    obtain ⟨a, rest⟩ := answer
    rw [run] at start
    obtain ⟨enc, rfl, holds⟩ := start
    have more := second enc a holds rest
    show match StateT.run (f a) rest with
      | .ok (b, rest') => ∃ taken, enc ++ rest = taken ++ rest' ∧ Q taken b
      | .error e => ∃ reason, e = .format reason ∧ reason ≠ .notCanonical
    cases run' : StateT.run (f a) rest with
    | error e =>
      rw [run'] at more
      exact more
    | ok answer =>
      obtain ⟨b, rest'⟩ := answer
      rw [run'] at more
      obtain ⟨enc', rfl, holds'⟩ := more
      exact ⟨enc ++ enc', by rw [List.append_assoc], holds'⟩

theorem mono (takes : Takes x P) (weaken : ∀ enc a, P enc a → P' enc a) : Takes x P' := by
  intro input
  have found := takes input
  split at found
  · obtain ⟨enc, split, holds⟩ := found
    exact ⟨enc, split, weaken enc _ holds⟩
  · exact found

theorem map (takes : Takes x P) (g : α → β) (holds : ∀ enc a, P enc a → Q enc (g a)) :
    Takes (x >>= fun a => pure (g a)) Q :=
  takes.bind fun enc a given => done (by rw [List.append_nil]; exact holds enc a given)

/-- A check that a reader makes on its way. -/
theorem check {cond : Prop} [Decidable cond] {reason : FormatFault} {next : Unit → Reader β}
    (other : reason ≠ .notCanonical) (passed : ¬ cond → Takes (next ()) Q) :
    Takes (if cond then Reader.fault reason >>= next else next ()) Q := by
  by_cases bad : cond
  · rw [if_pos bad]
    exact (fault (P := fun _ _ => False) other).bind fun _ _ never => never.elim
  · rw [if_neg bad]
    exact passed bad

theorem ite {cond : Prop} [Decidable cond] {y : Reader α} (yes : cond → Takes x P) (no : ¬ cond → Takes y P) :
    Takes (if cond then x else y) P := by
  by_cases here : cond
  · rw [if_pos here]
    exact yes here
  · rw [if_neg here]
    exact no here

end Takes

/-- What a reader takes begins with the byte that it has looked at before. -/
theorem takes_peek {f : UInt8 → Reader α} {P : Bytes → α → Prop}
    (next : ∀ tag, Takes (f tag) fun enc a => ∃ first more, enc = first :: more ∧ (first = tag → P enc a)) :
    Takes (peek >>= f) P := by
  intro input
  cases input with
  | nil => exact ⟨_, rfl, by simp⟩
  | cons tag input =>
    have found := next tag (tag :: input)
    show match StateT.run (f tag) (tag :: input) with
      | .ok (a, rest) => ∃ enc, tag :: input = enc ++ rest ∧ P enc a
      | .error e => ∃ reason, e = .format reason ∧ reason ≠ .notCanonical
    split at found
    · obtain ⟨_, split, first, more, rfl, holds⟩ := found
      have same : first = tag := (List.cons.inj split).1.symm
      exact ⟨_, split, holds same⟩
    · exact found

theorem takes_byte : Takes byte fun enc b => enc = [b] := by
  intro input
  cases input with
  | nil => exact ⟨_, rfl, by simp⟩
  | cons b rest => exact ⟨[b], rfl, rfl⟩

theorem takes_bytes (n : Nat) : Takes (bytes n) fun enc data => enc = data ∧ data.length = n := by
  intro input
  simp only [bytes, StateT.run_bind, StateT.run_get, pure_bind]
  by_cases short : input.length < n
  · rw [if_pos short]
    exact ⟨_, rfl, by simp⟩
  · rw [if_neg short]
    refine ⟨input.take n, (List.take_append_drop n input).symm, rfl, ?_⟩
    rw [List.length_take]
    omega

theorem takes_count : Takes count fun enc value => enc = Quantity.writeCount value := by
  intro input
  simp only [count, StateT.run_bind, StateT.run_get, pure_bind]
  cases read : Quantity.readCount input with
  | error e => exact ⟨_, rfl, by simp⟩
  | ok answer => exact ⟨_, Quantity.readCount_eq_ok read, rfl⟩

theorem takes_long : Takes long fun enc value => enc = Quantity.writeLong value := by
  intro input
  simp only [long, StateT.run_bind, StateT.run_get, pure_bind]
  cases read : Quantity.readLong input with
  | error e => exact ⟨_, rfl, by simp⟩
  | ok answer => exact ⟨_, Quantity.readLong_eq_ok read, rfl⟩

theorem takes_length (limit : Nat) :
    Takes (length limit) fun enc n => enc = Quantity.writeCount (UInt64.ofNat n) ∧ n ≤ limit := by
  refine takes_count.bind ?_
  rintro enc value rfl
  refine .check (by simp) fun ok => .done ⟨?_, not_lt.mp ok⟩
  rw [List.append_nil, UInt64.ofNat_toNat]

theorem takes_hash : Takes hash fun enc h => enc = h.bytes := by
  refine (takes_bytes Hash.size).bind ?_
  rintro data _ ⟨rfl, length⟩
  rw [Hash.ofBytes?, dif_pos (show data.length = 32 from length)]
  exact .done (List.append_nil data)

theorem takes_blob (limit : Nat) : Takes (blob limit) fun enc data => enc = writeBlob data ∧ data.length ≤ limit := by
  refine (takes_length limit).bind ?_
  rintro enc n ⟨rfl, le⟩
  refine (takes_bytes n).mono ?_
  rintro enc data ⟨rfl, rfl⟩
  exact ⟨rfl, le⟩

theorem takes_text (limit : Nat) : Takes (Reader.text limit) fun enc text =>
    enc = writeBlob (Bytes.ofText text) ∧ text.utf8ByteSize ≤ limit := by
  refine (takes_blob limit).bind ?_
  rintro enc data ⟨rfl, le⟩
  cases read : data.toText? with
  | none => exact .fault (by simp)
  | some text =>
    obtain rfl := Bytes.ofText_of_toText? read
    exact .done ⟨List.append_nil _, le⟩

theorem takes_name : Takes Reader.name fun enc name =>
    enc = writeBlob (Bytes.ofText name) ∧ name.isEmpty = false ∧ name.utf8ByteSize ≤ Limits.symbol := by
  refine (takes_text Limits.symbol).bind ?_
  rintro enc name ⟨rfl, le⟩
  exact .check (by simp) fun ok => .done ⟨List.append_nil _, Bool.eq_false_iff.mpr ok, le⟩

theorem takes_double : Takes double fun enc bits =>
    enc = Bytes.bigEndian 8 bits.toNat ∧ (Value.isNaN bits → bits = Value.nanBits) := by
  refine (takes_bytes 8).bind ?_
  rintro data _ ⟨rfl, length⟩
  have value : (UInt64.ofNat (Bytes.ofBigEndian data)).toNat = Bytes.ofBigEndian data := by
    rw [UInt64.toNat_ofNat']
    exact Nat.mod_eq_of_lt (Bytes.ofBigEndian_lt length)
  refine .check (by simp) fun ok => .done ⟨?_, fun nan => ?_⟩
  · rw [List.append_nil, value, Bytes.bigEndian_ofBigEndian length]
  · by_contra other
    exact ok (by simp [nan, other])

variable {child : Reader (Ref Cell)} {P : Ref Cell → Prop}

theorem takes_replicate (each : Takes child fun enc r => enc = r.written ∧ P r) (n : Nat) :
    Takes (replicate child n) fun enc items =>
      enc = items.flatMap Ref.written ∧ items.length = n ∧ ∀ r ∈ items, P r := by
  induction n with
  | zero => exact .done ⟨rfl, rfl, by simp⟩
  | succ n ih =>
    refine each.bind ?_
    rintro enc r ⟨rfl, first⟩
    refine ih.map (r :: ·) ?_
    rintro enc items ⟨rfl, rfl, others⟩
    refine ⟨rfl, rfl, ?_⟩
    rintro r' (_ | ⟨_, member⟩)
    · exact first
    · exact others r' member

theorem takes_refs (each : Takes child fun enc r => enc = r.written ∧ P r) :
    Takes (refs child) fun enc items =>
      enc = writeRefs items ∧ items.length ≤ Limits.fields ∧ ∀ r ∈ items, P r := by
  refine (takes_length Limits.fields).bind ?_
  rintro enc n ⟨rfl, le⟩
  refine (takes_replicate each n).mono ?_
  rintro enc items ⟨rfl, rfl, all⟩
  exact ⟨rfl, le, all⟩

end Reader

end MerkleCells
