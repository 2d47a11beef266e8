import MerkleCells.Frame.Basic

/-!
Frames as they are written. A frame is never empty, and it is at most some bytes for each byte in it longer than a
head. What is written in a frame is read back (`decode_encode`): a compressed block is written only if it is read
back, and blocks of bytes as they are always are, at every level that a store file may have.
-/
namespace MerkleCells.Frame

theorem length_head (level : Nat) : (head level).length = 6 := rfl

theorem length_blockHead (last : Bool) (kind size : Nat) : (blockHead last kind size).length = 3 :=
  Bytes.length_littleEndian 3 _

theorem length_plainBlocks_le (fuel : Nat) (data : Bytes) :
    (plainBlocks fuel data).length ≤ data.length + 3 * (fuel + 1) := by
  induction fuel generalizing data with
  | zero =>
    rw [plainBlocks, List.length_append, length_blockHead]
    omega
  | succ fuel ih =>
    rw [plainBlocks]
    split
    · rw [List.length_append, length_blockHead]
      omega
    · next long =>
      have rest := ih (data.drop blockLimit)
      rw [List.length_drop] at rest
      rw [List.length_append, List.length_append, length_blockHead, List.length_take]
      omega

theorem length_plain_le (level : Nat) (data : Bytes) : (plain level data).length ≤ 4 * data.length + 9 := by
  have blocks := length_plainBlocks_le data.length data
  rw [plain, List.length_append, length_head]
  omega

/-- A block is compressed only if that saves something. -/
theorem length_compress?_lt {data block : Bytes} (compressed : compress? data = some block) :
    block.length < data.length := by
  rw [compress?] at compressed
  split at compressed
  · cases compressed
  · obtain ⟨sequences, -, compressed⟩ := Option.bind_eq_some_iff.mp compressed
    dsimp only at compressed
    split at compressed
    · cases compressed
    · next saves =>
      cases compressed
      omega

/-- A frame is plain or has one compressed block. -/
theorem encode_cases (level : Nat) (data : Bytes) : encode level data = plain level data ∨
    ∃ block, compress? data = some block ∧
      encode level data = head level ++ (blockHead true 2 block.length ++ block) := by
  rw [encode]
  split
  · exact .inl rfl
  · next frame compressed =>
    split
    · rw [compressed?] at compressed
      split at compressed
      · cases compressed
      · obtain ⟨block, written, rfl⟩ := Option.map_eq_some_iff.mp compressed
        exact .inr ⟨block, written, List.append_assoc _ _ _⟩
    · exact .inl rfl

theorem length_encode_le (level : Nat) (data : Bytes) : (encode level data).length ≤ 4 * data.length + 9 := by
  rcases encode_cases level data with same | ⟨block, written, same⟩
  · rw [same]
    exact length_plain_le level data
  · have shorter := length_compress?_lt written
    rw [same, List.length_append, List.length_append, length_head, length_blockHead]
    omega

theorem encode_ne_nil (level : Nat) (data : Bytes) : encode level data ≠ [] := by
  have headed : ∀ rest : Bytes, head level ++ rest ≠ [] := fun rest none => by cases none
  rcases encode_cases level data with same | ⟨block, -, same⟩
  · rw [same]
    exact headed _
  · rw [same]
    exact headed _

/-! ### Reading frames -/

theorem split?_append {size : Nat} {front : Bytes} (length : front.length = size) (rest : Bytes) :
    Literals.split? size (front ++ rest) = some (front, rest) := by
  subst length
  simp [Literals.split?]

theorem split?_zero (rest : Bytes) : Literals.split? 0 rest = some ([], rest) := by simp [Literals.split?]

/-- What the head of a frame says that does not tell its size. -/
def plainHead : Head := ⟨blockLimit, none, false⟩

theorem windowSize_level {level : Nat} (valid : level ≤ 22) :
    blockLimit ≤ windowSize (UInt8.ofNat (8 * (windowLog level - 10))) ∧
      windowSize (UInt8.ofNat (8 * (windowLog level - 10))) ≤ windowLimit := by
  revert valid
  revert level
  decide

theorem readHead?_head {level : Nat} (valid : level ≤ 22) (rest : Bytes) :
    readHead? (0 :: UInt8.ofNat (8 * (windowLog level - 10)) :: rest) = some (plainHead, rest) := by
  obtain ⟨large, small⟩ := windowSize_level valid
  have window : Literals.split? 1 (UInt8.ofNat (8 * (windowLog level - 10)) :: rest) =
      some ([UInt8.ofNat (8 * (windowLog level - 10))], rest) :=
    split?_append (List.length_singleton (a := UInt8.ofNat (8 * (windowLog level - 10)))) rest
  have zero : UInt8.toNat 0 = 0 := rfl
  have dictionary : [0, 1, 2, 4].getD 0 0 = 0 := rfl
  simp only [readHead?, zero, Nat.zero_div, Nat.zero_mod, Nat.zero_ne_one, ↓reduceIte, window, dictionary, split?_zero,
    Option.bind_eq_bind, Option.bind_some, List.headD_cons, Bytes.ofLittleEndian, ne_eq, not_true_eq_false, false_or,
    if_neg (Nat.not_lt.mpr small), Nat.min_eq_right large, decide_false]
  rfl

theorem plainBlocks_short {data : Bytes} {n : Nat} (short : data.length ≤ blockLimit) :
    plainBlocks n data = blockHead true 0 data.length ++ data := by
  cases n with
  | zero => rfl
  | succ n => rw [plainBlocks, if_pos short]

theorem ofLittleEndian_blockHead (last : Bool) {size : Nat} (small : size ≤ blockLimit) :
    Bytes.ofLittleEndian (blockHead last 0 size) = 8 * size + last.toNat := by
  rw [blockLimit] at small
  have bit := last.toNat_le
  rw [blockHead, Nat.mul_zero, Nat.add_zero]
  apply Bytes.ofLittleEndian_littleEndian
  rw [show (1 <<< (8 * 3) : Nat) = 16777216 from rfl]
  omega

/-- A block of bytes as they are is read, and the blocks after it if it is not the last one. -/
theorem readBlocks_cons (last : Bool) {content : Bytes} (small : content.length ≤ blockLimit) (fuel : Nat)
    (c : Context) (out : Array UInt8) (rest : Bytes) :
    readBlocks blockLimit (fuel + 1) c out (blockHead last 0 content.length ++ content ++ rest) =
      if last then some (out ++ content.toArray, rest)
      else readBlocks blockLimit fuel c (out ++ content.toArray) rest := by
  have number := ofLittleEndian_blockHead last small
  have bit := last.toNat_le
  have size : (8 * content.length + last.toNat) / 8 = content.length := by omega
  have kind : (8 * content.length + last.toNat) / 2 % 4 = 0 := by omega
  have final : (8 * content.length + last.toNat) % 2 = last.toNat := by omega
  have front := split?_append (length_blockHead last 0 content.length) (content ++ rest)
  have inner : Literals.split? content.length (content ++ rest) = some (content, rest) := split?_append rfl rest
  rw [List.append_assoc, readBlocks, front]
  simp only [Option.bind_eq_bind, Option.bind_some, number, size, kind, final, inner, if_neg (Nat.not_lt.mpr small)]
  cases last <;> rfl

theorem readBlocks_plainBlocks {data : Bytes} {n fuel : Nat} (enough : data.length ≤ n) (rest : Bytes)
    (fuel_gt : (plainBlocks n data ++ rest).length < fuel) (c : Context) (out : Array UInt8) :
    readBlocks blockLimit fuel c out (plainBlocks n data ++ rest) = some (out ++ data.toArray, rest) := by
  induction n generalizing data fuel out with
  | zero =>
    have short : data.length ≤ blockLimit := Nat.le_trans enough (Nat.zero_le _)
    obtain ⟨fuel, rfl⟩ : ∃ k, fuel = k + 1 := ⟨fuel - 1, by omega⟩
    rw [plainBlocks_short short, readBlocks_cons true short, if_pos rfl]
  | succ n ih =>
    obtain ⟨fuel, rfl⟩ : ∃ k, fuel = k + 1 := ⟨fuel - 1, by omega⟩
    by_cases short : data.length ≤ blockLimit
    · rw [plainBlocks_short short, readBlocks_cons true short, if_pos rfl]
    · have full : (data.take blockLimit).length = blockLimit := by
        rw [List.length_take]
        omega
      have step := readBlocks_cons false (Nat.le_of_eq full) fuel c out
        (plainBlocks n (data.drop blockLimit) ++ rest)
      rw [plainBlocks, if_neg short, List.append_assoc] at fuel_gt ⊢
      rw [full] at step
      rw [step, if_neg Bool.false_ne_true, ih]
      · have whole : (data.take blockLimit).toArray ++ (data.drop blockLimit).toArray = data.toArray := by simp
        rw [Array.append_assoc, whole]
      · rw [List.length_drop, blockLimit]
        omega
      · simp only [List.length_append, length_blockHead] at fuel_gt ⊢
        omega

theorem readFrame?_plain {level : Nat} (valid : level ≤ 22) (data : Bytes) :
    readFrame? (0 :: UInt8.ofNat (8 * (windowLog level - 10)) :: plainBlocks data.length data) = some (data, []) := by
  have blocks := readBlocks_plainBlocks (Nat.le_refl data.length) [] (Nat.lt_succ_self _) .initial #[]
  rw [List.append_nil] at blocks
  simp only [readFrame?, readHead?_head valid, plainHead, blocks, Option.bind_eq_bind, Option.bind_some,
    Bool.false_eq_true, ↓reduceIte, split?_zero, Option.any_none, Bool.false_and]
  simp

/-- A frame that is not compressed is read back. -/
theorem decode_plain {level : Nat} (valid : level ≤ 22) (data : Bytes) : decode (plain level data) = some data := by
  have front : Literals.split? 4 (plain level data) =
      some (magic, 0 :: UInt8.ofNat (8 * (windowLog level - 10)) :: plainBlocks data.length data) :=
    split?_append (show magic.length = 4 from rfl) _
  obtain ⟨n, fuel⟩ : ∃ n, (plain level data).length = n + 1 := ⟨_, rfl⟩
  have last : readFrames n [] = some [] := by cases n <;> rfl
  rw [decode, fuel, readFrames.eq_3 _ _ (fun none => by cases none), front]
  simp only [Option.bind_eq_bind, Option.bind_some, ↓reduceIte, readFrame?_plain valid, last, Option.map_some,
    List.append_nil]

/-- What is written in a frame is read back. -/
theorem decode_encode {level : Nat} (valid : level ≤ 22) (data : Bytes) : decode (encode level data) = some data := by
  rw [encode]
  split
  · exact decode_plain valid data
  · split
    · assumption
    · exact decode_plain valid data

/-- Frames are a codec to rely on, at every level. -/
theorem codec_faithful : codec.Faithful where
  ne_nil made := by
    cases made
    exact encode_ne_nil _ _
  inverse made := by
    cases made
    exact decode_encode (Nat.min_le_right _ _) _

end MerkleCells.Frame
