import Parquet4Seastar.BitUtil.Reader.Basic
import Mathlib.Tactic.Ring

/-! # `BitReader` at a position of its buffer

`Reads reader source position` says that the reader's state is the reference reader's at
bit `position` of `source`, the `max_bytes_` bytes of its buffer: the two offsets add up
to `position`, and the valid low bytes of the accumulator, the `min(8, max_bytes_ -
byte_offset_)` bytes from `byte_offset_` on, are the buffer's. The high bytes of a partly
refilled accumulator are stale, and `Reads` says nothing about them. Below `2^27` bytes
no `int` expression of the reader leaves `int`.

Each step lemma says what one member does from such a state: `refillAt_spec` for the
refill the members share, `getValue_spec` for `detail::GetValue_` (its value is bits
`[position, position + num_bits)` of the buffer, least significant first),
`getValues_spec` and `headLoop_spec` for the loops of `GetBatch`, and
`getAligned_spec`. The values are stated before the conversion to `T`, which the
members apply to each value read.
-/

namespace Parquet4Seastar.BitUtil.BitReader

/-- How many low bytes of the accumulator hold buffer bytes at `byteOffset`. -/
def validBytes (length : Nat) (byteOffset : Int) : Nat := min 8 (length - byteOffset.toNat)

structure Reads (reader : BitReader) (source : List UInt8) (position : Nat) : Prop where
  bitOffset_nonneg : 0 ≤ reader.bitOffset
  bitOffset_lt : reader.bitOffset < 64
  byteOffset_nonneg : 0 ≤ reader.byteOffset
  position_eq : (position : Int) = 8 * reader.byteOffset + reader.bitOffset
  within : position ≤ 8 * source.length
  small : source.length ≤ 2 ^ 27
  maxBytes_eq : reader.maxBytes = source.length
  source_eq : reader.buffer.take source.length = source
  word_lt : reader.bufferedValues < 2 ^ 64
  buffered : reader.bufferedValues % 2 ^ (8 * validBytes source.length reader.byteOffset) =
    leValue source / 2 ^ (8 * reader.byteOffset.toNat) % 2 ^ (8 * validBytes source.length reader.byteOffset)

instance (reader : BitReader) (source : List UInt8) (position : Nat) : Decidable (reader.Reads source position) :=
  decidable_of_iff (0 ≤ reader.bitOffset ∧ reader.bitOffset < 64 ∧ 0 ≤ reader.byteOffset ∧
      (position : Int) = 8 * reader.byteOffset + reader.bitOffset ∧ position ≤ 8 * source.length ∧
      source.length ≤ 2 ^ 27 ∧ reader.maxBytes = source.length ∧ reader.buffer.take source.length = source ∧
      reader.bufferedValues < 2 ^ 64 ∧
      reader.bufferedValues % 2 ^ (8 * validBytes source.length reader.byteOffset) =
        leValue source / 2 ^ (8 * reader.byteOffset.toNat) % 2 ^ (8 * validBytes source.length reader.byteOffset))
    ⟨fun ⟨a, b, c, d, e, f, g, h, i, j⟩ => ⟨a, b, c, d, e, f, g, h, i, j⟩,
      fun ⟨a, b, c, d, e, f, g, h, i, j⟩ => ⟨a, b, c, d, e, f, g, h, i, j⟩⟩

/-- Inside the first `source.length` bytes, the buffer's bytes are the source's. -/
theorem take_drop_source {buffer source : List UInt8} (sourceEq : buffer.take source.length = source)
    {offset count : Nat} (inside : offset + count ≤ source.length) :
    (buffer.drop offset).take count = (source.drop offset).take count := by
  rw [← sourceEq, List.drop_take, List.take_take, Nat.min_eq_left (by omega)]

/-- The shared refill, at an offset inside the buffer: the new accumulator's valid bytes
are the buffer's from that offset on. -/
theorem refillAt_spec {reader : BitReader} {source : List UInt8} (maxBytesEq : reader.maxBytes = source.length)
    (sourceEq : reader.buffer.take source.length = source) (small : source.length ≤ 2 ^ 27) {byteOffset : Int}
    (low : 0 ≤ byteOffset) (high : byteOffset ≤ source.length) {word : Nat} (wordBound : word < 2 ^ 64) :
    ∃ refilled, reader.refillAt byteOffset word = some refilled ∧ refilled < 2 ^ 64 ∧
      refilled % 2 ^ (8 * validBytes source.length byteOffset) =
        leValue source / 2 ^ (8 * byteOffset.toNat) % 2 ^ (8 * validBytes source.length byteOffset) := by
  have count : (if 8 ≤ int32 (reader.maxBytes - byteOffset) then 8 else int32 (reader.maxBytes - byteOffset)) =
      (validBytes source.length byteOffset : Int) := by
    rw [int32_of_range (by omega) (by omega), validBytes]; split <;> omega
  have window := take_drop_source sourceEq
    (show byteOffset.toNat + validBytes source.length byteOffset ≤ source.length by unfold validBytes; omega)
  have length : ((reader.buffer.drop byteOffset.toNat).take (validBytes source.length byteOffset)).length =
      validBytes source.length byteOffset := by
    rw [window]; simp only [List.length_take, List.length_drop]; unfold validBytes; omega
  simp only [refillAt, refill, count, Option.bind_eq_bind, Int.toNat_ofNat]
  rw [loadBytes_eq low (by omega) (by unfold validBytes; omega), Option.some_bind, Int.toNat_ofNat]
  refine ⟨_, rfl, copyIntoWord_lt wordBound (by rw [length]; unfold validBytes; omega), ?_⟩
  have copied := copyIntoWord_mod word ((reader.buffer.drop byteOffset.toNat).take (validBytes source.length byteOffset))
  rw [length] at copied
  rw [copied, window, leValue_take, leValue_drop]

/-- The constructor reads from bit 0, whatever the accumulator held before. -/
theorem reads_init {buffer : List UInt8} {bufferLen : Int} {stale : Nat} (nonneg : 0 ≤ bufferLen)
    (small : bufferLen ≤ 2 ^ 27) (allocated : bufferLen ≤ buffer.length) (staleBound : stale < 2 ^ 64) :
    ∃ reader, init buffer bufferLen stale = some reader ∧ reader.Reads (buffer.take bufferLen.toNat) 0 := by
  have sourceLength : (buffer.take bufferLen.toNat).length = bufferLen.toNat := by simp; omega
  obtain ⟨refilled, refill, refilledBound, refilledValid⟩ :=
    @refillAt_spec ⟨buffer, bufferLen, stale, 0, 0⟩ (buffer.take bufferLen.toNat) (by simp [sourceLength]; omega)
      (by rw [sourceLength]) (by omega) 0 le_rfl (by omega) stale staleBound
  refine ⟨_, by rw [init, Option.bind_eq_bind, refill, Option.some_bind], ⟨le_rfl, by simp, le_rfl, by simp,
    by simp, by omega, by simp [sourceLength]; omega, by simp [sourceLength], refilledBound, refilledValid⟩⟩

theorem mod_two_pow_div (value start width : Nat) :
    value % 2 ^ (start + width) / 2 ^ start = value / 2 ^ start % 2 ^ width := by
  rw [Nat.pow_add, Nat.mod_mul_right_div_self]

/-- A value of `width` bits survives the cast to a wider type. -/
theorem mod_two_pow_mod_of_le (value : Nat) {width wider : Nat} (narrower : width ≤ wider) :
    value % 2 ^ width % 2 ^ wider = value % 2 ^ width :=
  Nat.mod_eq_of_lt ((Nat.mod_lt _ (Nat.two_pow_pos _)).trans_le (Nat.pow_le_pow_right (by decide) narrower))

/-- Agreement on low bits carries over to fewer low bits. -/
theorem mod_two_pow_of_mod {word value valid width : Nat} (same : word % 2 ^ valid = value % 2 ^ valid)
    (narrower : width ≤ valid) : word % 2 ^ width = value % 2 ^ width := by
  have dvd := Nat.pow_dvd_pow 2 narrower
  rw [← Nat.mod_mod_of_dvd _ dvd, same, Nat.mod_mod_of_dvd _ dvd]

theorem div_two_pow_div (value first second : Nat) : value / 2 ^ first / 2 ^ second = value / 2 ^ (first + second) := by
  rw [Nat.div_div_eq_div_mul, Nat.pow_add]

/-- The reference reader's `count` values of `numBits` bits from bit `position` of
`value`, least significant bit first. -/
def readValues (value numBits : Nat) : Nat → Nat → List Nat
  | _, 0 => []
  | position, count + 1 => value / 2 ^ position % 2 ^ numBits :: readValues value numBits (position + numBits) count

@[simp] theorem length_readValues (value numBits position count : Nat) :
    (readValues value numBits position count).length = count := by
  induction count generalizing position with
  | zero => rfl
  | succ count inductionHypothesis => simp [readValues, inductionHypothesis]

theorem readValues_append (value numBits position first second : Nat) :
    readValues value numBits position first ++ readValues value numBits (position + first * numBits) second =
      readValues value numBits position (first + second) := by
  induction first generalizing position with
  | zero => simp [readValues]
  | succ first inductionHypothesis =>
    rw [Nat.succ_add, readValues, readValues, List.cons_append, ← inductionHypothesis, Nat.succ_mul,
      Nat.add_assoc, Nat.add_comm numBits]

/-- The values one after another are the values at `position + k·numBits`. -/
theorem readValues_eq_map (value numBits position count : Nat) :
    readValues value numBits position count =
      (List.range count).map fun k => value / 2 ^ (position + k * numBits) % 2 ^ numBits := by
  induction count generalizing position with
  | zero => rfl
  | succ count inductionHypothesis =>
    rw [readValues, inductionHypothesis, List.range_succ_eq_map, List.map_cons, List.map_map]
    congr 1
    · simp
    · congr 1
      funext k
      simp only [Function.comp, Nat.succ_mul]
      congr 3
      omega

section Steps

variable {reader : BitReader} {source : List UInt8} {position : Nat} (reads : reader.Reads source position)
include reads

theorem maxBytes_nonneg : 0 ≤ reader.maxBytes := by
  rw [reads.maxBytes_eq]; omega

/-- `bytes_left()` counts the bytes from the byte boundary at or after the cursor. -/
theorem bytesLeft_eq : reader.bytesLeft = source.length - ((position + 7) / 8 : Nat) := by
  obtain ⟨bitLow, bitHigh, byteLow, positionEq, within, small, maxEq, -, -, -⟩ := reads
  unfold bytesLeft int32
  rw [bytesForBits_eq, maxEq]
  omega

/-- The accumulator's valid bits are the buffer's from `byte_offset_` on. -/
theorem bufferedValues_mod {width : Nat} (valid : width ≤ 8 * validBytes source.length reader.byteOffset) :
    reader.bufferedValues % 2 ^ width = leValue source / 2 ^ (8 * reader.byteOffset.toNat) % 2 ^ width :=
  mod_two_pow_of_mod reads.buffered valid

/-- `detail::GetValue_` inside the accumulator: the bits after `bit_offset_`. -/
theorem getValue_within {T : ValueType} {numBits : Nat} (inside : reader.bitOffset + numBits < 64)
    (room : position + numBits ≤ 8 * source.length) :
    reader.getValue_ T numBits =
      some (T.cast (leValue source / 2 ^ position % 2 ^ numBits), { reader with bitOffset := reader.bitOffset + numBits }) := by
  obtain ⟨bitLow, -, byteLow, positionEq, -, small, -, -, wordLt, -⟩ := id reads
  have valid : reader.bitOffset.toNat + numBits ≤ 8 * validBytes source.length reader.byteOffset := by
    unfold validBytes; omega
  have low := bufferedValues_mod reads valid
  simp only [getValue_]
  rw [int32_of_range (by omega) (by omega), if_neg (by omega), trailingBits_eq wordLt (by omega),
    show (min (reader.bitOffset + numBits) 64).toNat = reader.bitOffset.toNat + numBits by omega, low,
    Nat.shiftRight_eq_div_pow, mod_two_pow_div, div_two_pow_div,
    show 8 * reader.byteOffset.toNat + reader.bitOffset.toNat = position by omega]

/-- `detail::GetValue_` across the end of the accumulator: the bits above `bit_offset_`,
then the low bits of the word refilled from `byte_offset_ + 8`. -/
theorem getValue_crossing {T : ValueType} {numBits : Nat} (narrow : numBits ≤ 32)
    (crossing : 64 ≤ reader.bitOffset + numBits) (room : position + numBits ≤ 8 * source.length) :
    ∃ next, reader.getValue_ T numBits = some (T.cast (leValue source / 2 ^ position % 2 ^ numBits), next) ∧
      next.Reads source (position + numBits) := by
  obtain ⟨buffer, maxBytes, bufferedValues, byteOffset, bitOffset⟩ := reader
  obtain ⟨bitLow, bitHigh, byteLow, positionEq, -, small, maxEq, sourceEq, wordLt, -⟩ := id reads
  obtain ⟨byteCount, rfl⟩ : ∃ count : Nat, byteOffset = count := ⟨_, (Int.toNat_of_nonneg byteLow).symm⟩
  obtain ⟨bitCount, rfl⟩ : ∃ count : Nat, bitOffset = count := ⟨_, (Int.toNat_of_nonneg bitLow).symm⟩
  dsimp only at *
  obtain ⟨refilled, refill, refilledBound, refilledValid⟩ :=
    @refillAt_spec ⟨buffer, maxBytes, bufferedValues, byteCount, bitCount⟩ source maxEq sourceEq small
      (byteCount + 8) (by omega) (by omega) _ wordLt
  have word : bufferedValues = leValue source / 2 ^ (8 * byteCount) % 2 ^ 64 := by
    rw [← Nat.mod_eq_of_lt wordLt, ← Int.toNat_ofNat byteCount,
      bufferedValues_mod reads (by unfold validBytes; dsimp only; omega)]
  have nextWord : refilled % 2 ^ (bitCount + numBits - 64) =
      leValue source / 2 ^ position / 2 ^ (64 - bitCount) % 2 ^ (bitCount + numBits - 64) := by
    rw [mod_two_pow_of_mod refilledValid (by unfold validBytes; omega), div_two_pow_div,
      show ((byteCount : Int) + 8).toNat = byteCount + 8 by omega, show position + (64 - bitCount) = 8 * (byteCount + 8) by omega]
  have firstPart : (leValue source / 2 ^ (8 * byteCount) % 2 ^ 64) >>> bitCount =
      leValue source / 2 ^ position % 2 ^ (64 - bitCount) := by
    rw [Nat.shiftRight_eq_div_pow, show (2 : Nat) ^ 64 = 2 ^ (bitCount + (64 - bitCount)) by congr 1; omega,
      mod_two_pow_div, div_two_pow_div, show 8 * byteCount + bitCount = position by omega]
  have secondPart : ((refilled % 2 ^ (bitCount + numBits - 64)) <<< (64 - bitCount)) % 2 ^ 64 =
      2 ^ (64 - bitCount) * (leValue source / 2 ^ position / 2 ^ (64 - bitCount) % 2 ^ (bitCount + numBits - 64)) := by
    have below : refilled % 2 ^ (bitCount + numBits - 64) * 2 ^ (64 - bitCount) < 2 ^ numBits := by
      calc refilled % 2 ^ (bitCount + numBits - 64) * 2 ^ (64 - bitCount)
          < 2 ^ (bitCount + numBits - 64) * 2 ^ (64 - bitCount) :=
            Nat.mul_lt_mul_of_pos_right (Nat.mod_lt _ (Nat.two_pow_pos _)) (Nat.two_pow_pos _)
        _ = 2 ^ numBits := by rw [← Nat.pow_add]; congr 1; omega
    rw [Nat.shiftLeft_eq, Nat.mod_eq_of_lt (below.trans_le (Nat.pow_le_pow_right (by decide) (by omega))), nextWord,
      Nat.mul_comm]
  simp only [getValue_]
  rw [int32_of_range (by omega) (by omega), if_pos crossing, int32_of_range (by omega) (by omega),
    int32_of_range (by omega) (by omega), Option.bind_eq_bind, refill, Option.some_bind, if_neg (by omega),
    trailingBits_eq wordLt (by omega), trailingBits_eq refilledBound (by omega),
    show (min ((bitCount : Int) + numBits) 64).toNat = 64 by omega, Nat.mod_eq_of_lt wordLt,
    show (min ((bitCount : Int) + numBits - 64) 64).toNat = bitCount + numBits - 64 by omega,
    show ((numBits : Int) - (bitCount + numBits - 64)).toNat = 64 - bitCount by omega, word, Int.toNat_ofNat,
    firstPart, secondPart, ← ValueType.cast_or, Nat.or_comm, ← Nat.mul_add_lt_is_or (Nat.mod_lt _ (Nat.two_pow_pos _)), Nat.add_comm,
    ← Nat.mod_mul, ← Nat.pow_add, show 64 - bitCount + (bitCount + numBits - 64) = numBits by omega]
  refine ⟨_, rfl, ⟨?_, ?_, ?_, ?_, room, small, maxEq, sourceEq, refilledBound, refilledValid⟩⟩ <;> dsimp only <;> omega

/-- `detail::GetValue_` from a state at `position`, with the bits still in the buffer:
the value is bits `[position, position + num_bits)`, and the locals are then at
`position + num_bits`. -/
theorem getValue_spec {T : ValueType} {numBits : Nat} (narrow : numBits ≤ 32)
    (room : position + numBits ≤ 8 * source.length) :
    ∃ next, reader.getValue_ T numBits = some (T.cast (leValue source / 2 ^ position % 2 ^ numBits), next) ∧
      next.Reads source (position + numBits) := by
  by_cases crossing : 64 ≤ reader.bitOffset + numBits
  · exact getValue_crossing reads narrow crossing room
  · have ⟨bitLow, _, byteLow, positionEq, _, small, maxEq, sourceEq, wordLt, buffered⟩ := reads
    refine ⟨_, getValue_within reads (by omega) room, ⟨?_, ?_, byteLow, ?_, room, small, maxEq, sourceEq,
      wordLt, buffered⟩⟩ <;> dsimp only <;> omega

end Steps

/-- The tail loop of `GetBatch`: `count` values in a row from `position`. -/
theorem getValues_spec {reader : BitReader} {source : List UInt8} {position : Nat} (reads : reader.Reads source position)
    {T : ValueType} {numBits : Nat} (narrow : numBits ≤ 32) (count : Nat)
    (room : position + count * numBits ≤ 8 * source.length) :
    ∃ next, reader.getValues_ T numBits count =
        some ((readValues (leValue source) numBits position count).map T.cast, next) ∧
      next.Reads source (position + count * numBits) := by
  induction count generalizing reader position with
  | zero => exact ⟨reader, rfl, by simpa using reads⟩
  | succ count inductionHypothesis =>
    obtain ⟨middle, step, middleReads⟩ := @getValue_spec _ _ _ reads T numBits narrow (by rw [Nat.succ_mul] at room; omega)
    obtain ⟨next, rest, nextReads⟩ := inductionHypothesis middleReads (by rw [Nat.succ_mul] at room; omega)
    refine ⟨next, by simp [getValues_, step, rest, readValues], ?_⟩
    rw [Nat.succ_mul, ← Nat.add_assoc, Nat.add_right_comm]
    exact nextReads

/-- The head loop of `GetBatch` reads `taken ≤ count` values in a row, and stops early
only on a word boundary. -/
theorem headLoop_spec {reader : BitReader} {source : List UInt8} {position : Nat} (reads : reader.Reads source position)
    {T : ValueType} {numBits : Nat} (narrow : numBits ≤ 32) (count : Nat)
    (room : position + count * numBits ≤ 8 * source.length) :
    ∃ taken next, taken ≤ count ∧ (taken = count ∨ next.bitOffset = 0) ∧
      reader.headLoop T numBits count = some ((readValues (leValue source) numBits position taken).map T.cast, next) ∧
      next.Reads source (position + taken * numBits) := by
  induction count generalizing reader position with
  | zero => exact ⟨0, reader, le_rfl, .inl rfl, rfl, by simpa using reads⟩
  | succ count inductionHypothesis =>
    by_cases boundary : reader.bitOffset = 0
    · exact ⟨0, reader, Nat.zero_le _, .inr boundary, by simp [headLoop, boundary, readValues],
      by simpa using reads⟩
    · obtain ⟨middle, step, middleReads⟩ := @getValue_spec _ _ _ reads T numBits narrow (by rw [Nat.succ_mul] at room; omega)
      obtain ⟨taken, next, fewer, stop, rest, nextReads⟩ :=
        inductionHypothesis middleReads (by rw [Nat.succ_mul] at room; omega)
      refine ⟨taken + 1, next, by omega, by omega, by simp [headLoop, boundary, step, rest, readValues], ?_⟩
      rw [Nat.succ_mul, ← Nat.add_assoc, Nat.add_right_comm]
      exact nextReads

/-- `GetAligned<T>(num_bytes)`: it fails, leaving the reader as it was, unless
`num_bytes` fits in `T` and in the buffer after the current byte; it then copies the
bytes from `⌈position/8⌉` on and stops on the byte boundary after them. -/
theorem getAligned_spec {reader : BitReader} {source : List UInt8} {position : Nat} (reads : reader.Reads source position)
    {size numBytes : Nat} (moderate : size ≤ 2 ^ 30) :
    (size < numBytes ∨ source.length < (position + 7) / 8 + numBytes →
      reader.getAligned size numBytes = some (none, reader)) ∧
    (numBytes ≤ size → (position + 7) / 8 + numBytes ≤ source.length → ∃ next,
      reader.getAligned size numBytes = some (some ((source.drop ((position + 7) / 8)).take numBytes), next) ∧
      next.Reads source (8 * ((position + 7) / 8 + numBytes))) := by
  have ⟨bitLow, bitHigh, byteLow, positionEq, _, small, maxEq, sourceEq, wordLt, _⟩ := reads
  have start : reader.byteOffset + bytesForBits reader.bitOffset = ((position + 7) / 8 : Nat) := by
    rw [bytesForBits_eq]; omega
  simp only [getAligned]
  rw [start, int32_of_range (show -2 ^ 31 ≤ (((position + 7) / 8 : Nat) : Int) by omega) (by omega)]
  refine ⟨fun fails => ?_, fun enough room => ?_⟩
  · by_cases large : size < numBytes
    · rw [if_pos (by omega)]
    · rw [if_neg (by omega), int32_of_range (by omega) (by omega), if_pos (by omega)]
  · obtain ⟨refilled, refill, refilledBound, refilledValid⟩ :=
      refillAt_spec maxEq sourceEq small (by omega) (show (((position + 7) / 8 + numBytes : Nat) : Int) ≤ source.length by omega) wordLt
    rw [if_neg (by omega), int32_of_range (by omega) (by omega), if_neg (by omega), Option.bind_eq_bind,
      loadBytes_eq (by omega) (by omega) (by omega), Option.some_bind, Int.toNat_ofNat, Int.toNat_ofNat,
      take_drop_source sourceEq room, ← Nat.cast_add, refill, Option.bind_eq_bind, Option.some_bind]
    refine ⟨_, rfl, ⟨le_rfl, by simp, ?_, ?_, by omega, small, maxEq, sourceEq, refilledBound, refilledValid⟩⟩ <;>
      dsimp only <;> omega

end Parquet4Seastar.BitUtil.BitReader
