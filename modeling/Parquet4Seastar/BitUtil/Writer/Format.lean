import Parquet4Seastar.BitUtil.Writer.Spec

/-! # The bit-level format the writer emits

`WriterOp.reference` is the bit string a writer call appends, written from the format
description rather than from the code: LSB-first bit packing, zero padding to the next
byte before every aligned write, little-endian bytes, VLQ bytes.
`Represents writer stream` says the writer's state holds `stream`: the committed bytes
are its first `8·byte_offset_` bits and the accumulator holds the remaining
`bit_offset_` bits. Every member keeps `Represents` (`represents_putValue`,
`represents_flush`, `represents_putAligned`, `represents_putBytes`), so a run of calls
keeps it, and `represents_flush` also says that a `Flush` leaves the stream, zero-padded,
in the buffer.
-/

namespace Parquet4Seastar.BitUtil

def padToByte (stream : List Bool) : List Bool :=
  stream ++ List.replicate ((8 - stream.length % 8) % 8) false

theorem length_padToByte (stream : List Bool) :
    (padToByte stream).length = 8 * ((stream.length + 7) / 8) := by
  simp only [padToByte, List.length_append, List.length_replicate]; omega

@[simp] theorem bitsValue_replicate_false (count : Nat) : bitsValue (List.replicate count false) = 0 := by
  induction count with
  | zero => rfl
  | succ count inductionHypothesis => simp [List.replicate_succ, bitsValue, inductionHypothesis]

@[simp] theorem bitsValue_padToByte (stream : List Bool) : bitsValue (padToByte stream) = bitsValue stream := by
  simp [padToByte, bitsValue_append]

theorem padToByte_of_aligned {stream : List Bool} (aligned : stream.length % 8 = 0) : padToByte stream = stream := by
  simp [padToByte, aligned]

/-- The `8·⌈|stream|/8⌉` low bits of the stream's value are the stream zero-padded. -/
theorem bits_padded (stream : List Bool) :
    bits (bitsValue stream) (8 * ((stream.length + 7) / 8)) = padToByte stream := by
  have padding : 8 * ((stream.length + 7) / 8) = stream.length + (8 - stream.length % 8) % 8 := by omega
  rw [padding, bits_of_lt _ (bitsValue_lt stream), bits_bitsValue, padToByte]

theorem bitsValue_bytesBits (bytes : List UInt8) : bitsValue (bytesBits bytes) = leValue bytes := by
  rw [bytesBits_eq_bits, bitsValue_bits, Nat.mod_eq_of_lt (leValue_lt bytes)]

/-- The VLQ bytes of `value`: seven bits a byte, least significant group first, the top
bit set on every byte but the last. -/
def vlqBytes (value : Nat) : List UInt8 :=
  if value < 128 then [UInt8.ofNat value]
  else UInt8.ofNat (value % 128 + 128) :: vlqBytes (value / 128)
termination_by value

/-- Zigzag: `0, -1, 1, -2, ...` to `0, 1, 2, 3, ...`. -/
def zigzag (value : Int) : Nat := if 0 ≤ value then 2 * value.toNat else 2 * (-value).toNat - 1

theorem vlqBytes_ne_nil (value : Nat) : vlqBytes value ≠ [] := by
  rw [vlqBytes]; split <;> simp

/-- The last VLQ byte. -/
theorem vlqBytes_of_lt {value : Nat} (last : value < 128) : vlqBytes value = [UInt8.ofNat value] := by
  rw [vlqBytes, if_pos last]

/-- A VLQ byte with the continuation bit set, before the bytes of the higher groups. -/
theorem vlqBytes_of_le {value : Nat} (more : 128 ≤ value) :
    vlqBytes value = UInt8.ofNat (value % 128 + 128) :: vlqBytes (value / 128) := by
  rw [vlqBytes, if_neg (by omega)]

theorem zigzag_lt {value : Int} (low : -2 ^ 31 ≤ value) (high : value < 2 ^ 31) : zigzag value < 2 ^ 32 := by
  unfold zigzag; split <;> omega

namespace BitWriter

structure Represents (writer : BitWriter) (stream : List Bool) : Prop where
  invariant : writer.Invariant
  length_eq : (stream.length : Int) = 8 * writer.byteOffset + writer.bitOffset
  committed : leValue (writer.buffer.take writer.byteOffset.toNat) =
    bitsValue stream % 2 ^ (8 * writer.byteOffset.toNat)
  buffered : writer.bufferedValues = bitsValue stream / 2 ^ (8 * writer.byteOffset.toNat)

theorem represents_init {buffer : List UInt8} {bufferLen : Int} (nonneg : 0 ≤ bufferLen)
    (small : bufferLen ≤ 2 ^ 27) (allocated : bufferLen ≤ buffer.length) : (init buffer bufferLen).Represents [] :=
  ⟨invariant_init nonneg small allocated, by simp [init], by simp [init, leValue, bitsValue],
    by simp [init, bitsValue]⟩

/-- A writer with an empty accumulator holds exactly the bytes it committed. -/
theorem represents_of_aligned {writer : BitWriter} {stream : List Bool} (invariant : writer.Invariant)
    (noBits : writer.bitOffset = 0) (empty : writer.bufferedValues = 0)
    (length_eq : (stream.length : Int) = 8 * writer.byteOffset)
    (committed : leValue (writer.buffer.take writer.byteOffset.toNat) = bitsValue stream) :
    writer.Represents stream := by
  have whole : stream.length = 8 * writer.byteOffset.toNat := by omega
  have below := bitsValue_lt stream
  rw [whole] at below
  exact ⟨invariant, by omega, by rw [committed, Nat.mod_eq_of_lt below],
    by rw [empty, Nat.div_eq_of_lt below]⟩

section Simulation

variable {writer : BitWriter} {stream : List Bool} (represents : writer.Represents stream)
include represents

theorem bytesWritten_eq : writer.bytesWritten = ((stream.length : Int) + 7) / 8 := by
  obtain ⟨⟨bitLow, bitHigh, byteLow, within, small, -, -⟩, length_eq, -, -⟩ := id represents
  unfold bytesWritten
  rw [bytesForBits_eq, int32_of_range (by omega) (by omega), length_eq]; omega

theorem length_le : (stream.length : Int) ≤ 8 * writer.maxBytes := by
  obtain ⟨⟨-, -, -, within, -, -, -⟩, length_eq, -, -⟩ := id represents
  omega

/-- `PutValue`: the call succeeds exactly when the `num_bits` new bits still fit, a
success appends them to the stream, and a failure leaves the writer as it was. -/
theorem represents_putValue {v numBits : Nat} (narrow : numBits ≤ 32) (fits : v < 2 ^ numBits) :
    ∃ ok next, writer.putValue v numBits = some (ok, next) ∧
      (ok = true ↔ (stream ++ bits v numBits).length ≤ 8 * writer.maxBytes) ∧
      (ok = true → next.Represents (stream ++ bits v numBits)) ∧ (ok = false → next = writer) ∧
      next.maxBytes = writer.maxBytes := by
  have invariant := represents.invariant
  rw [putValue_eq invariant narrow fits]
  obtain ⟨buffer, maxBytes, bufferedValues, byteOffset, bitOffset⟩ := writer
  obtain ⟨⟨bitLow, bitHigh, byteLow, within, small, allocated, bufferedBound⟩, length_eq, committed, buffered⟩ :=
    represents
  obtain ⟨byteCount, rfl⟩ : ∃ byteCount : Nat, byteOffset = byteCount := ⟨_, (Int.toNat_of_nonneg byteLow).symm⟩
  obtain ⟨bitCount, rfl⟩ : ∃ bitCount : Nat, bitOffset = bitCount := ⟨_, (Int.toNat_of_nonneg bitLow).symm⟩
  simp only [Int.toNat_ofNat] at *
  have streamLength : stream.length = 8 * byteCount + bitCount := by omega
  have appended : bitsValue (stream ++ bits v numBits) = bitsValue stream + 2 ^ (8 * byteCount) * (2 ^ bitCount * v) := by
    rw [bitsValue_append, bitsValue_bits, Nat.mod_eq_of_lt fits, streamLength, Nat.pow_add, Nat.mul_assoc]
  have remainder : bitsValue (stream ++ bits v numBits) % 2 ^ (8 * byteCount) = bitsValue stream % 2 ^ (8 * byteCount) := by
    rw [appended, Nat.add_mul_mod_self_left]
  have quotient : bitsValue (stream ++ bits v numBits) / 2 ^ (8 * byteCount) =
      bufferedValues + 2 ^ bitCount * v := by
    rw [appended, Nat.add_mul_div_left _ _ (Nat.two_pow_pos _), buffered]
  simp only [List.length_append, length_bits]
  split
  · next full => exact ⟨false, _, rfl, by simp; omega, by simp, fun _ => rfl, rfl⟩
  split
  · next room inside =>
    refine ⟨true, _, rfl, by simp; omega, fun _ => ?_, by simp, rfl⟩
    refine ⟨⟨by dsimp only; omega, by dsimp only; omega, by dsimp only; omega, by dsimp only; omega, small,
      allocated, ?_⟩, by simp only [List.length_append, length_bits, Nat.cast_add]; omega,
      by simpa [remainder] using committed, by simpa using quotient.symm⟩
    simpa [Int.toNat_ofNat] using add_two_pow_mul_lt bufferedBound fits |>.trans_le
      (Nat.pow_le_pow_right (by decide) (by omega))
  · next room crossing =>
    refine ⟨true, _, rfl, by simp; omega, fun _ => ?_, by simp, rfl⟩
    have word : 2 ^ 64 = 2 ^ bitCount * 2 ^ (64 - bitCount) := by rw [← Nat.pow_add]; congr 1; omega
    have carried : (bufferedValues + 2 ^ bitCount * v) / 2 ^ 64 = v / 2 ^ (64 - bitCount) := by
      rw [word, ← Nat.div_div_eq_div_mul, Nat.add_mul_div_left _ _ (Nat.two_pow_pos _),
        Nat.div_eq_of_lt bufferedBound, Nat.zero_add]
    have room : byteCount + 8 ≤ buffer.length := by omega
    have offset : ((byteCount : Int) + 8).toNat = byteCount + 8 := by omega
    have shift : (64 - (bitCount : Int)).toNat = 64 - bitCount := by omega
    refine ⟨⟨by dsimp only; omega, by dsimp only; omega, by dsimp only; omega, by dsimp only; omega, small,
      by rw [length_spliceBytes (length_leBytes _ _) room]; exact allocated, ?_⟩,
      by simp only [List.length_append, length_bits, Nat.cast_add]; omega, ?_, ?_⟩
    · simp only [shift]
      rw [Nat.div_lt_iff_lt_mul (Nat.two_pow_pos _), ← Nat.pow_add]
      exact fits.trans_le (Nat.pow_le_pow_right (by decide) (by omega))
    · simp only [offset]
      rw [take_spliceBytes (length_leBytes _ _) room, leValue_append, leValue_leBytes,
        List.length_take_of_le (by omega), committed, Nat.mul_add, Nat.pow_add, Nat.mod_mul, remainder,
        quotient]
    · simp only [offset, shift]
      rw [Nat.mul_add, Nat.pow_add, ← Nat.div_div_eq_div_mul, quotient, carried]

/-- The flushed buffer holds the whole stream in its first `⌈|stream|/8⌉` bytes. -/
theorem leValue_flushedBuffer :
    leValue (writer.flushedBuffer.take (writer.byteOffset + (writer.bitOffset + 7) / 8).toNat) = bitsValue stream := by
  obtain ⟨⟨bitLow, bitHigh, byteLow, within, small, allocated, bufferedBound⟩, length_eq, -, -⟩ := id represents
  have padBytes : ((writer.bitOffset + 7) / 8).toNat * 8 ≥ writer.bitOffset.toNat := by omega
  have fitsPad : writer.bufferedValues < 2 ^ (8 * ((writer.bitOffset + 7) / 8).toNat) :=
    bufferedBound.trans_le (Nat.pow_le_pow_right (by decide) (by omega))
  rw [show (writer.byteOffset + (writer.bitOffset + 7) / 8).toNat =
      writer.byteOffset.toNat + ((writer.bitOffset + 7) / 8).toNat by omega,
    flushedBuffer, take_spliceBytes (length_leBytes _ _) (by omega), leValue_append, leValue_leBytes,
    Nat.mod_eq_of_lt fitsPad, List.length_take_of_le (by omega), represents.committed, represents.buffered,
    Nat.mod_add_div]

theorem represents_aligned : writer.aligned.Represents (padToByte stream) := by
  have ⟨invariant, length_eq, _, _⟩ := represents
  refine represents_of_aligned (invariant_aligned invariant) rfl rfl ?_ ?_
  · rw [length_padToByte, aligned_byteOffset]; omega
  · rw [aligned_buffer, aligned_byteOffset, bitsValue_padToByte, leValue_flushedBuffer represents]

theorem represents_flushed : { writer with buffer := writer.flushedBuffer }.Represents stream := by
  obtain ⟨⟨bitLow, bitHigh, byteLow, within, small, allocated, bufferedBound⟩, length_eq, committed, buffered⟩ :=
    id represents
  have sameLength := length_spliceBytes (length_leBytes writer.bufferedValues ((writer.bitOffset + 7) / 8).toNat)
    (show writer.byteOffset.toNat + _ ≤ writer.buffer.length by omega)
  refine ⟨⟨bitLow, bitHigh, byteLow, within, small, by simpa [flushedBuffer, sameLength] using allocated,
    bufferedBound⟩, length_eq, ?_, buffered⟩
  dsimp only
  rw [flushedBuffer, take_spliceBytes_of_le le_rfl (by omega)]
  exact committed

/-- After a flush the buffer's first `bytes_written()` bytes are the stream, zero-padded
to a byte boundary. -/
theorem bytesBits_flushedBuffer :
    bytesBits (writer.flushedBuffer.take (writer.byteOffset + (writer.bitOffset + 7) / 8).toNat) =
      padToByte stream := by
  obtain ⟨⟨bitLow, bitHigh, byteLow, within, small, allocated, -⟩, length_eq, -, -⟩ := id represents
  have sameLength := length_spliceBytes (length_leBytes writer.bufferedValues ((writer.bitOffset + 7) / 8).toNat)
    (show writer.byteOffset.toNat + _ ≤ writer.buffer.length by omega)
  rw [bytesBits_eq_bits, leValue_flushedBuffer represents, List.length_take, flushedBuffer, sameLength,
    Nat.min_eq_left (by omega), ← bits_padded, show (stream.length + 7) / 8 =
      (writer.byteOffset + (writer.bitOffset + 7) / 8).toNat by omega]

/-- `Flush`: the buffer then holds the stream, zero-padded, in its first
`bytes_written()` bytes; `Flush(true)` also moves the cursor past the padding. -/
theorem represents_flush (align : Bool) :
    ∃ next, writer.flush align = some next ∧ next.Represents (if align then padToByte stream else stream) ∧
      next.maxBytes = writer.maxBytes ∧ bytesBits (next.buffer.take next.bytesWritten.toNat) = padToByte stream := by
  obtain ⟨-, length_eq, -, -⟩ := id represents
  cases align with
  | true =>
    have alignedRepresents := represents_aligned represents
    rw [flush_eq represents.invariant, if_pos rfl]
    refine ⟨_, rfl, alignedRepresents, rfl, ?_⟩
    rw [bytesWritten_eq alignedRepresents, length_padToByte, aligned_buffer, ← bytesBits_flushedBuffer represents]
    congr 3; omega
  | false =>
    have flushedRepresents := represents_flushed represents
    rw [flush_eq represents.invariant, if_neg Bool.false_ne_true]
    refine ⟨_, rfl, flushedRepresents, rfl, ?_⟩
    rw [bytesWritten_eq flushedRepresents, ← bytesBits_flushedBuffer represents]
    congr 3; omega

/-- A writer on a byte boundary holds the whole stream in its committed bytes. -/
theorem leValue_committed (noBits : writer.bitOffset = 0) :
    leValue (writer.buffer.take writer.byteOffset.toNat) = bitsValue stream := by
  have ⟨_, length_eq, committed, _⟩ := represents
  have below := bitsValue_lt stream
  rw [show stream.length = 8 * writer.byteOffset.toNat by omega] at below
  rw [committed, Nat.mod_eq_of_lt below]

/-- Bytes written at the cursor of a writer on a byte boundary extend the stream by
their bits. -/
theorem represents_appendBytes (noBits : writer.bitOffset = 0) (empty : writer.bufferedValues = 0)
    {bytes : List UInt8} (room : writer.byteOffset + bytes.length ≤ writer.maxBytes) :
    { writer with
      buffer := spliceBytes writer.buffer writer.byteOffset.toNat bytes
      byteOffset := writer.byteOffset + bytes.length }.Represents (stream ++ bytesBits bytes) := by
  obtain ⟨⟨bitLow, bitHigh, byteLow, within, small, allocated, -⟩, length_eq, -, -⟩ := id represents
  have fits : writer.byteOffset.toNat + bytes.length ≤ writer.buffer.length := by omega
  refine represents_of_aligned ⟨by simp [noBits], by simp [noBits], by simp; omega, by simp; omega, small,
    by simp [length_spliceBytes rfl fits]; omega, by simp [empty, noBits]⟩ noBits empty ?_ ?_
  · simp only [List.length_append, length_bytesBits, Nat.cast_add, Nat.cast_mul]; omega
  · dsimp only
    rw [show (writer.byteOffset + bytes.length).toNat = writer.byteOffset.toNat + bytes.length by omega,
      take_spliceBytes rfl fits, leValue_append, leValue_committed represents noBits, bitsValue_append,
      bitsValue_bytesBits, List.length_take_of_le (by omega), show stream.length = 8 * writer.byteOffset.toNat by omega]

/-- `PutAligned`: the stream is padded to a byte boundary whatever happens; the call
succeeds exactly when the `num_bytes` bytes then fit, and a success appends them. -/
theorem represents_putAligned {size val numBytes : Nat} (enough : numBytes ≤ size) (moderate : size ≤ 2 ^ 30) :
    ∃ ok next, writer.putAligned size val numBytes = some (ok, next) ∧
      (ok = true ↔ (padToByte stream ++ bytesBits (leBytes val numBytes)).length ≤ 8 * writer.maxBytes) ∧
      (ok = true → next.Represents (padToByte stream ++ bytesBits (leBytes val numBytes))) ∧
      (ok = false → next = writer.aligned) ∧ next.bitOffset = 0 ∧ next.bufferedValues = 0 ∧
      next.maxBytes = writer.maxBytes := by
  have alignedStream := represents_aligned represents
  obtain ⟨-, length_eq, -, -⟩ := id represents
  rw [putAligned_eq represents.invariant enough moderate]
  split
  · next full =>
    refine ⟨false, _, rfl, ?_, by simp, fun _ => rfl, rfl, rfl, rfl⟩
    simp only [aligned_byteOffset] at full
    simp only [List.length_append, length_padToByte, length_bytesBits, length_leBytes]
    simp; omega
  · next room =>
    have appended := @represents_appendBytes writer.aligned (padToByte stream) alignedStream rfl rfl
      (leBytes val numBytes) (by simp only [aligned_byteOffset, aligned_maxBytes] at room ⊢; simp; omega)
    refine ⟨true, _, rfl, ?_, fun _ => by simpa using appended, by simp, rfl, rfl, rfl⟩
    simp only [aligned_byteOffset] at room
    simp only [List.length_append, length_padToByte, length_bytesBits, length_leBytes]
    simp; omega

end Simulation

theorem aligned_aligned {writer : BitWriter} (invariant : writer.Invariant) : writer.aligned.aligned = writer.aligned := by
  have ⟨_, _, byteLow, within, _, allocated, _⟩ := invariant
  simp only [aligned, flushedBuffer, aligned_byteOffset, aligned_bitOffset, aligned_bufferedValues]
  congr 1
  · rw [spliceBytes, show ((0 : Int) + 7) / 8 = 0 from rfl, Int.toNat_zero]
    simp [leBytes]
  · omega

/-- `PutAligned` aligns first, so it does the same from the aligned writer. -/
theorem putAligned_aligned {writer : BitWriter} (invariant : writer.Invariant) {size val numBytes : Nat}
    (enough : numBytes ≤ size) (moderate : size ≤ 2 ^ 30) :
    writer.aligned.putAligned size val numBytes = writer.putAligned size val numBytes := by
  rw [putAligned_eq (invariant_aligned invariant) enough moderate, putAligned_eq invariant enough moderate,
    aligned_aligned invariant, aligned_maxBytes]

/-! ## `PutVlqInt` -/

theorem vlqMask_eq (value : Nat) : value &&& 0xFFFFFF80 = value % 2 ^ 32 / 2 ^ 7 * 2 ^ 7 := by
  apply Nat.eq_of_testBit_eq
  intro index
  have mask : (0xFFFFFF80 : Nat) = 2 ^ 7 * (2 ^ 25 - 1) := by norm_num
  rw [mask, Nat.mul_comm (_ / _), Nat.testBit_and, Nat.testBit_mul_pow_two, Nat.testBit_mul_pow_two,
    Nat.testBit_two_pow_sub_one, ← Nat.shiftRight_eq_div_pow, Nat.testBit_shiftRight, Nat.testBit_mod_two_pow]
  by_cases low : 7 ≤ index
  · rw [show 7 + (index - 7) = index by omega]
    by_cases high : index < 32
    · simp [low, high, show index - 7 < 25 by omega]
    · simp [low, high, show ¬ index - 7 < 25 by omega]
  · simp [low]

theorem vlqGuard_iff {value : Nat} (word : value < 2 ^ 32) : value &&& 0xFFFFFF80 ≠ 0 ↔ 128 ≤ value := by
  rw [vlqMask_eq, Nat.mod_eq_of_lt word]; omega

theorem continuationByte (value : Nat) : (value &&& 0x7F) ||| 0x80 = value % 128 + 128 := by
  have disjoint := Nat.mul_add_lt_is_or (Nat.mod_lt value (Nat.two_pow_pos 7)) 1
  rw [lowSevenBits, Nat.or_comm]
  norm_num at disjoint ⊢
  omega

/-- `PutAligned<uint8_t>(byte, 1)` for each byte in turn, folding the results with `&=`
as the loop of `PutVlqInt` does. -/
def putBytes (writer : BitWriter) : List UInt8 → Bool → Option (Bool × BitWriter)
  | [], result => some (result, writer)
  | byte :: rest, result => do
    let (ok, writer) ← writer.putAligned 1 byte.toNat 1
    writer.putBytes rest (result && ok)

/-- The loop of `PutVlqInt` writes the VLQ bytes one `PutAligned` at a time. -/
theorem putVlqLoop_eq (writer : BitWriter) (v : Nat) (result : Bool) (word : v < 2 ^ 32) :
    writer.putVlqLoop v result = writer.putBytes (vlqBytes v) result := by
  induction writer, v, result using putVlqLoop.induct with
  | case1 writer v result nonzero inductionHypothesis =>
    have large := (vlqGuard_iff word).mp nonzero
    have byteValue : (UInt8.ofNat (v % 128 + 128)).toNat = v % 128 + 128 := Nat.mod_eq_of_lt (by omega)
    rw [putVlqLoop, dif_pos nonzero, vlqBytes, if_neg (by omega), putBytes, byteValue, continuationByte]
    congr 1
    funext ⟨ok, next⟩
    show next.putVlqLoop (v >>> 7) (result && ok) = next.putBytes (vlqBytes (v / 128)) (result && ok)
    rw [inductionHypothesis ok next (by rw [Nat.shiftRight_eq_div_pow]; omega), Nat.shiftRight_eq_div_pow]
  | case2 writer v result small =>
    have below : v < 128 := by rw [vlqGuard_iff word] at small; omega
    rw [putVlqLoop, dif_neg small, vlqBytes, if_pos below]
    simp only [putBytes, lowSevenBits, show (UInt8.ofNat v).toNat = v from Nat.mod_eq_of_lt (by omega),
      Nat.mod_eq_of_lt below]


/-- `PutAligned` byte after byte from a writer on a byte boundary: the bytes that fit
are written, in order, until the buffer is full; the result is true exactly when all of
them fit. -/
theorem represents_putBytes {writer : BitWriter} {stream : List Bool} (represents : writer.Represents stream)
    (noBits : writer.bitOffset = 0) (empty : writer.bufferedValues = 0) (bytes : List UInt8) (result : Bool) :
    ∃ ok next, writer.putBytes bytes result = some (ok, next) ∧
      ok = (result && decide (writer.byteOffset + bytes.length ≤ writer.maxBytes)) ∧
      next.Represents (stream ++ bytesBits (bytes.take (writer.maxBytes - writer.byteOffset).toNat)) ∧
      next.maxBytes = writer.maxBytes := by
  induction bytes generalizing writer stream result with
  | nil =>
    obtain ⟨⟨-, -, -, within, -, -, -⟩, -, -, -⟩ := id represents
    refine ⟨result, writer, rfl, ?_, by simpa using represents, rfl⟩
    simp only [List.length_nil, Nat.cast_zero, Int.add_zero]
    rw [decide_eq_true (by omega), Bool.and_true]
  | cons byte rest inductionHypothesis =>
    obtain ⟨⟨-, -, byteLow, within, -, -, -⟩, length_eq, -, -⟩ := id represents
    have aligned : padToByte stream = stream := padToByte_of_aligned (by omega)
    obtain ⟨ok, next, run, fits, success, failure, nextNoBits, nextEmpty, nextMax⟩ :=
      @represents_putAligned writer stream represents 1 byte.toNat 1 le_rfl (by decide)
    rw [leBytes_toNat, aligned] at fits success
    rw [Nat.cast_one] at run
    simp only [putBytes, run, Option.bind_eq_bind, Option.some_bind]
    cases ok with
    | true =>
      have nextRepresents := success rfl
      obtain ⟨-, nextLength, -, -⟩ := id nextRepresents
      obtain ⟨okRest, last, runRest, restFits, lastRepresents, lastMax⟩ :=
        inductionHypothesis nextRepresents nextNoBits nextEmpty (result && true)
      have nextOffset : next.byteOffset = writer.byteOffset + 1 := by
        simp only [List.length_append, length_bytesBits, List.length_singleton] at nextLength; omega
      have room : writer.byteOffset + 1 ≤ writer.maxBytes := by
        have := fits.mp rfl
        simp only [List.length_append, length_bytesBits, List.length_singleton] at this; omega
      obtain ⟨spare, spareEq⟩ : ∃ spare, (writer.maxBytes - writer.byteOffset).toNat = spare + 1 :=
        ⟨(writer.maxBytes - writer.byteOffset).toNat - 1, by omega⟩
      rw [nextOffset, nextMax, show (writer.maxBytes - (writer.byteOffset + 1)).toNat = spare by omega]
        at lastRepresents
      refine ⟨okRest, last, runRest, ?_, ?_, lastMax.trans nextMax⟩
      · have sameBound : writer.byteOffset + 1 + (rest.length : Int) ≤ writer.maxBytes ↔
            writer.byteOffset + ((byte :: rest).length : Int) ≤ writer.maxBytes := by simp; omega
        rw [restFits, nextOffset, nextMax, Bool.and_true]
        exact congrArg (result && ·) (decide_eq_decide.mpr sameBound)
      · rw [spareEq, List.take_succ_cons, show byte :: rest.take spare = [byte] ++ rest.take spare from rfl,
          bytesBits_append, ← List.append_assoc]
        exact lastRepresents
    | false =>
      have full : writer.maxBytes < writer.byteOffset + 1 := by
        have := fits.not.mp (by simp)
        simp only [List.length_append, length_bytesBits, List.length_singleton] at this; omega
      have nextRepresents : next.Represents stream := by
        rw [failure rfl, ← aligned]; exact represents_aligned represents
      have nextOffset : next.byteOffset = writer.byteOffset := by rw [failure rfl, aligned_byteOffset, noBits]; omega
      obtain ⟨okRest, last, runRest, restFits, lastRepresents, lastMax⟩ :=
        inductionHypothesis nextRepresents nextNoBits nextEmpty (result && false)
      rw [nextOffset, nextMax, show (writer.maxBytes - writer.byteOffset).toNat = 0 by omega] at lastRepresents
      refine ⟨okRest, last, runRest, ?_, ?_, lastMax.trans nextMax⟩
      · rw [restFits, Bool.and_false, Bool.false_and, decide_eq_false (by simp; omega), Bool.and_false]
      · rw [show (writer.maxBytes - writer.byteOffset).toNat = 0 by omega]
        simpa using lastRepresents

/-- `PutVlqInt`: the stream is padded to a byte boundary, then the VLQ bytes are written
up to the end of the buffer; the call succeeds exactly when all of them fit. -/
theorem represents_putVlqInt {writer : BitWriter} {stream : List Bool} (represents : writer.Represents stream)
    {v : Nat} (word : v < 2 ^ 32) :
    ∃ ok next, writer.putVlqInt v = some (ok, next) ∧
      (ok = true ↔ (padToByte stream ++ bytesBits (vlqBytes v)).length ≤ 8 * writer.maxBytes) ∧
      next.Represents (padToByte stream ++
        bytesBits ((vlqBytes v).take (writer.maxBytes - ((stream.length : Int) + 7) / 8).toNat)) ∧
      next.maxBytes = writer.maxBytes := by
  have ⟨invariant, length_eq, _, _⟩ := represents
  have alignedOffset : writer.aligned.byteOffset = ((stream.length : Int) + 7) / 8 := by
    rw [aligned_byteOffset]; omega
  obtain ⟨byte, rest, bytesEq⟩ := List.exists_cons_of_ne_nil (vlqBytes_ne_nil v)
  have sameByte := @putAligned_aligned writer invariant 1 byte.toNat 1 le_rfl (by decide)
  rw [Nat.cast_one] at sameByte
  have fromAligned : writer.putBytes (byte :: rest) true = writer.aligned.putBytes (byte :: rest) true := by
    rw [putBytes, putBytes, sameByte]
  obtain ⟨ok, next, run, fits, nextRepresents, nextMax⟩ :=
    represents_putBytes (represents_aligned represents) rfl rfl (byte :: rest) true
  rw [aligned_maxBytes, alignedOffset, ← bytesEq] at fits nextRepresents
  rw [aligned_maxBytes] at nextMax
  refine ⟨ok, next, by rw [putVlqInt, putVlqLoop_eq _ _ _ word, bytesEq, fromAligned, run], ?_, nextRepresents,
    nextMax⟩
  rw [fits, Bool.true_and, decide_eq_true_iff, List.length_append, length_padToByte, length_bytesBits]
  omega

theorem putZigZagVlqInt_eq (writer : BitWriter) {v : Int} (low : -2 ^ 31 ≤ v) (high : v < 2 ^ 31) :
    writer.putZigZagVlqInt v = writer.putVlqInt (zigzag v) := by
  rw [putZigZagVlqInt, Nat.shiftLeft_eq, zigzag]
  congr 1
  split
  · next nonneg =>
    rw [show v / 2 ^ 31 % 2 ^ 32 = 0 by omega, Int.toNat_zero, Nat.xor_zero]
    omega
  · next negative =>
    rw [show Int.toNat (v / 2 ^ 31 % 2 ^ 32) = 2 ^ 32 - 1 by omega,
      xor_two_pow_sub_one (Nat.mod_lt _ (Nat.two_pow_pos _))]
    omega

end BitWriter

end Parquet4Seastar.BitUtil
