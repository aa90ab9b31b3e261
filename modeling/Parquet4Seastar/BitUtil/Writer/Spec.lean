import Parquet4Seastar.BitUtil.Writer.Basic

/-! # `BitWriter` below the overflow range

While `max_bytes_ ≤ 2^27` no `int` expression of the writer leaves `int`, the `int32`
wraps vanish, and each member function is a plain arithmetic update of the state. This
module states the representation invariant the writer keeps in that range and one
equation per member (`putValue_eq`, `flush_eq`, `getNextBytePtr_eq`, `putAligned_eq`);
later proofs about the writer rewrite with these equations and never unfold a member.
-/

namespace Parquet4Seastar.BitUtil.BitWriter

structure Invariant (writer : BitWriter) : Prop where
  bitOffset_nonneg : 0 ≤ writer.bitOffset
  bitOffset_lt : writer.bitOffset < 64
  byteOffset_nonneg : 0 ≤ writer.byteOffset
  within : 8 * writer.byteOffset + writer.bitOffset ≤ 8 * writer.maxBytes
  small : writer.maxBytes ≤ 2 ^ 27
  allocated : writer.maxBytes ≤ writer.buffer.length
  buffered_lt : writer.bufferedValues < 2 ^ writer.bitOffset.toNat

theorem invariant_init {buffer : List UInt8} {bufferLen : Int} (nonneg : 0 ≤ bufferLen)
    (small : bufferLen ≤ 2 ^ 27) (allocated : bufferLen ≤ buffer.length) : (init buffer bufferLen).Invariant :=
  ⟨le_rfl, by simp [init], le_rfl, by simp [init]; omega, small, allocated, by simp [init]⟩

/-- The buffer after `Flush`: the `⌈bit_offset_/8⌉` low bytes of the accumulator written at
`byte_offset_`. -/
def flushedBuffer (writer : BitWriter) : List UInt8 :=
  spliceBytes writer.buffer writer.byteOffset.toNat
    (leBytes writer.bufferedValues ((writer.bitOffset + 7) / 8).toNat)

/-- The writer after `Flush(true)`: the partial byte is committed and the stream is
aligned to the next byte. -/
def aligned (writer : BitWriter) : BitWriter :=
  { writer with
    buffer := writer.flushedBuffer
    bufferedValues := 0
    byteOffset := writer.byteOffset + (writer.bitOffset + 7) / 8
    bitOffset := 0 }

@[simp] theorem aligned_buffer (writer : BitWriter) : writer.aligned.buffer = writer.flushedBuffer := rfl
@[simp] theorem aligned_maxBytes (writer : BitWriter) : writer.aligned.maxBytes = writer.maxBytes := rfl
@[simp] theorem aligned_bufferedValues (writer : BitWriter) : writer.aligned.bufferedValues = 0 := rfl
@[simp] theorem aligned_bitOffset (writer : BitWriter) : writer.aligned.bitOffset = 0 := rfl
@[simp] theorem aligned_byteOffset (writer : BitWriter) :
    writer.aligned.byteOffset = writer.byteOffset + (writer.bitOffset + 7) / 8 := rfl

theorem invariant_aligned {writer : BitWriter} (invariant : writer.Invariant) : writer.aligned.Invariant := by
  have ⟨bitLow, bitHigh, byteLow, within, small, allocated, _⟩ := invariant
  refine ⟨le_rfl, by simp, by simp; omega, by simp; omega, small, ?_, by simp⟩
  rw [aligned_buffer, flushedBuffer, aligned_maxBytes, length_spliceBytes (length_leBytes _ _) (by omega)]
  exact allocated

section Equations

variable {writer : BitWriter} (invariant : writer.Invariant)
include invariant

theorem maxBytes_nonneg : 0 ≤ writer.maxBytes := by
  have := invariant.within; have := invariant.byteOffset_nonneg; have := invariant.bitOffset_nonneg; omega

theorem putValue_eq {v numBits : Nat} (narrow : numBits ≤ 32) (fits : v < 2 ^ numBits) :
    writer.putValue v numBits =
      if 8 * writer.maxBytes < 8 * writer.byteOffset + writer.bitOffset + numBits then some (false, writer)
      else if writer.bitOffset + numBits < 64 then
        some (true, { writer with
          bufferedValues := writer.bufferedValues + 2 ^ writer.bitOffset.toNat * v
          bitOffset := writer.bitOffset + numBits })
      else
        some (true, { writer with
          buffer := spliceBytes writer.buffer writer.byteOffset.toNat
            (leBytes (writer.bufferedValues + 2 ^ writer.bitOffset.toNat * v) 8)
          bufferedValues := v / 2 ^ (64 - writer.bitOffset).toNat
          byteOffset := writer.byteOffset + 8
          bitOffset := writer.bitOffset + numBits - 64 }) := by
  obtain ⟨bitLow, bitHigh, byteLow, within, small, allocated, bufferedBound⟩ := invariant
  have noShift : v >>> numBits = 0 := by rw [Nat.shiftRight_eq_div_pow, Nat.div_eq_of_lt fits]
  have word := @or_shiftLeft_eq _ _ 64 v bufferedBound (by omega)
  unfold putValue
  rw [if_neg (by omega), int32_of_range (by omega) (by omega), int32_of_range (by omega) (by omega),
    int32_of_range (by omega) (by omega), word]
  by_cases full : 8 * writer.maxBytes < 8 * writer.byteOffset + writer.bitOffset + numBits
  · rw [if_pos (by omega), if_pos full]
  rw [if_neg (by omega), if_neg full]
  by_cases crossing : writer.bitOffset + numBits < 64
  · have sum : writer.bufferedValues + 2 ^ writer.bitOffset.toNat * v < 2 ^ 64 :=
      Nat.lt_of_lt_of_le (add_two_pow_mul_lt bufferedBound fits) (Nat.pow_le_pow_right (by decide) (by omega))
    rw [if_neg (by omega), if_neg (by omega), if_pos crossing, Nat.mod_eq_of_lt sum]
  · rw [if_pos (by omega), if_neg crossing, storeBytes_eq _ byteLow (by decide) (by omega)]
    simp only [Option.bind_eq_bind, Option.some_bind]
    rw [int32_of_range (by omega) (by omega), if_neg (by omega), int32_of_range (by omega) (by omega),
      int32_of_range (by omega) (by omega), show (8 : Int).toNat = 8 from rfl,
      show (2 : Nat) ^ 64 = 2 ^ (8 * 8) from rfl, leBytes_mod, Nat.shiftRight_eq_div_pow,
      show (↑numBits - (writer.bitOffset + ↑numBits - 64)).toNat = (64 - writer.bitOffset).toNat by omega]

theorem flush_eq (align : Bool) :
    writer.flush align = some (if align then writer.aligned else { writer with buffer := writer.flushedBuffer }) := by
  obtain ⟨bitLow, bitHigh, byteLow, within, small, allocated, bufferedBound⟩ := invariant
  simp only [flush, bytesForBits_eq]
  rw [int32_of_range (by omega) (by omega), if_neg (by omega), storeBytes_eq _ byteLow (by omega) (by omega)]
  cases align <;> rfl

theorem getNextBytePtr_eq {numBytes : Nat} (moderate : numBytes ≤ 2 ^ 30) :
    writer.getNextBytePtr numBytes =
      if writer.maxBytes < writer.aligned.byteOffset + numBytes then some (none, writer.aligned)
      else some (some writer.aligned.byteOffset, { writer.aligned with byteOffset := writer.aligned.byteOffset + numBytes }) := by
  have ⟨bitLow, bitHigh, byteLow, within, small, allocated, bufferedBound⟩ := invariant
  unfold getNextBytePtr
  rw [flush_eq invariant, Option.bind_eq_bind, Option.some_bind, if_pos rfl]
  simp only [aligned]
  rw [if_neg (by omega), int32_of_range (by omega) (by omega)]

theorem putAligned_eq {size val numBytes : Nat} (enough : numBytes ≤ size) (moderate : size ≤ 2 ^ 30) :
    writer.putAligned size val numBytes =
      if writer.maxBytes < writer.aligned.byteOffset + numBytes then some (false, writer.aligned)
      else some (true, { writer.aligned with
        buffer := spliceBytes writer.aligned.buffer writer.aligned.byteOffset.toNat (leBytes val numBytes)
        byteOffset := writer.aligned.byteOffset + numBytes }) := by
  have ⟨bitLow, bitHigh, byteLow, within, small, allocated, bufferedBound⟩ := invariant
  unfold putAligned
  rw [getNextBytePtr_eq invariant (by omega)]
  split
  · rfl
  · next room =>
    simp only [Option.bind_eq_bind, Option.some_bind]
    simp only [aligned_byteOffset, aligned_maxBytes] at room ⊢
    rw [if_neg (by omega), storeBytes_eq _ (by omega) (by omega) (by omega)]
    rfl

end Equations

end Parquet4Seastar.BitUtil.BitWriter
