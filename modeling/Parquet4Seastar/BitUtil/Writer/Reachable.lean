import Parquet4Seastar.BitUtil.Writer.Stream

/-! # Reachable writer states

`Reachable limit` is the set of states a caller reaches from `BitWriter(buffer, len)`
with `len ≤ 2^27`, by the calls of `WriterOp`, `GetNextBytePtr`, `Clear` and
`update_buffer`, passing lengths of at most `limit` to the last two. With
`limit = 2^27` every reachable state keeps the representation invariant, so no call,
`GetNextBytePtr` included, fails an assertion or stores outside the buffer
(`reachable_invariant`). The `int`
arithmetic of the capacity checks does not scale beyond that: `max_bytes_ * 8` wraps
from `2^28` bytes on (`putValue_rejects_fitting_bit`), and an `update_buffer` to a buffer
of `2^28 - 1` bytes lets `PutValue` run past its end (`reachable_writer_overruns`).
-/

namespace Parquet4Seastar.BitUtil.BitWriter

/-- A state that keeps the invariant holds the stream of its committed bytes followed by
its accumulator. -/
theorem represents_of_invariant {writer : BitWriter} (invariant : writer.Invariant) :
    writer.Represents (bits (leValue (writer.buffer.take writer.byteOffset.toNat) +
      2 ^ (8 * writer.byteOffset.toNat) * writer.bufferedValues) (8 * writer.byteOffset.toNat + writer.bitOffset.toNat)) := by
  have ⟨bitLow, _, byteLow, within, _, allocated, bufferedBound⟩ := invariant
  have committedBound : leValue (writer.buffer.take writer.byteOffset.toNat) < 2 ^ (8 * writer.byteOffset.toNat) := by
    have bound := leValue_lt (writer.buffer.take writer.byteOffset.toNat)
    rwa [List.length_take_of_le (by omega)] at bound
  have valueBound := add_two_pow_mul_lt committedBound bufferedBound
  refine ⟨invariant, by simp; omega, ?_, ?_⟩
  · rw [bitsValue_bits, Nat.mod_eq_of_lt valueBound, Nat.add_mul_mod_self_left, Nat.mod_eq_of_lt committedBound]
  · rw [bitsValue_bits, Nat.mod_eq_of_lt valueBound, Nat.add_mul_div_left _ _ (Nat.two_pow_pos _),
      Nat.div_eq_of_lt committedBound, Nat.zero_add]

/-- `GetNextBytePtr` keeps the invariant: it flushes and realigns, then reserves the
bytes only when they fit. -/
theorem invariant_getNextBytePtr {writer next : BitWriter} (invariant : writer.Invariant) {numBytes : Nat}
    {pointer : Option Int} (moderate : numBytes ≤ 2 ^ 30)
    (reserved : writer.getNextBytePtr numBytes = some (pointer, next)) : next.Invariant := by
  have ⟨_, _, byteLow, within, small, allocated, _⟩ := invariant_aligned invariant
  rw [getNextBytePtr_eq invariant moderate] at reserved
  split at reserved
  · cases reserved
    exact invariant_aligned invariant
  · next room =>
    cases reserved
    exact ⟨le_rfl, by simp, by simp at byteLow ⊢; omega, by simp at room ⊢; omega, small, allocated, by simp⟩

theorem invariant_clear {writer : BitWriter} (invariant : writer.Invariant) : writer.clear.Invariant :=
  ⟨le_rfl, by simp [clear], le_rfl, by simp [clear]; have := maxBytes_nonneg invariant; omega, invariant.small,
    invariant.allocated, by simp [clear]⟩

/-- `update_buffer` keeps the invariant for a buffer that still holds the bytes written
and is no longer than `2^27` bytes. -/
theorem invariant_updateBuffer {writer : BitWriter} (invariant : writer.Invariant) {buffer : List UInt8}
    {bufferLen : Int} (holds : writer.bytesWritten ≤ bufferLen) (small : bufferLen ≤ 2 ^ 27)
    (allocated : bufferLen ≤ buffer.length) : (writer.updateBuffer buffer bufferLen).Invariant := by
  have ⟨bitLow, bitHigh, byteLow, within, _, _, bufferedBound⟩ := invariant
  have written := bytesWritten_eq (represents_of_invariant invariant)
  simp only [length_bits] at written
  exact ⟨bitLow, bitHigh, byteLow, by simp only [updateBuffer]; omega, small, allocated, bufferedBound⟩

/-- The states reachable from a fresh writer of at most `2^27` bytes, where the lengths
passed to `GetNextBytePtr` and `update_buffer` are at most `limit`. -/
inductive Reachable (limit : Int) : BitWriter → Prop
  | init {buffer : List UInt8} {bufferLen : Int} (nonneg : 0 ≤ bufferLen) (small : bufferLen ≤ 2 ^ 27)
      (allocated : bufferLen ≤ buffer.length) : Reachable limit (init buffer bufferLen)
  | run {writer next : BitWriter} {op : WriterOp} {ok : Bool} (reachable : Reachable limit writer)
      (wellFormed : op.WellFormed) (ran : op.run writer = some (ok, next)) : Reachable limit next
  | getNextBytePtr {writer next : BitWriter} {numBytes : Nat} {pointer : Option Int}
      (reachable : Reachable limit writer) (bounded : numBytes ≤ limit)
      (reserved : writer.getNextBytePtr numBytes = some (pointer, next)) : Reachable limit next
  | clear {writer : BitWriter} (reachable : Reachable limit writer) : Reachable limit writer.clear
  | updateBuffer {writer : BitWriter} {buffer : List UInt8} {bufferLen : Int} (reachable : Reachable limit writer)
      (holds : writer.bytesWritten ≤ bufferLen) (bounded : bufferLen ≤ limit) (allocated : bufferLen ≤ buffer.length) :
      Reachable limit (writer.updateBuffer buffer bufferLen)

/-- With every length at most `2^27`, each reachable state keeps the invariant, and every
call from it returns: no assertion fails and no store leaves the buffer. -/
theorem reachable_invariant {writer : BitWriter} (reachable : Reachable (2 ^ 27) writer) :
    writer.Invariant ∧ (∀ op : WriterOp, op.WellFormed → ∃ result, op.run writer = some result) ∧
      ∀ numBytes : Nat, numBytes ≤ 2 ^ 27 → ∃ result, writer.getNextBytePtr numBytes = some result := by
  have invariant : writer.Invariant := by
    induction reachable with
    | init nonneg small allocated => exact invariant_init nonneg small allocated
    | run _ wellFormed ran inductionHypothesis =>
      obtain ⟨_, _, _, run, nextRepresents, -⟩ := represents_run (represents_of_invariant inductionHypothesis) wellFormed
      rw [ran, Option.some.injEq, Prod.mk.injEq] at run
      exact run.2 ▸ nextRepresents.invariant
    | getNextBytePtr _ bounded reserved inductionHypothesis =>
      exact invariant_getNextBytePtr inductionHypothesis (by omega) reserved
    | clear _ inductionHypothesis => exact invariant_clear inductionHypothesis
    | updateBuffer _ holds bounded allocated inductionHypothesis =>
      exact invariant_updateBuffer inductionHypothesis holds bounded allocated
  refine ⟨invariant, fun op wellFormed => ?_, fun numBytes bounded => ?_⟩
  · obtain ⟨ok, next, _, run, -⟩ := represents_run (represents_of_invariant invariant) wellFormed
    exact ⟨(ok, next), run⟩
  · rw [getNextBytePtr_eq invariant (by omega)]
    split <;> exact ⟨_, rfl⟩

theorem reachable_invariant_after_calls :
    ∃ written reserved, (init [0, 0] 2).putValue 5 3 = some (true, written) ∧
      written.getNextBytePtr 1 = some (some 1, reserved) ∧ Reachable (2 ^ 27) reserved ∧ reserved.Invariant ∧
      (∀ op : WriterOp, op.WellFormed → ∃ result, op.run reserved = some result) ∧
      ∀ numBytes : Nat, numBytes ≤ 2 ^ 27 → ∃ result, reserved.getNextBytePtr numBytes = some result :=
  have fresh : Reachable (2 ^ 27) (init [0, 0] 2) := .init (by decide) (by decide) (by decide)
  have written := @Reachable.run _ _ _ (.putValue 5 3) true fresh (by decide) rfl
  have reserved := @Reachable.getNextBytePtr _ _ _ 1 (some 1) written (by decide) rfl
  ⟨_, _, rfl, rfl, reserved, reachable_invariant reserved⟩

/-! ## Beyond `2^27` bytes -/

/-- From `2^28` bytes on, `max_bytes_ * 8` wraps negative, and a fresh writer refuses
even its first bit. -/
theorem putValue_rejects_fitting_bit {buffer : List UInt8} {bufferLen : Int} (large : 2 ^ 28 ≤ bufferLen)
    (below : bufferLen < 2 ^ 29) : (init buffer bufferLen).putValue 0 1 = some (false, init buffer bufferLen) := by
  unfold putValue int32
  rw [if_neg (by decide), if_pos (by simp only [init]; omega)]

theorem putValue_rejects_fitting_bit_at_two_pow_28 :
    (2 : Int) ^ 28 ≤ 2 ^ 28 ∧ (2 : Int) ^ 28 < 2 ^ 29 ∧
      (init [] (2 ^ 28)).putValue 0 1 = some (false, init [] (2 ^ 28)) :=
  ⟨by decide, by decide, putValue_rejects_fitting_bit (by decide) (by decide)⟩

/-- Moving an empty writer to a buffer of `2^28 - 1` bytes and reserving all of them
leaves a state where `8 * byte_offset_ + bit_offset_ + 32` wraps: the next `PutValue`
of 32 bits succeeds past the end of the buffer, and the one after it stores outside. -/
theorem reachable_writer_overruns :
    ∃ writer, Reachable (2 ^ 31 - 1) writer ∧ 8 * writer.maxBytes < 8 * writer.byteOffset + writer.bitOffset ∧
      writer.putValue 0 32 = none := by
  have trace : ∃ reservedState overrun,
      ((init [] 0).updateBuffer (List.replicate (2 ^ 28 - 1) 0) (2 ^ 28 - 1)).getNextBytePtr
        ((2 ^ 28 - 1 : Nat) : Int) = some (some 0, reservedState) ∧
      reservedState.putValue 0 32 = some (true, overrun) ∧
      8 * overrun.maxBytes < 8 * overrun.byteOffset + overrun.bitOffset ∧ overrun.putValue 0 32 = none :=
    ⟨_, _, rfl, rfl, by decide, rfl⟩
  obtain ⟨reservedState, overrun, reserve, write, beyond, overflow⟩ := trace
  have fresh := @Reachable.init (2 ^ 31 - 1) [] 0 le_rfl (by decide) le_rfl
  have moved := @Reachable.updateBuffer _ _ (List.replicate (2 ^ 28 - 1) 0) (2 ^ 28 - 1) fresh (by decide)
    (by decide) (by rw [List.length_replicate]; decide)
  have reserved := @Reachable.getNextBytePtr _ _ _ (2 ^ 28 - 1) (some 0) moved (by decide) reserve
  exact ⟨overrun, @Reachable.run _ _ _ (.putValue 0 32) true reserved (by decide) write, beyond, overflow⟩

end Parquet4Seastar.BitUtil.BitWriter
