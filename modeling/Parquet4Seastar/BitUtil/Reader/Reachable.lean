import Parquet4Seastar.BitUtil.Reader.Vlq
import Parquet4Seastar.BitUtil.Reader.Batch

/-! # Reachable reader states

`Reachable` is the set of states a caller reaches from `BitReader(buffer, L)` or
`Reset(buffer, L)` with `L ≤ 2^27`, by the reading members. Each member takes a state
that reads its buffer at some cursor (`Reads`) to one that reads it at another cursor, so
every reachable state reads its buffer (`reads_of_reachable`). In the source's terms that
is the representation invariant `Invariant` (`invariant_of_reads`): the offsets are in
range, and the accumulator's valid low bytes are the buffer's bytes at `byte_offset_`,
whatever its high bytes hold after a short refill.

From such a state every call with its arguments in range returns, so that no `memcpy`
leaves `buffer[0, L)` and no assertion fails, and it yields values of the buffer's first
`L` bytes and the cursor alone (`reachable_reader_invariant`). `GetAligned` does not
check that `num_bytes` is not negative: such a count passes both of its checks and
reaches `memcpy` (`getAligned_negative_count`).
-/

namespace Parquet4Seastar.BitUtil.BitReader

/-- The representation invariant: `0 ≤ bit_offset_ < 64`, the cursor inside the buffer,
and the low `min(8, max_bytes_ - byte_offset_)` bytes of the accumulator equal to
`buffer[byte_offset_, byte_offset_ + min(8, max_bytes_ - byte_offset_))`. -/
structure Invariant (reader : BitReader) : Prop where
  bitOffset_nonneg : 0 ≤ reader.bitOffset
  bitOffset_lt : reader.bitOffset < 64
  within : 8 * reader.byteOffset + reader.bitOffset ≤ 8 * reader.maxBytes
  buffered : leBytes reader.bufferedValues (validBytes reader.maxBytes.toNat reader.byteOffset) =
    (reader.buffer.drop reader.byteOffset.toNat).take (validBytes reader.maxBytes.toNat reader.byteOffset)

instance (reader : BitReader) : Decidable reader.Invariant :=
  decidable_of_iff (0 ≤ reader.bitOffset ∧ reader.bitOffset < 64 ∧
      8 * reader.byteOffset + reader.bitOffset ≤ 8 * reader.maxBytes ∧
      leBytes reader.bufferedValues (validBytes reader.maxBytes.toNat reader.byteOffset) =
        (reader.buffer.drop reader.byteOffset.toNat).take (validBytes reader.maxBytes.toNat reader.byteOffset))
    ⟨fun ⟨a, b, c, d⟩ => ⟨a, b, c, d⟩, fun ⟨a, b, c, d⟩ => ⟨a, b, c, d⟩⟩

/-- A state that reads its buffer keeps the invariant: its valid accumulator bytes are the
buffer's. -/
theorem invariant_of_reads {reader : BitReader} {source : List UInt8} {position : Nat}
    (reads : reader.Reads source position) : reader.Invariant := by
  obtain ⟨bitLow, bitHigh, byteLow, positionEq, within, _, maxEq, sourceEq, _, buffered⟩ := reads
  have lengthEq : reader.maxBytes.toNat = source.length := by omega
  have inside : reader.byteOffset.toNat + validBytes source.length reader.byteOffset ≤ source.length := by
    unfold validBytes; omega
  have sliceLength := leBytes_leValue ((source.drop reader.byteOffset.toNat).take (validBytes source.length reader.byteOffset))
  rw [List.length_take_of_le (by rw [List.length_drop]; omega)] at sliceLength
  refine ⟨bitLow, bitHigh, by omega, ?_⟩
  rw [lengthEq, ← leBytes_mod, buffered, ← leValue_drop, ← leValue_take, sliceLength, take_drop_source sourceEq inside]

/-- The states reachable from `BitReader(buffer, L)` and `Reset(buffer, L)` over a buffer
of `L ≤ 2^27` bytes, whatever the accumulator held before, by the reading members;
`GetBatch` with the bounds under which its `int` arithmetic does not wrap. -/
inductive Reachable : BitReader → Prop
  | init {buffer : List UInt8} {bufferLen : Int} {stale : Nat} {reader : BitReader} (nonneg : 0 ≤ bufferLen)
      (small : bufferLen ≤ 2 ^ 27) (allocated : bufferLen ≤ buffer.length) (staleBound : stale < 2 ^ 64)
      (fresh : init buffer bufferLen stale = some reader) : Reachable reader
  | reset {previous reader : BitReader} {buffer : List UInt8} {bufferLen : Int}
      (word : previous.bufferedValues < 2 ^ 64) (nonneg : 0 ≤ bufferLen) (small : bufferLen ≤ 2 ^ 27)
      (allocated : bufferLen ≤ buffer.length) (fresh : previous.reset buffer bufferLen = some reader) :
      Reachable reader
  | getValue {reader next : BitReader} {T : ValueType} {numBits : Nat} {value : Option Nat}
      (reachable : Reachable reader) (ran : reader.getValue T numBits = some (value, next)) : Reachable next
  | getBatch {reader next : BitReader} {T : ValueType} {numBits : Nat} {batchSize count : Int} {values : List Nat}
      (reachable : Reachable reader) (narrow : numBits ≤ 32) (nonneg : 0 ≤ batchSize)
      (product : numBits * batchSize < 2 ^ 31)
      (ran : reader.getBatch T numBits batchSize = some (count, values, next)) : Reachable next
  | getAligned {reader next : BitReader} {size : Nat} {numBytes : Int} {bytes : Option (List UInt8)}
      (reachable : Reachable reader) (ran : reader.getAligned size numBytes = some (bytes, next)) : Reachable next
  | getVlqInt {reader next : BitReader} {value : Option Nat} (reachable : Reachable reader)
      (ran : reader.getVlqInt = some (value, next)) : Reachable next
  | getZigZagVlqInt {reader next : BitReader} {value : Option Int} (reachable : Reachable reader)
      (ran : reader.getZigZagVlqInt = some (value, next)) : Reachable next

/-- `GetAligned<T>` looks at `sizeof(T)` only to refuse a count above it. -/
theorem getAligned_of_le {reader : BitReader} {size numBytes : Nat} (enough : numBytes ≤ size) :
    reader.getAligned size numBytes = reader.getAligned numBytes numBytes := by
  unfold getAligned
  rw [if_neg (show ¬ (size : Int) < numBytes by omega), if_neg (show ¬ (numBytes : Int) < numBytes by omega)]

/-! ## One call keeps a state that reads its buffer -/

section Steps

variable {reader next : BitReader} {source : List UInt8} {position : Nat} (reads : reader.Reads source position)
include reads

theorem reads_getValue {T : ValueType} {numBits : Nat} {value : Option Nat}
    (ran : reader.getValue T numBits = some (value, next)) : ∃ moved, next.Reads source moved := by
  by_cases inRange : numBits ≤ 32 ∧ numBits ≤ 8 * T.size
  · obtain ⟨success, failure⟩ := getValue_of_reads reads inRange.1 inRange.2
    by_cases room : position + numBits ≤ 8 * source.length
    · obtain ⟨after, call, afterReads⟩ := success room
      rw [call, Option.some.injEq, Prod.mk.injEq] at ran
      exact ⟨_, ran.2 ▸ afterReads⟩
    · obtain ⟨after, call, afterReads⟩ := failure (by omega)
      rw [call, Option.some.injEq, Prod.mk.injEq] at ran
      exact ⟨_, ran.2 ▸ afterReads⟩
  · rw [getValue, getBatch, if_pos (by omega)] at ran
    cases ran

theorem reads_getBatch {T : ValueType} {numBits : Nat} {batchSize count : Int} {values : List Nat}
    (narrow : numBits ≤ 32) (nonneg : 0 ≤ batchSize) (product : numBits * batchSize < 2 ^ 31)
    (ran : reader.getBatch T numBits batchSize = some (count, values, next)) : ∃ moved, next.Reads source moved := by
  by_cases fits : numBits ≤ 8 * T.size
  · obtain ⟨after, call, afterReads⟩ := getBatch_spec reads narrow fits nonneg product
    rw [call, Option.some.injEq, Prod.mk.injEq, Prod.mk.injEq] at ran
    exact ⟨_, ran.2.2 ▸ afterReads⟩
  · rw [getBatch, if_pos (Or.inr (by omega))] at ran
    cases ran

/-- `GetAligned` with any `int` count: a count that is negative or runs past the buffer
either fails a check or reaches a `memcpy` that has no result. -/
theorem reads_getAligned {size : Nat} {numBytes : Int} {bytes : Option (List UInt8)}
    (ran : reader.getAligned size numBytes = some (bytes, next)) : ∃ moved, next.Reads source moved := by
  obtain ⟨bitLow, bitHigh, byteLow, positionEq, within, small, maxEq, -, -, -⟩ := id reads
  by_cases good : 0 ≤ numBytes ∧ numBytes ≤ size ∧ (position + 7) / 8 + numBytes ≤ source.length
  · obtain ⟨count, rfl⟩ := Int.eq_ofNat_of_zero_le good.1
    rw [getAligned_of_le (by omega)] at ran
    obtain ⟨after, call, afterReads⟩ := (@getAligned_spec reader source position reads count count (by omega)).2
      le_rfl (by omega)
    rw [call, Option.some.injEq, Prod.mk.injEq] at ran
    exact ⟨_, ran.2 ▸ afterReads⟩
  · have start : int32 (reader.byteOffset + bytesForBits reader.bitOffset) = ((position + 7) / 8 : Nat) := by
      rw [bytesForBits_eq, int32_of_range (by omega) (by omega)]; omega
    unfold getAligned at ran
    split at ran
    · cases ran
      exact ⟨position, reads⟩
    dsimp only at ran
    split at ran
    · cases ran
      exact ⟨position, reads⟩
    · rw [start] at ran
      simp only [loadBytes, if_pos (show numBytes < 0 ∨ (0 < numBytes ∧ (((position + 7) / 8 : Nat) < (0 : Int) ∨
        reader.maxBytes < ((position + 7) / 8 : Nat) + numBytes)) by omega)] at ran
      cases ran

theorem reads_getVlqInt {value : Option Nat} (ran : reader.getVlqInt = some (value, next)) :
    ∃ moved, next.Reads source moved := by
  obtain ⟨after, call, afterReads⟩ := getVlqInt_spec reads
  rw [call, Option.some.injEq, Prod.mk.injEq] at ran
  exact ⟨_, ran.2 ▸ afterReads⟩

theorem reads_getZigZagVlqInt {value : Option Int} (ran : reader.getZigZagVlqInt = some (value, next)) :
    ∃ moved, next.Reads source moved := by
  obtain ⟨after, call, afterReads⟩ := getZigZagVlqInt_spec reads
  rw [call, Option.some.injEq, Prod.mk.injEq] at ran
  exact ⟨_, ran.2 ▸ afterReads⟩

/-- A state reads its own first `max_bytes_` bytes at its own cursor. -/
theorem reads_own :
    reader.Reads (reader.buffer.take reader.maxBytes.toNat) (8 * reader.byteOffset + reader.bitOffset).toNat := by
  have sourceEq : reader.buffer.take reader.maxBytes.toNat = source := by
    rw [show reader.maxBytes.toNat = source.length by have := reads.maxBytes_eq; omega]
    exact reads.source_eq
  have positionEq : (8 * reader.byteOffset + reader.bitOffset).toNat = position := by
    have := reads.position_eq; omega
  rw [sourceEq, positionEq]
  exact reads

end Steps

/-! ## Every reachable state -/

theorem reads_of_reachable {reader : BitReader} (reachable : reader.Reachable) :
    ∃ source position, reader.Reads source position := by
  induction reachable with
  | init nonneg small allocated staleBound fresh =>
    obtain ⟨_, built, reads⟩ := reads_init nonneg small allocated staleBound
    rw [fresh, Option.some.injEq] at built
    exact ⟨_, _, built ▸ reads⟩
  | reset word nonneg small allocated fresh =>
    obtain ⟨_, built, reads⟩ := reads_init nonneg small allocated word
    rw [← reset, fresh, Option.some.injEq] at built
    exact ⟨_, _, built ▸ reads⟩
  | getValue _ ran inductionHypothesis =>
    obtain ⟨source, _, reads⟩ := inductionHypothesis
    exact ⟨source, reads_getValue reads ran⟩
  | getBatch _ narrow nonneg product ran inductionHypothesis =>
    obtain ⟨source, _, reads⟩ := inductionHypothesis
    exact ⟨source, reads_getBatch reads narrow nonneg product ran⟩
  | getAligned _ ran inductionHypothesis =>
    obtain ⟨source, _, reads⟩ := inductionHypothesis
    exact ⟨source, reads_getAligned reads ran⟩
  | getVlqInt _ ran inductionHypothesis =>
    obtain ⟨source, _, reads⟩ := inductionHypothesis
    exact ⟨source, reads_getVlqInt reads ran⟩
  | getZigZagVlqInt _ ran inductionHypothesis =>
    obtain ⟨source, _, reads⟩ := inductionHypothesis
    exact ⟨source, reads_getZigZagVlqInt reads ran⟩

/-- Every state reachable from `BitReader(buffer, L)` or `Reset(buffer, L)` keeps the
representation invariant. From it, with `source` the buffer's first `L` bytes and
`position = 8·byte_offset_ + bit_offset_`, every call with its arguments in range returns
(no `memcpy` of a negative length or outside `buffer[0, L)`, each refill copying
`min(8, L - byte_offset_)` bytes, and no failed assertion), and what it yields is a
function of `source` and `position` alone, none of the accumulator's stale bytes. -/
theorem reachable_reader_invariant {reader : BitReader} (reachable : reader.Reachable) :
    reader.Invariant ∧ ∃ (source : List UInt8) (position : Nat), source = reader.buffer.take reader.maxBytes.toNat ∧
      (position : Int) = 8 * reader.byteOffset + reader.bitOffset ∧
      (∀ (T : ValueType) (numBits : Nat), numBits ≤ 32 → numBits ≤ 8 * T.size → ∃ next,
        reader.getValue T numBits = some (if position + numBits ≤ 8 * source.length then
          some (T.cast (leValue source / 2 ^ position % 2 ^ numBits)) else none, next)) ∧
      (∀ (T : ValueType) (numBits : Nat) (batchSize : Int), numBits ≤ 32 → numBits ≤ 8 * T.size → 0 ≤ batchSize →
        numBits * batchSize < 2 ^ 31 → ∃ next, reader.getBatch T numBits batchSize =
          some ((clampedCount source.length position numBits batchSize : Int),
            (readValues (leValue source) numBits position (clampedCount source.length position numBits batchSize)).map
              T.cast, next)) ∧
      (∀ size numBytes : Nat, size ≤ 2 ^ 30 → ∃ next, reader.getAligned size numBytes =
        some (if numBytes ≤ size ∧ (position + 7) / 8 + numBytes ≤ source.length then
          some ((source.drop ((position + 7) / 8)).take numBytes) else none, next)) ∧
      (∃ next, reader.getVlqInt = some ((vlqScan (source.drop ((position + 7) / 8)) 5).1.map (· % 2 ^ 32), next)) ∧
      (∃ next, reader.getZigZagVlqInt =
        some ((vlqScan (source.drop ((position + 7) / 8)) 5).1.map (zigzagDecode <| · % 2 ^ 32), next)) := by
  obtain ⟨source, position, reads⟩ := reads_of_reachable reachable
  have own := reads_own reads
  refine ⟨invariant_of_reads reads, _, (8 * reader.byteOffset + reader.bitOffset).toNat, rfl,
    by have := own.bitOffset_nonneg; have := own.byteOffset_nonneg; omega, ?getValue, ?getBatch, ?getAligned,
    ?getVlqInt, ?getZigZagVlqInt⟩
  case getValue =>
    intro T numBits narrow fits
    obtain ⟨success, failure⟩ := getValue_of_reads own narrow fits
    split
    · next room =>
      obtain ⟨next, call, -⟩ := success room
      exact ⟨next, call⟩
    · next short =>
      obtain ⟨next, call, -⟩ := failure (by omega)
      exact ⟨next, call⟩
  case getBatch =>
    intro T numBits batchSize narrow fits nonneg product
    obtain ⟨next, call, -⟩ := getBatch_spec own narrow fits nonneg product
    exact ⟨next, call⟩
  case getAligned =>
    intro size numBytes moderate
    obtain ⟨failure, success⟩ := getAligned_spec own moderate
    split
    · next inside =>
      obtain ⟨next, call, -⟩ := success inside.1 inside.2
      exact ⟨next, call⟩
    · next outside => exact ⟨reader, failure (by omega)⟩
  case getVlqInt =>
    obtain ⟨next, call, -⟩ := getVlqInt_spec own
    exact ⟨next, call⟩
  case getZigZagVlqInt =>
    obtain ⟨next, call, -⟩ := getZigZagVlqInt_spec own
    exact ⟨next, call⟩

theorem reachable_reader_invariant_stale_bytes :
    ∃ reader : BitReader, reader = ⟨[0xAB, 0xCD, 0xEF], 3, 0xFFFFFFFFFFEFEFCD, 1, 0⟩ ∧ reader.Reachable ∧
      reader.Invariant ∧ ∃ (source : List UInt8) (position : Nat), source = reader.buffer.take reader.maxBytes.toNat ∧
      (position : Int) = 8 * reader.byteOffset + reader.bitOffset ∧
      (∀ (T : ValueType) (numBits : Nat), numBits ≤ 32 → numBits ≤ 8 * T.size → ∃ next,
        reader.getValue T numBits = some (if position + numBits ≤ 8 * source.length then
          some (T.cast (leValue source / 2 ^ position % 2 ^ numBits)) else none, next)) ∧
      (∀ (T : ValueType) (numBits : Nat) (batchSize : Int), numBits ≤ 32 → numBits ≤ 8 * T.size → 0 ≤ batchSize →
        numBits * batchSize < 2 ^ 31 → ∃ next, reader.getBatch T numBits batchSize =
          some ((clampedCount source.length position numBits batchSize : Int),
            (readValues (leValue source) numBits position (clampedCount source.length position numBits batchSize)).map
              T.cast, next)) ∧
      (∀ size numBytes : Nat, size ≤ 2 ^ 30 → ∃ next, reader.getAligned size numBytes =
        some (if numBytes ≤ size ∧ (position + 7) / 8 + numBytes ≤ source.length then
          some ((source.drop ((position + 7) / 8)).take numBytes) else none, next)) ∧
      (∃ next, reader.getVlqInt = some ((vlqScan (source.drop ((position + 7) / 8)) 5).1.map (· % 2 ^ 32), next)) ∧
      (∃ next, reader.getZigZagVlqInt =
        some ((vlqScan (source.drop ((position + 7) / 8)) 5).1.map (zigzagDecode <| · % 2 ^ 32), next)) :=
  have fresh : Reachable ⟨[0xAB, 0xCD, 0xEF], 3, 0xFFFFFFFFFFEFCDAB, 0, 0⟩ :=
    @Reachable.init [0xAB, 0xCD, 0xEF] 3 (2 ^ 64 - 1) _ (by decide) (by decide) (by decide) (by decide) (by decide)
  have moved : Reachable ⟨[0xAB, 0xCD, 0xEF], 3, 0xFFFFFFFFFFEFEFCD, 1, 0⟩ :=
    @Reachable.getAligned _ _ 1 1 (some [0xAB]) fresh rfl
  ⟨_, rfl, moved, reachable_reader_invariant moved⟩

/-- `GetAligned<uint8_t>(-1, &b)` on a fresh reader over one byte: `-1 > 1` and
`0 + 0 + -1 > 1` are both false, and `memcpy(v, buffer_, -1)` reads `(size_t)-1`
bytes. -/
theorem getAligned_negative_count :
    ∃ reader : BitReader, init [0] 1 0 = some reader ∧ reader.Reachable ∧ reader.getAligned 1 (-1) = none :=
  ⟨_, rfl, @Reachable.init [0] 1 0 _ (by decide) (by decide) (by decide) (by decide) rfl, rfl⟩

end Parquet4Seastar.BitUtil.BitReader
