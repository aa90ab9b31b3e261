import Parquet4Seastar.BitUtil.Reader.Spec

/-! # `GetBatch` and `GetValue`

`GetBatch` reads a batch in three parts: the head loop of `detail::GetValue_` up to a
word boundary, a bulk part of whole groups of 32 values through `unpack32` (straight into
`v` when `sizeof(T) == 4`, through a staging buffer of 1024 values otherwise), then the
tail loop. The bulk part moves `byte_offset_` by `4·num_bits` bytes per group and leaves
the accumulator stale until the refill after it.

`getBatch_spec` says that, below the overflow range, the batch is clamped to the values
left in the buffer and the whole batch is the reference reader's values in a row, as
`detail::GetValue_` alone reads them (`getBatch_agrees_with_getValues_`); two batches
in a row read what one batch of their sum reads (`getBatch_split`). The clamp is
computed in `int`, and `getBatch_unclamped_overrun` is a batch whose bit count wraps to
0, so that the clamp lets `unpack32` read past the end of the buffer.

From any state, `GetBatch` returns its clamped batch size and stores that many values
(`getBatch_count`). A `GetValue` that returns `false` has had its batch of one clamped to
none, and keeps `byte_offset_` and `bit_offset_` (`getValue_of_none`); a `GetAligned` that
returns `false` leaves the reader as it was (`getAligned_of_none`).
-/

namespace Parquet4Seastar.BitUtil.BitReader

/-- Bits `[start, start + width)` of a value are those of its low `total ≥ start + width`
bits. -/
theorem window_bits {value start width total : Nat} (inside : start + width ≤ total) :
    value % 2 ^ total / 2 ^ start % 2 ^ width = value / 2 ^ start % 2 ^ width := by
  obtain ⟨rest, rfl⟩ := Nat.exists_eq_add_of_le inside
  rw [Nat.add_assoc, mod_two_pow_div, Nat.pow_add, Nat.mod_mul_right_mod]

/-- Values of `numBits ≤ width` bits survive the cast to a `width`-bit type. -/
theorem map_mod_readValues {value numBits width : Nat} (narrower : numBits ≤ width) (position count : Nat) :
    (readValues value numBits position count).map (· % 2 ^ width) = readValues value numBits position count := by
  induction count generalizing position with
  | zero => rfl
  | succ count inductionHypothesis =>
    rw [readValues, List.map_cons, inductionHypothesis, mod_two_pow_mod_of_le _ narrower]

/-- A `T` of four bytes holds values of at most 32 bits unchanged, so that the
`sizeof(T) == 4` branch, which stores `unpack32`'s `uint32_t`s with no conversion, stores
what a conversion to `T` would. -/
theorem map_cast_readValues {T : ValueType} (four : T.size = 4) {value numBits : Nat} (narrow : numBits ≤ 32)
    (position count : Nat) :
    (readValues value numBits position count).map T.cast = readValues value numBits position count := by
  cases T with
  | bool => cases four
  | unsigned size | signed size =>
    exact map_mod_readValues (show numBits ≤ 8 * size by simp only [ValueType.size] at four; omega) position count

section Bulk

variable {reader : BitReader} {source : List UInt8} (maxEq : reader.maxBytes = source.length)
  (sourceEq : reader.buffer.take source.length = source) (small : source.length ≤ 2 ^ 27)
  (byteLow : 0 ≤ reader.byteOffset)
include maxEq sourceEq small byteLow

omit small in
/-- `unpack32` from the current byte offset: the values at bits
`8·byte_offset_ + k·num_bits` of the buffer. -/
theorem unpack32_spec {numBits count : Nat}
    (room : 8 * reader.byteOffset.toNat + 32 * (count / 32 * numBits) ≤ 8 * source.length) :
    unpack32 reader.buffer reader.maxBytes reader.byteOffset count numBits =
      some (readValues (leValue source) numBits (8 * reader.byteOffset.toNat) (32 * (count / 32))) := by
  have inside : reader.byteOffset.toNat + 4 * (count / 32 * numBits) ≤ source.length := by omega
  rw [unpack32, Int.toNat_ofNat, Option.bind_eq_bind,
    show 4 * (numBits : Int) * (count / 32 : Nat) = (4 * (count / 32 * numBits) : Nat) by push_cast; ring,
    loadBytes_eq byteLow (by omega) (by rw [maxEq]; omega), Option.some_bind, readValues_eq_map,
    Int.toNat_ofNat, take_drop_source sourceEq inside]
  congr 1
  apply List.map_congr_left
  intro k member
  have before : k * numBits + numBits ≤ 8 * (4 * (count / 32 * numBits)) := by
    rw [List.mem_range] at member
    calc k * numBits + numBits = (k + 1) * numBits := (Nat.succ_mul k numBits).symm
      _ ≤ 32 * (count / 32) * numBits := Nat.mul_le_mul_right _ member
      _ = 8 * (4 * (count / 32 * numBits)) := by ring
  rw [leValue_take, leValue_drop, window_bits before, div_two_pow_div]

omit maxEq sourceEq in
/-- `byte_offset += num_unpacked * num_bits / 8` after whole groups of 32 values. -/
theorem skipUnpacked_eq {groups numBits : Nat}
    (room : 8 * reader.byteOffset.toNat + 32 * (groups * numBits) ≤ 8 * source.length) :
    reader.skipUnpacked (32 * groups) numBits =
      { reader with byteOffset := reader.byteOffset + 4 * (groups * numBits : Nat) } := by
  unfold skipUnpacked
  rw [show ((32 * groups : Nat) : Int) * numBits = ((8 * (4 * (groups * numBits)) : Nat) : Int) by push_cast; ring,
    @int32_of_range ((8 * (4 * (groups * numBits)) : Nat) : Int) (by omega) (by omega),
    Int.tdiv_eq_ediv (by omega) (by decide), int32_of_range (by omega) (by omega)]
  push_cast
  congr 2
  omega

/-- The `sizeof(T) == 4` branch: `32·⌊m/32⌋` values, and the byte offset past them. -/
theorem unpackDirect_spec {numBits count : Nat}
    (room : 8 * reader.byteOffset.toNat + 32 * (count / 32 * numBits) ≤ 8 * source.length) :
    reader.unpackDirect numBits count =
      some (readValues (leValue source) numBits (8 * reader.byteOffset.toNat) (32 * (count / 32)),
        { reader with byteOffset := reader.byteOffset + 4 * (count / 32 * numBits : Nat) }) := by
  rw [unpackDirect, unpack32_spec maxEq sourceEq byteLow room, Option.bind_eq_bind, Option.some_bind,
    length_readValues, skipUnpacked_eq small byteLow room]

/-- The staged branch reads the same values as one `unpack32` over the whole count, in
chunks of at most 1024 values, each converted to `T`. -/
theorem unpackStaged_spec {T : ValueType} {numBits : Nat} (count : Nat)
    (room : 8 * reader.byteOffset.toNat + 32 * (count / 32 * numBits) ≤ 8 * source.length) :
    reader.unpackStaged T numBits count =
      some ((readValues (leValue source) numBits (8 * reader.byteOffset.toNat) (32 * (count / 32))).map T.cast,
        { reader with byteOffset := reader.byteOffset + 4 * (count / 32 * numBits : Nat) }) := by
  induction count using Nat.strong_induction_on generalizing reader with
  | _ count inductionHypothesis =>
    have chunkRoom : 8 * reader.byteOffset.toNat + 32 * (min 1024 count / 32 * numBits) ≤ 8 * source.length :=
      le_trans (Nat.add_le_add_left (Nat.mul_le_mul_left 32 (Nat.mul_le_mul_right numBits (by omega))) _) room
    rw [unpackStaged, show min 1024 (count : Int) = (min 1024 count : Nat) by omega,
      unpack32_spec maxEq sourceEq byteLow chunkRoom]
    by_cases short : count < 32
    · rw [show count / 32 = 0 by omega, show min 1024 count / 32 = 0 by omega]
      cases reader
      split <;> simp [readValues]
    · generalize chunkEq : min 1024 count / 32 = chunk at chunkRoom ⊢
      have chunkLow : 1 ≤ chunk := by omega
      have chunkSplit : count / 32 = chunk + (count - 32 * chunk) / 32 := by omega
      clear chunkEq
      let skipped : BitReader := { reader with byteOffset := reader.byteOffset + 4 * (chunk * numBits : Nat) }
      have split : count / 32 * numBits = chunk * numBits + (count - 32 * chunk) / 32 * numBits := by
        rw [← Nat.add_mul, ← chunkSplit]
      have shifted : skipped.byteOffset.toNat = reader.byteOffset.toNat + 4 * (chunk * numBits) := by
        dsimp only [skipped]; omega
      have restRoom : 8 * skipped.byteOffset.toNat + 32 * ((count - 32 * chunk) / 32 * numBits) ≤
          8 * source.length := by
        omega
      have rest := @inductionHypothesis (count - 32 * chunk) (by omega) skipped maxEq sourceEq
        (by dsimp only [skipped]; omega) restRoom
      rw [dif_neg (by omega)]
      dsimp only
      rw [length_readValues, dif_neg (by omega), skipUnpacked_eq small byteLow chunkRoom, rest]
      simp only [Option.bind_eq_bind, Option.some_bind]
      rw [show 8 * skipped.byteOffset.toNat = 8 * reader.byteOffset.toNat + 32 * chunk * numBits by
        rw [shifted]; ring, ← List.map_append, readValues_append,
        show 32 * chunk + 32 * ((count - 32 * chunk) / 32) = 32 * (count / 32) by omega, split, Nat.cast_add, mul_add,
        ← add_assoc]

/-- The bulk part, whichever branch reads it: the values of `⌊m/32⌋` whole groups of 32,
converted to `T`, and the byte offset past them. -/
theorem unpackBulk_spec {T : ValueType} {numBits count : Nat} (narrow : numBits ≤ 32)
    (room : 8 * reader.byteOffset.toNat + 32 * (count / 32 * numBits) ≤ 8 * source.length) :
    reader.unpackBulk T numBits count =
      some ((readValues (leValue source) numBits (8 * reader.byteOffset.toNat) (32 * (count / 32))).map T.cast,
        { reader with byteOffset := reader.byteOffset + 4 * (count / 32 * numBits : Nat) }) := by
  unfold unpackBulk
  split
  · next four => rw [unpackDirect_spec maxEq sourceEq small byteLow room, map_cast_readValues four narrow]
  · exact unpackStaged_spec maxEq sourceEq small byteLow count room

end Bulk

/-- The refill after the bulk part: a reader whose byte offset moved, refilled there,
reads from its new position. -/
theorem reads_moved {reader : BitReader} {source : List UInt8} {position : Nat} (reads : reader.Reads source position)
    {byteOffset : Int} {moved : Nat} (low : 0 ≤ byteOffset) (movedEq : (moved : Int) = 8 * byteOffset + reader.bitOffset)
    (within : moved ≤ 8 * source.length) :
    ∃ refilled, { reader with byteOffset }.refillAt byteOffset reader.bufferedValues = some refilled ∧
      { reader with byteOffset, bufferedValues := refilled }.Reads source moved := by
  have ⟨bitLow, bitHigh, _, _, _, small, maxEq, sourceEq, wordLt, _⟩ := reads
  obtain ⟨refilled, refill, refilledBound, refilledValid⟩ :=
    refillAt_spec maxEq sourceEq small low (by omega) wordLt
  exact ⟨refilled, refill, bitLow, bitHigh, low, movedEq, within, small, maxEq, sourceEq, refilledBound, refilledValid⟩

/-! ## The clamp -/

/-- The reference batch size: when the batch needs more bits than are left after
`position`, as many values as fit. -/
def clampedCount (length position numBits : Nat) (batchSize : Int) : Nat :=
  if 8 * length - position < numBits * batchSize.toNat then (8 * length - position) / numBits else batchSize.toNat

/-- For values of at least one bit, the clamp is `min(batch_size, ⌊bits left / num_bits⌋)`. -/
theorem clampedCount_eq_min {length position numBits : Nat} (positive : 0 < numBits) (batchSize : Int) :
    clampedCount length position numBits batchSize = min batchSize.toNat ((8 * length - position) / numBits) := by
  unfold clampedCount
  split
  · next short =>
    have fewer : (8 * length - position) / numBits < batchSize.toNat :=
      (Nat.div_lt_iff_lt_mul positive).mpr (by rwa [Nat.mul_comm _ numBits])
    rw [Nat.min_eq_right fewer.le]
  · next enough =>
    have more : batchSize.toNat ≤ (8 * length - position) / numBits :=
      (Nat.le_div_iff_mul_le positive).mpr (by rw [Nat.mul_comm _ numBits]; omega)
    rw [Nat.min_eq_left more]

/-- Two clamped batches in a row clamp their sum: the first falls short only when the
bits run out, and then the second gets none. -/
theorem clampedCount_add {length position numBits : Nat} {first second : Int} (firstNonneg : 0 ≤ first)
    (secondNonneg : 0 ≤ second) :
    clampedCount length position numBits first +
        clampedCount length (position + clampedCount length position numBits first * numBits) numBits second =
      clampedCount length position numBits (first + second) := by
  rcases Nat.eq_zero_or_pos numBits with zero | positive
  · subst zero
    simp only [clampedCount, Nat.zero_mul, Nat.not_lt_zero, if_false]
    omega
  · simp only [clampedCount_eq_min positive, ← Nat.sub_sub, Int.toNat_add firstNonneg secondNonneg]
    generalize 8 * length - position = bitsLeft
    by_cases enough : first.toNat ≤ bitsLeft / numBits
    · have used : numBits * first.toNat ≤ bitsLeft := by
        rw [Nat.mul_comm]; exact (Nat.le_div_iff_mul_le positive).mp enough
      rw [Nat.min_eq_left enough, Nat.mul_comm, Nat.sub_mul_div _ _ _ used]
      omega
    · have remainder : bitsLeft - bitsLeft / numBits * numBits < numBits := by
        have := Nat.div_add_mod' bitsLeft numBits
        have := Nat.mod_lt bitsLeft positive
        omega
      rw [Nat.min_eq_right (by omega), Nat.div_eq_of_lt remainder]
      omega

/-- Below the overflow range the clamp of `GetBatch` computes `clampedCount`. -/
theorem batchClamp_eq {reader : BitReader} {source : List UInt8} {position : Nat} (reads : reader.Reads source position)
    {numBits : Nat} {batchSize : Int} (nonneg : 0 ≤ batchSize) (product : numBits * batchSize < 2 ^ 31) :
    reader.batchClamp numBits batchSize = clampedCount source.length position numBits batchSize := by
  obtain ⟨bitLow, bitHigh, byteLow, positionEq, within, small, maxEq, -, -, -⟩ := reads
  obtain ⟨count, rfl⟩ := Int.eq_ofNat_of_zero_le nonneg
  rw [← Nat.cast_mul] at product
  have needed : int32 (((numBits * count : Nat) : Int)) % 2 ^ 64 = ((numBits * count : Nat) : Int) := by
    unfold int32; omega
  have remaining : int32 (int32 (int32 (reader.maxBytes - reader.byteOffset) * 8) - reader.bitOffset) % 2 ^ 64 =
      ((8 * source.length - position : Nat) : Int) := by
    rw [@int32_of_range (reader.maxBytes - reader.byteOffset) (by omega) (by omega),
      @int32_of_range ((reader.maxBytes - reader.byteOffset) * 8) (by omega) (by omega),
      @int32_of_range ((reader.maxBytes - reader.byteOffset) * 8 - reader.bitOffset) (by omega) (by omega)]
    omega
  unfold batchClamp clampedCount
  rw [Int.toNat_ofNat, ← Nat.cast_mul, needed, remaining]
  dsimp only
  rw [int32_of_range (by omega) (by omega)]
  by_cases short : 8 * source.length - position < numBits * count
  · rw [if_pos (Int.ofNat_lt.mpr short), if_pos short, Int.ofNat_tdiv]
  · rw [if_neg (mt Int.ofNat_lt.mp short), if_neg short]

/-! ## `GetBatch` -/

/-- Below the overflow range, `GetBatch` returns `clampedCount` and reads that many
values in a row from the cursor, whichever way the batch splits into head, bulk and
tail. -/
theorem getBatch_spec {reader : BitReader} {source : List UInt8} {position : Nat} (reads : reader.Reads source position)
    {T : ValueType} {numBits : Nat} (narrow : numBits ≤ 32) (fits : numBits ≤ 8 * T.size)
    {batchSize : Int} (nonneg : 0 ≤ batchSize) (product : numBits * batchSize < 2 ^ 31) :
    ∃ next, reader.getBatch T numBits batchSize =
        some ((clampedCount source.length position numBits batchSize : Int),
          (readValues (leValue source) numBits position (clampedCount source.length position numBits batchSize)).map
            T.cast, next) ∧
      next.Reads source (position + clampedCount source.length position numBits batchSize * numBits) := by
  generalize countEq : clampedCount source.length position numBits batchSize = count
  have room : position + count * numBits ≤ 8 * source.length := by
    have within := reads.within
    unfold clampedCount at countEq
    split at countEq
    · have whole := Nat.div_mul_le_self (8 * source.length - position) numBits
      rw [countEq] at whole
      omega
    · next enough => rw [← countEq, Nat.mul_comm]; omega
  obtain ⟨taken, middle, fewer, stop, head, middleReads⟩ := @headLoop_spec _ _ _ reads T numBits narrow count room
  have byteLow := middleReads.byteOffset_nonneg
  have middleEq := middleReads.position_eq
  have middleWithin := middleReads.within
  have bitLow := middleReads.bitOffset_nonneg
  obtain ⟨groups, groupsEq⟩ : ∃ groups, groups = (count - taken) / 32 := ⟨_, rfl⟩
  have headSplit : count * numBits = taken * numBits + (count - taken) * numBits := by
    rw [← Nat.add_mul, Nat.add_sub_cancel' fewer]
  have bulkSplit : (count - taken) * numBits = 32 * (groups * numBits) + (count - taken - 32 * groups) * numBits := by
    rw [← Nat.mul_assoc, ← Nat.add_mul, Nat.add_sub_cancel' (by omega)]
  have aligned : groups = 0 ∨ middle.bitOffset = 0 := by omega
  clear stop
  have middleRoom : 8 * middle.byteOffset.toNat + 32 * (groups * numBits) ≤ 8 * source.length := by
    rcases aligned with none | boundary
    · rw [none, Nat.zero_mul]; omega
    · omega
  have start : readValues (leValue source) numBits (8 * middle.byteOffset.toNat) (32 * groups) =
      readValues (leValue source) numBits (position + taken * numBits) (32 * groups) := by
    rcases aligned with none | boundary
    · rw [none]; rfl
    · congr 1; omega
  clear aligned
  obtain ⟨refilled, refill, bulkReads⟩ := @reads_moved middle source _ middleReads
    (middle.byteOffset + 4 * (groups * numBits : Nat)) (position + taken * numBits + 32 * (groups * numBits))
    (by omega) (by omega) (by omega)
  obtain ⟨next, tail, nextReads⟩ :=
    @getValues_spec _ _ _ bulkReads T numBits narrow (count - taken - 32 * groups) (by omega)
  have whole : readValues (leValue source) numBits position taken ++
      readValues (leValue source) numBits (position + taken * numBits) (32 * groups) ++
      readValues (leValue source) numBits (position + taken * numBits + 32 * (groups * numBits))
        (count - taken - 32 * groups) = readValues (leValue source) numBits position count := by
    rw [readValues_append, show position + taken * numBits + 32 * (groups * numBits) =
        position + (taken + 32 * groups) * numBits by ring, readValues_append,
      show taken + 32 * groups + (count - taken - 32 * groups) = count by omega]
  refine ⟨next, ?_, ?_⟩
  · rw [getBatch, if_neg (by omega), batchClamp_eq reads nonneg product, countEq]
    have bulk := @unpackBulk_spec _ _ middleReads.maxBytes_eq middleReads.source_eq middleReads.small byteLow T
      numBits (count - taken) narrow (groupsEq ▸ middleRoom)
    rw [← groupsEq, start] at bulk
    simp only [Option.bind_eq_bind, Int.toNat_ofNat, head, Option.some_bind, List.length_map, length_readValues,
      (Nat.cast_sub fewer).symm, bulk, refill, Int.toNat_sub, tail, ← List.map_append, whole]
  · rwa [show position + count * numBits =
      position + taken * numBits + 32 * (groups * numBits) + (count - taken - 32 * groups) * numBits by omega]

/-- The bulk path of `GetBatch` agrees with the one-value path: a batch returns
`min(batch_size, ⌊(8·(max_bytes_ − byte_offset_) − bit_offset_)/num_bits⌋)` values, the
ones that as many calls of `detail::GetValue_` from the same state read, and stops at the
same position. -/
theorem getBatch_agrees_with_getValues_ {reader : BitReader} {source : List UInt8} {position : Nat}
    (reads : reader.Reads source position) {T : ValueType} {numBits : Nat} (positive : 0 < numBits)
    (narrow : numBits ≤ 32) (fits : numBits ≤ 8 * T.size) {batchSize : Int} (nonneg : 0 ≤ batchSize)
    (product : numBits * batchSize < 2 ^ 31) :
    ∃ values next single,
      reader.getBatch T numBits batchSize =
        some (min batchSize ((8 * (reader.maxBytes - reader.byteOffset) - reader.bitOffset) / numBits), values, next) ∧
      reader.getValues_ T numBits
          (min batchSize ((8 * (reader.maxBytes - reader.byteOffset) - reader.bitOffset) / numBits)).toNat =
        some (values, single) ∧
      8 * next.byteOffset + next.bitOffset = 8 * single.byteOffset + single.bitOffset ∧
      next.bytesLeft = single.bytesLeft := by
  have bitsLeft : 8 * (reader.maxBytes - reader.byteOffset) - reader.bitOffset =
      ((8 * source.length - position : Nat) : Int) := by
    have := reads.position_eq; have := reads.within; rw [reads.maxBytes_eq]; omega
  have count : min batchSize ((8 * (reader.maxBytes - reader.byteOffset) - reader.bitOffset) / numBits) =
      (clampedCount source.length position numBits batchSize : Int) := by
    rw [clampedCount_eq_min positive, bitsLeft, ← Int.ofNat_ediv]; omega
  obtain ⟨next, batch, nextReads⟩ := getBatch_spec reads narrow fits nonneg product
  obtain ⟨single, run, singleReads⟩ := @getValues_spec _ _ _ reads T numBits narrow _ nextReads.within
  refine ⟨_, next, single, by rw [count]; exact batch, by rw [count, Int.toNat_ofNat]; exact run, ?_, ?_⟩
  · rw [← nextReads.position_eq, ← singleReads.position_eq]
  · rw [bytesLeft_eq nextReads, bytesLeft_eq singleReads]

theorem getBatch_agrees_on_two_bytes :
    ∃ reader : BitReader, reader = ⟨[0xAB, 0xCD], 2, 0xCDAB, 0, 1⟩ ∧ reader.Reads [0xAB, 0xCD] 1 ∧
      ∃ values next single,
        reader.getBatch (.unsigned 1) 3 5 =
          some (min 5 ((8 * (reader.maxBytes - reader.byteOffset) - reader.bitOffset) / 3), values, next) ∧
        reader.getValues_ (.unsigned 1) 3 (min 5 ((8 * (reader.maxBytes - reader.byteOffset) - reader.bitOffset) / 3)).toNat =
          some (values, single) ∧
        8 * next.byteOffset + next.bitOffset = 8 * single.byteOffset + single.bitOffset ∧
        next.bytesLeft = single.bytesLeft :=
  ⟨_, rfl, by decide, @getBatch_agrees_with_getValues_ _ [0xAB, 0xCD] 1 (by decide) (.unsigned 1) 3 (by decide)
    (by decide)
    (by decide) 5 (by decide) (by decide)⟩

/-- A batch read in two calls is the batch of their sum read in one: the same count, the
same values, and the reader left at the same position. -/
theorem getBatch_split {reader : BitReader} {source : List UInt8} {position : Nat}
    (reads : reader.Reads source position) {T : ValueType} {numBits : Nat} (narrow : numBits ≤ 32)
    (fits : numBits ≤ 8 * T.size) {first second : Int} (firstNonneg : 0 ≤ first) (secondNonneg : 0 ≤ second)
    (product : numBits * (first + second) < 2 ^ 31) :
    ∃ firstCount firstValues middle secondCount secondValues last whole,
      reader.getBatch T numBits first = some (firstCount, firstValues, middle) ∧
      middle.getBatch T numBits second = some (secondCount, secondValues, last) ∧
      reader.getBatch T numBits (first + second) =
        some (firstCount + secondCount, firstValues ++ secondValues, whole) ∧
      8 * last.byteOffset + last.bitOffset = 8 * whole.byteOffset + whole.bitOffset ∧
      last.bytesLeft = whole.bytesLeft := by
  have bitsNonneg : (0 : Int) ≤ numBits := Int.ofNat_nonneg _
  have firstProduct : numBits * first < 2 ^ 31 :=
    (Int.mul_le_mul_of_nonneg_left (by omega) bitsNonneg).trans_lt product
  have secondProduct : numBits * second < 2 ^ 31 :=
    (Int.mul_le_mul_of_nonneg_left (by omega) bitsNonneg).trans_lt product
  obtain ⟨middle, firstBatch, middleReads⟩ := getBatch_spec reads narrow fits firstNonneg firstProduct
  obtain ⟨last, secondBatch, lastReads⟩ := getBatch_spec middleReads narrow fits secondNonneg secondProduct
  obtain ⟨whole, wholeBatch, wholeReads⟩ := getBatch_spec reads narrow fits (by omega) product
  rw [← @clampedCount_add source.length position numBits first second firstNonneg secondNonneg] at wholeBatch wholeReads
  rw [← readValues_append, List.map_append] at wholeBatch
  rw [Nat.add_mul, ← Nat.add_assoc] at wholeReads
  refine ⟨_, _, middle, _, _, last, whole, firstBatch, secondBatch, by rw [wholeBatch, Nat.cast_add], ?_, ?_⟩
  · rw [← lastReads.position_eq, ← wholeReads.position_eq]
  · rw [bytesLeft_eq lastReads, bytesLeft_eq wholeReads]

theorem getBatch_split_on_two_bytes :
    ∃ reader : BitReader, reader = ⟨[0xAB, 0xCD], 2, 0xCDAB, 0, 1⟩ ∧ reader.Reads [0xAB, 0xCD] 1 ∧
      ∃ firstCount firstValues middle secondCount secondValues last whole,
        reader.getBatch (.unsigned 1) 3 2 = some (firstCount, firstValues, middle) ∧
        middle.getBatch (.unsigned 1) 3 4 = some (secondCount, secondValues, last) ∧
        reader.getBatch (.unsigned 1) 3 (2 + 4) = some (firstCount + secondCount, firstValues ++ secondValues, whole) ∧
        8 * last.byteOffset + last.bitOffset = 8 * whole.byteOffset + whole.bitOffset ∧
        last.bytesLeft = whole.bytesLeft :=
  ⟨_, rfl, by decide, @getBatch_split _ [0xAB, 0xCD] 1 (by decide) (.unsigned 1) 3 (by decide) (by decide) 2 4
    (by decide) (by decide) (by decide)⟩

/-- `GetValue` reads the next `num_bits` bits when they are in the buffer; otherwise it
fails and the cursor stays where it was. -/
theorem getValue_of_reads {reader : BitReader} {source : List UInt8} {position : Nat}
    (reads : reader.Reads source position) {T : ValueType} {numBits : Nat} (narrow : numBits ≤ 32)
    (fits : numBits ≤ 8 * T.size) :
    (position + numBits ≤ 8 * source.length → ∃ next,
      reader.getValue T numBits = some (some (T.cast (leValue source / 2 ^ position % 2 ^ numBits)), next) ∧
        next.Reads source (position + numBits)) ∧
    (8 * source.length < position + numBits → ∃ next,
      reader.getValue T numBits = some (none, next) ∧ next.Reads source position) := by
  obtain ⟨next, batch, nextReads⟩ := @getBatch_spec reader source position reads T numBits narrow fits 1
    (by decide) (by omega)
  simp only [clampedCount, show (1 : Int).toNat = 1 from rfl, Nat.mul_one] at batch nextReads
  have within := reads.within
  refine ⟨fun room => ?_, fun short => ?_⟩
  · rw [if_neg (by omega)] at batch nextReads
    exact ⟨next, by simp [getValue, batch, readValues], by simpa using nextReads⟩
  · rw [if_pos (by omega), Nat.div_eq_of_lt (by omega)] at batch nextReads
    exact ⟨next, by simp [getValue, batch, readValues], by simpa using nextReads⟩

/-! ## From any state

What `GetBatch` returns, and what a failed `GetValue` or `GetAligned` does, from any
state, whatever its buffer and offsets. -/

/-- `count` calls of `detail::GetValue_` store `count` values. -/
theorem length_getValues_ {reader next : BitReader} {T : ValueType} {numBits count : Nat} {values : List Nat}
    (ran : reader.getValues_ T numBits count = some (values, next)) : values.length = count := by
  induction count generalizing reader values with
  | zero => cases ran; rfl
  | succ count inductionHypothesis =>
    obtain ⟨⟨v, middle⟩, -, rest⟩ := Option.bind_eq_some.mp ran
    obtain ⟨⟨values, last⟩, rest, result⟩ := Option.bind_eq_some.mp rest
    cases result
    simp [inductionHypothesis rest]

/-- The head loop stores at most the values it is asked for. -/
theorem length_headLoop_le {reader next : BitReader} {T : ValueType} {numBits count : Nat} {values : List Nat}
    (ran : reader.headLoop T numBits count = some (values, next)) : values.length ≤ count := by
  induction count generalizing reader values with
  | zero => cases ran; rfl
  | succ count inductionHypothesis =>
    rw [headLoop] at ran
    split at ran
    · cases ran; exact Nat.zero_le _
    · obtain ⟨⟨v, middle⟩, -, rest⟩ := Option.bind_eq_some.mp ran
      obtain ⟨⟨values, last⟩, rest, result⟩ := Option.bind_eq_some.mp rest
      cases result
      simpa using inductionHypothesis rest

/-- `unpack32` unpacks at most `m` values. -/
theorem length_unpack32_le {buffer : List UInt8} {maxBytes offset count : Int} {numBits : Nat} {values : List Nat}
    (ran : unpack32 buffer maxBytes offset count numBits = some values) : values.length ≤ count.toNat := by
  obtain ⟨bytes, -, result⟩ := Option.bind_eq_some.mp ran
  cases result
  simp only [List.length_map, List.length_range]
  omega

/-- The staging loop stores at most the values left to read. -/
theorem length_unpackStaged_le {reader next : BitReader} {T : ValueType} {numBits remaining : Nat} {values : List Nat}
    (ran : reader.unpackStaged T numBits remaining = some (values, next)) : values.length ≤ remaining := by
  induction remaining using Nat.strong_induction_on generalizing reader values with
  | _ remaining inductionHypothesis =>
    rw [unpackStaged] at ran
    split at ran
    · cases ran; exact Nat.zero_le _
    split at ran
    · cases ran
    · next chunk unpacked =>
      have short := length_unpack32_le unpacked
      split at ran
      · cases ran; exact Nat.zero_le _
      · obtain ⟨⟨rest, last⟩, restRan, result⟩ := Option.bind_eq_some.mp ran
        cases result
        have := inductionHypothesis _ (by omega) restRan
        simp only [List.length_append, List.length_map]
        omega


/-- From any state, `GetBatch` returns its clamped batch size and stores as many values. -/
theorem getBatch_count {reader next : BitReader} {T : ValueType} {numBits : Nat} {batchSize count : Int}
    {values : List Nat} (ran : reader.getBatch T numBits batchSize = some (count, values, next)) :
    count = reader.batchClamp numBits batchSize ∧ values.length = count.toNat := by
  rw [getBatch] at ran
  split at ran
  · cases ran
  obtain ⟨⟨head, middle⟩, headRan, ran⟩ := Option.bind_eq_some.mp ran
  obtain ⟨⟨bulk, bulkReader⟩, bulkRan, ran⟩ := Option.bind_eq_some.mp ran
  obtain ⟨refilled, -, ran⟩ := Option.bind_eq_some.mp ran
  obtain ⟨⟨tail, last⟩, tailRan, result⟩ := Option.bind_eq_some.mp ran
  cases result
  have headShort := length_headLoop_le headRan
  have bulkShort : bulk.length ≤ (reader.batchClamp numBits batchSize - head.length).toNat := by
    unfold unpackBulk at bulkRan
    split at bulkRan
    · obtain ⟨unpacked, unpackRan, result⟩ := Option.bind_eq_some.mp bulkRan
      cases result
      exact length_unpack32_le unpackRan
    · exact length_unpackStaged_le bulkRan
  have tailLength := length_getValues_ tailRan
  refine ⟨rfl, ?_⟩
  simp only [List.length_append]
  omega

/-- `GetBatch` returns only when `num_bits` passes its assertions. -/
theorem getBatch_inRange {reader next : BitReader} {T : ValueType} {numBits : Nat} {batchSize count : Int}
    {values : List Nat} (ran : reader.getBatch T numBits batchSize = some (count, values, next)) :
    numBits ≤ 32 ∧ numBits ≤ 8 * T.size := by
  rw [getBatch] at ran
  split at ran
  · cases ran
  · omega

/-- `GetValue`'s batch of one value is clamped to one value or to none. -/
theorem batchClamp_one (reader : BitReader) {numBits : Nat} (narrow : numBits ≤ 32) :
    reader.batchClamp numBits 1 = 0 ∨ reader.batchClamp numBits 1 = 1 := by
  unfold batchClamp
  dsimp only
  split
  · next short =>
    have needed : int32 ((numBits : Int) * 1) % 2 ^ 64 = numBits := by unfold int32; omega
    rw [needed] at short
    have nonneg := Int.emod_nonneg (int32 (int32 (int32 (reader.maxBytes - reader.byteOffset) * 8) - reader.bitOffset))
      (show (2 : Int) ^ 64 ≠ 0 by decide)
    rw [int32_of_range (by omega) (by omega), Int.tdiv_eq_zero_of_lt nonneg short]
    exact .inl rfl
  · exact .inr rfl

/-- A batch clamped to no value reads nothing: it refills the accumulator in place. -/
theorem getBatch_of_clamp_zero {reader : BitReader} {T : ValueType} {numBits : Nat} {batchSize : Int}
    (inRange : ¬(32 < numBits ∨ 8 * T.size < numBits)) (zero : reader.batchClamp numBits batchSize = 0)
    (low : -2 ^ 31 ≤ reader.byteOffset) (high : reader.byteOffset < 2 ^ 31) :
    reader.getBatch T numBits batchSize =
      (reader.refillAt reader.byteOffset reader.bufferedValues).map fun bufferedValues =>
        (0, [], { reader with bufferedValues }) := by
  have skipped : reader.skipUnpacked 0 numBits = reader := by
    simp [skipUnpacked, show int32 0 = 0 by decide, int32_of_range low high]
  have bulk : reader.unpackBulk T numBits 0 = some ([], reader) := by
    unfold unpackBulk
    split
    · simp [unpackDirect, unpack32, loadBytes, skipped]
    · rw [unpackStaged, dif_pos Int.toNat_zero]
  rw [getBatch, if_neg inRange]
  simp only [zero, Int.toNat_zero, headLoop, Option.bind_eq_bind, Option.some_bind, List.length_nil, Nat.cast_zero,
    sub_zero, bulk]
  cases reader.refillAt reader.byteOffset reader.bufferedValues <;> rfl

/-- A `GetValue` that returns `false`, from any state: its batch was clamped to no value,
so it leaves `max_bytes_`, `byte_offset_` and `bit_offset_` as they were, the accumulator
refilled in place. -/
theorem getValue_of_none {reader next : BitReader} {T : ValueType} {numBits : Nat}
    (failed : reader.getValue T numBits = some (none, next)) (low : -2 ^ 31 ≤ reader.byteOffset)
    (high : reader.byteOffset < 2 ^ 31) :
    next.maxBytes = reader.maxBytes ∧ next.byteOffset = reader.byteOffset ∧ next.bitOffset = reader.bitOffset := by
  obtain ⟨⟨count, values, after⟩, batch, result⟩ := Option.bind_eq_some.mp failed
  obtain ⟨noValue, rfl⟩ := Prod.mk.inj (Option.some.inj result)
  have inRange : ¬(32 < numBits ∨ 8 * T.size < numBits) := by
    have := getBatch_inRange batch
    omega
  obtain ⟨countEq, length⟩ := getBatch_count batch
  rcases batchClamp_one reader (show numBits ≤ 32 by omega) with zero | one
  · rw [getBatch_of_clamp_zero inRange zero low high] at batch
    obtain ⟨refilled, -, result⟩ := Option.map_eq_some'.mp batch
    cases result
    exact ⟨rfl, rfl, rfl⟩
  · rw [countEq, one] at noValue length
    obtain ⟨value, rfl⟩ := List.length_eq_one.mp length
    simp at noValue

/-- A `GetAligned` that returns `false`, from any state, returns before it changes the
reader. -/
theorem getAligned_of_none {reader next : BitReader} {size : Nat} {numBytes : Int}
    (failed : reader.getAligned size numBytes = some (none, next)) : next = reader := by
  unfold getAligned at failed
  split at failed
  · cases failed; rfl
  · dsimp only at failed
    split at failed
    · cases failed; rfl
    · obtain ⟨bytes, -, failed⟩ := Option.bind_eq_some.mp failed
      obtain ⟨refilled, -, result⟩ := Option.bind_eq_some.mp failed
      cases result

/-- A batch of `2^27` values of 32 bits needs `2^32` bits, which the `int` product
`num_bits * batch_size` wraps to 0: the clamp lets the whole batch through on an empty
buffer, and `unpack32` reads `2^29` bytes past its end. -/
theorem getBatch_unclamped_overrun :
    ∃ reader, init [] 0 0 = some reader ∧ reader.getBatch (.unsigned 4) 32 (2 ^ 27) = none :=
  ⟨_, rfl, rfl⟩

end Parquet4Seastar.BitUtil.BitReader
