import Parquet4Seastar.BitUtil.Writer.Stream
import Parquet4Seastar.BitUtil.Reader.Stream

/-! # Writing, then reading back

`ReadsBack ops reads values` pairs each writer call with the read that reads its output
back, and says what that read yields: a `GetValue<T>` yields the value written converted
to `T`, the other reads what was written. The reference reader reads the reference format
back (`referenceRun_readsBack`): each kind of call appends its output at the cursor, and
the matching reference read takes exactly that output (`getValue_readBack`,
`getAligned_readBack`, `vlqAt_readBack`), the VLQ and zigzag decoders inverting the
encoders (`vlqScan_vlqBytes`, `zigzagDecode_zigzag`). With the writer's simulation
(`represents_runWriter`) and the reader's (`runReader_reference`) this gives the round
trip of the code itself (`written_values_read_back`); a `GetValue<T>` into a `bool` or a
signed `T` does not give back the value written (`written_values_read_back_converted`).
A run of `PutValue` calls of one width is also read back by a single `GetBatch`
(`packed_values_read_back`).
-/

namespace Parquet4Seastar.BitUtil

/-! ## The decoders invert the encoders -/

theorem vlqScan_vlqBytes (value : Nat) (rest : List UInt8) {count : Nat} (small : value < 2 ^ (7 * (count + 1))) :
    vlqScan (vlqBytes value ++ rest) (count + 1) = (some value, (vlqBytes value).length) := by
  induction count generalizing value with
  | zero =>
    have last : value < 128 := small
    rw [vlqBytes, if_pos last]
    simp [vlqScan, UInt8.toNat_ofNat_of_lt (show value < UInt8.size by simp [UInt8.size]; omega), last]
  | succ count inductionHypothesis =>
    rw [vlqBytes]
    split
    · next last =>
      simp [vlqScan, UInt8.toNat_ofNat_of_lt (show value < UInt8.size by simp [UInt8.size]; omega), last]
    · next more =>
      have quotient : value / 128 < 2 ^ (7 * (count + 1)) := by
        rw [Nat.div_lt_iff_lt_mul (by decide), show 2 ^ (7 * (count + 1)) * 128 = 2 ^ (7 * (count + 1 + 1)) by
          rw [show 7 * (count + 1 + 1) = 7 * (count + 1) + 7 by omega, Nat.pow_add]]
        exact small
      have byte : (UInt8.ofNat (value % 128 + 128)).toNat = value % 128 + 128 :=
        UInt8.toNat_ofNat_of_lt (by simp [UInt8.size]; omega)
      rw [List.cons_append, vlqScan, byte, if_neg (by omega), inductionHypothesis _ quotient, Option.map_some',
        List.length_cons]
      congr 2
      omega

theorem zigzagDecode_zigzag (value : Int) : zigzagDecode (zigzag value) = value := by
  unfold zigzagDecode zigzag
  split <;> split <;> omega

/-! ## Reading at the cursor -/

/-- The value of the bits after `front`, in a buffer whose bits are
`front ++ middle ++ back`. -/
theorem leValue_window {source : List UInt8} {front middle back : List Bool}
    (layout : bytesBits source = front ++ middle ++ back) :
    leValue source / 2 ^ front.length % 2 ^ middle.length = bitsValue middle := by
  rw [← bitsValue_bytesBits, layout, List.append_assoc, bitsValue_append, bitsValue_append,
    Nat.add_mul_div_left _ _ (Nat.two_pow_pos _), Nat.div_eq_of_lt (bitsValue_lt front), Nat.zero_add,
    Nat.add_mul_mod_self_left, Nat.mod_eq_of_lt (bitsValue_lt middle)]

/-- The bytes after the first `offset` bytes, in a buffer whose bits are
`front ++ bytesBits bytes ++ back` with `front` of `offset` bytes. -/
theorem drop_of_layout {source bytes : List UInt8} {front back : List Bool} {offset : Nat}
    (aligned : front.length = 8 * offset) (layout : bytesBits source = front ++ bytesBits bytes ++ back) :
    source.drop offset = bytes ++ source.drop (offset + bytes.length) := by
  have lengths := congrArg List.length layout
  simp only [length_bytesBits, List.length_append, aligned] at lengths
  have window := leValue_window layout
  rw [aligned, length_bytesBits, bitsValue_bytesBits, ← leValue_drop, ← leValue_take] at window
  have slice : (source.drop offset).take bytes.length = bytes := by
    have sliceLength : ((source.drop offset).take bytes.length).length = bytes.length := by simp; omega
    rw [← leBytes_leValue ((source.drop offset).take bytes.length), sliceLength, window, leBytes_leValue]
  rw [← List.take_append_drop bytes.length (source.drop offset), slice, List.drop_drop]

section ReadBack

variable {source : List UInt8} {stream back : List Bool}

theorem getValue_readBack {v numBits : Nat} (T : ValueType) (fits : v < 2 ^ numBits)
    (layout : bytesBits source = stream ++ bits v numBits ++ back) :
    (ReaderOp.getValue T numBits).reference source stream.length =
      (some (T.value (T.cast v)), stream.length + numBits) := by
  have lengths := congrArg List.length layout
  have window := leValue_window layout
  simp only [length_bytesBits, List.length_append, length_bits] at lengths window
  rw [bitsValue_bits, Nat.mod_eq_of_lt fits] at window
  simp only [ReaderOp.reference, if_pos (show stream.length + numBits ≤ 8 * source.length by omega), window]

/-- `GetAligned<T>` after the bytes of an aligned write, or with no bytes after a
`Flush(true)`. -/
theorem getAligned_readBack {bytes : List UInt8} {size : Nat} (fits : bytes.length ≤ size)
    (layout : bytesBits source = padToByte stream ++ bytesBits bytes ++ back) :
    (ReaderOp.getAligned size bytes.length).reference source stream.length =
      (some (leValue bytes : Int), (padToByte stream ++ bytesBits bytes).length) := by
  have lengths := congrArg List.length layout
  simp only [length_bytesBits, List.length_append, length_padToByte] at lengths
  rw [ReaderOp.reference, if_pos ⟨fits, by omega⟩,
    drop_of_layout (length_padToByte stream) layout, List.take_left' rfl]
  simp [length_padToByte]; omega

theorem vlqAt_readBack {v : Nat} (small : v < 2 ^ 32)
    (layout : bytesBits source = padToByte stream ++ bytesBits (vlqBytes v) ++ back) :
    ReaderOp.vlqAt source stream.length = (some v, (vlqBytes v).length) := by
  rw [ReaderOp.vlqAt, drop_of_layout (length_padToByte stream) layout,
    vlqScan_vlqBytes v _ (show v < 2 ^ (7 * (4 + 1)) from small.trans (by decide))]

/-- The reader's cursor after the VLQ bytes is the reference stream's length. -/
theorem afterBytes_vlqBytes (v : Nat) :
    afterBytes stream.length (vlqBytes v).length = (padToByte stream ++ bytesBits (vlqBytes v)).length := by
  have nonempty : (vlqBytes v).length ≠ 0 := by simpa using vlqBytes_ne_nil v
  simp only [afterBytes, nonempty, if_false, List.length_append, length_padToByte, length_bytesBits]
  omega

end ReadBack

/-! ## Reading a run back -/

/-- Each writer call with the read that reads its output back, and what the read yields:
`GetValue<T>` of the same width, for a `T` wide enough, yields `static_cast<T>(v)`;
`GetAligned<T>` of the same count the `num_bytes` low bytes of the value; the VLQ read of
the same kind the value written; `GetAligned(0)` after `Flush(true)` the value of no
bytes, `0`; and `Flush(false)` has no read. -/
inductive ReadsBack : List WriterOp → List ReaderOp → List (Option Int) → Prop
  | nil : ReadsBack [] [] []
  | putValue {v numBits : Nat} {T : ValueType} {ops : List WriterOp} {reads : List ReaderOp}
      {values : List (Option Int)} (wide : numBits ≤ 8 * T.size) (rest : ReadsBack ops reads values) :
      ReadsBack (.putValue v numBits :: ops) (.getValue T numBits :: reads) (some (T.value (T.cast v)) :: values)
  | putAligned {size val numBytes : Nat} {ops : List WriterOp} {reads : List ReaderOp} {values : List (Option Int)}
      (rest : ReadsBack ops reads values) :
      ReadsBack (.putAligned size val numBytes :: ops) (.getAligned size numBytes :: reads)
        (some ((val % 2 ^ (8 * numBytes) : Nat) : Int) :: values)
  | putVlqInt {v : Nat} {ops : List WriterOp} {reads : List ReaderOp} {values : List (Option Int)}
      (rest : ReadsBack ops reads values) :
      ReadsBack (.putVlqInt v :: ops) (.getVlqInt :: reads) (some (v : Int) :: values)
  | putZigZagVlqInt {v : Int} {ops : List WriterOp} {reads : List ReaderOp} {values : List (Option Int)}
      (rest : ReadsBack ops reads values) :
      ReadsBack (.putZigZagVlqInt v :: ops) (.getZigZagVlqInt :: reads) (some v :: values)
  | flushAligned {size : Nat} {ops : List WriterOp} {reads : List ReaderOp} {values : List (Option Int)}
      (moderate : size ≤ 2 ^ 30) (rest : ReadsBack ops reads values) :
      ReadsBack (.flush true :: ops) (.getAligned size 0 :: reads) (some 0 :: values)
  | flush {ops : List WriterOp} {reads : List ReaderOp} {values : List (Option Int)}
      (rest : ReadsBack ops reads values) : ReadsBack (.flush false :: ops) reads values

/-- Every call only appends to the stream. -/
theorem foldl_reference_prefix (ops : List WriterOp) (stream : List Bool) :
    ∃ rest, ops.foldl (fun stream op => op.reference stream) stream = stream ++ rest := by
  induction ops generalizing stream with
  | nil => exact ⟨[], (List.append_nil stream).symm⟩
  | cons op ops inductionHypothesis =>
    obtain ⟨rest, restEq⟩ := inductionHypothesis (op.reference stream)
    have ⟨added, addedEq⟩ : ∃ added, op.reference stream = stream ++ added := by
      cases op with
      | putValue => exact ⟨_, rfl⟩
      | putAligned | putVlqInt | putZigZagVlqInt => exact ⟨_, List.append_assoc _ _ _⟩
      | flush align =>
        cases align
        · exact ⟨[], (List.append_nil _).symm⟩
        · exact ⟨_, rfl⟩
    exact ⟨added ++ rest, by rw [List.foldl_cons, restEq, addedEq, List.append_assoc]⟩

theorem readsBack_wellFormed {ops : List WriterOp} {reads : List ReaderOp} {values : List (Option Int)}
    (matching : ReadsBack ops reads values) (wellFormed : ∀ op ∈ ops, op.WellFormed) :
    ∀ read ∈ reads, read.WellFormed := by
  induction matching with
  | nil => exact fun _ => nofun
  | putValue wide _ inductionHypothesis =>
    have ⟨⟨narrow, _⟩, rest⟩ := List.forall_mem_cons.mp wellFormed
    exact List.forall_mem_cons.mpr ⟨⟨narrow, wide⟩, inductionHypothesis rest⟩
  | putAligned _ inductionHypothesis =>
    have ⟨⟨_, moderate⟩, rest⟩ := List.forall_mem_cons.mp wellFormed
    exact List.forall_mem_cons.mpr ⟨moderate, inductionHypothesis rest⟩
  | putVlqInt _ inductionHypothesis | putZigZagVlqInt _ inductionHypothesis =>
    exact List.forall_mem_cons.mpr ⟨trivial, inductionHypothesis (List.forall_mem_cons.mp wellFormed).2⟩
  | flushAligned moderate _ inductionHypothesis =>
    exact List.forall_mem_cons.mpr ⟨moderate, inductionHypothesis (List.forall_mem_cons.mp wellFormed).2⟩
  | flush _ inductionHypothesis => exact inductionHypothesis (List.forall_mem_cons.mp wellFormed).2

/-- One read that succeeds, followed by the rest of the reference run. -/
theorem referenceRun_cons {source : List UInt8} {read : ReaderOp} {reads : List ReaderOp} {position after : Nat}
    {value : Int} (step : read.reference source position = (some value, after)) (bounded : read.Bounded source position)
    {results : List (Option Int)} {last : Nat}
    (rest : referenceRun source after reads = (results, last) ∧ VlqsBelow source after reads ∧
      endsInFailedVlq source after reads = false) :
    referenceRun source position (read :: reads) = (some value :: results, last) ∧
      VlqsBelow source position (read :: reads) ∧ endsInFailedVlq source position (read :: reads) = false := by
  refine ⟨by simp [referenceRun, step, rest.1], ⟨bounded, fun _ => ?_⟩, by simp [endsInFailedVlq, step, rest.2.2]⟩
  rw [step]
  exact rest.2.1

/-- The reference reader reads the reference format back: from the cursor at the end of
`stream`, the reads matching the calls succeed, yield the values of `ReadsBack`, and stop
at the end of the calls' output. -/
theorem referenceRun_readsBack {source : List UInt8} {ops : List WriterOp} {reads : List ReaderOp}
    {values : List (Option Int)} (matching : ReadsBack ops reads values) (wellFormed : ∀ op ∈ ops, op.WellFormed)
    {stream back : List Bool} (layout : bytesBits source = ops.foldl (fun stream op => op.reference stream) stream ++ back) :
    referenceRun source stream.length reads = (values, (ops.foldl (fun stream op => op.reference stream) stream).length) ∧
      VlqsBelow source stream.length reads ∧ endsInFailedVlq source stream.length reads = false := by
  induction matching generalizing stream with
  | nil => exact ⟨rfl, trivial, rfl⟩
  | @putValue v numBits T ops reads values wide _ inductionHypothesis =>
    have ⟨⟨_, fits⟩, rest⟩ := List.forall_mem_cons.mp wellFormed
    rw [List.foldl_cons, WriterOp.reference] at layout ⊢
    obtain ⟨tail, tailEq⟩ := foldl_reference_prefix ops (stream ++ bits v numBits)
    have next := inductionHypothesis rest layout
    rw [List.length_append, length_bits] at next
    simpa using referenceRun_cons (getValue_readBack T fits (by rw [layout, tailEq, List.append_assoc])) trivial next
  | @putAligned size val numBytes ops reads values _ inductionHypothesis =>
    have ⟨⟨enough, _⟩, rest⟩ := List.forall_mem_cons.mp wellFormed
    rw [List.foldl_cons, WriterOp.reference] at layout ⊢
    obtain ⟨tail, tailEq⟩ := foldl_reference_prefix ops (padToByte stream ++ bytesBits (leBytes val numBytes))
    have step := getAligned_readBack (show (leBytes val numBytes).length ≤ size by rw [length_leBytes]; exact enough)
      (by rw [layout, tailEq, List.append_assoc] :
        bytesBits source = padToByte stream ++ bytesBits (leBytes val numBytes) ++ (tail ++ back))
    rw [length_leBytes, leValue_leBytes] at step
    simpa using referenceRun_cons step trivial (inductionHypothesis rest layout)
  | @putVlqInt v ops reads values _ inductionHypothesis =>
    have ⟨small, rest⟩ := List.forall_mem_cons.mp wellFormed
    rw [List.foldl_cons, WriterOp.reference] at layout ⊢
    obtain ⟨tail, tailEq⟩ := foldl_reference_prefix ops (padToByte stream ++ bytesBits (vlqBytes v))
    have scan := vlqAt_readBack small (by rw [layout, tailEq, List.append_assoc] :
      bytesBits source = padToByte stream ++ bytesBits (vlqBytes v) ++ (tail ++ back))
    have step : ReaderOp.getVlqInt.reference source stream.length =
        (some (v : Int), (padToByte stream ++ bytesBits (vlqBytes v)).length) := by
      simp only [ReaderOp.reference, scan, afterBytes_vlqBytes]
    have bounded : ReaderOp.getVlqInt.Bounded source stream.length := by
      simp only [ReaderOp.Bounded, scan]
      exact fun value member => Option.some_inj.mp (Option.mem_def.mp member) ▸ small
    simpa using referenceRun_cons step bounded (inductionHypothesis rest layout)
  | @putZigZagVlqInt v ops reads values _ inductionHypothesis =>
    have ⟨⟨low, high⟩, rest⟩ := List.forall_mem_cons.mp wellFormed
    rw [List.foldl_cons, WriterOp.reference] at layout ⊢
    obtain ⟨tail, tailEq⟩ := foldl_reference_prefix ops (padToByte stream ++ bytesBits (vlqBytes (zigzag v)))
    have scan := vlqAt_readBack (zigzag_lt low high) (by rw [layout, tailEq, List.append_assoc] :
      bytesBits source = padToByte stream ++ bytesBits (vlqBytes (zigzag v)) ++ (tail ++ back))
    have step : ReaderOp.getZigZagVlqInt.reference source stream.length =
        (some v, (padToByte stream ++ bytesBits (vlqBytes (zigzag v))).length) := by
      simp only [ReaderOp.reference, scan, afterBytes_vlqBytes, zigzagDecode_zigzag]
    have bounded : ReaderOp.getZigZagVlqInt.Bounded source stream.length := by
      simp only [ReaderOp.Bounded, scan]
      exact fun value member => Option.some_inj.mp (Option.mem_def.mp member) ▸ zigzag_lt low high
    simpa using referenceRun_cons step bounded (inductionHypothesis rest layout)
  | @flushAligned size ops reads values _ _ inductionHypothesis =>
    rw [List.foldl_cons, WriterOp.reference, if_pos rfl] at layout ⊢
    obtain ⟨tail, tailEq⟩ := foldl_reference_prefix ops (padToByte stream)
    have step := @getAligned_readBack source stream (tail ++ back) [] size (Nat.zero_le _)
      (by rw [layout, tailEq, bytesBits_nil, List.append_nil, List.append_assoc])
    simp only [List.length_nil, bytesBits_nil, List.append_nil] at step
    simpa using referenceRun_cons step trivial (inductionHypothesis (List.forall_mem_cons.mp wellFormed).2 layout)
  | @flush ops reads values _ inductionHypothesis =>
    rw [List.foldl_cons, WriterOp.reference, if_neg Bool.false_ne_true] at layout ⊢
    exact inductionHypothesis (List.forall_mem_cons.mp wellFormed).2 layout

/-! ## The round trip of the code -/

/-- Writes on a fresh writer of at most `2^27` bytes, in which every call returned
`true`, then a `Flush`, then a reader over the buffer's `bytes_written()` bytes making
the matching reads: every read succeeds and yields its value of `ReadsBack`, what was
written converted to the type of the read, and no byte is left after the last. -/
theorem written_values_read_back {buffer : List UInt8} {bufferLen : Int} (nonneg : 0 ≤ bufferLen)
    (small : bufferLen ≤ 2 ^ 27) (allocated : bufferLen ≤ buffer.length) {ops : List WriterOp}
    (wellFormed : ∀ op ∈ ops, op.WellFormed) {reads : List ReaderOp} {values : List (Option Int)}
    (matching : ReadsBack ops reads values) (align : Bool) {stale : Nat} (staleBound : stale < 2 ^ 64) :
    ∃ oks writer, (BitWriter.init buffer bufferLen).runWriter ops = some (oks, writer) ∧
      ((∀ ok ∈ oks, ok = true) → ∃ flushed reader results last,
        writer.flush align = some flushed ∧
        BitReader.init flushed.buffer flushed.bytesWritten stale = some reader ∧
        reader.runReader reads = some (results, last) ∧
        results = values ∧ last.bytesLeft = 0) := by
  obtain ⟨oks, writer, held, ran, represents, -, success⟩ :=
    BitWriter.represents_runWriter (BitWriter.represents_init nonneg small allocated) wellFormed
  refine ⟨oks, writer, ran, fun allSet => ?_⟩
  rw [success allSet] at represents
  change writer.Represents (referenceStream ops) at represents
  obtain ⟨flushed, flush, flushedRepresents, -, flushedBytes⟩ := BitWriter.represents_flush represents align
  have written := BitWriter.bytesWritten_eq flushedRepresents
  have fits := BitWriter.length_le flushedRepresents
  have ⟨_, _, _, _, flushedSmall, flushedAllocated, _⟩ := flushedRepresents.invariant
  have paddedLength : ((if align then padToByte (referenceStream ops) else referenceStream ops).length + 7) / 8 =
      ((referenceStream ops).length + 7) / 8 := by
    cases align
    · rfl
    · simp only [length_padToByte, if_true]; omega
  obtain ⟨reader, fresh, readerReads⟩ :=
    @BitReader.reads_init flushed.buffer flushed.bytesWritten stale (by omega) (by omega) (by omega) staleBound
  have layout : bytesBits (flushed.buffer.take flushed.bytesWritten.toNat) =
      ops.foldl (fun stream op => op.reference stream) [] ++ List.replicate _ false := flushedBytes
  obtain ⟨referenceEq, bounded, notVlq⟩ := referenceRun_readsBack matching wellFormed layout
  obtain ⟨results, last, run, resultsEq, lastReads⟩ :=
    runReader_reference readerReads (readsBack_wellFormed matching wellFormed) bounded
  rw [List.length_nil] at referenceEq notVlq
  rw [referenceEq] at resultsEq lastReads
  refine ⟨flushed, reader, results, last, flush, fresh, run, resultsEq, ?_⟩
  rw [BitReader.bytesLeft_eq (lastReads notVlq), List.length_take, Nat.min_eq_left (by omega)]
  change (flushed.bytesWritten.toNat : Int) - (((referenceStream ops).length + 7) / 8 : Nat) = 0
  omega

theorem written_values_read_back_mixed :
    (0 : Int) ≤ 8 ∧ (8 : Int) ≤ 2 ^ 27 ∧ (8 : Int) ≤ (List.replicate 8 (0 : UInt8)).length ∧
      (∀ op ∈ [WriterOp.putValue 5 3, .putVlqInt 300, .putZigZagVlqInt (-3), .flush true, .putAligned 2 0x1234 2],
        op.WellFormed) ∧
      ReadsBack [.putValue 5 3, .putVlqInt 300, .putZigZagVlqInt (-3), .flush true, .putAligned 2 0x1234 2]
        [.getValue .bool 3, .getVlqInt, .getZigZagVlqInt, .getAligned 1 0, .getAligned 2 2]
        [some 1, some 300, some (-3), some 0, some 0x1234] ∧ 0 < 2 ^ 64 ∧
      ∃ oks writer, (BitWriter.init (List.replicate 8 0) 8).runWriter
          [.putValue 5 3, .putVlqInt 300, .putZigZagVlqInt (-3), .flush true, .putAligned 2 0x1234 2] =
          some (oks, writer) ∧ (∀ ok ∈ oks, ok = true) ∧
        ((∀ ok ∈ oks, ok = true) → ∃ flushed reader results last,
          writer.flush false = some flushed ∧
          BitReader.init flushed.buffer flushed.bytesWritten 0 = some reader ∧
          reader.runReader [.getValue .bool 3, .getVlqInt, .getZigZagVlqInt, .getAligned 1 0, .getAligned 2 2] =
            some (results, last) ∧
          results = [some 1, some 300, some (-3), some 0, some 0x1234] ∧ last.bytesLeft = 0) := by
  have matching : ReadsBack [.putValue 5 3, .putVlqInt 300, .putZigZagVlqInt (-3), .flush true, .putAligned 2 0x1234 2]
      [.getValue .bool 3, .getVlqInt, .getZigZagVlqInt, .getAligned 1 0, .getAligned 2 2]
      [some 1, some 300, some (-3), some 0, some 0x1234] :=
    .putValue (by decide) (.putVlqInt (.putZigZagVlqInt (.flushAligned (by decide) (.putAligned .nil))))
  obtain ⟨oks, writer, ran, readBack⟩ := @written_values_read_back (List.replicate 8 0) 8 (by decide) (by decide)
    (by decide) _ (by decide) _ _ matching false 0 (by decide)
  have flags : ((BitWriter.init (List.replicate 8 0) 8).runWriter
      [.putValue 5 3, .putVlqInt 300, .putZigZagVlqInt (-3), .flush true, .putAligned 2 0x1234 2]).map Prod.fst =
      some [true, true, true, true, true] := by
    simp (disch := decide) only [BitWriter.runWriter, WriterOp.run, BitWriter.putVlqInt, BitWriter.putVlqLoop_eq,
      BitWriter.putZigZagVlqInt_eq, zigzag, vlqBytes_of_lt, vlqBytes_of_le]
    decide
  rw [ran] at flags
  obtain rfl : oks = [true, true, true, true, true] := Option.some.inj flags
  exact ⟨by decide, by decide, by decide, by decide, matching, by decide, _, writer, ran, by decide, readBack⟩

/-- `PutValue(2, 2)` then `PutValue(200, 8)`, read back with `GetValue<bool>(2)` and
`GetValue<int8_t>(8)`: both reads return `true`, and yield `true`, that is 1, and -56, not
the 2 and 200 written. -/
theorem written_values_read_back_converted :
    ∃ writer flushed reader results last,
      (BitWriter.init [0, 0] 2).runWriter [.putValue 2 2, .putValue 200 8] = some ([true, true], writer) ∧
      writer.flush false = some flushed ∧ BitReader.init flushed.buffer flushed.bytesWritten 0 = some reader ∧
      reader.runReader [.getValue .bool 2, .getValue (.signed 1) 8] = some (results, last) ∧
      results = [some 1, some (-56)] := by
  obtain ⟨results, last, run, resultsEq, -⟩ :=
    @runReader_reference ⟨[0x22, 0x03], 2, 0x322, 0, 0⟩ [0x22, 0x03] 0 (by decide)
      [.getValue .bool 2, .getValue (.signed 1) 8] (by decide) (by decide)
  exact ⟨_, _, _, results, last, rfl, rfl, rfl, run, by rw [resultsEq]; decide⟩

/-! ## A bit-packed run through `GetBatch` -/

section Packed

variable {values : List Nat} {numBits : Nat}

theorem foldl_reference_putValue (values : List Nat) (numBits : Nat) (stream : List Bool) :
    (values.map (WriterOp.putValue · numBits)).foldl (fun stream op => op.reference stream) stream =
      stream ++ values.flatMap (bits · numBits) := by
  induction values generalizing stream with
  | nil => simp
  | cons v values inductionHypothesis =>
    rw [List.map_cons, List.foldl_cons, WriterOp.reference, inductionHypothesis, List.flatMap_cons,
      List.append_assoc]

theorem length_packed (values : List Nat) (numBits : Nat) :
    (values.flatMap (bits · numBits)).length = numBits * values.length := by
  induction values with
  | nil => simp
  | cons v values inductionHypothesis =>
    rw [List.flatMap_cons, List.length_append, length_bits, inductionHypothesis, List.length_cons, Nat.mul_succ,
      Nat.add_comm]

/-- Values of `numBits` bits each, one after another after `front`, are the reference
reader's values from the end of `front`. -/
theorem readValues_packed {source : List UInt8} (fits : ∀ v ∈ values, v < 2 ^ numBits) {front back : List Bool}
    (layout : bytesBits source = front ++ values.flatMap (bits · numBits) ++ back) :
    BitReader.readValues (leValue source) numBits front.length values.length = values := by
  induction values generalizing front with
  | nil => rfl
  | cons v values inductionHypothesis =>
    have ⟨small, rest⟩ := List.forall_mem_cons.mp fits
    rw [List.flatMap_cons] at layout
    have window := @leValue_window source front (bits v numBits) (values.flatMap (bits · numBits) ++ back)
      (by rw [layout]; simp only [List.append_assoc])
    rw [length_bits, bitsValue_bits, Nat.mod_eq_of_lt small] at window
    have next := @inductionHypothesis rest (front ++ bits v numBits) (by rw [layout]; simp only [List.append_assoc])
    rw [List.length_append, length_bits] at next
    rw [List.length_cons, BitReader.readValues, window, next]

end Packed

/-- A bit-packed run: values of `num_bits` bits put one after another on a fresh writer
of at most `2^27` bytes, in which every call returned `true`, then a `Flush`. One
`GetBatch` of as many values, on a reader over the buffer's `bytes_written()` bytes,
reads them all back and leaves no byte. -/
theorem packed_values_read_back {buffer : List UInt8} {bufferLen : Int} (nonneg : 0 ≤ bufferLen)
    (small : bufferLen ≤ 2 ^ 27) (allocated : bufferLen ≤ buffer.length) {values : List Nat} {T : ValueType}
    {numBits : Nat} (narrow : numBits ≤ 32) (wide : numBits ≤ 8 * T.size) (fits : ∀ v ∈ values, v < 2 ^ numBits)
    (align : Bool)
    {stale : Nat} (staleBound : stale < 2 ^ 64) :
    ∃ oks writer, (BitWriter.init buffer bufferLen).runWriter (values.map (WriterOp.putValue · numBits)) =
        some (oks, writer) ∧
      ((∀ ok ∈ oks, ok = true) → ∃ flushed reader last,
        writer.flush align = some flushed ∧
        BitReader.init flushed.buffer flushed.bytesWritten stale = some reader ∧
        reader.getBatch T numBits values.length = some ((values.length : Int), values.map T.cast, last) ∧
          last.bytesLeft = 0) := by
  have wellFormed : ∀ op ∈ values.map (WriterOp.putValue · numBits), op.WellFormed := by
    simp only [List.mem_map]
    rintro _ ⟨v, member, rfl⟩
    exact ⟨narrow, fits v member⟩
  obtain ⟨oks, writer, held, ran, represents, -, success⟩ :=
    BitWriter.represents_runWriter (BitWriter.represents_init nonneg small allocated) wellFormed
  refine ⟨oks, writer, ran, fun allSet => ?_⟩
  rw [success allSet, foldl_reference_putValue, List.nil_append] at represents
  obtain ⟨flushed, flush, flushedRepresents, sameMax, flushedBytes⟩ := BitWriter.represents_flush represents align
  have readBack : BitReader.readValues (leValue (flushed.buffer.take flushed.bytesWritten.toNat)) numBits 0
      values.length = values :=
    readValues_packed fits (show _ = [] ++ values.flatMap (bits · numBits) ++ List.replicate _ false from flushedBytes)
  have room := BitWriter.length_le represents
  rw [length_packed] at room
  have bytesCount : flushed.bytesWritten = ((numBits * values.length + 7) / 8 : Nat) := by
    rw [BitWriter.bytesWritten_eq flushedRepresents, ← length_packed values numBits]
    cases align <;> simp only [Bool.false_eq_true, if_false, if_true, length_padToByte] <;> omega
  have ⟨_, _, _, _, flushedSmall, flushedAllocated, _⟩ := flushedRepresents.invariant
  obtain ⟨reader, fresh, readerReads⟩ :=
    @BitReader.reads_init flushed.buffer flushed.bytesWritten stale (by omega) (by omega) (by omega) staleBound
  have sourceLength : (flushed.buffer.take flushed.bytesWritten.toNat).length = (numBits * values.length + 7) / 8 := by
    rw [List.length_take, bytesCount, Int.toNat_natCast, Nat.min_eq_left (by omega)]
  obtain ⟨last, batch, lastReads⟩ := @BitReader.getBatch_spec reader _ 0 readerReads T numBits narrow wide
    values.length (by omega) (by rw [← Nat.cast_mul]; omega)
  have whole : BitReader.clampedCount (flushed.buffer.take flushed.bytesWritten.toNat).length 0 numBits
      values.length = values.length := by
    rw [sourceLength, BitReader.clampedCount, Int.toNat_natCast, if_neg (by omega)]
  rw [whole] at batch lastReads
  refine ⟨flushed, reader, last, flush, fresh, by rw [batch, readBack], ?_⟩
  rw [BitReader.bytesLeft_eq lastReads, sourceLength, Nat.zero_add, Nat.mul_comm values.length numBits, sub_self]

theorem packed_values_read_back_three :
    (0 : Int) ≤ 2 ∧ (2 : Int) ≤ 2 ^ 27 ∧ (2 : Int) ≤ (List.replicate 2 (0 : UInt8)).length ∧
      (∀ v ∈ [5, 2, 7], v < 2 ^ 3) ∧ 0 < 2 ^ 64 ∧
      ∃ oks writer, (BitWriter.init (List.replicate 2 0) 2).runWriter ([5, 2, 7].map (WriterOp.putValue · 3)) =
          some (oks, writer) ∧ (∀ ok ∈ oks, ok = true) ∧
        ((∀ ok ∈ oks, ok = true) → ∃ flushed reader last,
          writer.flush false = some flushed ∧
          BitReader.init flushed.buffer flushed.bytesWritten 0 = some reader ∧
          reader.getBatch .bool 3 [5, 2, 7].length =
            some (([5, 2, 7].length : Int), [5, 2, 7].map ValueType.bool.cast, last) ∧
            last.bytesLeft = 0) := by
  obtain ⟨oks, writer, ran, readBack⟩ := @packed_values_read_back (List.replicate 2 0) 2 (by decide) (by decide) (by decide) [5, 2, 7]
    .bool 3 (by decide) (by decide) (by decide) false 0 (by decide)
  have flags : ((BitWriter.init (List.replicate 2 0) 2).runWriter ([5, 2, 7].map (WriterOp.putValue · 3))).map
      Prod.fst = some [true, true, true] := by
    decide
  rw [ran] at flags
  obtain rfl : oks = [true, true, true] := Option.some.inj flags
  exact ⟨by decide, by decide, by decide, by decide, by decide, _, writer, ran, by decide, readBack⟩

end Parquet4Seastar.BitUtil
