import Parquet4Seastar.BitUtil.Writer.Format

/-! # Runs of writer calls

The writer's calls as data, so that a whole sequence of them can be run and compared
with the reference format:

* `WriterOp`: `PutValue`, `PutAligned<T>`, `PutVlqInt`, `PutZigZagVlqInt` and `Flush`;
  `WriterOp.WellFormed` is what each call's contract asks of its arguments.
* `WriterOp.reference`: the bit string after the call, from the format description.
* `BitWriter.runWriter`: the calls run in order on one writer, with the flags returned.

`represents_run` is the step: from a state that holds a stream every call returns, its
flag says whether the reference stream fits, and on success the state holds the
reference stream. `represents_runWriter` is the run, by induction on the calls;
`writer_emits_reference_format` reads it for a fresh writer.
-/

namespace Parquet4Seastar.BitUtil

inductive WriterOp where
  | putValue (v numBits : Nat)
  | putAligned (size val numBytes : Nat)
  | putVlqInt (v : Nat)
  | putZigZagVlqInt (v : Int)
  | flush (align : Bool)
  deriving Repr, DecidableEq

namespace WriterOp

/-- What each call asks of its arguments: `num_bits <= 32` and no bits of `v` above
them (the asserts of `PutValue`), `num_bytes <= sizeof(T)` for a `T` of at most `2^30`
bytes, and the ranges of `uint32_t` and `int32_t`. -/
def WellFormed : WriterOp → Prop
  | putValue v numBits => numBits ≤ 32 ∧ v < 2 ^ numBits
  | putAligned size _ numBytes => numBytes ≤ size ∧ size ≤ 2 ^ 30
  | putVlqInt v => v < 2 ^ 32
  | putZigZagVlqInt v => -2 ^ 31 ≤ v ∧ v < 2 ^ 31
  | flush _ => True

instance (op : WriterOp) : Decidable op.WellFormed :=
  match op with
  | putValue v numBits => inferInstanceAs (Decidable (numBits ≤ 32 ∧ v < 2 ^ numBits))
  | putAligned size _ numBytes => inferInstanceAs (Decidable (numBytes ≤ size ∧ size ≤ 2 ^ 30))
  | putVlqInt v => inferInstanceAs (Decidable (v < 2 ^ 32))
  | putZigZagVlqInt v => inferInstanceAs (Decidable (-2 ^ 31 ≤ v ∧ v < 2 ^ 31))
  | flush _ => instDecidableTrue

/-- The reference format: the bit string after the call, given the one before it.
Every aligned call first pads to a byte boundary. -/
def reference : WriterOp → List Bool → List Bool
  | putValue v numBits, stream => stream ++ bits v numBits
  | putAligned _ val numBytes, stream => padToByte stream ++ bytesBits (leBytes val numBytes)
  | putVlqInt v, stream => padToByte stream ++ bytesBits (vlqBytes v)
  | putZigZagVlqInt v, stream => padToByte stream ++ bytesBits (vlqBytes (zigzag v))
  | flush align, stream => if align then padToByte stream else stream

/-- What a call that does not fit in `maxBytes` bytes leaves of the stream: `PutValue` the
stream as it was, `PutAligned` the padding of its `Flush(true)`, and the VLQ writers the
padding followed by the leading VLQ bytes that fit. A `Flush` always fits. -/
def leftover (maxBytes : Int) : WriterOp → List Bool → List Bool
  | putValue _ _, stream => stream
  | putAligned _ _ _, stream => padToByte stream
  | putVlqInt v, stream =>
    padToByte stream ++ bytesBits ((vlqBytes v).take (maxBytes - ((stream.length : Int) + 7) / 8).toNat)
  | putZigZagVlqInt v, stream =>
    padToByte stream ++ bytesBits ((vlqBytes (zigzag v)).take (maxBytes - ((stream.length : Int) + 7) / 8).toNat)
  | flush align, stream => (flush align).reference stream

/-- The flag of a call in a buffer of `maxBytes` bytes and the stream after it: the
reference stream when it fits, what the call leaves otherwise. -/
def outcome (maxBytes : Int) (op : WriterOp) (stream : List Bool) : Bool × List Bool :=
  if ((op.reference stream).length : Int) ≤ 8 * maxBytes then (true, op.reference stream)
  else (false, op.leftover maxBytes stream)

theorem outcome_eq {maxBytes : Int} {op : WriterOp} {stream : List Bool} {ok : Bool}
    (fits : ok = true ↔ ((op.reference stream).length : Int) ≤ 8 * maxBytes) :
    op.outcome maxBytes stream = (ok, if ok then op.reference stream else op.leftover maxBytes stream) := by
  unfold outcome
  cases ok with
  | true => rw [if_pos (fits.mp rfl), if_pos rfl]
  | false => rw [if_neg (fits.not.mp Bool.false_ne_true), if_neg Bool.false_ne_true]

/-- The call on a writer; `Flush` returns nothing and counts as a success. -/
def run : WriterOp → BitWriter → Option (Bool × BitWriter)
  | putValue v numBits, writer => writer.putValue v numBits
  | putAligned size val numBytes, writer => writer.putAligned size val numBytes
  | putVlqInt v, writer => writer.putVlqInt v
  | putZigZagVlqInt v, writer => writer.putZigZagVlqInt v
  | flush align, writer => (writer.flush align).map fun next => (true, next)

end WriterOp

/-- The reference bit string of a sequence of calls on a fresh writer. -/
def referenceStream (ops : List WriterOp) : List Bool :=
  ops.foldl (fun stream op => op.reference stream) []

/-- The flags and the stream of a sequence of calls in a buffer of `maxBytes` bytes from the
stream `stream`, failed calls included. -/
def referenceOutcomes (maxBytes : Int) : List WriterOp → List Bool → List Bool × List Bool
  | [], stream => ([], stream)
  | op :: ops, stream =>
    let (oks, last) := referenceOutcomes maxBytes ops (op.outcome maxBytes stream).2
    ((op.outcome maxBytes stream).1 :: oks, last)

/-- In a one-byte buffer a 5-bit value that does not fit is dropped, and a 3-bit value
after it still fits. -/
example : referenceOutcomes 1 [.putValue 0 5, .putValue 0 5, .putValue 1 3] [] =
    ([true, false, true], bits 0 5 ++ bits 1 3) := by
  decide

namespace BitWriter

/-- The calls run in order on one writer: the flags they returned, and the last state. -/
def runWriter (writer : BitWriter) : List WriterOp → Option (List Bool × BitWriter)
  | [] => some ([], writer)
  | op :: ops => do
    let (ok, next) ← op.run writer
    let (oks, last) ← next.runWriter ops
    some (ok :: oks, last)

theorem take_of_fits {stream : List Bool} {bytes : List UInt8} {maxBytes : Int}
    (fits : ((padToByte stream ++ bytesBits bytes).length : Int) ≤ 8 * maxBytes) :
    bytes.take (maxBytes - ((stream.length : Int) + 7) / 8).toNat = bytes := by
  rw [List.length_append, length_padToByte, length_bytesBits] at fits
  exact List.take_of_length_le (by omega)

/-- One call from a state that holds `stream`: the call returns, the flag says whether
the reference stream fits, and the new state holds a stream that is the reference one
when the flag is set. -/
theorem represents_run {writer : BitWriter} {stream : List Bool} (represents : writer.Represents stream)
    {op : WriterOp} (wellFormed : op.WellFormed) :
    ∃ ok next held, op.run writer = some (ok, next) ∧ next.Represents held ∧
      (ok = true ↔ ((op.reference stream).length : Int) ≤ 8 * writer.maxBytes) ∧
      (ok = true → held = op.reference stream) ∧ next.maxBytes = writer.maxBytes := by
  cases op with
  | putValue v numBits =>
    obtain ⟨ok, next, run, fits, success, failure, nextMax⟩ :=
      represents_putValue represents wellFormed.1 wellFormed.2
    cases ok with
    | true => exact ⟨true, next, _, run, success rfl, fits, fun _ => rfl, nextMax⟩
    | false => exact ⟨false, next, stream, run, failure rfl ▸ represents, fits, nofun, nextMax⟩
  | putAligned size val numBytes =>
    obtain ⟨ok, next, run, fits, success, failure, -, -, nextMax⟩ :=
      represents_putAligned represents wellFormed.1 wellFormed.2
    cases ok with
    | true => exact ⟨true, next, _, run, success rfl, fits, fun _ => rfl, nextMax⟩
    | false => exact ⟨false, next, _, run, failure rfl ▸ represents_aligned represents, fits, nofun, nextMax⟩
  | putVlqInt v =>
    obtain ⟨ok, next, run, fits, nextRepresents, nextMax⟩ := represents_putVlqInt represents wellFormed
    exact ⟨ok, next, _, run, nextRepresents, fits,
      fun success => by rw [take_of_fits (fits.mp success)]; rfl, nextMax⟩
  | putZigZagVlqInt v =>
    obtain ⟨ok, next, run, fits, nextRepresents, nextMax⟩ :=
      represents_putVlqInt represents (zigzag_lt wellFormed.1 wellFormed.2)
    exact ⟨ok, next, _, (putZigZagVlqInt_eq writer wellFormed.1 wellFormed.2).trans run, nextRepresents, fits,
      fun success => by rw [take_of_fits (fits.mp success)]; rfl, nextMax⟩
  | flush align =>
    obtain ⟨next, flushed, nextRepresents, nextMax, -⟩ := represents_flush represents align
    exact ⟨true, next, _, by rw [WriterOp.run, flushed]; rfl, nextRepresents,
      iff_of_true rfl (nextMax ▸ length_le nextRepresents), fun _ => rfl, nextMax⟩

/-- A run of calls from a state that holds `stream`: it returns, the last state holds a
stream, and while every flag is set that stream is the reference one. -/
theorem represents_runWriter {writer : BitWriter} {stream : List Bool} (represents : writer.Represents stream)
    {ops : List WriterOp} (wellFormed : ∀ op ∈ ops, op.WellFormed) :
    ∃ oks last held, writer.runWriter ops = some (oks, last) ∧ last.Represents held ∧
      last.maxBytes = writer.maxBytes ∧
      ((∀ ok ∈ oks, ok = true) → held = ops.foldl (fun stream op => op.reference stream) stream) := by
  induction ops generalizing writer stream with
  | nil => exact ⟨[], writer, stream, rfl, represents, rfl, fun _ => rfl⟩
  | cons op ops inductionHypothesis =>
    obtain ⟨ok, next, held, run, nextRepresents, -, success, nextMax⟩ :=
      represents_run represents (wellFormed op (List.mem_cons_self _ _))
    obtain ⟨oks, last, lastHeld, rest, lastRepresents, lastMax, lastSuccess⟩ :=
      inductionHypothesis nextRepresents fun op mem => wellFormed op (List.mem_cons_of_mem _ mem)
    refine ⟨ok :: oks, last, lastHeld, by simp [runWriter, run, rest], lastRepresents, lastMax.trans nextMax,
      fun allSet => ?_⟩
    rw [List.foldl_cons, ← success (allSet ok (List.mem_cons_self _ _))]
    exact lastSuccess fun ok mem => allSet ok (List.mem_cons_of_mem _ mem)

/-! ## The format of a whole run -/

/-- From a fresh writer of at most `2^27` bytes, every run of well-formed calls returns,
and while every flag is set: `bytes_written()` is the reference stream's length in
whole bytes, the next call's flag says whether its reference stream fits, and a `Flush`
leaves the stream, zero-padded, in the buffer's first `bytes_written()` bytes. -/
theorem writer_emits_reference_format {buffer : List UInt8} {bufferLen : Int} (nonneg : 0 ≤ bufferLen)
    (small : bufferLen ≤ 2 ^ 27) (allocated : bufferLen ≤ buffer.length) {ops : List WriterOp}
    (wellFormed : ∀ op ∈ ops, op.WellFormed) :
    ∃ oks writer, (init buffer bufferLen).runWriter ops = some (oks, writer) ∧
      ((∀ ok ∈ oks, ok = true) →
        writer.bytesWritten = ((referenceStream ops).length + 7) / 8 ∧
        (∀ op : WriterOp, op.WellFormed → ∃ ok next, op.run writer = some (ok, next) ∧
          (ok = true ↔ ((op.reference (referenceStream ops)).length : Int) ≤ 8 * bufferLen)) ∧
        ∀ align, ∃ next, writer.flush align = some next ∧
          bytesBits (next.buffer.take next.bytesWritten.toNat) = padToByte (referenceStream ops)) := by
  obtain ⟨oks, writer, held, ran, represents, sameMax, success⟩ :=
    represents_runWriter (represents_init nonneg small allocated) wellFormed
  refine ⟨oks, writer, ran, fun allSet => ?_⟩
  rw [success allSet] at represents
  refine ⟨bytesWritten_eq represents, fun op opWellFormed => ?_, fun align => ?_⟩
  · obtain ⟨ok, next, _, run, -, fits, -, -⟩ := represents_run represents opWellFormed
    rw [sameMax] at fits
    exact ⟨ok, next, run, fits⟩
  · obtain ⟨next, flushed, -, -, flushedBytes⟩ := represents_flush represents align
    exact ⟨next, flushed, flushedBytes⟩

theorem writer_emits_reference_format_one_byte :
    (0 : Int) ≤ 1 ∧ (1 : Int) ≤ 2 ^ 27 ∧ (1 : Int) ≤ [(0 : UInt8)].length ∧
      (∀ op ∈ [WriterOp.putValue 5 3, .putValue 7 3], op.WellFormed) ∧
      ∃ oks writer, (init [0] 1).runWriter [.putValue 5 3, .putValue 7 3] = some (oks, writer) ∧
        (∀ ok ∈ oks, ok = true) ∧
        ((∀ ok ∈ oks, ok = true) →
          writer.bytesWritten = ((referenceStream [.putValue 5 3, .putValue 7 3]).length + 7) / 8 ∧
          (∀ op : WriterOp, op.WellFormed → ∃ ok next, op.run writer = some (ok, next) ∧
            (ok = true ↔ ((op.reference (referenceStream [.putValue 5 3, .putValue 7 3])).length : Int) ≤ 8 * 1)) ∧
          ∀ align, ∃ next, writer.flush align = some next ∧
            bytesBits (next.buffer.take next.bytesWritten.toNat) =
              padToByte (referenceStream [.putValue 5 3, .putValue 7 3])) := by
  obtain ⟨oks, writer, ran, format⟩ := @writer_emits_reference_format [0] 1 (by decide) (by decide) (by decide)
    [.putValue 5 3, .putValue 7 3] (by decide)
  have flags : ((init [0] 1).runWriter [.putValue 5 3, .putValue 7 3]).map Prod.fst = some [true, true] := by
    decide
  rw [ran] at flags
  obtain rfl : oks = [true, true] := Option.some.inj flags
  exact ⟨by decide, by decide, by decide, by decide, _, writer, ran, by decide, format⟩

/-- Two 3-bit values and a `Flush` in a one-byte buffer give the byte `0x3D`. -/
example : (init [0] 1).runWriter [.putValue 5 3, .putValue 7 3, .flush false] =
    some ([true, true, true], { init [0] 1 with buffer := [0x3D], bufferedValues := 61, bitOffset := 6 }) := by
  decide

/-! ## Failed calls -/

/-- What a call that returns `false` leaves behind. From any state, `PutValue` leaves the
writer as it was, and `PutAligned` has already called `Flush(true)` through
`GetNextBytePtr` and leaves the writer as that flush does. From a state that holds
`stream`, `PutVlqInt` and `PutZigZagVlqInt` pad the stream the same way, then keep the
leading VLQ bytes that fit in the `max_bytes_ - bytes_written()` bytes left. -/
theorem failed_put_effect (writer : BitWriter) :
    (∀ v numBits next, writer.putValue v numBits = some (false, next) → next = writer) ∧
    (∀ size val numBytes next, writer.putAligned size val numBytes = some (false, next) →
      writer.flush true = some next) ∧
    ∀ stream, writer.Represents stream →
      (∀ v next, v < 2 ^ 32 → writer.putVlqInt v = some (false, next) →
        next.Represents (padToByte stream ++
          bytesBits ((vlqBytes v).take (writer.maxBytes - writer.bytesWritten).toNat))) ∧
      (∀ v next, -2 ^ 31 ≤ v → v < 2 ^ 31 → writer.putZigZagVlqInt v = some (false, next) →
        next.Represents (padToByte stream ++
          bytesBits ((vlqBytes (zigzag v)).take (writer.maxBytes - writer.bytesWritten).toNat))) := by
  refine ⟨fun _ _ _ => putValue_of_false, fun _ _ _ _ => putAligned_of_false, fun stream represents => ?_⟩
  have remaining := bytesWritten_eq represents
  refine ⟨fun v next word ran => ?_, fun v next low high ran => ?_⟩
  · obtain ⟨_, _, run, -, nextRepresents, -⟩ := represents_putVlqInt represents word
    rw [run, Option.some.injEq, Prod.mk.injEq] at ran
    rw [remaining, ← ran.2]
    exact nextRepresents
  · obtain ⟨_, _, run, -, nextRepresents, -⟩ := represents_putVlqInt represents (zigzag_lt low high)
    rw [putZigZagVlqInt_eq writer low high, run, Option.some.injEq, Prod.mk.injEq] at ran
    rw [remaining, ← ran.2]
    exact nextRepresents

theorem failed_put_effect_one_byte :
    (∃ next, (init [0] 1).putValue 1 9 = some (false, next) ∧ next = init [0] 1) ∧
      (∃ next, (init [0] 1).putAligned 1 0 2 = some (false, next) ∧ (init [0] 1).flush true = some next) ∧
      (init [0] 1).Represents [] ∧
      ∃ next, (init [0] 1).putVlqInt 300 = some (false, next) ∧
        next.Represents (padToByte [] ++
          bytesBits ((vlqBytes 300).take ((init [0] 1).maxBytes - (init [0] 1).bytesWritten).toNat)) := by
  have represents : (init [0] 1).Represents [] := represents_init (by decide) (by decide) (by decide)
  have ran : (init [0] 1).putVlqInt 300 = some (false, { init [0] 1 with buffer := [0xAC], byteOffset := 1 }) := by
    simp (disch := decide) only [putVlqInt, putVlqLoop_eq, vlqBytes_of_lt, vlqBytes_of_le]
    decide
  exact ⟨⟨_, rfl, (failed_put_effect _).1 1 9 _ rfl⟩, ⟨_, rfl, (failed_put_effect _).2.1 1 0 2 _ rfl⟩, represents,
    _, ran, ((failed_put_effect _).2.2 [] represents).1 300 _ (by decide) ran⟩

/-- A failed `PutVlqInt(300)` in a one-byte buffer keeps its first VLQ byte, and a
failed `PutAligned` after three bits has flushed and realigned the writer. -/
theorem failed_puts_change_writer :
    (init [0] 1).putVlqInt 300 = some (false, { init [0] 1 with buffer := [0xAC], byteOffset := 1 }) ∧
      ((init [0] 1).putValue 1 3).bind (fun (_, writer) => writer.putAligned 1 0 1) =
        some (false, { init [0] 1 with buffer := [1], byteOffset := 1 }) := by
  refine ⟨?_, by decide⟩
  rw [putVlqInt, putVlqLoop_eq _ _ _ (by decide), vlqBytes, if_neg (by decide), vlqBytes, if_pos (by decide)]
  decide

/-! ## Runs with failed calls -/

/-- One call from a state that holds `stream`, whether or not it fits: it returns the flag
of `WriterOp.outcome`, and the new state holds the stream of `WriterOp.outcome`. -/
theorem represents_outcome {writer : BitWriter} {stream : List Bool} (represents : writer.Represents stream)
    {op : WriterOp} (wellFormed : op.WellFormed) :
    ∃ next, op.run writer = some ((op.outcome writer.maxBytes stream).1, next) ∧
      next.Represents (op.outcome writer.maxBytes stream).2 ∧ next.maxBytes = writer.maxBytes := by
  obtain ⟨ok, next, held, run, nextRepresents, fits, success, nextMax⟩ := represents_run represents wellFormed
  rw [WriterOp.outcome_eq fits]
  refine ⟨next, run, ?_, nextMax⟩
  cases ok with
  | true => exact success rfl ▸ nextRepresents
  | false =>
    cases op with
    | putValue v numBits => rw [putValue_of_false run]; exact represents
    | putAligned size val numBytes =>
      have flushed := putAligned_of_false run
      rw [flush_eq represents.invariant, if_pos rfl, Option.some.injEq] at flushed
      exact flushed ▸ represents_aligned represents
    | putVlqInt v =>
      obtain ⟨_, _, vlqRun, -, vlqRepresents, -⟩ := represents_putVlqInt represents wellFormed
      obtain ⟨-, rfl⟩ := Prod.mk.inj (Option.some.inj (run.symm.trans vlqRun))
      exact vlqRepresents
    | putZigZagVlqInt v =>
      obtain ⟨_, _, vlqRun, -, vlqRepresents, -⟩ := represents_putVlqInt represents (zigzag_lt wellFormed.1 wellFormed.2)
      obtain ⟨-, rfl⟩ :=
        Prod.mk.inj (Option.some.inj (run.symm.trans ((putZigZagVlqInt_eq writer wellFormed.1 wellFormed.2).trans vlqRun)))
      exact vlqRepresents
    | flush align =>
      obtain ⟨flushedState, flushed, flushedRepresents, flushedMax, -⟩ := represents_flush represents align
      exact absurd (fits.mpr (flushedMax ▸ length_le flushedRepresents)) Bool.false_ne_true

/-- A run of calls from a state that holds `stream`, failed calls included: the flags are
those of `referenceOutcomes` and the last state holds its stream. -/
theorem represents_outcomes {writer : BitWriter} {stream : List Bool} (represents : writer.Represents stream)
    {ops : List WriterOp} (wellFormed : ∀ op ∈ ops, op.WellFormed) :
    ∃ last, writer.runWriter ops = some ((referenceOutcomes writer.maxBytes ops stream).1, last) ∧
      last.Represents (referenceOutcomes writer.maxBytes ops stream).2 ∧ last.maxBytes = writer.maxBytes := by
  induction ops generalizing writer stream with
  | nil => exact ⟨writer, rfl, represents, rfl⟩
  | cons op ops inductionHypothesis =>
    obtain ⟨next, run, nextRepresents, nextMax⟩ := represents_outcome represents (wellFormed op (List.mem_cons_self _ _))
    obtain ⟨last, rest, lastRepresents, lastMax⟩ :=
      inductionHypothesis nextRepresents fun op mem => wellFormed op (List.mem_cons_of_mem _ mem)
    rw [nextMax] at rest lastRepresents
    exact ⟨last, by simp only [runWriter, run, rest, referenceOutcomes, Option.bind_eq_bind, Option.some_bind],
      lastRepresents, lastMax.trans nextMax⟩

/-- From a fresh writer of at most `2^27` bytes, every run of well-formed calls follows the
reference format with its failed calls: the flags are those of `referenceOutcomes`,
`bytes_written()` is the length of its stream in whole bytes, and a `Flush` leaves that
stream, zero-padded, in the buffer's first `bytes_written()` bytes. -/
theorem writer_follows_outcomes {buffer : List UInt8} {bufferLen : Int} (nonneg : 0 ≤ bufferLen)
    (small : bufferLen ≤ 2 ^ 27) (allocated : bufferLen ≤ buffer.length) {ops : List WriterOp}
    (wellFormed : ∀ op ∈ ops, op.WellFormed) :
    ∃ writer, (init buffer bufferLen).runWriter ops = some ((referenceOutcomes bufferLen ops []).1, writer) ∧
      writer.bytesWritten = (((referenceOutcomes bufferLen ops []).2.length : Int) + 7) / 8 ∧
      ∀ align, ∃ next, writer.flush align = some next ∧
        bytesBits (next.buffer.take next.bytesWritten.toNat) = padToByte (referenceOutcomes bufferLen ops []).2 := by
  obtain ⟨writer, ran, represents, -⟩ := represents_outcomes (represents_init nonneg small allocated) wellFormed
  refine ⟨writer, ran, bytesWritten_eq represents, fun align => ?_⟩
  obtain ⟨next, flushed, -, -, flushedBytes⟩ := represents_flush represents align
  exact ⟨next, flushed, flushedBytes⟩

theorem writer_follows_outcomes_after_overflow :
    (0 : Int) ≤ 1 ∧ (1 : Int) ≤ 2 ^ 27 ∧ (1 : Int) ≤ [(0 : UInt8)].length ∧
      (∀ op ∈ [WriterOp.putValue 0 5, .putValue 0 5, .putValue 1 3], op.WellFormed) ∧
      ∃ writer, (init [0] 1).runWriter [.putValue 0 5, .putValue 0 5, .putValue 1 3] =
          some ((referenceOutcomes 1 [.putValue 0 5, .putValue 0 5, .putValue 1 3] []).1, writer) ∧
        writer.bytesWritten = (((referenceOutcomes 1 [.putValue 0 5, .putValue 0 5, .putValue 1 3] []).2.length : Int) + 7) / 8 ∧
        ∀ align, ∃ next, writer.flush align = some next ∧
          bytesBits (next.buffer.take next.bytesWritten.toNat) =
            padToByte (referenceOutcomes 1 [.putValue 0 5, .putValue 0 5, .putValue 1 3] []).2 :=
  ⟨by decide, by decide, by decide, by decide, writer_follows_outcomes (by decide) (by decide) (by decide) (by decide)⟩

end BitWriter

end Parquet4Seastar.BitUtil
