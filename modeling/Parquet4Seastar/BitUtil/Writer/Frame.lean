import Parquet4Seastar.BitUtil.Writer.Reachable

/-! # What the writer does to its buffer

The writer never reads its buffer. Each call computes its flag, its cursors and its
accumulator from the cursors and the accumulator alone, and its only effect on the
buffer is a list of stores (`Writes`), all of them between `byte_offset_` before the call
and `bytes_written()` after it; neither cursor moves back. The step lemmas are one per
member, and `writes_runWriter` chains them over a whole run.

Two things a caller relies on follow. The bytes `GetNextBytePtr` reserves may be filled
at any later point of the run: the flags and the state are those of filling them at the
end (`reserved_bytes_fill_commutes`). And `update_buffer` to a buffer that holds a copy
of the first `bytes_written()` bytes continues the same stream
(`updateBuffer_continues_stream`).
-/

namespace Parquet4Seastar.BitUtil

/-- The buffer after the stores `(offset, bytes)`, made in order. -/
def applyStores (buffer : List UInt8) (stores : List (Nat × List UInt8)) : List UInt8 :=
  stores.foldl (fun buffer store => spliceBytes buffer store.1 store.2) buffer

@[simp] theorem applyStores_nil (buffer : List UInt8) : applyStores buffer [] = buffer := rfl

@[simp] theorem applyStores_cons (buffer : List UInt8) (store : Nat × List UInt8) (stores : List (Nat × List UInt8)) :
    applyStores buffer (store :: stores) = applyStores (spliceBytes buffer store.1 store.2) stores := rfl

theorem applyStores_append (buffer : List UInt8) (first second : List (Nat × List UInt8)) :
    applyStores buffer (first ++ second) = applyStores (applyStores buffer first) second :=
  List.foldl_append _ _ _ _

theorem length_applyStores {buffer : List UInt8} {stores : List (Nat × List UInt8)}
    (inside : ∀ store ∈ stores, store.1 + store.2.length ≤ buffer.length) :
    (applyStores buffer stores).length = buffer.length := by
  induction stores generalizing buffer with
  | nil => rfl
  | cons store stores inductionHypothesis =>
    have same := length_spliceBytes rfl (inside store (List.mem_cons_self _ _))
    rw [applyStores_cons, inductionHypothesis fun other mem => same ▸ inside other (List.mem_cons_of_mem _ mem), same]

/-- A store below every store of a list can be made before them or after them. -/
theorem applyStores_spliceBytes {buffer bytes : List UInt8} {offset : Nat} {stores : List (Nat × List UInt8)}
    (below : ∀ store ∈ stores, offset + bytes.length ≤ store.1)
    (inside : ∀ store ∈ stores, store.1 + store.2.length ≤ buffer.length) :
    applyStores (spliceBytes buffer offset bytes) stores = spliceBytes (applyStores buffer stores) offset bytes := by
  induction stores generalizing buffer with
  | nil => rfl
  | cons store stores inductionHypothesis =>
    have storeInside := inside store (List.mem_cons_self _ _)
    have same := length_spliceBytes rfl storeInside
    rw [applyStores_cons, applyStores_cons, spliceBytes_comm (below store (List.mem_cons_self _ _)) (by omega),
      inductionHypothesis (fun other mem => below other (List.mem_cons_of_mem _ mem))
        fun other mem => same ▸ inside other (List.mem_cons_of_mem _ mem)]

section Outside

variable {buffer : List UInt8} {stores : List (Nat × List UInt8)} {low high : Nat}
  (inside : ∀ store ∈ stores, low ≤ store.1 ∧ store.1 + store.2.length ≤ high) (allocated : high ≤ buffer.length)
include inside allocated

theorem take_applyStores : (applyStores buffer stores).take low = buffer.take low := by
  induction stores generalizing buffer with
  | nil => rfl
  | cons store stores inductionHypothesis =>
    have storeInside := inside store (List.mem_cons_self _ _)
    have same := length_spliceBytes rfl (Nat.le_trans storeInside.2 allocated)
    rw [applyStores_cons, inductionHypothesis (fun other mem => inside other (List.mem_cons_of_mem _ mem))
      (same ▸ allocated), take_spliceBytes_of_le storeInside.1 (by omega)]

theorem drop_applyStores : (applyStores buffer stores).drop high = buffer.drop high := by
  induction stores generalizing buffer with
  | nil => rfl
  | cons store stores inductionHypothesis =>
    have storeInside := inside store (List.mem_cons_self _ _)
    have same := length_spliceBytes rfl (Nat.le_trans storeInside.2 allocated)
    rw [applyStores_cons, inductionHypothesis (fun other mem => inside other (List.mem_cons_of_mem _ mem))
      (same ▸ allocated), drop_spliceBytes_of_le storeInside.2 (by omega)]

end Outside

namespace BitWriter

theorem bytesWritten_of_invariant {writer : BitWriter} (invariant : writer.Invariant) :
    writer.bytesWritten = writer.byteOffset + (writer.bitOffset + 7) / 8 := by
  obtain ⟨bitLow, bitHigh, byteLow, within, small, -, -⟩ := id invariant
  rw [bytesWritten, bytesForBits_eq, int32_of_range (by omega) (by omega)]

theorem bytesWritten_le_maxBytes {writer : BitWriter} (invariant : writer.Invariant) :
    writer.bytesWritten ≤ writer.maxBytes := by
  obtain ⟨bitLow, bitHigh, byteLow, within, -, -, -⟩ := id invariant
  rw [bytesWritten_of_invariant invariant]; omega

/-- The invariant does not look at the buffer beyond its length. -/
theorem invariant_withBuffer {writer : BitWriter} (invariant : writer.Invariant) {buffer : List UInt8}
    (allocated : writer.maxBytes ≤ buffer.length) : { writer with buffer }.Invariant :=
  { invariant with allocated }

/-- The store `Flush` makes: the `⌈bit_offset_/8⌉` low bytes of the accumulator at
`byte_offset_`. -/
def flushStore (writer : BitWriter) : Nat × List UInt8 :=
  (writer.byteOffset.toNat, leBytes writer.bufferedValues ((writer.bitOffset + 7) / 8).toNat)

theorem flushStore_end {writer : BitWriter} (invariant : writer.Invariant) :
    writer.flushStore.1 + writer.flushStore.2.length = writer.bytesWritten.toNat := by
  obtain ⟨bitLow, bitHigh, byteLow, -, -, -, -⟩ := id invariant
  rw [flushStore, length_leBytes, bytesWritten_of_invariant invariant]
  omega

/-- `call`, made from `writer`, returns `result` and the state `next`, and its only effect
on the buffer is the list `stores`: made from the same state on any other buffer of at
least `max_bytes_` bytes, it returns the same result and the same state but for the
buffer, which gets the same stores. The stores fall between `byte_offset_` before the
call and `bytes_written()` after it, neither of which moves back. -/
structure Writes {α : Type} (call : BitWriter → Option (α × BitWriter)) (writer : BitWriter) (result : α)
    (next : BitWriter) (stores : List (Nat × List UInt8)) : Prop where
  blind : ∀ buffer : List UInt8, writer.maxBytes ≤ buffer.length →
    call { writer with buffer } = some (result, { next with buffer := applyStores buffer stores })
  buffer_eq : next.buffer = applyStores writer.buffer stores
  inside : ∀ store ∈ stores, writer.byteOffset.toNat ≤ store.1 ∧ store.1 + store.2.length ≤ next.bytesWritten.toNat
  byteOffset_le : writer.byteOffset ≤ next.byteOffset
  bytesWritten_le : writer.bytesWritten ≤ next.bytesWritten
  maxBytes_eq : next.maxBytes = writer.maxBytes
  invariant : next.Invariant

namespace Writes

variable {α β : Type} {call : BitWriter → Option (α × BitWriter)} {writer next : BitWriter} {result : α}
  {stores : List (Nat × List UInt8)}

theorem run (writes : Writes call writer result next stores) (invariant : writer.Invariant) :
    call writer = some (result, next) := by
  have ran := writes.blind writer.buffer invariant.allocated
  rw [← writes.buffer_eq] at ran
  exact ran

/-- The stores stay inside every buffer the call can be made on. -/
theorem length_applyStores (writes : Writes call writer result next stores) {buffer : List UInt8}
    (allocated : writer.maxBytes ≤ buffer.length) : (applyStores buffer stores).length = buffer.length := by
  have bounded := bytesWritten_le_maxBytes writes.invariant
  have nonneg := writes.invariant.byteOffset_nonneg
  refine BitUtil.length_applyStores fun store mem => ?_
  have := (writes.inside store mem).2
  rw [writes.maxBytes_eq] at bounded
  omega

theorem map (writes : Writes call writer result next stores) (f : α → β) :
    Writes (fun writer => (call writer).bind fun step => some (f step.1, step.2)) writer (f result) next stores :=
  { writes with blind := fun buffer allocated => by simp only [writes.blind buffer allocated, Option.some_bind] }

/-- Two calls in sequence make the stores of the first, then those of the second. -/
theorem bind {last : BitWriter} {final : β} {secondStores : List (Nat × List UInt8)}
    (first : Writes call writer result next stores) (second : α → BitWriter → Option (β × BitWriter))
    (then_ : Writes (second result) next final last secondStores) :
    Writes (fun writer => (call writer).bind fun step => second step.1 step.2) writer final last
      (stores ++ secondStores) where
  blind buffer allocated := by
    have allocatedNext : next.maxBytes ≤ (applyStores buffer stores).length := by
      rw [first.length_applyStores allocated, first.maxBytes_eq]; exact allocated
    simp only [first.blind buffer allocated, Option.some_bind, applyStores_append]
    exact then_.blind _ allocatedNext
  buffer_eq := by rw [then_.buffer_eq, first.buffer_eq, applyStores_append]
  inside store mem := by
    have firstLow := first.byteOffset_le
    have firstHigh := then_.bytesWritten_le
    have nonneg := first.invariant.byteOffset_nonneg
    rcases List.mem_append.mp mem with early | late
    · have := first.inside store early; omega
    · have := then_.inside store late; omega
  byteOffset_le := first.byteOffset_le.trans then_.byteOffset_le
  bytesWritten_le := first.bytesWritten_le.trans then_.bytesWritten_le
  maxBytes_eq := then_.maxBytes_eq.trans first.maxBytes_eq
  invariant := then_.invariant

/-- A store below `byte_offset_`, such as the caller's into bytes `GetNextBytePtr`
reserved, can be made before the call or after it. -/
theorem spliceBytes_comm (writes : Writes call writer result next stores) (invariant : writer.Invariant)
    {offset : Nat} {bytes : List UInt8} (below : offset + bytes.length ≤ writer.byteOffset.toNat) :
    call { writer with buffer := spliceBytes writer.buffer offset bytes } =
      some (result, { next with buffer := spliceBytes next.buffer offset bytes }) := by
  have allocated := invariant.allocated
  have written := bytesWritten_le_maxBytes writes.invariant
  have byteLow := invariant.byteOffset_nonneg
  have within := invariant.within
  have bitLow := invariant.bitOffset_nonneg
  rw [writes.maxBytes_eq] at written
  have sameLength := @length_spliceBytes writer.buffer bytes offset _ rfl (by omega)
  rw [writes.blind _ (sameLength ▸ allocated), writes.buffer_eq,
    applyStores_spliceBytes (fun store mem => Nat.le_trans below (writes.inside store mem).1)
      fun store mem => by have := (writes.inside store mem).2; omega]

theorem pure (invariant : writer.Invariant) (result : α) :
    Writes (fun writer => some (result, writer)) writer result writer [] :=
  ⟨fun _ _ => rfl, rfl, nofun, le_rfl, le_rfl, rfl, invariant⟩

end Writes

/-! ## One step per member -/

section Steps

variable {writer : BitWriter} (invariant : writer.Invariant)
include invariant

/-- The state a call returns keeps the invariant. -/
theorem invariant_run {op : WriterOp} (wellFormed : op.WellFormed) {ok : Bool} {next : BitWriter}
    (ran : op.run writer = some (ok, next)) : next.Invariant := by
  obtain ⟨_, _, _, run, nextRepresents, -⟩ := represents_run (represents_of_invariant invariant) wellFormed
  rw [ran, Option.some.injEq, Prod.mk.injEq] at run
  exact run.2 ▸ nextRepresents.invariant

theorem writes_putValue {v numBits : Nat} (narrow : numBits ≤ 32) (fits : v < 2 ^ numBits) :
    ∃ ok next stores, Writes (·.putValue v numBits) writer ok next stores := by
  obtain ⟨bitLow, bitHigh, byteLow, within, -, -, -⟩ := id invariant
  have wellFormed : (WriterOp.putValue v numBits).WellFormed := ⟨narrow, fits⟩
  obtain ⟨ok, next, _, ran, -⟩ := represents_run (represents_of_invariant invariant) wellFormed
  have nextInvariant := invariant_run invariant wellFormed ran
  have equation := fun (buffer : List UInt8) (allocated : writer.maxBytes ≤ buffer.length) =>
    putValue_eq (invariant_withBuffer invariant allocated) narrow fits
  change writer.putValue v numBits = _ at ran
  rw [putValue_eq invariant narrow fits] at ran
  split_ifs at ran with full crossing
  · refine ⟨ok, next, [], ?_⟩
    cases ran
    exact ⟨fun buffer allocated => by simp only [equation buffer allocated, if_pos full]; rfl,
      rfl, nofun, le_rfl, le_rfl, rfl, invariant⟩
  · refine ⟨ok, next, [], ?_⟩
    cases ran
    refine ⟨fun buffer allocated => by simp only [equation buffer allocated, if_neg full, if_pos crossing]; rfl,
      rfl, nofun, le_rfl, ?_, rfl, nextInvariant⟩
    rw [bytesWritten_of_invariant invariant, bytesWritten_of_invariant nextInvariant]
    dsimp only; omega
  · refine ⟨ok, next, [(writer.byteOffset.toNat, leBytes (writer.bufferedValues + 2 ^ writer.bitOffset.toNat * v) 8)], ?_⟩
    cases ran
    refine ⟨fun buffer allocated => by simp only [equation buffer allocated, if_neg full, if_neg crossing]; rfl,
      rfl, fun store mem => ?_, by dsimp only; omega, ?_, rfl, nextInvariant⟩
    · obtain rfl := List.mem_singleton.mp mem
      rw [bytesWritten_of_invariant nextInvariant, length_leBytes]
      dsimp only; omega
    · rw [bytesWritten_of_invariant invariant, bytesWritten_of_invariant nextInvariant]
      dsimp only; omega

theorem bytesWritten_aligned : writer.aligned.bytesWritten = writer.bytesWritten := by
  rw [bytesWritten_of_invariant (invariant_aligned invariant), bytesWritten_of_invariant invariant, aligned_byteOffset,
    aligned_bitOffset]
  omega

theorem writes_flush (align : Bool) :
    Writes (WriterOp.flush align).run writer true
      (if align then writer.aligned else { writer with buffer := writer.flushedBuffer }) [writer.flushStore] := by
  have flushedLength : writer.maxBytes ≤ writer.flushedBuffer.length := by
    rw [← aligned_buffer]; exact (invariant_aligned invariant).allocated
  have sameEnd := flushStore_end invariant
  have blind (buffer : List UInt8) (allocated : writer.maxBytes ≤ buffer.length) :=
    flush_eq (invariant_withBuffer invariant allocated) align
  cases align with
  | false =>
    refine ⟨fun buffer allocated => by simp only [WriterOp.run, blind buffer allocated, Option.map_some']; rfl,
      rfl, fun store mem => ?_, le_rfl, le_rfl, rfl, invariant_withBuffer invariant flushedLength⟩
    obtain rfl := List.mem_singleton.mp mem
    exact ⟨le_rfl, sameEnd.le⟩
  | true =>
    refine ⟨fun buffer allocated => by simp only [WriterOp.run, blind buffer allocated, Option.map_some']; rfl,
      rfl, fun store mem => ?_, ?_, (bytesWritten_aligned invariant).ge, rfl, invariant_aligned invariant⟩
    · obtain rfl := List.mem_singleton.mp mem
      rw [if_pos rfl, bytesWritten_aligned invariant]
      exact ⟨le_rfl, sameEnd.le⟩
    · rw [if_pos rfl, aligned_byteOffset]
      have := invariant.bitOffset_nonneg
      omega

theorem writes_putAligned {size val numBytes : Nat} (enough : numBytes ≤ size) (moderate : size ≤ 2 ^ 30) :
    ∃ ok next stores, Writes (·.putAligned size val numBytes) writer ok next stores := by
  have wellFormed : (WriterOp.putAligned size val numBytes).WellFormed := ⟨enough, moderate⟩
  obtain ⟨ok, next, _, ran, -⟩ := represents_run (represents_of_invariant invariant) wellFormed
  have nextInvariant := invariant_run invariant wellFormed ran
  have equation := fun (buffer : List UInt8) (allocated : writer.maxBytes ≤ buffer.length) =>
    @putAligned_eq _ (invariant_withBuffer invariant allocated) size val numBytes enough moderate
  have sameEnd := flushStore_end invariant
  have byteLow := invariant.byteOffset_nonneg
  have bitLow := invariant.bitOffset_nonneg
  rw [bytesWritten_of_invariant invariant] at sameEnd
  change writer.putAligned size val numBytes = _ at ran
  rw [@putAligned_eq _ invariant size val numBytes enough moderate] at ran
  split_ifs at ran with full
  · refine ⟨ok, next, [writer.flushStore], ?_⟩
    cases ran
    exact { writes_flush invariant true with blind := fun buffer allocated => (equation buffer allocated).trans (if_pos full) }
  · refine ⟨ok, next, [writer.flushStore, (writer.aligned.byteOffset.toNat, leBytes val numBytes)], ?_⟩
    have nextEnd : next.bytesWritten = writer.aligned.byteOffset + numBytes := by
      cases ran; rw [bytesWritten_of_invariant nextInvariant]; dsimp only; rw [aligned_bitOffset]; omega
    cases ran
    refine ⟨fun buffer allocated => (equation buffer allocated).trans (if_neg full), rfl, fun store mem => ?_,
      by dsimp only; rw [aligned_byteOffset]; omega, ?_, rfl, nextInvariant⟩
    · simp only [List.mem_cons, List.mem_singleton, List.not_mem_nil, or_false] at mem
      rw [nextEnd]
      rcases mem with rfl | rfl
      · simp only [flushStore, length_leBytes, aligned_byteOffset]; omega
      · simp only [aligned_byteOffset, length_leBytes]; omega
    · rw [nextEnd, bytesWritten_of_invariant invariant, aligned_byteOffset]; omega

theorem writes_putBytes (bytes : List UInt8) (result : Bool) :
    ∃ ok next stores, Writes (·.putBytes bytes result) writer ok next stores := by
  induction bytes generalizing writer result with
  | nil => exact ⟨result, writer, [], Writes.pure invariant result⟩
  | cons byte rest inductionHypothesis =>
    obtain ⟨ok, next, stores, first⟩ := @writes_putAligned writer invariant 1 byte.toNat 1 le_rfl (by decide)
    obtain ⟨final, last, restStores, then_⟩ := inductionHypothesis first.invariant (result && ok)
    exact ⟨final, last, stores ++ restStores, first.bind (fun ok next => next.putBytes rest (result && ok)) then_⟩

theorem writes_putVlqInt {v : Nat} (word : v < 2 ^ 32) :
    ∃ ok next stores, Writes (·.putVlqInt v) writer ok next stores := by
  rw [show (·.putVlqInt v) = (·.putBytes (vlqBytes v) true) from funext fun writer => putVlqLoop_eq writer v true word]
  exact writes_putBytes invariant _ true

theorem writes_run {op : WriterOp} (wellFormed : op.WellFormed) :
    ∃ ok next stores, Writes op.run writer ok next stores := by
  cases op with
  | putValue v numBits => exact writes_putValue invariant wellFormed.1 wellFormed.2
  | putAligned size val numBytes => exact writes_putAligned invariant wellFormed.1 wellFormed.2
  | putVlqInt v => exact writes_putVlqInt invariant wellFormed
  | putZigZagVlqInt v =>
    rw [show WriterOp.run (.putZigZagVlqInt v) = (·.putVlqInt (zigzag v)) from
      funext fun writer => putZigZagVlqInt_eq writer wellFormed.1 wellFormed.2]
    exact writes_putVlqInt invariant (zigzag_lt wellFormed.1 wellFormed.2)
  | flush align => exact ⟨true, _, _, writes_flush invariant align⟩

theorem writes_runWriter {ops : List WriterOp} (wellFormed : ∀ op ∈ ops, op.WellFormed) :
    ∃ oks last stores, Writes (·.runWriter ops) writer oks last stores := by
  induction ops generalizing writer with
  | nil => exact ⟨[], writer, [], Writes.pure invariant []⟩
  | cons op ops inductionHypothesis =>
    obtain ⟨ok, next, stores, first⟩ := writes_run invariant (wellFormed op (List.mem_cons_self _ _))
    obtain ⟨oks, last, restStores, then_⟩ :=
      inductionHypothesis first.invariant fun op mem => wellFormed op (List.mem_cons_of_mem _ mem)
    exact ⟨ok :: oks, last, stores ++ restStores, first.bind
      (fun ok next => (next.runWriter ops).bind fun step => some (ok :: step.1, step.2)) (then_.map (ok :: ·))⟩

end Steps

/-! ## Whole runs -/

/-- Over any run of well-formed calls from a state that keeps the invariant, neither
`byte_offset_` nor `bytes_written()` moves back, and the buffer is unchanged before the
first `byte_offset_` and from the last `bytes_written()` on. -/
theorem runWriter_keeps_outside {writer : BitWriter} (invariant : writer.Invariant) {ops : List WriterOp}
    (wellFormed : ∀ op ∈ ops, op.WellFormed) :
    ∃ oks last, writer.runWriter ops = some (oks, last) ∧
      writer.byteOffset ≤ last.byteOffset ∧ writer.bytesWritten ≤ last.bytesWritten ∧
      last.buffer.take writer.byteOffset.toNat = writer.buffer.take writer.byteOffset.toNat ∧
      last.buffer.drop last.bytesWritten.toNat = writer.buffer.drop last.bytesWritten.toNat := by
  obtain ⟨oks, last, stores, writes⟩ := writes_runWriter invariant wellFormed
  have allocated : last.bytesWritten.toNat ≤ writer.buffer.length := by
    have := bytesWritten_le_maxBytes writes.invariant
    have := invariant.allocated
    rw [writes.maxBytes_eq] at *
    omega
  refine ⟨oks, last, writes.run invariant, writes.byteOffset_le, writes.bytesWritten_le, ?_, ?_⟩ <;>
    rw [writes.buffer_eq]
  · exact take_applyStores writes.inside allocated
  · exact drop_applyStores writes.inside allocated

theorem runWriter_keeps_outside_after_first_byte :
    (⟨[0xAA, 0xBB, 0xCC], 3, 0, 1, 0⟩ : BitWriter).Invariant ∧
      (∀ op ∈ [WriterOp.putValue 5 3, .flush false], op.WellFormed) ∧
      ∃ oks last, (⟨[0xAA, 0xBB, 0xCC], 3, 0, 1, 0⟩ : BitWriter).runWriter [.putValue 5 3, .flush false] =
          some (oks, last) ∧
        (⟨[0xAA, 0xBB, 0xCC], 3, 0, 1, 0⟩ : BitWriter).byteOffset ≤ last.byteOffset ∧
        (⟨[0xAA, 0xBB, 0xCC], 3, 0, 1, 0⟩ : BitWriter).bytesWritten ≤ last.bytesWritten ∧
        last.buffer.take (⟨[0xAA, 0xBB, 0xCC], 3, 0, 1, 0⟩ : BitWriter).byteOffset.toNat =
          [0xAA, 0xBB, 0xCC].take (⟨[0xAA, 0xBB, 0xCC], 3, 0, 1, 0⟩ : BitWriter).byteOffset.toNat ∧
        last.buffer.drop last.bytesWritten.toNat = [0xAA, 0xBB, 0xCC].drop last.bytesWritten.toNat :=
  have invariant : (⟨[0xAA, 0xBB, 0xCC], 3, 0, 1, 0⟩ : BitWriter).Invariant :=
    ⟨le_rfl, by decide, by decide, by decide, by decide, by decide, by decide⟩
  ⟨invariant, by decide, runWriter_keeps_outside invariant (by decide)⟩

/-- The writer never reads its buffer: for any run of well-formed calls from a state that
keeps the invariant there is one list of stores, all between the first `byte_offset_`
and the last `bytes_written()`, such that the run made on any buffer of at least
`max_bytes_` bytes returns the same flags and the same state, its buffer being the one
it started with after those stores. -/
theorem runWriter_ignores_buffer {writer : BitWriter} (invariant : writer.Invariant) {ops : List WriterOp}
    (wellFormed : ∀ op ∈ ops, op.WellFormed) :
    ∃ oks last stores, writer.runWriter ops = some (oks, last) ∧
      (∀ store ∈ stores, writer.byteOffset.toNat ≤ store.1 ∧ store.1 + store.2.length ≤ last.bytesWritten.toNat) ∧
      ∀ buffer : List UInt8, writer.maxBytes ≤ buffer.length →
        { writer with buffer }.runWriter ops = some (oks, { last with buffer := applyStores buffer stores }) := by
  obtain ⟨oks, last, stores, writes⟩ := writes_runWriter invariant wellFormed
  exact ⟨oks, last, stores, writes.run invariant, writes.inside, writes.blind⟩

theorem runWriter_ignores_buffer_two_bytes :
    (init [0, 0] 2).Invariant ∧ (∀ op ∈ [WriterOp.putValue 5 3, .flush true], op.WellFormed) ∧
      ∃ oks last stores, (init [0, 0] 2).runWriter [.putValue 5 3, .flush true] = some (oks, last) ∧
        (∀ store ∈ stores, (init [0, 0] 2).byteOffset.toNat ≤ store.1 ∧
          store.1 + store.2.length ≤ last.bytesWritten.toNat) ∧
        ∀ buffer : List UInt8, (init [0, 0] 2).maxBytes ≤ buffer.length →
          { init [0, 0] 2 with buffer }.runWriter [.putValue 5 3, .flush true] =
            some (oks, { last with buffer := applyStores buffer stores }) :=
  have invariant := invariant_init (by decide) (by decide) (by decide)
  ⟨invariant, by decide, runWriter_ignores_buffer invariant (by decide)⟩

/-- The bytes `GetNextBytePtr` reserves may be filled at any point of the calls that
follow: filling them after `before`, then making the calls `after`, returns the flags and
the state of making `after` first and filling them at the end. -/
theorem reserved_bytes_fill_commutes {writer reserved : BitWriter} (invariant : writer.Invariant) {numBytes : Nat}
    (moderate : numBytes ≤ 2 ^ 30) {offset : Int} (reserve : writer.getNextBytePtr numBytes = some (some offset, reserved))
    {bytes : List UInt8} (sized : bytes.length = numBytes) {before after : List WriterOp}
    (wellFormed : ∀ op ∈ before ++ after, op.WellFormed) :
    ∃ oks middle oks' last, reserved.runWriter before = some (oks, middle) ∧ middle.runWriter after = some (oks', last) ∧
      { middle with buffer := spliceBytes middle.buffer offset.toNat bytes }.runWriter after =
        some (oks', { last with buffer := spliceBytes last.buffer offset.toNat bytes }) := by
  have reservedInvariant := invariant_getNextBytePtr invariant moderate reserve
  have alignedLow := (invariant_aligned invariant).byteOffset_nonneg
  have reservedEnd : offset.toNat + numBytes ≤ reserved.byteOffset.toNat := by
    rw [getNextBytePtr_eq invariant moderate] at reserve
    split at reserve <;> cases reserve
    dsimp only; omega
  obtain ⟨oks, middle, _, early⟩ :=
    writes_runWriter reservedInvariant fun op mem => wellFormed op (List.mem_append_left _ mem)
  obtain ⟨oks', last, _, late⟩ :=
    writes_runWriter early.invariant fun op mem => wellFormed op (List.mem_append_right _ mem)
  have advanced := early.byteOffset_le
  refine ⟨oks, middle, oks', last, early.run reservedInvariant, late.run early.invariant,
    late.spliceBytes_comm early.invariant ?_⟩
  omega


theorem reserved_bytes_fill_commutes_header_byte :
    (init [0, 0] 2).Invariant ∧ 1 ≤ 2 ^ 30 ∧
      (init [0, 0] 2).getNextBytePtr (1 : Nat) = some (some 0, { init [0, 0] 2 with byteOffset := 1 }) ∧
      [(0x2A : UInt8)].length = 1 ∧ (∀ op ∈ [WriterOp.putValue 5 3] ++ [.putValue 1 1, .flush true], op.WellFormed) ∧
      ∃ oks middle oks' last, { init [0, 0] 2 with byteOffset := 1 }.runWriter [.putValue 5 3] = some (oks, middle) ∧
        middle.runWriter [.putValue 1 1, .flush true] = some (oks', last) ∧
        { middle with buffer := spliceBytes middle.buffer (0 : Int).toNat [0x2A] }.runWriter [.putValue 1 1, .flush true] =
          some (oks', { last with buffer := spliceBytes last.buffer (0 : Int).toNat [0x2A] }) :=
  have invariant := invariant_init (by decide) (by decide) (by decide)
  have reserve : (init [0, 0] 2).getNextBytePtr (1 : Nat) = some (some 0, { init [0, 0] 2 with byteOffset := 1 }) := by
    decide
  ⟨invariant, by decide, reserve, rfl, by decide, reserved_bytes_fill_commutes invariant (by decide) reserve
    (show [(0x2A : UInt8)].length = 1 from rfl) (by decide)⟩

/-! ## Moving to a new buffer -/

/-- `update_buffer` to a buffer that holds a copy of the first `bytes_written()` bytes,
of at least `bytes_written()` and at most `2^27` bytes, keeps the stream. -/
theorem represents_updateBuffer {writer : BitWriter} {stream : List Bool} (represents : writer.Represents stream)
    {buffer : List UInt8} {bufferLen : Int}
    (copied : buffer.take writer.bytesWritten.toNat = writer.buffer.take writer.bytesWritten.toNat)
    (holds : writer.bytesWritten ≤ bufferLen) (small : bufferLen ≤ 2 ^ 27) (allocated : bufferLen ≤ buffer.length) :
    (writer.updateBuffer buffer bufferLen).Represents stream := by
  obtain ⟨invariant, length_eq, committed, buffered⟩ := id represents
  have within : writer.byteOffset.toNat ≤ writer.bytesWritten.toNat := by
    have := invariant.bitOffset_nonneg
    rw [bytesWritten_of_invariant invariant]; omega
  refine ⟨invariant_updateBuffer invariant holds small allocated, length_eq, ?_, buffered⟩
  rw [updateBuffer, ← committed, ← Nat.min_eq_left within, ← List.take_take, copied, List.take_take]

/-- A buffer can be replaced mid-stream: after the calls `first` on a fresh writer, an
`update_buffer` to a buffer of at most `2^27` bytes that holds a copy of the first
`bytes_written()` bytes and has room for them, then the calls `second`, while every flag
is set a `Flush` leaves the reference stream of `first ++ second`, zero-padded, in the
new buffer's first `bytes_written()` bytes. -/
theorem updateBuffer_continues_stream {buffer : List UInt8} {bufferLen : Int} (nonneg : 0 ≤ bufferLen)
    (small : bufferLen ≤ 2 ^ 27) (allocated : bufferLen ≤ buffer.length) {first second : List WriterOp}
    (wellFormed : ∀ op ∈ first ++ second, op.WellFormed) :
    ∃ oks writer, (init buffer bufferLen).runWriter first = some (oks, writer) ∧
      ∀ (newBuffer : List UInt8) (newLen : Int),
        newBuffer.take writer.bytesWritten.toNat = writer.buffer.take writer.bytesWritten.toNat →
        writer.bytesWritten ≤ newLen → newLen ≤ 2 ^ 27 → newLen ≤ newBuffer.length →
        ∃ oks' last, (writer.updateBuffer newBuffer newLen).runWriter second = some (oks', last) ∧
          ((∀ ok ∈ oks ++ oks', ok = true) → ∀ align, ∃ next, last.flush align = some next ∧
            bytesBits (next.buffer.take next.bytesWritten.toNat) = padToByte (referenceStream (first ++ second))) := by
  obtain ⟨oks, writer, held, ran, represents, -, success⟩ :=
    represents_runWriter (represents_init nonneg small allocated) fun op mem => wellFormed op (List.mem_append_left _ mem)
  refine ⟨oks, writer, ran, fun newBuffer newLen copied holds newSmall newAllocated => ?_⟩
  obtain ⟨oks', last, lastHeld, ranAfter, lastRepresents, -, lastSuccess⟩ :=
    represents_runWriter (represents_updateBuffer represents copied holds newSmall newAllocated)
      fun op mem => wellFormed op (List.mem_append_right _ mem)
  refine ⟨oks', last, ranAfter, fun allSet align => ?_⟩
  have heldEq : lastHeld = referenceStream (first ++ second) := by
    rw [lastSuccess fun ok mem => allSet ok (List.mem_append_right _ mem),
      success fun ok mem => allSet ok (List.mem_append_left _ mem), referenceStream, List.foldl_append]
  obtain ⟨next, flushed, -, -, flushedBytes⟩ := represents_flush lastRepresents align
  exact ⟨next, flushed, heldEq ▸ flushedBytes⟩

theorem updateBuffer_continues_stream_one_bit_each :
    (0 : Int) ≤ 1 ∧ (1 : Int) ≤ 2 ^ 27 ∧ (1 : Int) ≤ [(0 : UInt8)].length ∧
      (∀ op ∈ [WriterOp.putValue 1 1] ++ [.putValue 1 1], op.WellFormed) ∧
      ∃ oks writer, (init [0] 1).runWriter [.putValue 1 1] = some (oks, writer) ∧
        [(0 : UInt8), 0].take writer.bytesWritten.toNat = writer.buffer.take writer.bytesWritten.toNat ∧
        writer.bytesWritten ≤ 2 ∧ (2 : Int) ≤ 2 ^ 27 ∧ (2 : Int) ≤ [(0 : UInt8), 0].length ∧
        ∃ oks' last, (writer.updateBuffer [0, 0] 2).runWriter [.putValue 1 1] = some (oks', last) ∧
          (∀ ok ∈ oks ++ oks', ok = true) ∧
          ∀ align, ∃ next, last.flush align = some next ∧
            bytesBits (next.buffer.take next.bytesWritten.toNat) =
              padToByte (referenceStream ([.putValue 1 1] ++ [.putValue 1 1])) := by
  obtain ⟨oks, writer, ran, continues⟩ := @updateBuffer_continues_stream [0] 1 (by decide) (by decide) (by decide)
    [.putValue 1 1] [.putValue 1 1] (by decide)
  have first : (init [0] 1).runWriter [.putValue 1 1] =
      some ([true], { init [0] 1 with bufferedValues := 1, bitOffset := 1 }) := by
    decide
  obtain ⟨rfl, rfl⟩ := Prod.mk.inj (Option.some.inj (first.symm.trans ran))
  obtain ⟨oks', last, ranAfter, flushes⟩ := continues [0, 0] 2 (by decide) (by decide) (by decide) (by decide)
  have flags : ((({ init [0] 1 with bufferedValues := 1, bitOffset := 1 } : BitWriter).updateBuffer [0, 0] 2).runWriter
      [.putValue 1 1]).map Prod.fst = some [true] := by
    decide
  rw [ranAfter] at flags
  obtain rfl : oks' = [true] := Option.some.inj flags
  exact ⟨by decide, by decide, by decide, by decide, _, _, first, by decide, by decide, by decide, by decide, _, last,
    ranAfter, by decide, flushes (by decide)⟩

end BitWriter

end Parquet4Seastar.BitUtil
