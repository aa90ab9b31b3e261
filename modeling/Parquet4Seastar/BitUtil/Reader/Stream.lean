import Parquet4Seastar.BitUtil.Reader.Vlq
import Parquet4Seastar.BitUtil.Reader.Batch
import Mathlib.Data.Option.Defs

/-! # Runs of reader calls

The reader's calls as data, against the reference reader, a cursor over the bits of the
buffer that each read moves forward:

* `ReaderOp`: `GetValue<T>`, `GetAligned<T>`, `GetVlqInt` and `GetZigZagVlqInt`, with
  `ReaderOp.WellFormed` for what each call asks of its arguments;
* `ReaderOp.reference`: the reference reader's result and its cursor after the read; a
  failed read leaves the cursor where it was;
* `BitReader.runReader`: the calls run in order, up to and including the first that
  returns `false`, as a caller that stops there makes them.

`run_reference` is the step: from a reader at bit `position`, the call returns the
reference result, and the reader stops at `cursorAfter`, the reference cursor except
after a failed VLQ read, whose `GetAligned` calls have committed the bytes they read.
`runReader_reference` is the run, by induction on the calls: the reader follows the
reference cursor unless the run stops at a failed VLQ read (`endsInFailedVlq`).
`reader_decodes_reference` reads it from a fresh reader, and `failed_read_cursor` says
where each failed read leaves the cursor.
-/

namespace Parquet4Seastar.BitUtil

inductive ReaderOp where
  | getValue (T : ValueType) (numBits : Nat)
  | getAligned (size numBytes : Nat)
  | getVlqInt
  | getZigZagVlqInt
  deriving Repr, DecidableEq

namespace ReaderOp

/-- What each call asks of its arguments: `num_bits` at most 32 and at most the bits of
`T` for `GetValue<T>`, and a `T` of at most `2^30` bytes for `GetAligned<T>`. -/
def WellFormed : ReaderOp → Prop
  | getValue T numBits => numBits ≤ 32 ∧ numBits ≤ 8 * T.size
  | getAligned size _ => size ≤ 2 ^ 30
  | getVlqInt | getZigZagVlqInt => True

instance (op : ReaderOp) : Decidable op.WellFormed :=
  match op with
  | getValue T numBits => inferInstanceAs (Decidable (numBits ≤ 32 ∧ numBits ≤ 8 * T.size))
  | getAligned size _ => inferInstanceAs (Decidable (size ≤ 2 ^ 30))
  | getVlqInt | getZigZagVlqInt => instDecidableTrue

def isVlq : ReaderOp → Bool
  | getVlqInt | getZigZagVlqInt => true
  | _ => false

/-- The reference VLQ decoder at the byte boundary at or after bit `position`. -/
def vlqAt (source : List UInt8) (position : Nat) : Option Nat × Nat :=
  vlqScan (source.drop ((position + 7) / 8)) 5

/-- The reference reader at bit `position` of `source`: the read's result, `none` when
it fails, and the cursor after it. `GetValue<T>` takes the next `num_bits` bits, least
significant first, converted to `T`; `GetAligned` the next `num_bytes` bytes from the byte
boundary, as a little-endian value; the VLQ reads decode the VLQ there, unbounded. -/
def reference (source : List UInt8) (position : Nat) : ReaderOp → Option Int × Nat
  | getValue T numBits =>
    if position + numBits ≤ 8 * source.length then
      (some (T.value (T.cast (leValue source / 2 ^ position % 2 ^ numBits))), position + numBits)
    else (none, position)
  | getAligned size numBytes =>
    if numBytes ≤ size ∧ (position + 7) / 8 + numBytes ≤ source.length then
      (some ((leValue ((source.drop ((position + 7) / 8)).take numBytes) : Nat) : Int),
        8 * ((position + 7) / 8 + numBytes))
    else (none, position)
  | getVlqInt =>
    match vlqAt source position with
    | (some value, consumed) => (some (value : Int), afterBytes position consumed)
    | (none, _) => (none, position)
  | getZigZagVlqInt =>
    match vlqAt source position with
    | (some value, consumed) => (some (zigzagDecode value), afterBytes position consumed)
    | (none, _) => (none, position)

/-- A VLQ read whose reference value fits in `uint32_t`. -/
def Bounded (source : List UInt8) (position : Nat) : ReaderOp → Prop
  | getVlqInt | getZigZagVlqInt => ∀ value ∈ (vlqAt source position).1, value < 2 ^ 32
  | _ => True

instance (source : List UInt8) (position : Nat) (op : ReaderOp) : Decidable (op.Bounded source position) :=
  match op with
  | getVlqInt | getZigZagVlqInt =>
    inferInstanceAs (Decidable (∀ value ∈ (vlqAt source position).1, value < 2 ^ 32))
  | getValue .. | getAligned .. => instDecidableTrue

/-- The reader's cursor after the read: the reference cursor, except that a VLQ read
moves past every byte its loop read, also when it fails. -/
def cursorAfter (source : List UInt8) (position : Nat) : ReaderOp → Nat
  | getVlqInt | getZigZagVlqInt => afterBytes position (vlqAt source position).2
  | op => (op.reference source position).2

/-- The call on a reader, with the value read when it returns `true`: `GetValue<T>`
yields the value of the `T` it stored, `GetAligned` the bytes it copied, as a
little-endian value. -/
def run : ReaderOp → BitReader → Option (Option Int × BitReader)
  | getValue T numBits, reader =>
    (reader.getValue T numBits).map fun (value, next) => (value.map T.value, next)
  | getAligned size numBytes, reader =>
    (reader.getAligned size numBytes).map fun (bytes, next) => (bytes.map fun bytes => (leValue bytes : Int), next)
  | getVlqInt, reader => reader.getVlqInt.map fun (value, next) => (value.map Int.ofNat, next)
  | getZigZagVlqInt, reader => reader.getZigZagVlqInt

end ReaderOp

/-- The reference reader over a sequence of reads, up to and including the first that
fails: the results, and the cursor after them. -/
def referenceRun (source : List UInt8) (position : Nat) : List ReaderOp → List (Option Int) × Nat
  | [] => ([], position)
  | op :: ops =>
    match op.reference source position with
    | (none, next) => ([none], next)
    | (some value, next) => ((some value) :: (referenceRun source next ops).1, (referenceRun source next ops).2)

/-- Whether the reference reader's run stops at a failed `GetVlqInt` or
`GetZigZagVlqInt`, the one kind of failed read that moves the reader's cursor. -/
def endsInFailedVlq (source : List UInt8) : Nat → List ReaderOp → Bool
  | _, [] => false
  | position, op :: ops =>
    match op.reference source position with
    | (none, _) => op.isVlq
    | (some _, next) => endsInFailedVlq source next ops

/-- Every VLQ that the reference reader decodes along the reads fits in `uint32_t`. -/
def VlqsBelow (source : List UInt8) : Nat → List ReaderOp → Prop
  | _, [] => True
  | position, op :: ops =>
    op.Bounded source position ∧
      ((op.reference source position).1.isSome → VlqsBelow source (op.reference source position).2 ops)

instance decidableVlqsBelow (source : List UInt8) : (position : Nat) → (ops : List ReaderOp) →
    Decidable (VlqsBelow source position ops)
  | _, [] => instDecidableTrue
  | position, op :: ops =>
    have := decidableVlqsBelow source (op.reference source position).2 ops
    inferInstanceAs (Decidable (op.Bounded source position ∧
      ((op.reference source position).1.isSome → VlqsBelow source (op.reference source position).2 ops)))

namespace BitReader

/-- The calls run in order on one reader, up to and including the first that returns
`false`: their results, and the last state. -/
def runReader (reader : BitReader) : List ReaderOp → Option (List (Option Int) × BitReader)
  | [] => some ([], reader)
  | op :: ops => do
    let (result, next) ← op.run reader
    match result with
    | none => some ([none], next)
    | some value =>
      let (results, last) ← next.runReader ops
      some (some value :: results, last)

end BitReader

/-! ## One read -/

namespace ReaderOp

variable {source : List UInt8} {position : Nat}

/-- A read that succeeds leaves the reader at the reference cursor. -/
theorem cursorAfter_of_isSome {op : ReaderOp} (succeeded : (op.reference source position).1.isSome) :
    op.cursorAfter source position = (op.reference source position).2 := by
  cases op <;> try rfl
  all_goals
    simp only [cursorAfter, reference] at succeeded ⊢
    rcases scan : vlqAt source position with ⟨_ | value, consumed⟩ <;> simp_all

/-- A failed reference read leaves the reference cursor where it was. -/
theorem reference_snd_of_isNone {op : ReaderOp} (failed : (op.reference source position).1 = none) :
    (op.reference source position).2 = position := by
  cases op with
  | getValue _ _ | getAligned _ _ =>
    simp only [reference] at failed ⊢
    split <;> simp_all
  | getVlqInt | getZigZagVlqInt =>
    simp only [reference] at failed ⊢
    rcases scan : vlqAt source position with ⟨_ | value, consumed⟩ <;> simp_all

/-- A failed read leaves the cursor where it was, except a VLQ read, which moves past the
bytes its loop read: up to five, and no further than the end of the buffer. -/
theorem cursorAfter_of_isNone {op : ReaderOp} (failed : (op.reference source position).1 = none) :
    op.cursorAfter source position =
      if op.isVlq then afterBytes position (min 5 (source.length - (position + 7) / 8)) else position := by
  cases op with
  | getValue T numBits =>
    by_cases room : position + numBits ≤ 8 * source.length
    · simp [reference, room] at failed
    · simp [cursorAfter, reference, isVlq, room]
  | getAligned size numBytes =>
    by_cases fits : numBytes ≤ size ∧ (position + 7) / 8 + numBytes ≤ source.length
    · simp only [reference, fits, and_self, if_true] at failed; cases failed
    · simp only [cursorAfter, reference, isVlq, fits, if_false, Bool.false_eq_true]
  | getVlqInt | getZigZagVlqInt =>
    simp only [reference] at failed
    rcases scan : vlqAt source position with ⟨_ | value, consumed⟩
    · have consumedAll := vlqScan_consumed_of_none (congrArg Prod.fst scan)
      rw [List.length_drop] at consumedAll
      simp [cursorAfter, isVlq, scan, (congrArg Prod.snd scan).symm.trans consumedAll]
    · simp [scan] at failed

end ReaderOp

/-- One call from a reader at bit `position`: it returns, fails exactly when the
reference read fails, returns the reference result when its VLQ fits in `uint32_t`, and
leaves the reader at `cursorAfter`. -/
theorem run_reference {reader : BitReader} {source : List UInt8} {position : Nat} (reads : reader.Reads source position)
    {op : ReaderOp} (wellFormed : op.WellFormed) :
    ∃ result next, op.run reader = some (result, next) ∧ next.Reads source (op.cursorAfter source position) ∧
      result.isSome = (op.reference source position).1.isSome ∧
      (op.Bounded source position → result = (op.reference source position).1) := by
  cases op with
  | getValue T numBits =>
    obtain ⟨narrow, fits⟩ := wellFormed
    have ⟨fetched, failed⟩ := BitReader.getValue_of_reads reads narrow fits
    by_cases room : position + numBits ≤ 8 * source.length
    · obtain ⟨next, run, nextReads⟩ := fetched room
      refine ⟨some (T.value (T.cast (leValue source / 2 ^ position % 2 ^ numBits))), next, by rw [ReaderOp.run, run]; rfl,
        ?_, ?_, fun _ => ?_⟩ <;>
        simp only [ReaderOp.cursorAfter, ReaderOp.reference, room, if_true, nextReads]
    · obtain ⟨next, run, nextReads⟩ := failed (by omega)
      refine ⟨none, next, by rw [ReaderOp.run, run]; rfl, ?_, ?_, fun _ => ?_⟩ <;>
        simp only [ReaderOp.cursorAfter, ReaderOp.reference, room, if_false, nextReads]
  | getAligned size numBytes =>
    have ⟨failure, success⟩ := @BitReader.getAligned_spec reader source position reads size numBytes wellFormed
    by_cases fits : numBytes ≤ size ∧ (position + 7) / 8 + numBytes ≤ source.length
    · obtain ⟨next, run, nextReads⟩ := success fits.1 fits.2
      refine ⟨some ((leValue ((source.drop ((position + 7) / 8)).take numBytes) : Nat) : Int), next,
        by rw [ReaderOp.run, run]; rfl, ?_, ?_, fun _ => ?_⟩ <;>
        simp only [ReaderOp.cursorAfter, ReaderOp.reference, fits, and_self, if_true, nextReads]
    · refine ⟨none, reader, by rw [ReaderOp.run, failure (by omega)]; rfl, ?_, ?_, fun _ => ?_⟩ <;>
        simp only [ReaderOp.cursorAfter, ReaderOp.reference, fits, if_false, reads]
  | getVlqInt =>
    obtain ⟨next, run, nextReads⟩ := BitReader.getVlqInt_spec reads
    refine ⟨((ReaderOp.vlqAt source position).1.map (· % 2 ^ 32)).map Int.ofNat, next,
      by rw [ReaderOp.run, run]; rfl, nextReads, ?_, fun bounded => ?_⟩
    · unfold ReaderOp.reference
      rcases ReaderOp.vlqAt source position with ⟨_ | value, consumed⟩ <;> rfl
    · unfold ReaderOp.reference
      simp only [ReaderOp.Bounded] at bounded
      rcases scan : ReaderOp.vlqAt source position with ⟨_ | value, consumed⟩
      · rfl
      · rw [scan] at bounded
        simp only [Option.map_some', Nat.mod_eq_of_lt (bounded value rfl), Int.ofNat_eq_coe]
  | getZigZagVlqInt =>
    obtain ⟨next, run, nextReads⟩ := BitReader.getZigZagVlqInt_spec reads
    refine ⟨(ReaderOp.vlqAt source position).1.map (zigzagDecode <| · % 2 ^ 32), next, run, nextReads, ?_,
      fun bounded => ?_⟩
    · unfold ReaderOp.reference
      rcases ReaderOp.vlqAt source position with ⟨_ | value, consumed⟩ <;> rfl
    · unfold ReaderOp.reference
      simp only [ReaderOp.Bounded] at bounded
      rcases scan : ReaderOp.vlqAt source position with ⟨_ | value, consumed⟩
      · rfl
      · rw [scan] at bounded
        simp only [Option.map_some', Nat.mod_eq_of_lt (bounded value rfl), Int.ofNat_eq_coe]

/-! ## Runs -/

/-- From a reader at bit `position`, a run of calls returns the reference reader's
results, up to and including the first failure, and the reader follows the reference
cursor unless the run stops at a failed VLQ read. -/
theorem runReader_reference {reader : BitReader} {source : List UInt8} {position : Nat}
    (reads : reader.Reads source position) {ops : List ReaderOp} (wellFormed : ∀ op ∈ ops, op.WellFormed)
    (bounded : VlqsBelow source position ops) :
    ∃ results last, reader.runReader ops = some (results, last) ∧ results = (referenceRun source position ops).1 ∧
      (endsInFailedVlq source position ops = false → last.Reads source (referenceRun source position ops).2) := by
  induction ops generalizing reader position with
  | nil => exact ⟨[], reader, rfl, rfl, fun _ => reads⟩
  | cons op ops inductionHypothesis =>
    obtain ⟨opBounded, restBounded⟩ := bounded
    obtain ⟨result, next, run, nextReads, -, sameResult⟩ := run_reference reads (wellFormed op (List.mem_cons_self _ _))
    rw [sameResult opBounded] at run
    rcases referenceEq : op.reference source position with ⟨_ | value, after⟩
    · have failed : (op.reference source position).1 = none := by rw [referenceEq]
      have stays : after = position := by simpa [referenceEq] using ReaderOp.reference_snd_of_isNone failed
      rw [referenceEq] at run
      refine ⟨[none], next, by simp [BitReader.runReader, run], by simp [referenceRun, referenceEq],
        fun notVlq => ?_⟩
      simp only [endsInFailedVlq, referenceEq] at notVlq
      rw [ReaderOp.cursorAfter_of_isNone failed, notVlq, if_neg Bool.false_ne_true] at nextReads
      simpa [referenceRun, referenceEq, stays] using nextReads
    · rw [referenceEq] at run restBounded
      rw [ReaderOp.cursorAfter_of_isSome (by simp [referenceEq]), referenceEq] at nextReads
      obtain ⟨results, last, rest, resultsEq, lastReads⟩ :=
        inductionHypothesis nextReads (fun op member => wellFormed op (List.mem_cons_of_mem _ member)) (restBounded rfl)
      refine ⟨some value :: results, last, by simp [BitReader.runReader, run, rest],
        by simp [referenceRun, referenceEq, resultsEq], fun notVlq => ?_⟩
      simp only [endsInFailedVlq, referenceEq] at notVlq
      simpa only [referenceRun, referenceEq] using lastReads notVlq

/-- Where a failed read leaves the reader. A failed `GetValue` or `GetAligned`, from any
state, leaves `byte_offset_` and `bit_offset_`, hence `bytes_left()`, as they were. From a
state at cursor `position`, a failed `GetValue` or `GetAligned` leaves the reader at
`position`, and a failed `GetVlqInt` or `GetZigZagVlqInt` moves it past the bytes its loop
read, up to five and no further than the end of the buffer. -/
theorem failed_read_cursor {reader : BitReader} {op : ReaderOp} {next : BitReader}
    (failed : op.run reader = some (none, next)) :
    (op.isVlq = false → -2 ^ 31 ≤ reader.byteOffset → reader.byteOffset < 2 ^ 31 →
      next.byteOffset = reader.byteOffset ∧ next.bitOffset = reader.bitOffset ∧ next.bytesLeft = reader.bytesLeft) ∧
    (∀ (source : List UInt8) (position : Nat), reader.Reads source position →
      next.Reads source
        (if op.isVlq then afterBytes position (min 5 (source.length - (position + 7) / 8)) else position)) := by
  have viaReference (source : List UInt8) (position : Nat) (reads : reader.Reads source position)
      (wellFormed : op.WellFormed) :
      next.Reads source
        (if op.isVlq then afterBytes position (min 5 (source.length - (position + 7) / 8)) else position) := by
    obtain ⟨result, after, run, afterReads, sameOutcome, -⟩ := run_reference reads wellFormed
    rw [failed, Option.some.injEq, Prod.mk.injEq] at run
    obtain ⟨rfl, rfl⟩ := run
    rw [← ReaderOp.cursorAfter_of_isNone (Option.not_isSome_iff_eq_none.mp (by simp [← sameOutcome]))]
    exact afterReads
  cases op with
  | getValue T numBits =>
    obtain ⟨⟨value, after⟩, ran, result⟩ := Option.map_eq_some'.mp failed
    obtain ⟨noValue, rfl⟩ := Prod.mk.inj result
    obtain rfl := Option.map_eq_none'.mp noValue
    obtain ⟨_, batch, -⟩ := Option.bind_eq_some.mp ran
    refine ⟨fun _ low high => ?_, fun source position reads =>
      viaReference source position reads (BitReader.getBatch_inRange batch)⟩
    obtain ⟨maxEq, byteEq, bitEq⟩ := BitReader.getValue_of_none ran low high
    exact ⟨byteEq, bitEq, by simp only [BitReader.bytesLeft, maxEq, byteEq, bitEq]⟩
  | getAligned size numBytes =>
    obtain ⟨⟨bytes, after⟩, ran, result⟩ := Option.map_eq_some'.mp failed
    obtain ⟨noBytes, rfl⟩ := Prod.mk.inj result
    obtain rfl := Option.map_eq_none'.mp noBytes
    obtain rfl := BitReader.getAligned_of_none ran
    exact ⟨fun _ _ _ => ⟨rfl, rfl, rfl⟩, fun _ _ reads => reads⟩
  | getVlqInt | getZigZagVlqInt =>
    exact ⟨nofun, fun source position reads => viaReference source position reads trivial⟩

theorem failed_read_cursor_one_byte :
    ReaderOp.getVlqInt.run ⟨[0x80], 1, 0x80, 0, 0⟩ = some (none, ⟨[0x80], 1, 0x80, 1, 0⟩) ∧
      (⟨[0x80], 1, 0x80, 0, 0⟩ : BitReader).Reads [0x80] 0 ∧
      (⟨[0x80], 1, 0x80, 1, 0⟩ : BitReader).Reads [0x80]
        (if ReaderOp.getVlqInt.isVlq then afterBytes 0 (min 5 ([0x80].length - (0 + 7) / 8)) else 0) ∧
      (ReaderOp.getValue (.unsigned 4) 9).run ⟨[0x80], 1, 0x80, 0, 0⟩ = some (none, ⟨[0x80], 1, 0x80, 0, 0⟩) ∧
      (ReaderOp.getValue (.unsigned 4) 9).isVlq = false ∧ -2 ^ 31 ≤ (0 : Int) ∧ (0 : Int) < 2 ^ 31 ∧
      (⟨[0x80], 1, 0x80, 0, 0⟩ : BitReader).byteOffset = (⟨[0x80], 1, 0x80, 0, 0⟩ : BitReader).byteOffset ∧
      (⟨[0x80], 1, 0x80, 0, 0⟩ : BitReader).bitOffset = (⟨[0x80], 1, 0x80, 0, 0⟩ : BitReader).bitOffset ∧
      (⟨[0x80], 1, 0x80, 0, 0⟩ : BitReader).bytesLeft = (⟨[0x80], 1, 0x80, 0, 0⟩ : BitReader).bytesLeft :=
  ⟨rfl, by decide, (@failed_read_cursor ⟨[0x80], 1, 0x80, 0, 0⟩ .getVlqInt ⟨[0x80], 1, 0x80, 1, 0⟩ rfl).2 [0x80] 0
    (by decide), rfl, rfl, by decide, by decide,
    (@failed_read_cursor ⟨[0x80], 1, 0x80, 0, 0⟩ (.getValue (.unsigned 4) 9) ⟨[0x80], 1, 0x80, 0, 0⟩ rfl).1 rfl
      (by decide) (by decide)⟩

/-- A failed `GetVlqInt` on a buffer of one continuation byte leaves the cursor at bit 8,
not at bit 0 where the call started. -/
theorem failed_getVlqInt_moves_cursor :
    ∃ reader next, BitReader.init [0x80] 1 0 = some reader ∧ reader.getVlqInt = some (none, next) ∧
      8 * reader.byteOffset + reader.bitOffset = 0 ∧ 8 * next.byteOffset + next.bitOffset = 8 :=
  ⟨_, _, rfl, rfl, rfl, rfl⟩

end Parquet4Seastar.BitUtil
