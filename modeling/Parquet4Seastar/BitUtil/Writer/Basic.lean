import Parquet4Seastar.BitUtil.Machine

/-! # `BitWriter`

The writer class of `bit_stream_utils.hh`, one definition per member function, each
under the member's name. The state is the five data members; the members that touch
memory or `assert` return an `Option`, `none` being the failed assertion or the access
outside the buffer. The template `PutAligned<T>` takes `sizeof(T)` as `size`.
-/

namespace Parquet4Seastar.BitUtil

structure BitWriter where
  buffer : List UInt8
  maxBytes : Int
  bufferedValues : Nat
  byteOffset : Int
  bitOffset : Int
  deriving Repr, DecidableEq

namespace BitWriter

def clear (writer : BitWriter) : BitWriter :=
  { writer with bufferedValues := 0, byteOffset := 0, bitOffset := 0 }

/-- `BitWriter(buffer, buffer_len)`: stores the buffer, then `Clear()`. -/
def init (buffer : List UInt8) (bufferLen : Int) : BitWriter :=
  { buffer, maxBytes := bufferLen, bufferedValues := 0, byteOffset := 0, bitOffset := 0 }

def updateBuffer (writer : BitWriter) (buffer : List UInt8) (bufferLen : Int) : BitWriter :=
  { writer with buffer, maxBytes := bufferLen }

def bytesWritten (writer : BitWriter) : Int :=
  int32 (writer.byteOffset + bytesForBits writer.bitOffset)

def putValue (writer : BitWriter) (v numBits : Nat) : Option (Bool × BitWriter) :=
  if 32 < numBits ∨ v >>> numBits ≠ 0 then none
  else if int32 (writer.maxBytes * 8) < int32 (writer.byteOffset * 8 + writer.bitOffset + numBits) then
    some (false, writer)
  else
    let bufferedValues := writer.bufferedValues ||| (v <<< writer.bitOffset.toNat) % 2 ^ 64
    let bitOffset := int32 (writer.bitOffset + numBits)
    if 64 ≤ bitOffset then do
      let buffer ← storeBytes writer.buffer writer.maxBytes writer.byteOffset bufferedValues 8
      let bitOffset := int32 (bitOffset - 64)
      if 64 < bitOffset then none
      else
        let bufferedValues := v >>> (int32 (numBits - bitOffset)).toNat
        some (true, { writer with buffer, bufferedValues, byteOffset := int32 (writer.byteOffset + 8), bitOffset })
    else if 64 < bitOffset then none
    else some (true, { writer with bufferedValues, bitOffset })

def flush (writer : BitWriter) (align : Bool) : Option BitWriter := do
  let numBytes := bytesForBits writer.bitOffset
  if writer.maxBytes < int32 (writer.byteOffset + numBytes) then none
  else
    let buffer ← storeBytes writer.buffer writer.maxBytes writer.byteOffset writer.bufferedValues numBytes
    if align then
      let byteOffset := int32 (writer.byteOffset + numBytes)
      some { writer with buffer, bufferedValues := 0, byteOffset, bitOffset := 0 }
    else some { writer with buffer }

/-- The returned pointer is given as its offset in the buffer, `none` standing for `NULL`. -/
def getNextBytePtr (writer : BitWriter) (numBytes : Int) : Option (Option Int × BitWriter) := do
  let writer ← writer.flush true
  if writer.maxBytes < writer.byteOffset then none
  else if writer.maxBytes < int32 (writer.byteOffset + numBytes) then some (none, writer)
  else some (some writer.byteOffset, { writer with byteOffset := int32 (writer.byteOffset + numBytes) })

/-- `memcpy(ptr, &val, num_bytes)` reads `num_bytes` bytes of the `T` value, past its end
when `num_bytes > sizeof(T)`. -/
def putAligned (writer : BitWriter) (size val : Nat) (numBytes : Int) : Option (Bool × BitWriter) := do
  let (pointer, writer) ← writer.getNextBytePtr numBytes
  match pointer with
  | none => some (false, writer)
  | some offset =>
    if (size : Int) < numBytes then none
    else do
      let buffer ← storeBytes writer.buffer writer.maxBytes offset val numBytes
      some (true, { writer with buffer })

/-- `PutValue` returns `false` only from its capacity check, before it changes anything. -/
theorem putValue_of_false {writer next : BitWriter} {v numBits : Nat}
    (failed : writer.putValue v numBits = some (false, next)) : next = writer := by
  simp only [putValue, Option.bind_eq_bind] at failed
  split_ifs at failed <;> simp_all [Option.bind_eq_some]

/-- `PutAligned` returns `false` only when `GetNextBytePtr` returns `NULL`, and that
leaves the writer as its `Flush(true)` did. -/
theorem putAligned_of_false {writer next : BitWriter} {size val : Nat} {numBytes : Int}
    (failed : writer.putAligned size val numBytes = some (false, next)) : writer.flush true = some next := by
  simp only [putAligned, getNextBytePtr, Option.bind_eq_bind, Option.bind_eq_some] at failed
  obtain ⟨⟨pointer, reserved⟩, ⟨flushed, flushRun, reserve⟩, rest⟩ := failed
  rw [flushRun]
  cases pointer with
  | none => split_ifs at reserve <;> simp_all
  | some offset =>
    split_ifs at rest
    simp_all [Option.bind_eq_some]

theorem shiftRight_seven_lt {v : Nat} (nonzero : v &&& 0xFFFFFF80 ≠ 0) : v >>> 7 < v := by
  have positive : v ≠ 0 := by rintro rfl; exact nonzero rfl
  rw [Nat.shiftRight_eq_div_pow]; omega

/-- The loop of `PutVlqInt`, `result` being the accumulated `result &= ...`. -/
def putVlqLoop (writer : BitWriter) (v : Nat) (result : Bool) : Option (Bool × BitWriter) :=
  if nonzero : v &&& 0xFFFFFF80 ≠ 0 then do
    let (ok, writer) ← writer.putAligned 1 ((v &&& 0x7F) ||| 0x80) 1
    have := shiftRight_seven_lt nonzero
    putVlqLoop writer (v >>> 7) (result && ok)
  else do
    let (ok, writer) ← writer.putAligned 1 (v &&& 0x7F) 1
    some (result && ok, writer)
termination_by v

def putVlqInt (writer : BitWriter) (v : Nat) : Option (Bool × BitWriter) :=
  writer.putVlqLoop v true

/-- `PutVlqInt((u_v << 1) ^ (v >> 31))` with `u_v = static_cast<uint32_t>(v)`: the shift
of the `int32_t` is arithmetic, and the `int` result of `^` is read back as `uint32_t`. -/
def putZigZagVlqInt (writer : BitWriter) (v : Int) : Option (Bool × BitWriter) :=
  let unsigned := (v % 2 ^ 32).toNat
  writer.putVlqInt (((unsigned <<< 1) % 2 ^ 32) ^^^ (v / 2 ^ 31 % 2 ^ 32).toNat)

end BitWriter

end Parquet4Seastar.BitUtil
