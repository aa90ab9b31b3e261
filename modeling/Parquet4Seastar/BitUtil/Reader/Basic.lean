import Parquet4Seastar.BitUtil.Machine

/-! # `BitReader`

The reader class of `bit_stream_utils.hh` and `detail::GetValue_`, one definition per
member, each under the member's name. The state is the five data members, the buffer
pointer being the buffer's bytes. `GetBatch` copies the members into locals, works on
the copies and writes them back: the copies are a `BitReader` value with the same buffer
and length, which `detail::GetValue_` updates through its pointers. Members that touch
memory or `assert` return an `Option`, `none` being the failed assertion or the access
outside `buffer[0, max_bytes_)`.

The element type `T` of `GetValue` and `GetBatch` is a `ValueType`: an unsigned or a
signed integer type of `sizeof(T)` bytes, or `bool`. A value of `T` is kept as its object
representation, a natural number below `2^(8·sizeof(T))`, so that `static_cast<T>` is
`ValueType.cast` and `*v | static_cast<T>(...)` is the OR of two representations
(`cast_or`); `ValueType.value` reads the value a representation stands for.

`internal::unpack32` is declared in `bpacking.hh`, which is not part of this source.
`unpack32` is the contract `GetBatch` relies on: the first `⌊m/32⌋·32` values of
`num_bits` bits, least significant bit first, from the `4·num_bits` bytes per group of 32
values at `in`, and their number as its result, the count by which `GetBatch` advances
`byte_offset_` by `num_unpacked * num_bits / 8` bytes.
-/

namespace Parquet4Seastar.BitUtil

/-- An element type `T` of the reader's templates. -/
inductive ValueType where
  | unsigned (size : Nat)
  | signed (size : Nat)
  | bool
  deriving Repr, DecidableEq

namespace ValueType

/-- `sizeof(T)`. -/
def size : ValueType → Nat
  | unsigned size | signed size => size
  | bool => 1

/-- The object representation of `static_cast<T>(x)` for an `x` of an unsigned type: the
low `8·sizeof(T)` bits of `x` for an integer type (the conversion to a signed type is
modular), and `x != 0` for `bool`. -/
def cast : ValueType → Nat → Nat
  | unsigned size, x | signed size, x => x % 2 ^ (8 * size)
  | bool, x => if x = 0 then 0 else 1

/-- The value of a `T` whose object representation is `bits`: two's complement for a
signed type, `0` or `1` for `bool`. -/
def value : ValueType → Nat → Int
  | unsigned _, bits | bool, bits => bits
  | signed size, bits => if bits < 2 ^ (8 * size - 1) then bits else bits - 2 ^ (8 * size)

theorem or_eq_zero {x y : Nat} : x ||| y = 0 ↔ x = 0 ∧ y = 0 := by
  refine ⟨fun zero => ?_, by rintro ⟨rfl, rfl⟩; rfl⟩
  have bits (i : Nat) : x.testBit i = false ∧ y.testBit i = false := by simpa using congrArg (Nat.testBit · i) zero
  exact ⟨Nat.eq_of_testBit_eq fun i => by simp [(bits i).1], Nat.eq_of_testBit_eq fun i => by simp [(bits i).2]⟩

/-- The OR of two values converted to `T` is the conversion of their OR: for an integer
type both keep the low bits, for `bool` both are `x != 0 || y != 0`. -/
theorem cast_or (T : ValueType) (x y : Nat) : T.cast (x ||| y) = T.cast x ||| T.cast y := by
  cases T with
  | bool =>
    simp only [cast, or_eq_zero]
    by_cases xZero : x = 0 <;> by_cases yZero : y = 0 <;> simp [xZero, yZero]
  | _ =>
    refine Nat.eq_of_testBit_eq fun i => ?_
    simp only [cast, Nat.testBit_mod_two_pow, Nat.testBit_or, Bool.and_or_distrib_left]

end ValueType

structure BitReader where
  buffer : List UInt8
  maxBytes : Int
  bufferedValues : Nat
  byteOffset : Int
  bitOffset : Int
  deriving Repr, DecidableEq

namespace BitReader

/-- `memcpy(&word, buffer + offset, count)`: the word's low `count` bytes replaced by
the buffer's bytes at `offset`. -/
def refill (buffer : List UInt8) (maxBytes offset count : Int) (word : Nat) : Option Nat := do
  let bytes ← loadBytes buffer maxBytes offset count
  some (copyIntoWord word bytes)

/-- The refill that the constructor, `GetValue_`, `GetBatch` and `GetAligned` each spell
out: `bytes_remaining = max_bytes - byte_offset`, then a `memcpy` of 8 bytes, or of
`bytes_remaining` when fewer are left. -/
def refillAt (reader : BitReader) (byteOffset : Int) (word : Nat) : Option Nat :=
  let bytesRemaining := int32 (reader.maxBytes - byteOffset)
  refill reader.buffer reader.maxBytes byteOffset (if 8 ≤ bytesRemaining then 8 else bytesRemaining) word

/-- `BitReader(buffer, buffer_len)`. `stale` is the indeterminate value the accumulator
holds before the constructor's `memcpy` fills its low bytes. -/
def init (buffer : List UInt8) (bufferLen : Int) (stale : Nat) : Option BitReader := do
  let reader : BitReader := { buffer, maxBytes := bufferLen, bufferedValues := stale, byteOffset := 0, bitOffset := 0 }
  let bufferedValues ← reader.refillAt 0 stale
  some { reader with bufferedValues }

/-- `Reset(buffer, buffer_len)`: the constructor, over the accumulator's current value. -/
def reset (reader : BitReader) (buffer : List UInt8) (bufferLen : Int) : Option BitReader :=
  init buffer bufferLen reader.bufferedValues

def bytesLeft (reader : BitReader) : Int :=
  int32 (reader.maxBytes - int32 (reader.byteOffset + bytesForBits reader.bitOffset))

/-- `detail::GetValue_`: the representation of the value it stores in `*v`, and the
locals after it. -/
def getValue_ (reader : BitReader) (T : ValueType) (numBits : Nat) : Option (Nat × BitReader) :=
  let v := T.cast (trailingBits reader.bufferedValues (int32 (reader.bitOffset + numBits)) >>> reader.bitOffset.toNat)
  let bitOffset := int32 (reader.bitOffset + numBits)
  if 64 ≤ bitOffset then do
    let byteOffset := int32 (reader.byteOffset + 8)
    let bitOffset := int32 (bitOffset - 64)
    let bufferedValues ← reader.refillAt byteOffset reader.bufferedValues
    let v := v ||| T.cast ((trailingBits bufferedValues bitOffset <<< (numBits - bitOffset).toNat) % 2 ^ 64)
    if 64 < bitOffset then none
    else some (v, { reader with bufferedValues, byteOffset, bitOffset })
  else some (v, { reader with bitOffset })

/-- `count` calls of `detail::GetValue_`, as the tail loop of `GetBatch` makes them. -/
def getValues_ (reader : BitReader) (T : ValueType) (numBits : Nat) : Nat → Option (List Nat × BitReader)
  | 0 => some ([], reader)
  | count + 1 => do
    let (v, reader) ← reader.getValue_ T numBits
    let (values, reader) ← reader.getValues_ T numBits count
    some (v :: values, reader)

/-- The head loop of `GetBatch`: `detail::GetValue_` while values are left to read and
the locals are not on a word boundary (`bit_offset != 0`). -/
def headLoop (reader : BitReader) (T : ValueType) (numBits : Nat) : Nat → Option (List Nat × BitReader)
  | 0 => some ([], reader)
  | count + 1 =>
    if reader.bitOffset = 0 then some ([], reader)
    else do
      let (v, reader) ← reader.getValue_ T numBits
      let (values, reader) ← reader.headLoop T numBits count
      some (v :: values, reader)

/-- `internal::unpack32(in, out, m, num_bits)`: the first `⌊m/32⌋·32` values of
`num_bits` bits, least significant bit first, of the `4·num_bits` bytes per group of 32
values at `in`; their number is its result. -/
def unpack32 (buffer : List UInt8) (maxBytes offset count : Int) (numBits : Nat) : Option (List Nat) := do
  let groups := count.toNat / 32
  let bytes ← loadBytes buffer maxBytes offset (4 * numBits * groups)
  some ((List.range (32 * groups)).map fun k => leValue bytes / 2 ^ (k * numBits) % 2 ^ numBits)

/-- `byte_offset += num_unpacked * num_bits / 8`. -/
def skipUnpacked (reader : BitReader) (numUnpacked numBits : Nat) : BitReader :=
  { reader with byteOffset := int32 (reader.byteOffset + (int32 (numUnpacked * numBits)).tdiv 8) }

/-- The `sizeof(T) == 4` branch of `GetBatch`: one `unpack32` straight into `v + i`, the
`uint32_t` values becoming the representations of the `T`s. -/
def unpackDirect (reader : BitReader) (numBits : Nat) (count : Int) : Option (List Nat × BitReader) := do
  let values ← unpack32 reader.buffer reader.maxBytes reader.byteOffset count numBits
  some (values, reader.skipUnpacked values.length numBits)

/-- The other branch of `GetBatch`: `unpack32` into a staging buffer of 1024 values,
each then cast to `T`, while values are left to read and `unpack32` unpacks some. -/
def unpackStaged (reader : BitReader) (T : ValueType) (numBits : Nat) (remaining : Nat) : Option (List Nat × BitReader) :=
  if _done : remaining = 0 then some ([], reader)
  else match unpack32 reader.buffer reader.maxBytes reader.byteOffset (min 1024 remaining) numBits with
    | none => none
    | some values =>
      if _empty : values.length = 0 then some ([], reader)
      else do
        let (rest, last) ← (reader.skipUnpacked values.length numBits).unpackStaged T numBits
          (remaining - values.length)
        some (values.map T.cast ++ rest, last)
termination_by remaining
decreasing_by omega

/-- The bulk part of `GetBatch`, for `count` values: `unpack32` straight into `v + i` when
`sizeof(T) == 4`, through the staging buffer otherwise. -/
def unpackBulk (reader : BitReader) (T : ValueType) (numBits : Nat) (count : Int) : Option (List Nat × BitReader) :=
  if T.size = 4 then reader.unpackDirect numBits count else reader.unpackStaged T numBits count.toNat

/-- The clamp of `GetBatch`: `needed_bits` and `remaining_bits` are `int` expressions
converted to `uint64_t`, compared, and the new `batch_size` is an `int` division. -/
def batchClamp (reader : BitReader) (numBits : Nat) (batchSize : Int) : Int :=
  let neededBits := int32 (numBits * batchSize) % 2 ^ 64
  let remainingBits := int32 (int32 (int32 (reader.maxBytes - reader.byteOffset) * 8) - reader.bitOffset) % 2 ^ 64
  if remainingBits < neededBits then (int32 remainingBits).tdiv numBits else batchSize

/-- `GetBatch(num_bits, v, batch_size)`: its result, the representations of the values
it stores in `v[0, result)`, and the reader after it. -/
def getBatch (reader : BitReader) (T : ValueType) (numBits : Nat) (batchSize : Int) :
    Option (Int × List Nat × BitReader) :=
  if 32 < numBits ∨ 8 * T.size < numBits then none
  else do
    let batchSize := batchClamp reader numBits batchSize
    let (head, reader) ← reader.headLoop T numBits batchSize.toNat
    let (bulk, reader) ← reader.unpackBulk T numBits (batchSize - head.length)
    let bufferedValues ← reader.refillAt reader.byteOffset reader.bufferedValues
    let (tail, reader) ← { reader with bufferedValues }.getValues_ T numBits
      (batchSize - head.length - bulk.length).toNat
    some (batchSize, head ++ bulk ++ tail, reader)

/-- `GetValue(num_bits, v)`, that is `GetBatch(num_bits, v, 1) == 1`: the representation
of the value stored in `*v` when it returns `true`. -/
def getValue (reader : BitReader) (T : ValueType) (numBits : Nat) : Option (Option Nat × BitReader) := do
  let (count, values, reader) ← reader.getBatch T numBits 1
  some (if count = 1 then values.head? else none, reader)

/-- `GetAligned<T>(num_bytes, v)`: the bytes it copies into the low bytes of `*v` when it
returns `true`. -/
def getAligned (reader : BitReader) (size : Nat) (numBytes : Int) : Option (Option (List UInt8) × BitReader) :=
  if (size : Int) < numBytes then some (none, reader)
  else
    let bytesRead := bytesForBits reader.bitOffset
    if reader.maxBytes < int32 (int32 (reader.byteOffset + bytesRead) + numBytes) then some (none, reader)
    else do
      let byteOffset := int32 (reader.byteOffset + bytesRead)
      let bytes ← loadBytes reader.buffer reader.maxBytes byteOffset numBytes
      let byteOffset := int32 (byteOffset + numBytes)
      let bufferedValues ← reader.refillAt byteOffset reader.bufferedValues
      some (some bytes, { reader with bufferedValues, byteOffset, bitOffset := 0 })

/-- The loop of `GetVlqInt` from its `i`-th byte on, `tmp` holding the bits read so far
and `remaining` being `kMaxVlqByteLength - i`. -/
def getVlqLoop (reader : BitReader) (tmp i : Nat) : Nat → Option (Option Nat × BitReader)
  | 0 => some (none, reader)
  | remaining + 1 => do
    let (read, reader) ← reader.getAligned 1 1
    match read with
    | none => some (none, reader)
    | some bytes =>
      let byte := copyIntoWord 0 bytes
      let tmp := tmp ||| ((byte &&& 0x7F) <<< (7 * i)) % 2 ^ 32
      if byte &&& 0x80 = 0 then some (some tmp, reader)
      else reader.getVlqLoop tmp (i + 1) remaining

/-- `GetVlqInt(v)`: the value stored in `*v` when it returns `true`. -/
def getVlqInt (reader : BitReader) : Option (Option Nat × BitReader) :=
  reader.getVlqLoop 0 0 5

/-- `GetZigZagVlqInt(v)`: `(u >> 1) ^ -(static_cast<int32_t>(u & 1))` meets its operands
as `uint32_t`, and the result is stored in an `int32_t`. -/
def getZigZagVlqInt (reader : BitReader) : Option (Option Int × BitReader) := do
  let (u, reader) ← reader.getVlqInt
  some (u.map fun u => int32 (((u >>> 1) ^^^ ((-((u &&& 1 : Nat) : Int)) % 2 ^ 32).toNat : Nat)), reader)

end BitReader

end Parquet4Seastar.BitUtil
