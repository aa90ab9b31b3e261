import Parquet4Seastar.BitUtil.Bits
import Mathlib.Data.Nat.Bitwise

/-! # The machine the bit stream runs on

What the C++ code relies on beneath its own logic, fixed once here:

* `int` expressions wrap modulo 2^32 in two's complement (`int32`), which is what the
  compiled code does when a signed expression overflows; `uint64_t` values are `Nat`s
  reduced modulo 2^64 where an operation can carry out of the word;
* `BitUtil::BytesForBits` and `BitUtil::TrailingBits` as the header defines them;
* `memcpy` between the caller's buffer and a 64-bit accumulator. The buffer is the
  list of bytes the caller passed in; an access outside `[0, max_bytes_)` is undefined
  behaviour, reported as `none`, so that "no access leaves the buffer" is the statement
  that an operation returns `some`.
-/

namespace Parquet4Seastar.BitUtil

def int32 (value : Int) : Int := (value + 2 ^ 31) % 2 ^ 32 - 2 ^ 31

theorem int32_of_range {value : Int} (low : -2 ^ 31 ≤ value) (high : value < 2 ^ 31) :
    int32 value = value := by
  unfold int32; omega

/-- `BytesForBits(bits)`: `(bits >> 3) + ((bits & 7) != 0)`; on `int64_t` the arithmetic
shift is floor division by 8 and `& 7` is the remainder modulo 8. -/
def bytesForBits (bits : Int) : Int := bits / 8 + if bits % 8 ≠ 0 then 1 else 0

theorem bytesForBits_eq (bits : Int) : bytesForBits bits = (bits + 7) / 8 := by
  unfold bytesForBits; split <;> omega

def trailingBits (value : Nat) (numBits : Int) : Nat :=
  if numBits = 0 then 0
  else if 64 ≤ numBits then value
  else
    let shift := (64 - numBits).toNat
    ((value <<< shift) % 2 ^ 64) >>> shift

theorem trailingBits_eq {value : Nat} {numBits : Int} (word : value < 2 ^ 64) (nonneg : 0 ≤ numBits) :
    trailingBits value numBits = value % 2 ^ (min numBits 64).toNat := by
  unfold trailingBits
  split
  · next zero => simp [zero, Nat.mod_one]
  split
  · next wide => rw [Nat.mod_eq_of_lt (by rwa [show (min numBits 64).toNat = 64 by omega])]
  · next zero narrow =>
    obtain ⟨kept, shift, keptEq, shiftEq, total⟩ : ∃ kept shift : Nat,
        (min numBits 64).toNat = kept ∧ (64 - numBits).toNat = shift ∧ kept + shift = 64 :=
      ⟨_, _, rfl, rfl, by omega⟩
    simp only [keptEq, shiftEq]
    rw [Nat.shiftLeft_eq, Nat.shiftRight_eq_div_pow, ← total, Nat.pow_add,
      Nat.mul_mod_mul_right, Nat.mul_div_cancel _ (Nat.two_pow_pos _)]

/-! ## Memory -/

/-- `memcpy(dest, buffer + offset, count)`: the bytes read, `none` if the range is not
inside `[0, maxBytes)` (or the count is negative, which `memcpy` reads as a huge
`size_t`). -/
def loadBytes (buffer : List UInt8) (maxBytes offset count : Int) : Option (List UInt8) :=
  if count < 0 ∨ (0 < count ∧ (offset < 0 ∨ maxBytes < offset + count)) then none
  else some ((buffer.drop offset.toNat).take count.toNat)

/-- The buffer after `bytes` are written over it from `offset` on. -/
def spliceBytes (buffer : List UInt8) (offset : Nat) (bytes : List UInt8) : List UInt8 :=
  buffer.take offset ++ bytes ++ buffer.drop (offset + bytes.length)

/-- `memcpy(buffer + offset, &value, count)`: the low `count` bytes of `value`, little
endian, written into the buffer. -/
def storeBytes (buffer : List UInt8) (maxBytes offset : Int) (value : Nat) (count : Int) :
    Option (List UInt8) :=
  if count < 0 ∨ (0 < count ∧ (offset < 0 ∨ maxBytes < offset + count)) then none
  else some (spliceBytes buffer offset.toNat (leBytes value count.toNat))

/-- `memcpy(&word, source, bytes.length)` on a little-endian 64-bit accumulator: the low
bytes are replaced, the high bytes keep whatever the word held before. -/
def copyIntoWord (word : Nat) (bytes : List UInt8) : Nat :=
  leValue bytes + word / 2 ^ (8 * bytes.length) * 2 ^ (8 * bytes.length)

theorem loadBytes_eq {buffer : List UInt8} {maxBytes offset count : Int} (start : 0 ≤ offset)
    (nonneg : 0 ≤ count) (inside : offset + count ≤ maxBytes) :
    loadBytes buffer maxBytes offset count = some ((buffer.drop offset.toNat).take count.toNat) := by
  unfold loadBytes; rw [if_neg (by omega)]

theorem storeBytes_eq {buffer : List UInt8} {maxBytes offset count : Int} (value : Nat) (start : 0 ≤ offset)
    (nonneg : 0 ≤ count) (inside : offset + count ≤ maxBytes) :
    storeBytes buffer maxBytes offset value count =
      some (spliceBytes buffer offset.toNat (leBytes value count.toNat)) := by
  unfold storeBytes; rw [if_neg (by omega)]

theorem length_spliceBytes {buffer bytes : List UInt8} {offset count : Nat} (length : bytes.length = count)
    (room : offset + count ≤ buffer.length) : (spliceBytes buffer offset bytes).length = buffer.length := by
  simp [spliceBytes, List.length_take, List.length_drop]; omega

theorem take_spliceBytes {buffer bytes : List UInt8} {offset count : Nat} (length : bytes.length = count)
    (room : offset + count ≤ buffer.length) :
    (spliceBytes buffer offset bytes).take (offset + count) = buffer.take offset ++ bytes := by
  subst length
  rw [spliceBytes, List.take_append_eq_append_take, List.take_of_length_le (by simp)]
  simp only [List.length_append, List.length_take]
  rw [Nat.min_eq_left (by omega), Nat.sub_self, List.take_zero, List.append_nil]

theorem take_spliceBytes_of_le {buffer bytes : List UInt8} {offset prefixLength : Nat}
    (before : prefixLength ≤ offset) (inside : offset ≤ buffer.length) :
    (spliceBytes buffer offset bytes).take prefixLength = buffer.take prefixLength := by
  rw [spliceBytes, List.append_assoc, List.take_append_of_le_length (by simp; omega), List.take_take,
    Nat.min_eq_left before]

theorem drop_spliceBytes_of_le {buffer bytes : List UInt8} {offset suffixStart : Nat}
    (after : offset + bytes.length ≤ suffixStart) (inside : offset ≤ buffer.length) :
    (spliceBytes buffer offset bytes).drop suffixStart = buffer.drop suffixStart := by
  have prefixLength : (buffer.take offset ++ bytes).length = offset + bytes.length := by
    simp only [List.length_append, List.length_take]; omega
  rw [spliceBytes, List.drop_append_eq_append_drop, List.drop_eq_nil_of_le (by omega), List.nil_append,
    prefixLength, List.drop_drop, Nat.add_sub_cancel' after]

/-- Stores to disjoint ranges can be made in either order. -/
theorem spliceBytes_comm {buffer first second : List UInt8} {firstOffset secondOffset : Nat}
    (disjoint : firstOffset + first.length ≤ secondOffset) (inside : secondOffset ≤ buffer.length) :
    spliceBytes (spliceBytes buffer firstOffset first) secondOffset second =
      spliceBytes (spliceBytes buffer secondOffset second) firstOffset first := by
  have firstLength : (buffer.take firstOffset ++ first).length = firstOffset + first.length := by
    simp only [List.length_append, List.length_take]; omega
  conv_lhs => rw [spliceBytes, drop_spliceBytes_of_le (by omega) (by omega), spliceBytes,
    List.take_append_eq_append_take, List.take_of_length_le (by omega), firstLength]
  conv_rhs => rw [spliceBytes, take_spliceBytes_of_le (by omega) inside, spliceBytes, List.append_assoc,
    List.drop_append_of_le_length (by simp; omega), List.drop_append_of_le_length (by simp; omega),
    List.drop_take]
  simp only [List.append_assoc]

theorem copyIntoWord_mod (word : Nat) (bytes : List UInt8) :
    copyIntoWord word bytes % 2 ^ (8 * bytes.length) = leValue bytes := by
  rw [copyIntoWord, Nat.add_mul_mod_self_right, Nat.mod_eq_of_lt (leValue_lt bytes)]

theorem copyIntoWord_lt {word : Nat} {bytes : List UInt8} (wordBound : word < 2 ^ 64) (short : bytes.length ≤ 8) :
    copyIntoWord word bytes < 2 ^ 64 := by
  obtain ⟨rest, total⟩ : ∃ rest, 8 * bytes.length + rest = 64 := ⟨64 - 8 * bytes.length, by omega⟩
  have low := leValue_lt bytes
  have high : word / 2 ^ (8 * bytes.length) < 2 ^ rest := by
    rw [Nat.div_lt_iff_lt_mul (Nat.two_pow_pos _), ← Nat.pow_add, Nat.add_comm, total]; exact wordBound
  calc copyIntoWord word bytes
      < 2 ^ (8 * bytes.length) + word / 2 ^ (8 * bytes.length) * 2 ^ (8 * bytes.length) := by
        unfold copyIntoWord; omega
    _ = (word / 2 ^ (8 * bytes.length) + 1) * 2 ^ (8 * bytes.length) := by ring
    _ ≤ 2 ^ rest * 2 ^ (8 * bytes.length) := Nat.mul_le_mul_right _ high
    _ = 2 ^ 64 := by rw [← Nat.pow_add, Nat.add_comm, total]

/-- Writing `v` above `low < 2^bit` in a `width`-bit word is adding it there, modulo
`2^width`. -/
theorem or_shiftLeft_eq {low bit width : Nat} (v : Nat) (lowBound : low < 2 ^ bit) (bitBound : bit ≤ width) :
    low ||| (v <<< bit) % 2 ^ width = (low + 2 ^ bit * v) % 2 ^ width := by
  have word : 2 ^ width = 2 ^ bit * 2 ^ (width - bit) := by rw [← Nat.pow_add, Nat.add_sub_cancel' bitBound]
  have split : (low + 2 ^ bit * v) % (2 ^ bit * 2 ^ (width - bit)) = low + 2 ^ bit * (v % 2 ^ (width - bit)) := by
    rw [Nat.mod_mul, Nat.add_mul_mod_self_left, Nat.mod_eq_of_lt lowBound,
      Nat.add_mul_div_left _ _ (Nat.two_pow_pos _), Nat.div_eq_of_lt lowBound, Nat.zero_add]
  rw [word, split, Nat.shiftLeft_eq, Nat.mul_comm v, Nat.mul_mod_mul_left, Nat.or_comm,
    ← Nat.mul_add_lt_is_or lowBound, Nat.add_comm]

theorem lowSevenBits (value : Nat) : value &&& 0x7F = value % 128 :=
  Nat.and_pow_two_sub_one_eq_mod value 7

theorem topBit_eq_zero_iff {byte : Nat} (small : byte < 256) : byte &&& 0x80 = 0 ↔ byte < 128 := by
  rw [show (0x80 : Nat) = 2 ^ 7 from rfl, Nat.and_two_pow, Nat.testBit_to_div_mod]
  by_cases low : byte < 128 <;> simp [low] <;> omega

end Parquet4Seastar.BitUtil
