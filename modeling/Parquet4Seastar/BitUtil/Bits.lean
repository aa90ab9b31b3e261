import Mathlib.Data.List.Basic
import Mathlib.Tactic.Ring

/-! # Bit strings and little-endian bytes

The reference semantics of a bit stream is a list of bits, least significant bit first.
Every later module goes through the conversions fixed here:

* `bits value count` and `bitsValue` — the `count` low-order bits of a number, and back;
* `leValue`, `leBytes` — a byte string read as a little-endian number, and the `count`
  low-order bytes of a number;
* `bytesBits` — a byte string as its LSB-first bit string (`bytesBits_eq_bits`).
-/

namespace Parquet4Seastar.BitUtil

def bits (value : Nat) : Nat → List Bool
  | 0 => []
  | count + 1 => decide (value % 2 = 1) :: bits (value / 2) count

def bitsValue : List Bool → Nat
  | [] => 0
  | bit :: rest => bit.toNat + 2 * bitsValue rest

def leValue : List UInt8 → Nat
  | [] => 0
  | byte :: rest => byte.toNat + 256 * leValue rest

def leBytes (value : Nat) : Nat → List UInt8
  | 0 => []
  | count + 1 => UInt8.ofNat value :: leBytes (value / 256) count

def bytesBits (bytes : List UInt8) : List Bool :=
  bytes.flatMap fun byte => bits byte.toNat 8

/-! ## Bits of a number -/

@[simp] theorem bits_zero (value : Nat) : bits value 0 = [] := rfl

@[simp] theorem length_bits (value count : Nat) : (bits value count).length = count := by
  induction count generalizing value with
  | zero => rfl
  | succ count inductionHypothesis => simp [bits, inductionHypothesis]

theorem bool_toNat_mod_two (value : Nat) : (decide (value % 2 = 1)).toNat = value % 2 := by
  rcases Nat.mod_two_eq_zero_or_one value with parity | parity <;> simp [parity]

theorem bitsValue_bits (value count : Nat) : bitsValue (bits value count) = value % 2 ^ count := by
  induction count generalizing value with
  | zero => simp [bitsValue, Nat.mod_one]
  | succ count inductionHypothesis =>
    rw [bits, bitsValue, inductionHypothesis, bool_toNat_mod_two, Nat.pow_succ', Nat.mod_mul]

theorem bitsValue_append (first second : List Bool) :
    bitsValue (first ++ second) = bitsValue first + 2 ^ first.length * bitsValue second := by
  induction first with
  | nil => simp [bitsValue]
  | cons bit rest inductionHypothesis =>
    rw [List.cons_append, bitsValue, bitsValue, inductionHypothesis, List.length_cons, Nat.pow_succ']
    ring

/-- A number below `2^first` with a number below `2^second` written above it is below
`2^(first + second)`. -/
theorem add_two_pow_mul_lt {low high first second : Nat} (lowBound : low < 2 ^ first)
    (highBound : high < 2 ^ second) : low + 2 ^ first * high < 2 ^ (first + second) :=
  calc low + 2 ^ first * high < 2 ^ first * (high + 1) := by rw [Nat.mul_succ]; omega
    _ ≤ 2 ^ first * 2 ^ second := Nat.mul_le_mul_left _ highBound
    _ = 2 ^ (first + second) := (Nat.pow_add 2 first second).symm

theorem bitsValue_lt (stream : List Bool) : bitsValue stream < 2 ^ stream.length := by
  induction stream with
  | nil => simp [bitsValue]
  | cons bit rest inductionHypothesis =>
    have : bit.toNat ≤ 1 := Bool.toNat_le bit
    simp only [bitsValue, List.length_cons, Nat.pow_succ']
    omega

theorem bits_add (value first second : Nat) :
    bits value (first + second) = bits value first ++ bits (value / 2 ^ first) second := by
  induction first generalizing value with
  | zero => simp
  | succ first inductionHypothesis =>
    rw [Nat.succ_add, bits, bits, inductionHypothesis, Nat.div_div_eq_div_mul, ← Nat.pow_succ']
    rfl

theorem bits_mod_two_pow_self (value count : Nat) : bits (value % 2 ^ count) count = bits value count := by
  induction count generalizing value with
  | zero => rfl
  | succ count inductionHypothesis =>
    have lowBit : value % 2 ^ (count + 1) % 2 = value % 2 :=
      Nat.mod_mod_of_dvd _ (Nat.dvd_of_mod_eq_zero (by simp [Nat.pow_succ, Nat.mul_mod_left]))
    have highBits : value % 2 ^ (count + 1) / 2 = value / 2 % 2 ^ count := by
      rw [Nat.pow_succ', Nat.mod_mul_right_div_self]
    rw [bits, bits, lowBit, highBits, inductionHypothesis]

theorem bits_congr {first second count : Nat} (same : first % 2 ^ count = second % 2 ^ count) :
    bits first count = bits second count := by
  rw [← bits_mod_two_pow_self first, same, bits_mod_two_pow_self]

theorem bits_bitsValue (stream : List Bool) : bits (bitsValue stream) stream.length = stream := by
  induction stream with
  | nil => rfl
  | cons bit rest inductionHypothesis =>
    have bitBound := Bool.toNat_le bit
    have parity : (bit.toNat + 2 * bitsValue rest) % 2 = bit.toNat := by omega
    have half : (bit.toNat + 2 * bitsValue rest) / 2 = bitsValue rest := by omega
    simp only [bitsValue, List.length_cons, bits, parity, half, inductionHypothesis]
    cases bit <;> rfl

@[simp] theorem bits_zero_value (count : Nat) : bits 0 count = List.replicate count false := by
  induction count with
  | zero => rfl
  | succ count inductionHypothesis => simp [bits, inductionHypothesis, List.replicate_succ]

theorem bits_of_lt {value width : Nat} (count : Nat) (small : value < 2 ^ width) :
    bits value (width + count) = bits value width ++ List.replicate count false := by
  rw [bits_add, Nat.div_eq_of_lt small, bits_zero_value]

/-- Flipping the `n` low bits of a number below `2^n` is subtracting it from `2^n - 1`. -/
theorem xor_two_pow_sub_one {value width : Nat} (small : value < 2 ^ width) :
    value ^^^ (2 ^ width - 1) = 2 ^ width - (value + 1) := by
  apply Nat.eq_of_testBit_eq
  intro index
  rw [Nat.testBit_xor, Nat.testBit_two_pow_sub_one, Nat.testBit_two_pow_sub_succ small]
  by_cases below : index < width
  · simp [below]
  · have high : value.testBit index = false :=
      Nat.testBit_lt_two_pow (small.trans_le (Nat.pow_le_pow_right (by decide) (by omega)))
    simp [below, high]

/-! ## Little-endian bytes -/

@[simp] theorem length_leBytes (value count : Nat) : (leBytes value count).length = count := by
  induction count generalizing value with
  | zero => rfl
  | succ count inductionHypothesis => simp [leBytes, inductionHypothesis]

theorem leValue_append (first second : List UInt8) :
    leValue (first ++ second) = leValue first + 2 ^ (8 * first.length) * leValue second := by
  induction first with
  | nil => simp [leValue]
  | cons byte rest inductionHypothesis =>
    rw [List.cons_append, leValue, leValue, inductionHypothesis, List.length_cons, Nat.mul_succ,
      Nat.pow_add]
    ring

theorem leValue_lt (bytes : List UInt8) : leValue bytes < 2 ^ (8 * bytes.length) := by
  induction bytes with
  | nil => simp [leValue]
  | cons byte rest inductionHypothesis =>
    have byteBound : byte.toNat < 256 := UInt8.toNat_lt_size byte
    rw [leValue, List.length_cons, Nat.mul_succ, Nat.pow_add]
    have : 2 ^ 8 = 256 := rfl
    rw [this]
    omega

theorem leValue_leBytes (value count : Nat) : leValue (leBytes value count) = value % 2 ^ (8 * count) := by
  induction count generalizing value with
  | zero => simp [leBytes, leValue, Nat.mod_one]
  | succ count inductionHypothesis =>
    rw [leBytes, leValue, inductionHypothesis, Nat.mul_succ, Nat.add_comm _ 8, Nat.pow_add, Nat.mod_mul]
    rfl

theorem leBytes_leValue (bytes : List UInt8) : leBytes (leValue bytes) bytes.length = bytes := by
  induction bytes with
  | nil => rfl
  | cons byte rest inductionHypothesis =>
    have byteBound : byte.toNat < 256 := UInt8.toNat_lt_size byte
    have low : (byte.toNat + 256 * leValue rest) % 256 = byte.toNat := by omega
    have high : (byte.toNat + 256 * leValue rest) / 256 = leValue rest := by omega
    simp only [leValue, List.length_cons, leBytes, high, inductionHypothesis, List.cons.injEq, and_true]
    exact UInt8.toNat.inj low

theorem leBytes_toNat (byte : UInt8) : leBytes byte.toNat 1 = [byte] := by
  rw [leBytes, leBytes]
  exact congrArg (· :: []) (UInt8.toNat.inj (Nat.mod_eq_of_lt (UInt8.toNat_lt_size byte)))

theorem leBytes_mod (value count : Nat) : leBytes (value % 2 ^ (8 * count)) count = leBytes value count := by
  conv_rhs => rw [← leBytes_leValue (leBytes value count), leValue_leBytes, length_leBytes]

theorem leValue_take (bytes : List UInt8) (count : Nat) :
    leValue (bytes.take count) = leValue bytes % 2 ^ (8 * count) := by
  rcases Nat.le_total count bytes.length with within | beyond
  · conv_rhs => rw [← List.take_append_drop count bytes, leValue_append]
    rw [List.length_take_of_le within, Nat.add_mul_mod_self_left,
      Nat.mod_eq_of_lt (by simpa [List.length_take_of_le within] using leValue_lt (bytes.take count))]
  · rw [List.take_of_length_le beyond, Nat.mod_eq_of_lt]
    exact Nat.lt_of_lt_of_le (leValue_lt bytes) (Nat.pow_le_pow_right (by decide) (by omega))

theorem leValue_drop (bytes : List UInt8) (count : Nat) :
    leValue (bytes.drop count) = leValue bytes / 2 ^ (8 * count) := by
  rcases Nat.le_total count bytes.length with within | beyond
  · conv_rhs => rw [← List.take_append_drop count bytes, leValue_append]
    have small := leValue_lt (bytes.take count)
    rw [List.length_take_of_le within] at small ⊢
    rw [Nat.add_mul_div_left _ _ (Nat.two_pow_pos _), Nat.div_eq_of_lt small, Nat.zero_add]
  · rw [List.drop_eq_nil_of_le beyond, Nat.div_eq_of_lt]
    · rfl
    · exact Nat.lt_of_lt_of_le (leValue_lt bytes) (Nat.pow_le_pow_right (by decide) (by omega))

/-! ## Bytes as bits -/

@[simp] theorem bytesBits_nil : bytesBits [] = [] := rfl

theorem bytesBits_append (first second : List UInt8) :
    bytesBits (first ++ second) = bytesBits first ++ bytesBits second := List.flatMap_append ..

theorem bytesBits_eq_bits (bytes : List UInt8) : bytesBits bytes = bits (leValue bytes) (8 * bytes.length) := by
  induction bytes with
  | nil => rfl
  | cons byte rest inductionHypothesis =>
    have byteBound : byte.toNat < 256 := UInt8.toNat_lt_size byte
    have low : (byte.toNat + 256 * leValue rest) % 2 ^ 8 = byte.toNat % 2 ^ 8 := by omega
    have high : (byte.toNat + 256 * leValue rest) / 2 ^ 8 = leValue rest := by omega
    rw [bytesBits, List.flatMap_cons, ← bytesBits, inductionHypothesis, leValue, List.length_cons,
      Nat.mul_succ, Nat.add_comm _ 8, bits_add, high, bits_congr low]

@[simp] theorem length_bytesBits (bytes : List UInt8) : (bytesBits bytes).length = 8 * bytes.length := by
  rw [bytesBits_eq_bits, length_bits]

end Parquet4Seastar.BitUtil
