import Parquet4Seastar.BitUtil.Reader.Spec

/-! # `GetVlqInt` and `GetZigZagVlqInt`

`vlqScan bytes limit` is the reference VLQ decoder: it reads at most `limit` bytes from
the front of `bytes`, up to the first one with its top bit clear, and gives the decoded
value, unbounded, and the number of bytes it read. The loop of `GetVlqInt` reads its
bytes with `GetAligned`, which commits each one: `getVlqLoop_spec` says the loop returns
the decoded value modulo `2^32`, and leaves the reader after the bytes it read whether it
succeeds or not. `getVlqInt_truncates` shows the modulo at work on a fifth byte with
bits above `2^32`.
-/

namespace Parquet4Seastar.BitUtil

/-- The reference VLQ decoder over the bytes from the cursor on: the value of the VLQ at
their front, when one of the first `limit` bytes ends it, and the number of bytes read. -/
def vlqScan : List UInt8 → Nat → Option Nat × Nat
  | _, 0 => (none, 0)
  | [], _ + 1 => (none, 0)
  | byte :: rest, limit + 1 =>
    if byte.toNat < 128 then (some byte.toNat, 1)
    else ((vlqScan rest limit).1.map fun value => byte.toNat % 128 + 128 * value, (vlqScan rest limit).2 + 1)

/-- A failed scan read every byte it was allowed to. -/
theorem vlqScan_consumed_of_none {bytes : List UInt8} {limit : Nat} (failed : (vlqScan bytes limit).1 = none) :
    (vlqScan bytes limit).2 = min limit bytes.length := by
  induction bytes generalizing limit with
  | nil => cases limit <;> rfl
  | cons byte rest inductionHypothesis =>
    cases limit with
    | zero => rfl
    | succ limit =>
      by_cases last : byte.toNat < 128
      · simp [vlqScan, last] at failed
      · simp only [vlqScan, last, if_false, Option.map_eq_none'] at failed ⊢
        rw [inductionHypothesis failed]; simp; omega

/-- Where reading `consumed` bytes from the byte boundary after `position` leaves the
cursor; reading no byte leaves it where it was. -/
def afterBytes (position consumed : Nat) : Nat :=
  if consumed = 0 then position else 8 * ((position + 7) / 8 + consumed)

theorem afterBytes_succ (position consumed : Nat) :
    afterBytes (8 * ((position + 7) / 8 + 1)) consumed = afterBytes position (consumed + 1) := by
  unfold afterBytes; rw [if_neg (Nat.succ_ne_zero consumed)]; split <;> omega

/-- `(u >> 1) ^ -(u & 1)`, as an integer. -/
def zigzagDecode (u : Nat) : Int := if u % 2 = 0 then (u / 2 : Nat) else -((u / 2 : Nat) : Int) - 1

namespace BitReader

/-- The loop of `GetVlqInt` from its `i`-th byte: it returns the reference decoder's value
on top of the `tmp` read so far, modulo `2^32`, and leaves the reader after the bytes the
decoder read. -/
theorem getVlqLoop_spec {reader : BitReader} {source : List UInt8} {position : Nat} (reads : reader.Reads source position)
    {tmp i remaining : Nat} (below : tmp < 2 ^ (7 * i)) (bounded : i + remaining ≤ 5) :
    ∃ next, reader.getVlqLoop tmp i remaining =
        some ((vlqScan (source.drop ((position + 7) / 8)) remaining).1.map
          fun value => (tmp + 2 ^ (7 * i) * value) % 2 ^ 32, next) ∧
      next.Reads source (afterBytes position (vlqScan (source.drop ((position + 7) / 8)) remaining).2) := by
  induction remaining generalizing reader position tmp i with
  | zero => exact ⟨reader, by simp [getVlqLoop, vlqScan], by simpa [vlqScan, afterBytes] using reads⟩
  | succ remaining inductionHypothesis =>
    have ⟨failure, success⟩ := @getAligned_spec reader source position reads 1 1 (by decide)
    simp only [Nat.cast_one] at failure success
    cases bytes : source.drop ((position + 7) / 8) with
    | nil =>
      have full : source.length < (position + 7) / 8 + 1 := by
        have empty := congrArg List.length bytes; simp at empty; omega
      refine ⟨reader, ?_, by simpa [vlqScan, afterBytes] using reads⟩
      rw [getVlqLoop, failure (.inr full)]; rfl
    | cons byte rest =>
      have room : (position + 7) / 8 + 1 ≤ source.length := by
        have nonempty := congrArg List.length bytes; simp at nonempty; omega
      obtain ⟨middle, read, middleReads⟩ := success le_rfl room
      have byteValue : copyIntoWord 0 [byte] = byte.toNat := by simp [copyIntoWord, leValue]
      have byteBound := UInt8.toNat_lt_size byte
      have accumulated : tmp ||| ((byte.toNat % 128) <<< (7 * i)) % 2 ^ 32 =
          (tmp + 2 ^ (7 * i) * (byte.toNat % 128)) % 2 ^ 32 := @or_shiftLeft_eq _ _ 32 _ below (by omega)
      rw [bytes, List.take_succ_cons, List.take_zero] at read
      by_cases last : byte.toNat < 128
      · refine ⟨middle, ?_, by simpa [vlqScan, last, afterBytes] using middleReads⟩
        rw [Nat.mod_eq_of_lt last] at accumulated
        simp only [getVlqLoop, read, Option.bind_eq_bind, Option.some_bind, byteValue, lowSevenBits,
          Nat.mod_eq_of_lt last, (topBit_eq_zero_iff byteBound).mpr last, if_true, accumulated, vlqScan, if_pos last,
          Option.map_some']
      · have nextBelow : (tmp + 2 ^ (7 * i) * (byte.toNat % 128)) % 2 ^ 32 < 2 ^ (7 * (i + 1)) := by
          have step : 2 ^ (7 * (i + 1)) = 2 ^ (7 * i) * 128 := by rw [Nat.mul_succ, Nat.pow_add]
          calc (tmp + 2 ^ (7 * i) * (byte.toNat % 128)) % 2 ^ 32 ≤ tmp + 2 ^ (7 * i) * (byte.toNat % 128) := Nat.mod_le _ _
            _ < 2 ^ (7 * i) + 2 ^ (7 * i) * 127 := Nat.add_lt_add_of_lt_of_le below
                (Nat.mul_le_mul_left _ (by omega))
            _ = 2 ^ (7 * (i + 1)) := by rw [step]; ring
        have nextBytes : source.drop ((8 * ((position + 7) / 8 + 1) + 7) / 8) = rest := by
          rw [show (8 * ((position + 7) / 8 + 1) + 7) / 8 = (position + 7) / 8 + 1 by omega, ← List.drop_drop,
            bytes, List.drop_one, List.tail_cons]
        obtain ⟨next, loop, nextReads⟩ := inductionHypothesis middleReads nextBelow (by omega)
        rw [nextBytes] at loop nextReads
        refine ⟨next, ?_, ?_⟩
        · simp only [getVlqLoop, read, Option.bind_eq_bind, Option.some_bind, byteValue, lowSevenBits,
            (topBit_eq_zero_iff byteBound).not.mpr last, if_false, accumulated, loop, vlqScan, if_neg last,
            Option.map_map]
          congr 3
          funext value
          simp only [Function.comp, Nat.mod_add_mod]
          congr 1
          rw [Nat.mul_succ, Nat.pow_add]; ring
        · simpa [vlqScan, last, afterBytes_succ] using nextReads

/-- `GetVlqInt` returns the reference decoder's value modulo `2^32`, from the byte
boundary after the cursor. -/
theorem getVlqInt_spec {reader : BitReader} {source : List UInt8} {position : Nat} (reads : reader.Reads source position) :
    ∃ next, reader.getVlqInt =
        some ((vlqScan (source.drop ((position + 7) / 8)) 5).1.map (· % 2 ^ 32), next) ∧
      next.Reads source (afterBytes position (vlqScan (source.drop ((position + 7) / 8)) 5).2) := by
  simpa using @getVlqLoop_spec reader source position reads 0 0 5 (by decide) le_rfl

/-- The `uint32_t` arithmetic of `GetZigZagVlqInt` computes the zigzag decoding. -/
theorem zigzag_arithmetic {u : Nat} (word : u < 2 ^ 32) :
    int32 (((u >>> 1) ^^^ ((-((u &&& 1 : Nat) : Int)) % 2 ^ 32).toNat : Nat)) = zigzagDecode u := by
  rw [show u &&& 1 = u % 2 from Nat.and_pow_two_sub_one_eq_mod u 1, Nat.shiftRight_eq_div_pow, zigzagDecode]
  split
  · next even => rw [even]; simp only [Nat.cast_zero, neg_zero, Int.zero_emod, Int.toNat_zero, Nat.xor_zero]; unfold int32; omega
  · next odd =>
    rw [show u % 2 = 1 by omega, show (-((1 : Nat) : Int)) % 2 ^ 32 = ((2 ^ 32 - 1 : Nat) : Int) by decide,
      Int.toNat_ofNat, xor_two_pow_sub_one (by omega)]
    unfold int32; omega

/-- `GetZigZagVlqInt` returns the zigzag decoding of `GetVlqInt`'s value. -/
theorem getZigZagVlqInt_spec {reader : BitReader} {source : List UInt8} {position : Nat}
    (reads : reader.Reads source position) :
    ∃ next, reader.getZigZagVlqInt =
        some ((vlqScan (source.drop ((position + 7) / 8)) 5).1.map (zigzagDecode <| · % 2 ^ 32), next) ∧
      next.Reads source (afterBytes position (vlqScan (source.drop ((position + 7) / 8)) 5).2) := by
  obtain ⟨next, run, nextReads⟩ := getVlqInt_spec reads
  refine ⟨next, ?_, nextReads⟩
  rw [getZigZagVlqInt, run]
  generalize (vlqScan (List.drop ((position + 7) / 8) source) 5).1 = scanned
  cases scanned with
  | none => simp only [Option.map_none', Option.bind_eq_bind, Option.some_bind]
  | some value =>
    simp only [Option.map_some', Option.bind_eq_bind, Option.some_bind]
    rw [zigzag_arithmetic (Nat.mod_lt value (Nat.two_pow_pos 32))]

/-- Four continuation bytes and a fifth byte `0x10` encode `2^32`, which `GetVlqInt`
accepts and stores as `0`. -/
theorem getVlqInt_truncates :
    vlqScan [0x80, 0x80, 0x80, 0x80, 0x10] 5 = (some (2 ^ 32), 5) ∧
      ∃ reader next, init [0x80, 0x80, 0x80, 0x80, 0x10] 5 0 = some reader ∧
        reader.getVlqInt = some (some 0, next) :=
  ⟨by decide, _, _, rfl, rfl⟩

end BitReader

end Parquet4Seastar.BitUtil
