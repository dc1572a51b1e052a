import XChain.Lib.BigEndian

/-!
# Recursive length prefix: unsigned integers

The RLP encoding of a `uint64`: a number below 128 is its own byte, except zero; any other is the
number of its bytes plus `0x80` and the bytes, without leading zeros. Decoding takes the encoding
off the front of its input and refuses leading zeros and lengths that are not needed.

* **`decode_encode`**: what is encoded is read back and the rest is left; `length_encode_le`.
-/

namespace RlpUint

open Nat BigEndian List
open GoText (Bytes)

def byteCount (n : ℕ) : ℕ :=
  if n < 256 then 1 else if n < 256 ^ 2 then 2 else if n < 256 ^ 3 then 3
  else if n < 256 ^ 4 then 4 else if n < 256 ^ 5 then 5 else if n < 256 ^ 6 then 6
  else if n < 256 ^ 7 then 7 else 8

def encode (n : ℕ) : Bytes :=
  if n = 0 then [128]
  else if n < 128 then [UInt8.ofNat n]
  else UInt8.ofNat (128 + byteCount n) :: toBytes (byteCount n) n

/-- The `uint64` at the front of the input, and the rest of the input. -/
def decode : Bytes → Option (ℕ × Bytes)
  | [] => none
  | b :: rest =>
    if b < 128 then (if b = 0 then none else some (b.toNat, rest))
    else if b ≤ 136 then
      let k := b.toNat - 128
      if rest.length < k then none
      else match rest.take k with
        | [] => some (0, rest)
        | c :: _ =>
          -- not canonical: a leading zero, or a single byte that stands for itself
          if c = 0 ∨ (k = 1 ∧ c < 128) then none
          else some (toNat (rest.take k), rest.drop k)
    else none

theorem byteCount_spec {n : ℕ} (h : n < 2 ^ 64) (h0 : n ≠ 0) :
    1 ≤ byteCount n ∧ byteCount n ≤ 8 ∧ 256 ^ (byteCount n - 1) ≤ n ∧ n < 256 ^ byteCount n := by
  unfold byteCount
  split_ifs <;> simp only [reduceSub, reducePow] at * <;> omega

theorem length_encode_le (n : ℕ) (h : n < 2 ^ 64) : (encode n).length ≤ 9 := by
  unfold encode
  split_ifs with hzero
  · exact le_of_ble_eq_true rfl
  · exact le_of_ble_eq_true rfl
  · rw [length_cons, length_toBytes]
    exact succ_le_succ (byteCount_spec h hzero).2.1

open UInt8

theorem toBytes_eq_cons {k n : ℕ} (hlow : 256 ^ k ≤ n) (hhigh : n < 256 ^ (k + 1)) :
    ∃ c tail, toBytes (k + 1) n = c :: tail ∧ c.toNat = n / 256 ^ k ∧ c ≠ 0 := by
  have hdiv : n / 256 ^ k < 256 := by
    rw [Nat.div_lt_iff_lt_mul (Nat.pow_pos (by decide)), ← pow_succ']
    exact hhigh
  have hpos : 0 < n / 256 ^ k := Nat.div_pos hlow (Nat.pow_pos (by decide))
  have hbyte : (ofNat (n / 256 ^ k)).toNat = n / 256 ^ k := by
    rw [toNat_ofNat', mod_eq_of_lt hdiv]
  refine ⟨ofNat (n / 256 ^ k), toBytes k n, ?_, hbyte, fun hzero => ?_⟩
  · rw [add_comm k 1, toBytes_add]
    rfl
  · rw [hzero] at hbyte
    exact absurd hbyte hpos.ne

/-- **Round trip.** -/
theorem decode_encode (n : ℕ) (h : n < 2 ^ 64) (rest : Bytes) :
    decode (encode n ++ rest) = some (n, rest) := by
  unfold encode
  by_cases hzero : n = 0
  · have hcount : (128 : UInt8).toNat - 128 = 0 := by decide
    rw [if_pos hzero, hzero, singleton_append, decode, if_neg (by decide), if_pos (by decide)]
    rw [hcount, if_neg (not_lt_zero _), take_zero]
  rw [if_neg hzero]
  by_cases hsmall : n < 128
  · have hbyte : (ofNat n).toNat = n := by
      rw [toNat_ofNat', mod_eq_of_lt (by omega)]
    rw [if_pos hsmall, singleton_append, decode, if_pos, if_neg, hbyte]
    · intro heq
      rw [heq] at hbyte
      exact hzero hbyte.symm
    · rw [lt_iff_toNat_lt, hbyte]
      exact hsmall
  · rw [if_neg hsmall, cons_append]
    obtain ⟨hpos, hle, hlow, hhigh⟩ := byteCount_spec h hzero
    obtain ⟨k, hk⟩ : ∃ k, byteCount n = k + 1 := ⟨byteCount n - 1, by omega⟩
    rw [hk] at hpos hle hlow hhigh ⊢
    rw [Nat.add_sub_cancel] at hlow
    obtain ⟨c, tail, htail, hc, hc0⟩ := toBytes_eq_cons hlow hhigh
    have hbyte : (ofNat (128 + (k + 1))).toNat = 128 + (k + 1) := by
      rw [toNat_ofNat', mod_eq_of_lt (by omega)]
    have htake : (toBytes (k + 1) n ++ rest).take (k + 1) = toBytes (k + 1) n :=
      take_left' (length_toBytes _ _)
    rw [decode, if_neg, if_pos, hbyte, Nat.add_sub_cancel_left]
    · rw [if_neg, htake, htail]
      · dsimp only
        rw [if_neg, ← htail, toNat_toBytes_of_lt hhigh, drop_left' (length_toBytes _ _)]
        rintro (h0 | ⟨hone, hlt⟩)
        · exact hc0 h0
        · obtain rfl : k = 0 := by omega
          rw [lt_iff_toNat_lt, hc, pow_zero, Nat.div_one] at hlt
          exact hsmall hlt
      · rw [length_append, length_toBytes]
        omega
    · rw [le_iff_toNat_le, hbyte]
      show 128 + (k + 1) ≤ 136
      omega
    · rw [lt_iff_toNat_lt, hbyte]
      show ¬ 128 + (k + 1) < 128
      omega

end RlpUint
