import XChain.Lib.Text

/-!
# Numbers as big-endian bytes

* **`toNat_toBytes`**: reading back, modulo `256 ^ k`;
* `toNat_cons`, **`xor_toNat_cons`**, `size_mul_pow_add`: the first byte, under XOR, and in the
  length of the binary representation.
-/

namespace BigEndian

open List Nat
open GoText (Bytes)

def toBytes : ℕ → ℕ → Bytes
  | 0, _ => []
  | k + 1, n => toBytes k (n / 256) ++ [UInt8.ofNat n]

def toNat (bs : Bytes) : ℕ := bs.foldl (fun n b => 256 * n + b.toNat) 0

@[simp] theorem length_toBytes : ∀ k n : ℕ, (toBytes k n).length = k
  | 0, _ => rfl
  | k + 1, n => by rw [toBytes, length_append, length_toBytes k, length_singleton]

theorem toNat_concat (bs : Bytes) (b : UInt8) : toNat (bs ++ [b]) = 256 * toNat bs + b.toNat := by
  unfold toNat
  rw [foldl_append]
  rfl

/-- **Reading back a number.** -/
theorem toNat_toBytes : ∀ k n : ℕ, toNat (toBytes k n) = n % 256 ^ k
  | 0, n => (mod_one n).symm
  | k + 1, n => by
    rw [toBytes, toNat_concat, toNat_toBytes k, UInt8.toNat_ofNat', pow_succ' 256 k, mod_mul]
    exact add_comm _ _

theorem toNat_toBytes_of_lt {k n : ℕ} (h : n < 256 ^ k) : toNat (toBytes k n) = n := by
  rw [toNat_toBytes, mod_eq_of_lt h]

theorem toBytes_add (n : ℕ) : ∀ j k : ℕ, toBytes (j + k) n = toBytes j (n / 256 ^ k) ++ toBytes k n
  | j, 0 => by rw [pow_zero, Nat.div_one, toBytes, append_nil, Nat.add_zero]
  | j, k + 1 => by
    rw [← Nat.add_assoc, toBytes, toBytes_add (n / 256) j k, toBytes, append_assoc,
      Nat.div_div_eq_div_mul, pow_succ']

theorem drop_toBytes (j k n : ℕ) : (toBytes (j + k) n).drop j = toBytes k n := by
  rw [toBytes_add, drop_left' (length_toBytes _ _)]

theorem toNat_cons (b : UInt8) (bs : Bytes) :
    toNat (b :: bs) = 256 ^ bs.length * b.toNat + toNat bs := by
  have hfold : ∀ (bs : Bytes) (n : ℕ), bs.foldl (fun n b => 256 * n + b.toNat) n =
      256 ^ bs.length * n + toNat bs := by
    intro bs
    induction bs with
    | nil => intro n; simp [toNat]
    | cons c bs ih =>
      intro n
      have hc : toNat (c :: bs) = 256 ^ bs.length * (256 * 0 + c.toNat) + toNat bs := ih _
      rw [foldl_cons, ih, hc, length_cons, pow_succ]
      ring
  have hb : toNat (b :: bs) = 256 ^ bs.length * (256 * 0 + b.toNat) + toNat bs := hfold bs _
  rwa [mul_zero, zero_add] at hb

theorem toNat_lt : ∀ bs : Bytes, toNat bs < 256 ^ bs.length
  | [] => one_pos
  | b :: bs => by
    have ih := toNat_lt bs
    have hb : b.toNat < 256 := b.toNat_lt
    rw [toNat_cons, length_cons, pow_succ]
    calc 256 ^ bs.length * b.toNat + toNat bs < 256 ^ bs.length * b.toNat + 256 ^ bs.length := by
          omega
      _ = 256 ^ bs.length * (b.toNat + 1) := by ring
      _ ≤ 256 ^ bs.length * 256 := mul_le_mul_left _ hb

/-- **XOR byte by byte.** -/
theorem xor_toNat_cons {as bs : Bytes} (a b : UInt8) (h : as.length = bs.length) :
    toNat (a :: as) ^^^ toNat (b :: bs) =
      256 ^ bs.length * (a ^^^ b).toNat + (toNat as ^^^ toNat bs) := by
  have has := toNat_lt as
  have hbs := toNat_lt bs
  rw [toNat_cons, toNat_cons, UInt8.toNat_xor, h]
  rw [h] at has
  rw [show 256 = 2 ^ 8 from rfl, ← pow_mul] at has hbs ⊢
  refine eq_of_testBit_eq fun i => ?_
  rw [testBit_xor, testBit_two_pow_mul_add _ has, testBit_two_pow_mul_add _ hbs,
    testBit_two_pow_mul_add _ (xor_lt_two_pow has hbs), testBit_xor, testBit_xor]
  split <;> rfl

theorem size_mul_pow_add {c z k : ℕ} (hc : c ≠ 0) (hz : z < 2 ^ k) :
    size (2 ^ k * c + z) = size c + k := by
  apply le_antisymm
  · rw [size_le, pow_add]
    have hlt : c + 1 ≤ 2 ^ size c := lt_size_self c
    calc 2 ^ k * c + z < 2 ^ k * c + 2 ^ k := by omega
      _ = (c + 1) * 2 ^ k := by ring
      _ ≤ 2 ^ size c * 2 ^ k := mul_le_mul_right _ hlt
  · obtain ⟨m, hm⟩ := exists_eq_succ_of_ne_zero (size_pos.mpr (pos_of_ne_zero hc)).ne'
    have hle : 2 ^ m ≤ c := lt_size.mp (hm ▸ lt_succ_self m)
    rw [hm, succ_add, succ_le_iff, lt_size, pow_add]
    calc 2 ^ m * 2 ^ k ≤ c * 2 ^ k := mul_le_mul_right _ hle
      _ ≤ 2 ^ k * c + z := by rw [mul_comm]; exact le_add_right _ _

end BigEndian
