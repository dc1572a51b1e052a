import Mathlib

/-!
# Sixty-four bit words

A `uint64` is a natural number below `2 ^ 64` here; the operations that can wrap are named.
`big.Int` values are unbounded, their `Uint64()` is the low word of the absolute value.
-/

namespace Word64

def size : ℕ := 18446744073709551616

def low (n : ℕ) : ℕ := n % size

def add (a b : ℕ) : ℕ := (a + b) % size

def sub (a b : ℕ) : ℕ := (a + size - b) % size

def ofInt (i : ℤ) : ℕ := low i.natAbs

def toInt64 (n : ℕ) : ℤ := if n < 9223372036854775808 then (n : ℤ) else (n : ℤ) - size

def addInt64 (a b : ℤ) : ℤ := Int.bmod (a + b) size

def subInt64 (a b : ℤ) : ℤ := Int.bmod (a - b) size

def ofInt64 (i : ℤ) : ℕ := (i % size).toNat

def bigInt64 (i : ℤ) : ℤ := if i < 0 then toInt64 (sub 0 (ofInt i)) else toInt64 (ofInt i)

theorem low_le (n : ℕ) : low n ≤ n := Nat.mod_le _ _

theorem low_of_lt {n : ℕ} (h : n < size) : low n = n := Nat.mod_eq_of_lt h

theorem sub_of_le {a b : ℕ} (h : b ≤ a) (ha : a < size) : sub a b = a - b := by
  unfold sub
  rw [show a + size - b = a - b + size by omega, Nat.add_mod_right, Nat.mod_eq_of_lt (by omega)]

theorem low_succ_sub_one (n : ℕ) : sub (low (n + 1)) 1 = low n := by
  unfold sub low size
  omega

theorem toInt64_of_lt {n : ℕ} (h : n < 9223372036854775808) : toInt64 n = n := if_pos h

theorem ofInt64_natCast {n : ℕ} (h : n < size) : ofInt64 n = n := by
  unfold ofInt64 size at *
  omega

end Word64
