import Mathlib

/-!
# Words in byte strings

A buffer of 32-bit words read as bytes and back, little endian.

* **`length_ofBytes`**: how many words a byte string of whole words has.
-/

namespace Words

open List

def bytesOf (w : UInt32) : List UInt8 :=
  [w.toUInt8, (w >>> 8).toUInt8, (w >>> 16).toUInt8, (w >>> 24).toUInt8]

def wordOf (a b c d : UInt8) : UInt32 :=
  a.toUInt32 + b.toUInt32 * 256 + c.toUInt32 * 65536 + d.toUInt32 * 16777216

def toBytes (ws : List UInt32) : List UInt8 := ws.flatMap bytesOf

/-- The words of a byte string; fewer than four bytes at the end are no word. -/
def ofBytes : List UInt8 → List UInt32
  | a :: b :: c :: d :: rest => wordOf a b c d :: ofBytes rest
  | _ => []

/-- **Four bytes are a word.** -/
theorem length_ofBytes (n : ℕ) :
    ∀ bs : List UInt8, bs.length = 4 * n → (ofBytes bs).length = n := by
  induction n with
  | zero =>
    intro bs h
    rw [length_eq_zero_iff.mp h]
    rfl
  | succ n ih =>
    intro bs h
    match bs, h with
    | a :: b :: c :: d :: rest, h =>
      change (ofBytes rest).length + 1 = n + 1
      rw [ih rest (by simp only [length_cons] at h; omega)]
    | [], h => simp at h
    | [_], h => simp at h; omega
    | [_, _], h => simp at h; omega
    | [_, _, _], h => simp at h; omega

end Words
