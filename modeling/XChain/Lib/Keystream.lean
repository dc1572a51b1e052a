import XChain.Lib.Text

/-!
# Stream ciphers

A cipher in counter mode is a stream of key bytes; data at position `p` of the stream is combined
with the key bytes from `p` on. How the data is cut into pieces does not matter, and the same key
bytes take the cipher off again.

* `crypt_append`: a piece and the next one; **`crypt_crypt`**: decryption.
-/

namespace Keystream

open List
open GoText (Bytes)

/-- Data at position `p`, combined with the key bytes. -/
def crypt (keys : ℕ → UInt8) : ℕ → Bytes → Bytes
  | _, [] => []
  | p, b :: bs => (b ^^^ keys p) :: crypt keys (p + 1) bs

variable {keys : ℕ → UInt8}

@[simp] theorem length_crypt : ∀ (p : ℕ) (bs : Bytes), (crypt keys p bs).length = bs.length
  | _, [] => rfl
  | p, b :: bs => by rw [crypt, length_cons, length_crypt (p + 1) bs, length_cons]

theorem crypt_append : ∀ (p : ℕ) (bs cs : Bytes),
    crypt keys p (bs ++ cs) = crypt keys p bs ++ crypt keys (p + bs.length) cs
  | _, [], _ => rfl
  | p, b :: bs, cs => by
    rw [cons_append, crypt, crypt, crypt_append (p + 1) bs cs, length_cons,
      Nat.succ_add_eq_add_succ, cons_append]

/-- **The key bytes cancel.** -/
theorem crypt_crypt : ∀ (p : ℕ) (bs : Bytes), crypt keys p (crypt keys p bs) = bs
  | _, [] => rfl
  | p, b :: bs => by
    rw [crypt, crypt, crypt_crypt (p + 1) bs, UInt8.xor_assoc, UInt8.xor_self, UInt8.xor_zero]

end Keystream
