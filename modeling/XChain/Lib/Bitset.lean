import Mathlib

/-!
# Vectors of bits in bytes

A vector of bits is a list of bytes; the first bit of a byte is the most significant one. Bytewise
operations work in place: where the second operand is shorter, the first stays as it is.

* `zipBytes`, with `andBytes` and `orBytes`;
* `bitAt_foldl_andBytes`, `bitAt_foldl_orBytes`: the bits of a list of vectors taken together;
* `anySet_of_bitAt`: a vector with a bit is not zero.
-/

namespace Bitset

open List Nat

def bitAt (bs : List UInt8) (i : ℕ) : Bool := (bs.getD (i / 8) 0).toNat.testBit (7 - i % 8)

/-- An operation on the bytes of two vectors, in the place of the first. -/
def zipBytes (op : UInt8 → UInt8 → UInt8) (a b : List UInt8) : List UInt8 :=
  a.zipWith op b ++ a.drop b.length

def andBytes : List UInt8 → List UInt8 → List UInt8 := zipBytes (· &&& ·)

def orBytes : List UInt8 → List UInt8 → List UInt8 := zipBytes (· ||| ·)

def anySet (bs : List UInt8) : Bool := bs.any (· != 0)

def copyBytes (n : ℕ) (bs : List UInt8) : List UInt8 :=
  bs.take n ++ List.replicate (n - bs.length) 0

theorem testBit_eq_and_shiftLeft (n k : ℕ) : n.testBit k = (n &&& 1 <<< k != 0) := by
  rw [one_shiftLeft, and_two_pow]
  cases n.testBit k <;> simp

variable {bs : List UInt8} {vs : List (List UInt8)} {n : ℕ} {a b : List UInt8}

theorem copyBytes_of_length (h : bs.length = n) : copyBytes n bs = bs := by
  subst h
  simp [copyBytes]

section Zip

variable {op : UInt8 → UInt8 → UInt8} {a b : List UInt8}

theorem length_zipBytes (h : b.length = a.length) : (zipBytes op a b).length = a.length := by
  simp [zipBytes, h]

theorem length_foldl_zipBytes {n : ℕ} (h : ∀ v ∈ vs, v.length = n) :
    ∀ {a : List UInt8}, a.length = n → (vs.foldl (zipBytes op) a).length = n := by
  induction vs with
  | nil => exact fun ha => ha
  | cons v vs ih =>
    intro a ha
    have hv : v.length = a.length := by rw [h v mem_cons_self, ha]
    exact ih (fun w hw => h w (mem_cons_of_mem _ hw)) (by rw [length_zipBytes hv, ha])

theorem bitAt_zipBytes {bop : Bool → Bool → Bool}
    (hop : ∀ x y k, (op x y).toNat.testBit k = bop (x.toNat.testBit k) (y.toNat.testBit k))
    (h0 : bop false false = false) (h : b.length = a.length) (i : ℕ) :
    bitAt (zipBytes op a b) i = bop (bitAt a i) (bitAt b i) := by
  unfold bitAt zipBytes
  rw [h, drop_length, append_nil]
  simp only [getD_eq_getElem?_getD, getElem?_zipWith]
  by_cases hi : i / 8 < a.length
  · have hb : i / 8 < b.length := h ▸ hi
    simp [hi, hb, hop]
  · have hb : ¬ i / 8 < b.length := h ▸ hi
    simp [hi, hb, h0]

end Zip

theorem bitAt_andBytes (h : b.length = a.length) (i : ℕ) :
    bitAt (andBytes a b) i = (bitAt a i && bitAt b i) :=
  bitAt_zipBytes (by simp) rfl h i

theorem bitAt_orBytes (h : b.length = a.length) (i : ℕ) :
    bitAt (orBytes a b) i = (bitAt a i || bitAt b i) :=
  bitAt_zipBytes (by simp) rfl h i

theorem bitAt_foldl_andBytes (i : ℕ) (h : ∀ v ∈ vs, v.length = n) :
    ∀ {a : List UInt8}, a.length = n →
      bitAt (vs.foldl andBytes a) i = (bitAt a i && vs.all (bitAt · i)) := by
  induction vs with
  | nil => simp
  | cons v vs ih =>
    intro a ha
    have hv : v.length = a.length := by rw [h v mem_cons_self, ha]
    have hlen : (andBytes a v).length = n := by rw [andBytes, length_zipBytes hv, ha]
    rw [foldl_cons, ih (fun w hw => h w (mem_cons_of_mem _ hw)) hlen,
      bitAt_andBytes hv, all_cons, Bool.and_assoc]

theorem bitAt_foldl_orBytes (i : ℕ) (h : ∀ v ∈ vs, v.length = n) :
    ∀ {a : List UInt8}, a.length = n →
      bitAt (vs.foldl orBytes a) i = (bitAt a i || vs.any (bitAt · i)) := by
  induction vs with
  | nil => simp
  | cons v vs ih =>
    intro a ha
    have hv : v.length = a.length := by rw [h v mem_cons_self, ha]
    have hlen : (orBytes a v).length = n := by rw [orBytes, length_zipBytes hv, ha]
    rw [foldl_cons, ih (fun w hw => h w (mem_cons_of_mem _ hw)) hlen,
      bitAt_orBytes hv, any_cons, Bool.or_assoc]

theorem bitAt_of_byte_eq_zero {i : ℕ} (h : bs.getD (i / 8) 0 = 0) : bitAt bs i = false := by
  unfold bitAt
  rw [h]
  exact zero_testBit _

@[simp] theorem bitAt_replicate_zero (n i : ℕ) : bitAt (List.replicate n 0) i = false := by
  apply bitAt_of_byte_eq_zero
  rw [getD_eq_getElem?_getD, getElem?_replicate]
  split <;> rfl

theorem bitAt_replicate_ones {n i : ℕ} (h : i / 8 < n) :
    bitAt (List.replicate n 0xff) i = true := by
  have hbyte : (List.replicate n (0xff : UInt8)).getD (i / 8) 0 = 0xff := by
    simp [h]
  have hones : ((0xff : UInt8).toNat).testBit (7 - i % 8) = decide (7 - i % 8 < 8) :=
    testBit_two_pow_sub_one 8 _
  rw [bitAt, hbyte, hones]
  exact decide_eq_true (by omega)

theorem anySet_of_bitAt {i : ℕ} (h : bitAt bs i = true) : anySet bs = true := by
  by_contra hn
  have hzero : bs.getD (i / 8) 0 = 0 := by
    rw [getD_eq_getElem?_getD]
    cases hget : bs[i / 8]? with
    | none => rfl
    | some b =>
      by_contra hb
      exact hn (any_eq_true.mpr ⟨b, mem_of_getElem? hget, by simpa using hb⟩)
  rw [bitAt_of_byte_eq_zero hzero] at h
  cases h

end Bitset
