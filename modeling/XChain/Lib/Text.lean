import Mathlib

/-!
# Formatted text as byte strings

A Go string is a sequence of bytes. The verbs used for keys are `%d` on an integer (`decimal`,
`formatInt`), `%12d` (`padLeft`) and `%x` on a byte slice (`hex`). Each is injective, and none
produces the separator `,`, so a record of such fields can be read back field by field
(**`append_comma_inj`**).
-/

namespace GoText

open List Nat UInt32

/-- A Go string, or a byte slice. -/
abbrev Bytes := List UInt8

def comma : UInt8 := 44

def minus : UInt8 := 45

def space : UInt8 := 32

/-! ## Decimal numbers -/

def decimal (n : ℕ) : Bytes := (toDigits 10 n).map Char.toUInt8

def formatInt : ℤ → Bytes
  | .ofNat n => decimal n
  | .negSucc n => minus :: decimal (n + 1)

theorem toUInt8_of_isDigit {c : Char} (h : c.isDigit) :
    48 ≤ c.toUInt8.toNat ∧ c.toUInt8.toNat ≤ 57 ∧ c.toUInt8.toNat = c.toNat := by
  have h' : 48 ≤ c.toNat ∧ c.toNat ≤ 57 := by
    simp only [Char.isDigit, Bool.and_eq_true, decide_eq_true_eq, ge_iff_le] at h
    exact ⟨le_iff_toNat_le.mp h.1, le_iff_toNat_le.mp h.2⟩
  have e : c.toUInt8.toNat = c.toNat := by
    simp only [Char.toUInt8, toNat_toUInt8, Char.toNat] at h' ⊢
    omega
  rw [e]
  exact ⟨h'.1, h'.2, rfl⟩

variable {b : UInt8}

theorem mem_decimal {n : ℕ} (h : b ∈ decimal n) : 48 ≤ b.toNat ∧ b.toNat ≤ 57 := by
  obtain ⟨c, hc, rfl⟩ := mem_map.mp h
  have := toUInt8_of_isDigit (isDigit_of_mem_toDigits (by decide) (by decide) hc)
  exact ⟨this.1, this.2.1⟩

theorem foldl_decimal (n : ℕ) :
    (decimal n).foldl (fun v b => 10 * v + (b.toNat - 48)) 0 = n := by
  rw [decimal, foldl_map]
  refine Eq.trans (foldl_ext _ _ 0 fun v c hc => ?_) ofDigitChars_ten_toDigits
  rw [(toUInt8_of_isDigit (isDigit_of_mem_toDigits (by decide) (by decide) hc)).2.2]
  rfl

theorem decimal_injective : Function.Injective decimal := by
  intro m n h
  rw [← foldl_decimal m, h, foldl_decimal]

theorem mem_formatInt {i : ℤ} (h : b ∈ formatInt i) : 45 ≤ b.toNat := by
  cases i with
  | ofNat n => have := (mem_decimal h).1; omega
  | negSucc n =>
    rcases mem_cons.mp h with rfl | h
    · decide
    · have := (mem_decimal h).1; omega

theorem minus_notMem_decimal (n : ℕ) : minus ∉ decimal n := fun h => by
  have := (mem_decimal h).1
  revert this
  decide

theorem formatInt_injective : Function.Injective formatInt := by
  intro i j h
  cases i with
  | ofNat m =>
    cases j with
    | ofNat n => exact congrArg _ (decimal_injective h)
    | negSucc n =>
      have h' : decimal m = minus :: decimal (n + 1) := h
      exact absurd (h' ▸ mem_cons_self) (minus_notMem_decimal m)
  | negSucc m =>
    cases j with
    | ofNat n =>
      have h' : minus :: decimal (m + 1) = decimal n := h
      exact absurd (h' ▸ mem_cons_self) (minus_notMem_decimal n)
    | negSucc n =>
      have h' := decimal_injective (cons.inj h).2
      rw [succ.inj h']

/-- `%12d`: padding to a width with blanks on the left. -/
def padLeft (w : ℕ) (s : Bytes) : Bytes := replicate (w - s.length) space ++ s

variable {s t : Bytes} {w m n : ℕ}

theorem padLeft_inj {w : ℕ} (hs : space ∉ s) (ht : space ∉ t) (h : padLeft w s = padLeft w t) :
    s = t := by
  have hdrop : ∀ u : Bytes, space ∉ u → (padLeft w u).dropWhile (· == space) = u := by
    intro u hu
    rw [padLeft, dropWhile_append_of_pos fun b hb => by simp [eq_of_mem_replicate hb]]
    cases u with
    | nil => rfl
    | cons b u =>
      rw [dropWhile_cons_of_neg]
      simpa using fun e : b = space => hu (e ▸ mem_cons_self)
  rw [← hdrop s hs, h, hdrop t ht]

theorem space_notMem_formatInt (i : ℤ) : space ∉ formatInt i := fun h => by
  have := mem_formatInt h
  revert this
  decide

/-! ## Hexadecimal -/

def hexDigit (d : ℕ) : UInt8 := if d < 10 then UInt8.ofNat (48 + d) else UInt8.ofNat (87 + d)

def hex (bs : Bytes) : Bytes :=
  bs.flatMap fun b => [hexDigit (b.toNat / 16), hexDigit (b.toNat % 16)]

theorem hex_cons (b : UInt8) (bs : Bytes) :
    hex (b :: bs) = hexDigit (b.toNat / 16) :: hexDigit (b.toNat % 16) :: hex bs := rfl

theorem hexDigit_toNat {d : ℕ} (h : d < 16) :
    (hexDigit d).toNat = if d < 10 then 48 + d else 87 + d := by
  unfold hexDigit
  split_ifs <;> simp <;> omega

theorem hexDigit_inj {d e : ℕ} (hd : d < 16) (he : e < 16) (h : hexDigit d = hexDigit e) :
    d = e := by
  have := congrArg UInt8.toNat h
  rw [hexDigit_toNat hd, hexDigit_toNat he] at this
  split_ifs at this <;> omega

theorem mem_hex {bs : Bytes} (h : b ∈ hex bs) : 48 ≤ b.toNat := by
  obtain ⟨c, _, hc⟩ := mem_flatMap.mp h
  have hlt := c.toNat_lt
  simp only [mem_cons, not_mem_nil, or_false] at hc
  rcases hc with rfl | rfl
  · rw [hexDigit_toNat (by omega)]; split_ifs <;> omega
  · rw [hexDigit_toNat (by omega)]; split_ifs <;> omega

theorem hex_injective : Function.Injective hex := by
  intro s
  induction s with
  | nil =>
    intro t h
    cases t with
    | nil => rfl
    | cons c t => rw [hex_cons] at h; cases h
  | cons b s ih =>
    intro t h
    cases t with
    | nil => rw [hex_cons] at h; cases h
    | cons c t =>
      rw [hex_cons, hex_cons, cons.injEq, cons.injEq] at h
      have hb := b.toNat_lt
      have hc := c.toNat_lt
      have h1 := hexDigit_inj (by omega) (by omega) h.1
      have h2 := hexDigit_inj (by omega) (by omega) h.2.1
      rw [ih h.2.2, UInt8.toNat_inj.mp (show b.toNat = c.toNat by omega)]

/-! ## Order -/

/-- The order of strings: bytewise, a proper initial part first. -/
def bytesLe : Bytes → Bytes → Bool
  | [], _ => true
  | _ :: _, [] => false
  | b :: s, c :: t => decide (b.toNat < c.toNat) || (b.toNat == c.toNat && bytesLe s t)

/-! ## Fields -/

def Field (s : Bytes) : Prop := comma ∉ s

theorem field_of_ge {s : Bytes} (h : ∀ b ∈ s, 45 ≤ b.toNat) : Field s := fun hc => by
  have := h _ hc
  revert this
  decide

theorem field_formatInt (i : ℤ) : Field (formatInt i) := field_of_ge fun _ h => mem_formatInt h

theorem field_hex (bs : Bytes) : Field (hex bs) :=
  field_of_ge fun _ h => le_trans (by decide) (mem_hex h)

/-- **The first field of a record is determined by its text.** -/
theorem append_comma_inj {s t u v : Bytes} (hs : Field s) (ht : Field t)
    (h : s ++ comma :: u = t ++ comma :: v) : s = t ∧ u = v := by
  induction s generalizing t with
  | nil =>
    cases t with
    | nil => exact ⟨rfl, (cons.inj h).2⟩
    | cons c t => exact absurd ((cons.inj h).1 ▸ mem_cons_self) ht
  | cons b s ih =>
    cases t with
    | nil => exact absurd ((cons.inj h).1.symm ▸ mem_cons_self) hs
    | cons c t =>
      obtain ⟨rfl, h'⟩ := cons.inj h
      obtain ⟨rfl, rfl⟩ := ih (fun hm => hs (mem_cons_of_mem _ hm))
        (fun hm => ht (mem_cons_of_mem _ hm)) h'
      exact ⟨rfl, rfl⟩

/-! ## Byte arrays -/

/-- A Go array of bytes. -/
structure FixedBytes (n : ℕ) where
  bytes : Bytes
  length_bytes : bytes.length = n
deriving DecidableEq

/-- `common.Address`. -/
abbrev Address := FixedBytes 20

/-- `common.Hash`, and the `[32]byte` of a SHA-256 digest. -/
abbrev Hash := FixedBytes 32

def FixedBytes.fill {n : ℕ} (b : UInt8) : FixedBytes n := ⟨.replicate n b, length_replicate⟩

-- definitions that test membership in a list name these
instance : LawfulBEq Address := inferInstance

instance : LawfulBEq Hash := inferInstance

theorem FixedBytes.hex_inj {n : ℕ} {a b : FixedBytes n} (h : hex a.bytes = hex b.bytes) :
    a = b := by
  obtain ⟨t, ht⟩ := b
  cases hex_injective h
  rfl

end GoText
