import XChain.Lib.Bitset
import XChain.Lib.Text

/-!
# Matching blocks in the bloom bits

`core/bloombits/matcher.go`. The vector of a bit says for each block of a section whether its bloom
has the bit. A matcher is made of groups of clauses, a clause is given by three bits. A section
passes through the groups one after the other; each one takes the AND of the bits of a clause, the
OR of its clauses and the AND with what is left, and drops the section if nothing is.

The goroutines between which sections are passed are in `MatcherSession`.

* **`start_eq`**: the blocks of the range that every group selects, in order.
-/

namespace XChain.Bloombits

open Bitset Nat GoText

abbrev BloomIndexes := Vector ℕ 3

def calcBloomIndexes (keccak : List UInt8 → Hash) (b : List UInt8) : BloomIndexes :=
  let h := (keccak b).bytes
  Vector.ofFn fun i => ((h.getD (2 * i) 0).toNat <<< 8 &&& 2047) + (h.getD (2 * i + 1) 0).toNat

open List

structure Matcher where
  sectionSize : ℕ
  filters : List (List BloomIndexes)

def newMatcher (keccak : List UInt8 → Hash) (sectionSize : ℕ) (filters : List (List (List UInt8))) :
    Matcher :=
  ⟨sectionSize, filters.map fun filter => filter.map (calcBloomIndexes keccak)⟩

namespace Matcher

variable (m : Matcher) (index : ℕ → ℕ → List UInt8)

def andVector : List (List UInt8) → List UInt8
  | [] => []
  | data :: rest => rest.foldl andBytes (copyBytes (m.sectionSize / 8) data)

def orVector : List (List UInt8) → List UInt8
  | [] => replicate (m.sectionSize / 8) 0
  | v :: vs => vs.foldl orBytes v

def subMatch (bloom : List BloomIndexes) (sec : ℕ) (bitset : List UInt8) : Option (List UInt8) :=
  let clauses := bloom.map fun bits => m.andVector (bits.toList.map fun bit => index bit sec)
  let vector := andBytes (m.orVector clauses) bitset
  if anySet vector = true then some vector else none

def runSection (sec : ℕ) : Option (List UInt8) :=
  m.filters.foldlM (fun bitset bloom => m.subMatch index bloom sec bitset)
    (replicate (m.sectionSize / 8) 0xff)

def scan (bitset : List UInt8) (sectionStart last : ℕ) : ℕ → ℕ → List ℕ
  | 0, _ => []
  | fuel + 1, i =>
    if last < i then []
    else
      let next := bitset.getD ((i - sectionStart) / 8) 0
      if next = 0 then scan bitset sectionStart last fuel (if i % 8 = 0 then i + 8 else i + 1)
      else if next.toNat &&& 1 <<< (7 - i % 8) ≠ 0 then
        i :: scan bitset sectionStart last fuel (i + 1)
      else scan bitset sectionStart last fuel (i + 1)

def sectionMatches (first last sec : ℕ) : List ℕ :=
  match m.runSection index sec with
  | none => []
  | some bitset =>
    let sectionStart := sec * m.sectionSize
    let lower := if sectionStart < first then first else sectionStart
    let upper := if last < sectionStart + m.sectionSize - 1 then last
      else sectionStart + m.sectionSize - 1
    scan bitset sectionStart upper (upper + 1 - lower) lower

def start (first last : ℕ) : List ℕ :=
  (range' (first / m.sectionSize) (last / m.sectionSize + 1 - first / m.sectionSize)).flatMap
    (m.sectionMatches index first last)

/-- Every group has a clause with all its bits in the index. -/
def selects (n : ℕ) : Bool :=
  m.filters.all fun bloom => bloom.any fun bits =>
    bits.toList.all fun bit => bitAt (index bit (n / m.sectionSize)) (n % m.sectionSize)

/-- The vectors of a section that the matcher asks for are as long as the section. -/
def Sized (sec : ℕ) : Prop :=
  ∀ bloom ∈ m.filters, ∀ bits ∈ bloom, ∀ bit ∈ bits.toList,
    (index bit sec).length = m.sectionSize / 8

variable {m index} {data : List (List UInt8)} {vs : List (List UInt8)} {bitset : List UInt8}
  {sec : ℕ}

/-! ## The groups -/

theorem andVector_spec (hne : data ≠ []) (h : ∀ d ∈ data, d.length = m.sectionSize / 8) :
    (m.andVector data).length = m.sectionSize / 8 ∧
      ∀ i, bitAt (m.andVector data) i = data.all (bitAt · i) := by
  cases data with
  | nil => exact absurd rfl hne
  | cons d rest =>
    obtain ⟨hd, hrest⟩ := forall_mem_cons.mp h
    rw [andVector, copyBytes_of_length hd]
    exact ⟨length_foldl_zipBytes hrest hd, fun i => bitAt_foldl_andBytes i hrest hd⟩

theorem orVector_spec (h : ∀ v ∈ vs, v.length = m.sectionSize / 8) :
    (m.orVector vs).length = m.sectionSize / 8 ∧
      ∀ i, bitAt (m.orVector vs) i = vs.any (bitAt · i) := by
  cases vs with
  | nil => exact ⟨length_replicate, bitAt_replicate_zero _⟩
  | cons v vs =>
    obtain ⟨hv, hvs⟩ := forall_mem_cons.mp h
    exact ⟨length_foldl_zipBytes hvs hv, fun i => bitAt_foldl_orBytes i hvs hv⟩

def matched (bitset : Option (List UInt8)) (i : ℕ) : Bool := bitset.any (bitAt · i)

theorem subMatch_spec {bloom : List BloomIndexes} (hlen : bitset.length = m.sectionSize / 8)
    (h : ∀ bits ∈ bloom, ∀ bit ∈ bits.toList, (index bit sec).length = m.sectionSize / 8) :
    (∀ v ∈ m.subMatch index bloom sec bitset, v.length = m.sectionSize / 8) ∧
      ∀ i, matched (m.subMatch index bloom sec bitset) i =
        (bitAt bitset i && bloom.any fun bits => bits.toList.all fun bit =>
          bitAt (index bit sec) i) := by
  have hne : ∀ bits : BloomIndexes, (bits.toList.map fun bit => index bit sec) ≠ [] := by
    intro bits hnil
    have := congrArg length hnil
    simp at this
  have hdata : ∀ bits ∈ bloom, ∀ d ∈ bits.toList.map fun bit => index bit sec,
      d.length = m.sectionSize / 8 := by
    intro bits hbits d hd
    obtain ⟨bit, hbit, rfl⟩ := mem_map.mp hd
    exact h bits hbits bit hbit
  have hclauses : ∀ v ∈ bloom.map fun bits =>
      m.andVector (bits.toList.map fun bit => index bit sec), v.length = m.sectionSize / 8 := by
    intro v hv
    obtain ⟨bits, hbits, rfl⟩ := mem_map.mp hv
    exact (andVector_spec (hne bits) (hdata bits hbits)).1
  obtain ⟨hor, hany⟩ := orVector_spec hclauses
  have hbit : ∀ i, bitAt (andBytes (m.orVector (bloom.map fun bits =>
      m.andVector (bits.toList.map fun bit => index bit sec))) bitset) i =
      (bitAt bitset i && bloom.any fun bits => bits.toList.all fun bit =>
        bitAt (index bit sec) i) := by
    intro i
    rw [bitAt_andBytes (by rw [hor, hlen]), hany, Bool.and_comm, any_map]
    congr 1
    rw [Bool.eq_iff_iff, any_eq_true, any_eq_true]
    refine exists_congr fun bits => and_congr_right fun hbits => ?_
    rw [Function.comp_apply, (andVector_spec (hne bits) (hdata bits hbits)).2, all_map]
    rfl
  unfold subMatch
  dsimp only
  split
  · refine ⟨?_, fun i => hbit i⟩
    intro v hv
    cases hv
    exact (length_zipBytes (by rw [hor, hlen])).trans hor
  · rename_i hzero
    refine ⟨fun v hv => absurd hv (by simp), fun i => ?_⟩
    rw [← hbit, matched, Option.any_none, eq_comm, Bool.eq_false_iff]
    exact fun hset => hzero (anySet_of_bitAt hset)

theorem matched_foldlM (i : ℕ) {filters : List (List BloomIndexes)} (h : ∀ bloom ∈ filters, ∀ bits ∈
      bloom, ∀ bit ∈ bits.toList, (index bit sec).length = m.sectionSize / 8) :
    ∀ {bitset : List UInt8}, bitset.length = m.sectionSize / 8 →
      matched (filters.foldlM (fun bitset bloom => m.subMatch index bloom sec bitset) bitset) i =
        (bitAt bitset i && filters.all fun bloom => bloom.any fun bits =>
          bits.toList.all fun bit => bitAt (index bit sec) i) := by
  induction filters with
  | nil => simp [matched]
  | cons bloom filters ih =>
    intro bitset hlen
    obtain ⟨hlens, hmatched⟩ := subMatch_spec hlen (h bloom mem_cons_self)
    rw [foldlM_cons, all_cons, ← Bool.and_assoc, ← hmatched]
    cases hsub : m.subMatch index bloom sec bitset with
    | none => simp [matched]
    | some v =>
      exact ih (fun b hb => h b (mem_cons_of_mem _ hb)) (hlens v hsub)

theorem matched_runSection (h8 : 8 ∣ m.sectionSize) {n : ℕ} (hpos : 0 < m.sectionSize)
    (h : m.Sized index (n / m.sectionSize)) :
    matched (m.runSection index (n / m.sectionSize)) (n % m.sectionSize) = m.selects index n := by
  have hbyte : n % m.sectionSize / 8 < m.sectionSize / 8 :=
    div_lt_div_of_lt_of_dvd h8 (mod_lt n hpos)
  rw [runSection, matched_foldlM _ h length_replicate, bitAt_replicate_ones hbyte, Bool.true_and]
  rfl

/-! ## The numbers -/

theorem filter_range'_skip {p : ℕ → Bool} (i c k : ℕ)
    (h : ∀ n, i ≤ n → n < i + k → p n = false) :
    (range' i c).filter p = (range' (i + k) (c - k)).filter p := by
  have hnil : ∀ c ≤ k, (range' i c).filter p = [] := by
    intro c hc
    rw [filter_eq_nil_iff]
    intro n hn
    have := mem_range'_1.mp hn
    simp [h n this.1 (by omega)]
  rcases le_total c k with hc | hc
  · rw [hnil c hc, Nat.sub_eq_zero_of_le hc]
    rfl
  · obtain ⟨d, rfl⟩ := Nat.exists_eq_add_of_le hc
    rw [← range'_append_1, filter_append, hnil k le_rfl, Nat.add_sub_cancel_left]
    rfl

/-- **The blocks of a section that are sent.** -/
theorem scan_eq {sectionStart last : ℕ} (h8 : 8 ∣ sectionStart) :
    ∀ {fuel i : ℕ}, sectionStart ≤ i → last + 1 - i ≤ fuel →
      scan bitset sectionStart last fuel i =
        (range' i (last + 1 - i)).filter fun n => bitAt bitset (n - sectionStart) := by
  intro fuel
  induction fuel with
  | zero =>
    intro i _ hfuel
    rw [le_zero.mp hfuel]
    rfl
  | succ fuel ih =>
    intro i hi hfuel
    rw [scan]
    split
    · rename_i hlast
      rw [Nat.sub_eq_zero_of_le hlast]
      rfl
    rename_i hlast
    have hstep := ih (i := i + 1) (by omega) (by omega)
    have hmod : (i - sectionStart) % 8 = i % 8 := by omega
    dsimp only
    split
    · rename_i hzero
      split
      · -- the byte starts here and has no bit
        rename_i hi8
        rw [ih (by omega) (by omega), filter_range'_skip i _ 8 ?_]
        · congr 2
        · intro n hn hlt
          apply bitAt_of_byte_eq_zero
          rwa [show (n - sectionStart) / 8 = (i - sectionStart) / 8 by omega]
      · rw [hstep, filter_range'_skip i _ 1 ?_]
        · rfl
        · intro n hn hlt
          apply bitAt_of_byte_eq_zero
          rwa [show n = i by omega]
    · have hbit : bitAt bitset (i - sectionStart) =
          ((bitset.getD ((i - sectionStart) / 8) 0).toNat &&& 1 <<< (7 - i % 8) != 0) := by
        rw [bitAt, testBit_eq_and_shiftLeft, hmod]
      have hcons : range' i (last + 1 - i) = i :: range' (i + 1) (last + 1 - (i + 1)) := by
        rw [show last + 1 - i = last + 1 - (i + 1) + 1 by omega, range'_succ]
      rw [hcons, filter_cons, hbit, hstep]
      simp only [bne_iff_ne]

theorem range'_append_of_le {a b c : ℕ} (hab : a ≤ b) (hbc : b ≤ c) :
    range' a (b - a) ++ range' b (c - b) = range' a (c - a) := by
  obtain ⟨x, rfl⟩ := Nat.exists_eq_add_of_le hab
  obtain ⟨y, rfl⟩ := Nat.exists_eq_add_of_le hbc
  rw [Nat.add_sub_cancel_left, Nat.add_sub_cancel_left, range'_append_1, Nat.add_assoc,
    Nat.add_sub_cancel_left]

theorem flatMap_sections {size : ℕ} (first last : ℕ) (hpos : 0 < size) :
    ∀ k, (range' (first / size) k).flatMap (fun sec =>
        range' (max first (sec * size)) (min (last + 1) ((sec + 1) * size) -
          max first (sec * size))) =
      range' first (min (last + 1) ((first / size + k) * size) - first) := by
  have hlow : first / size * size ≤ first := div_mul_le_self _ _
  have hhigh : first < (first / size + 1) * size := lt_mul_of_div_lt (lt_succ_self _) hpos
  intro k
  induction k with
  | zero =>
    rw [Nat.sub_eq_zero_of_le ((min_le_right _ _).trans (by rw [Nat.add_zero]; exact hlow))]
    rfl
  | succ k ih =>
    have hnext : (first / size + k + 1) * size = (first / size + k) * size + size := succ_mul _ _
    rw [range'_concat, flatMap_append, ih, flatMap_singleton, one_mul, ← add_assoc, hnext]
    generalize hs : (first / size + k) * size = s
    rcases Nat.eq_zero_or_pos k with rfl | hk
    · have hsf : s ≤ first := by rw [← hs]; exact hlow
      rw [Nat.sub_eq_zero_of_le ((min_le_right _ _).trans hsf), max_eq_left hsf]
      rfl
    · have hfs : first < s := by
        rw [← hs]
        exact hhigh.trans_le (mul_le_mul_right _ (by omega))
      rw [max_eq_right hfs.le]
      rcases le_total (last + 1) s with hl | hl
      · rw [min_eq_left hl, min_eq_left (by omega), Nat.sub_eq_zero_of_le hl]
        exact append_nil _
      · rw [min_eq_right hl]
        exact range'_append_of_le hfs.le (le_min hl (le_add_right _ _))

theorem sectionMatches_eq (h8 : 8 ∣ m.sectionSize) (hpos : 0 < m.sectionSize) {first last sec : ℕ}
    (h : m.Sized index sec) :
    m.sectionMatches index first last sec =
      (range' (max first (sec * m.sectionSize)) (min (last + 1) ((sec + 1) * m.sectionSize) -
        max first (sec * m.sectionSize))).filter (m.selects index) := by
  have hnext : (sec + 1) * m.sectionSize = sec * m.sectionSize + m.sectionSize := succ_mul _ _
  -- a number of the section is its start and an offset
  have hselects : ∀ n ∈ range' (max first (sec * m.sectionSize))
      (min (last + 1) ((sec + 1) * m.sectionSize) - max first (sec * m.sectionSize)),
      matched (m.runSection index sec) (n - sec * m.sectionSize) = m.selects index n := by
    intro n hn
    have hle : sec * m.sectionSize ≤ n := by have := mem_range'_1.mp hn; omega
    have hlt : n < (sec + 1) * m.sectionSize := by have := mem_range'_1.mp hn; omega
    have hdiv : n / m.sectionSize = sec := Nat.div_eq_of_lt_le hle hlt
    have hmod : n % m.sectionSize = n - sec * m.sectionSize := by
      have := div_add_mod' n m.sectionSize
      rw [hdiv] at this
      omega
    rw [← matched_runSection h8 hpos (hdiv.symm ▸ h), hdiv, hmod]
  rw [← filter_congr hselects]
  unfold sectionMatches
  split
  · rename_i hnone
    rw [hnone, eq_comm, filter_eq_nil_iff]
    intro n _
    simp [matched]
  · rename_i bitset hsome
    rw [hsome]
    have hlower : (if sec * m.sectionSize < first then first else sec * m.sectionSize) =
        max first (sec * m.sectionSize) := by
      split <;> omega
    have hupper : (if last < sec * m.sectionSize + m.sectionSize - 1 then last
        else sec * m.sectionSize + m.sectionSize - 1) + 1 =
        min (last + 1) ((sec + 1) * m.sectionSize) := by
      split <;> omega
    rw [scan_eq (Dvd.dvd.mul_left h8 sec) (by rw [hlower]; exact le_max_right _ _) le_rfl, hlower,
      hupper]
    rfl

/-- **The matcher finds the selected blocks of a range**, each once and in order. -/
theorem start_eq (h8 : 8 ∣ m.sectionSize) (hpos : 0 < m.sectionSize) {first last : ℕ}
    (h : ∀ sec ≤ last / m.sectionSize, m.Sized index sec) :
    m.start index first last = (range' first (last + 1 - first)).filter (m.selects index) := by
  have hlast : last + 1 ≤ (last / m.sectionSize + 1) * m.sectionSize :=
    lt_mul_of_div_lt (lt_succ_self _) hpos
  have hpieces := flatMap_sections first last hpos
    (last / m.sectionSize + 1 - first / m.sectionSize)
  have hcount : min (last + 1) ((first / m.sectionSize +
      (last / m.sectionSize + 1 - first / m.sectionSize)) * m.sectionSize) - first =
      last + 1 - first := by
    rcases lt_or_ge last first with hlt | hle
    · rw [Nat.sub_eq_zero_of_le ((min_le_left _ _).trans hlt), Nat.sub_eq_zero_of_le hlt]
    · have hdiv : first / m.sectionSize ≤ last / m.sectionSize := Nat.div_le_div_right hle
      rw [Nat.add_sub_cancel' (Nat.le_succ_of_le hdiv), min_eq_left hlast]
  rw [hcount] at hpieces
  rw [← hpieces, filter_flatMap]
  refine flatMap_congr ?_
  intro sec hsec
  have hle : sec ≤ last / m.sectionSize := by have := mem_range'_1.mp hsec; omega
  exact sectionMatches_eq h8 hpos (h sec hle)

end Matcher

end XChain.Bloombits
