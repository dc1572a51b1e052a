import XChain.Lib.Words
import XChain.Lib.Text

/-!
# Datasets that are generated exactly

The dataset of `consensus/ethash/algorithm.go`. Its rows are computed from a small cache by
`generateDatasetItem`, and the goroutines of `generateDataset` fill it in any order. They share the
rows among themselves without gap or overlap for every size of the table, but the byte offset of a
row is a `uint32`.

The Keccak function is a parameter. Buffers are read as 32-bit words, as on a little-endian machine.

* **`generated_exactly_iff`**: a dataset is generated exactly if it has at most `2 ^ 32` bytes.
-/

namespace XChain.Ethash

open GoText List UInt32 Nat Or

/-- The hash function of the dataset. -/
structure Keccak where
  keccak512 : Bytes → Bytes
  length_keccak512 : ∀ data, (keccak512 data).length = 64

def maxEpoch : ℕ := 2048

def mixBytes : ℕ := 128

def hashBytes : ℕ := 64

def hashWords : ℕ := 16

def datasetParents : ℕ := 256

def size32 : ℕ := 4294967296

/-- The table of sizes, one for each epoch. -/
structure SizeTables where
  datasetSizes : ℕ → ℕ
  datasetSizes_dvd : ∀ epoch < maxEpoch, mixBytes ∣ datasetSizes epoch
  datasetSizes_le : ∀ epoch < maxEpoch, datasetSizes epoch + mixBytes ≤ 2 ^ 30 + 2 ^ 23 * epoch

/-! ## The items -/

def fnv (a b : UInt32) : UInt32 := a * 0x01000193 ^^^ b

def fnvHash (mix data : List UInt32) : List UInt32 := zipWith fnv mix data

section Algorithm

variable (k : Keccak)

def mixParent (cache : List UInt32) (index : UInt32) (mix : List UInt32) (i : ℕ) : List UInt32 :=
  let rows := UInt32.ofNat (cache.length / hashWords)
  let parent := fnv (index ^^^ UInt32.ofNat i) (mix.getD (i % 16) 0) % rows
  fnvHash mix (cache.drop (parent * UInt32.ofNat hashWords).toNat)

def itemHead (cache : List UInt32) (index : UInt32) : List UInt32 :=
  let rows := UInt32.ofNat (cache.length / hashWords)
  let start := (index % rows * UInt32.ofNat hashWords).toNat
  (cache.getD start 0 ^^^ index) :: (range 15).map fun i => cache.getD (start + (i + 1)) 0

def generateDatasetItem (cache : List UInt32) (index : UInt32) : Bytes :=
  let mix := Words.ofBytes (k.keccak512 (Words.toBytes (itemHead cache index)))
  k.keccak512 (Words.toBytes ((range datasetParents).foldl (mixParent cache index) mix))

def item (cache : List UInt32) (index : UInt32) : List UInt32 :=
  Words.ofBytes (generateDatasetItem k cache index)

structure Slice where
  len : ℕ
  word : ℕ → UInt32

def Slice.make (len : ℕ) : Slice := ⟨len, fun _ => 0⟩

def Slice.copy (s : Slice) (offset : ℕ) (row : List UInt32) : Slice :=
  { s with word := fun i =>
      if offset ≤ i ∧ i < offset + row.length ∧ i < s.len then row.getD (i - offset) 0
      else s.word i }

def Slice.read (s : Slice) (offset n : ℕ) : List UInt32 :=
  (range n).map fun i => s.word (offset + i)

/-- The indices that one of the goroutines of `generateDataset` computes; `size` is in bytes. -/
def segment (size threads id : ℕ) : List ℕ :=
  let batch := (size + hashBytes * threads - 1) / (hashBytes * threads) % size32
  let first := id * batch % size32
  let limit := min ((first + batch) % size32) (size / hashBytes % size32)
  range' first (limit - first)

/-- An order in which the goroutines write the items. -/
structure Schedule (size : ℕ) where
  threads : ℕ
  order : List ℕ
  threads_pos : 0 < threads
  threads_lt : threads < 2 ^ 31
  order_perm : order.Perm ((range threads).flatMap (segment size threads))

/-- An item is written at its place; the byte offset is a `uint32`. -/
def writeItem (cache : List UInt32) (dataset : Slice) (index : ℕ) : Slice :=
  dataset.copy (index * hashBytes % size32 / 4) (item k cache (UInt32.ofNat index))

def generateDataset (cache : List UInt32) (len : ℕ) (schedule : Schedule (4 * len)) : Slice :=
  schedule.order.foldl (writeItem k cache) (Slice.make len)

end Algorithm

/-! ## What the goroutines write -/

section Dataset

variable (k : Keccak) (cache : List UInt32) {index : ℕ} {s : Slice} {len : ℕ}

theorem length_item (index : UInt32) : (item k cache index).length = hashWords :=
  Words.length_ofBytes hashWords _ (k.length_keccak512 _)

def batchOf (size threads : ℕ) : ℕ := (size + hashBytes * threads - 1) / (hashBytes * threads)

theorem batchOf_bounds (size : ℕ) {threads : ℕ} (hpos : 0 < threads) :
    size ≤ hashBytes * (threads * batchOf size threads) ∧
      hashBytes * (threads * batchOf size threads) < size + hashBytes * threads := by
  have hwidth : 0 < hashBytes * threads := mul_pos (by decide) hpos
  have hle := div_mul_le_self (size + hashBytes * threads - 1) (hashBytes * threads)
  have hlt : size + hashBytes * threads - 1 <
      (size + hashBytes * threads - 1) / (hashBytes * threads) * (hashBytes * threads) +
        hashBytes * threads := lt_div_mul_add hwidth
  have hassoc : batchOf size threads * (hashBytes * threads) =
      hashBytes * (threads * batchOf size threads) := by ring
  rw [← hassoc]
  unfold batchOf
  omega

theorem mem_segment {size threads id index : ℕ} (hsize : size ≤ 16 * size32)
    (hlt : threads < 2 ^ 31) (hid : id < threads) : index ∈ segment size threads id ↔
      id * batchOf size threads ≤ index ∧ index < id * batchOf size threads + batchOf size threads ∧
        index < size / hashBytes := by
  obtain ⟨_, hover⟩ := batchOf_bounds size (zero_lt_of_lt hid)
  have hnext : id * batchOf size threads + batchOf size threads ≤
      threads * batchOf size threads := by
    rw [← succ_mul]
    exact mul_le_mul_right _ hid
  -- nothing wraps: all batches together end below 2 ^ 32
  have htotal : threads * batchOf size threads < size32 := by
    unfold hashBytes at hover
    unfold size32 at *
    omega
  unfold segment
  rw [← batchOf]
  simp only [mem_range'_1]
  rw [mod_eq_of_lt (show batchOf size threads < size32 by omega),
    mod_eq_of_lt (show id * batchOf size threads < size32 by omega),
    mod_eq_of_lt (lt_of_le_of_lt hnext htotal),
    mod_eq_of_lt (show size / hashBytes < size32 by unfold hashBytes size32 at *; omega)]
  omega

theorem mem_segments {size threads : ℕ} (hsize : size ≤ 16 * size32) (hpos : 0 < threads)
    (hlt : threads < 2 ^ 31) :
    index ∈ (range threads).flatMap (segment size threads) ↔ index < size / hashBytes := by
  rw [mem_flatMap]
  constructor
  · rintro ⟨id, hid, hmem⟩
    exact ((mem_segment hsize hlt (mem_range.mp hid)).mp hmem).2.2
  · intro hindex
    obtain ⟨hcover, _⟩ := batchOf_bounds size hpos
    have hrow : index < threads * batchOf size threads := by
      unfold hashBytes at hindex hcover
      omega
    have hbatch : 0 < batchOf size threads := Nat.pos_of_mul_pos_left (Nat.zero_lt_of_lt hrow)
    have hid : index / batchOf size threads < threads := Nat.div_lt_of_lt_mul (by rwa [mul_comm])
    refine ⟨index / batchOf size threads, mem_range.mpr hid, ?_⟩
    rw [mem_segment hsize hlt hid]
    exact ⟨div_mul_le_self _ _, lt_div_mul_add hbatch, hindex⟩

def HasRow (s : Slice) (index : ℕ) : Prop :=
  s.read (index * hashWords) hashWords = item k cache (UInt32.ofNat index)

/-- The number of rows that a `uint32` byte offset can reach. -/
def lap : ℕ := 67108864

theorem writeItem_read (hlen : index % lap * hashWords + hashWords ≤ s.len) (r : ℕ) :
    (writeItem k cache s index).read (r * hashWords) hashWords =
      if r = index % lap then item k cache (ofNat index)
      else s.read (r * hashWords) hashWords := by
  have hoffset : index * hashBytes % size32 / 4 = index % lap * hashWords := by
    unfold hashBytes hashWords size32 lap
    omega
  have hitem : (item k cache (ofNat index)).length = hashWords := length_item k cache _
  unfold Slice.read writeItem Slice.copy
  split
  · rename_i hr
    apply ext_getElem
    · simp [hitem]
    · intro i hi hi'
      simp only [length_map, length_range] at hi
      simp only [getElem_map, getElem_range, hoffset, hitem, hr]
      rw [if_pos (by omega), Nat.add_sub_cancel_left, getD_eq_getElem?_getD,
        getElem?_eq_getElem (by omega), Option.getD_some]
  · apply map_congr_left
    intro i hi
    have hi := mem_range.mp hi
    simp only [hoffset, hitem]
    refine if_neg fun h => ?_
    unfold hashWords at *
    omega

theorem writeItem_row (hbytes : index * hashBytes < size32)
    (hlen : index * hashWords + hashWords ≤ s.len) :
    HasRow k cache (writeItem k cache s index) index ∧
      ∀ other, other ≠ index → HasRow k cache s other →
        HasRow k cache (writeItem k cache s index) other := by
  have hlap : index % lap = index := mod_eq_of_lt (by
    unfold hashBytes size32 at hbytes
    unfold lap
    omega)
  have hread : ∀ r, (writeItem k cache s index).read (r * hashWords) hashWords =
      if r = index % lap then item k cache (ofNat index)
      else s.read (r * hashWords) hashWords := writeItem_read k cache (by rwa [hlap])
  rw [hlap] at hread
  unfold HasRow
  refine ⟨by rw [hread, if_pos rfl], fun other hne hrow => ?_⟩
  rw [hread, if_neg hne, hrow]

theorem foldl_writeItem_len (order : List ℕ) (s : Slice) :
    (order.foldl (writeItem k cache) s).len = s.len := by
  induction order generalizing s with
  | nil => rfl
  | cons index order ih => exact ih _

theorem foldl_writeItem (order : List ℕ) : ∀ s : Slice,
    (∀ index ∈ order, index * hashBytes < size32 ∧ index * hashWords + hashWords ≤ s.len) →
    ∀ index, index ∈ order ∨ HasRow k cache s index →
      HasRow k cache (order.foldl (writeItem k cache) s) index := by
  induction order with
  | nil =>
    intro s _ index h
    exact h.resolve_left not_mem_nil
  | cons first order ih =>
    intro s hbound index h
    obtain ⟨hfirst, hother⟩ := writeItem_row k cache
      (hbound first mem_cons_self).1 (hbound first mem_cons_self).2
    refine ih (writeItem k cache s first) (fun index hi =>
      hbound index (mem_cons_of_mem _ hi)) index ?_
    by_cases heq : index = first
    · rw [heq]
      exact inr hfirst
    · rcases h with h | h
      · exact inl ((mem_cons.mp h).resolve_left heq)
      · exact inr (hother index heq h)

/-- **Every row of a generated dataset is the item of its index.** -/
theorem generateDataset_row (schedule : Schedule (4 * len)) (hsize : 4 * len ≤ size32) :
    (generateDataset k cache len schedule).len = len ∧
      ∀ index, index < len / hashWords →
        HasRow k cache (generateDataset k cache len schedule) index := by
  have hmem : ∀ index, index ∈ schedule.order ↔ index < len / hashWords := by
    intro index
    rw [schedule.order_perm.mem_iff, mem_segments (hsize.trans (by decide)) schedule.threads_pos
      schedule.threads_lt]
    unfold hashBytes hashWords
    omega
  refine ⟨foldl_writeItem_len k cache _ _, fun index hi => ?_⟩
  refine foldl_writeItem k cache schedule.order (Slice.make len) (fun other ho => ?_) index
    (inl ((hmem index).mpr hi))
  have hlt := (hmem other).mp ho
  change _ ∧ _ ≤ len
  unfold hashBytes hashWords size32 at *
  omega

end Dataset

/-! ## Datasets of the table -/

/-- Every row holds its item and is written by one goroutine, and every write is within its row. -/
structure Exactly (k : Keccak) (cache : List UInt32) (len : ℕ) (schedule : Schedule (4 * len)) :
    Prop where
  rows : ∀ index < len / hashWords, HasRow k cache (generateDataset k cache len schedule) index
  once : ∀ index < len / hashWords,
    ∃! id, id < schedule.threads ∧ index ∈ segment (4 * len) schedule.threads id
  within : ∀ id < schedule.threads, ∀ index ∈ segment (4 * len) schedule.threads id,
    index < len / hashWords ∧ index * hashBytes % size32 = index * hashBytes

variable {k : Keccak} {cache : List UInt32} {len : ℕ}

/-- Above `2 ^ 32` bytes the row after the first lap is written at the start. -/
theorem exists_lapped (schedule : Schedule (4 * len)) (hsize : 4 * len ≤ 16 * size32)
    (hover : lap < len / hashWords) :
    ∃ id < schedule.threads, lap ∈ segment (4 * len) schedule.threads id ∧
      lap * hashBytes % size32 ≠ lap * hashBytes := by
  have hmem : lap ∈ (range schedule.threads).flatMap (segment (4 * len) schedule.threads) := by
    rw [mem_segments hsize schedule.threads_pos schedule.threads_lt]
    unfold hashBytes
    unfold hashWords at hover
    omega
  obtain ⟨id, hid, hseg⟩ := mem_flatMap.mp hmem
  exact ⟨id, mem_range.mp hid, hseg, by decide⟩

theorem exactly_of_le {schedule : Schedule (4 * len)} (hsize : 4 * len ≤ size32) :
    Exactly k cache len schedule := by
  have hlarge : 4 * len ≤ 16 * size32 := hsize.trans (by decide)
  have hrows : 4 * len / hashBytes = len / hashWords := by
    unfold hashBytes hashWords
    omega
  have hseg : ∀ {id index}, id < schedule.threads →
      (index ∈ segment (4 * len) schedule.threads id ↔ _) :=
    fun hid => mem_segment hlarge schedule.threads_lt hid
  refine ⟨(generateDataset_row k cache schedule hsize).2, fun index hindex => ?_,
    fun id hid index hmem => ?_⟩
  · have hmem := (mem_segments hlarge schedule.threads_pos schedule.threads_lt).mpr (hrows ▸ hindex)
    obtain ⟨id, hid, hmem⟩ := mem_flatMap.mp hmem
    have hid := mem_range.mp hid
    refine ⟨id, ⟨hid, hmem⟩, fun id' ⟨hid', hmem'⟩ => ?_⟩
    rw [hseg hid] at hmem
    rw [hseg hid'] at hmem'
    -- both batches hold the index
    have hdiv := Nat.div_eq_of_lt_le hmem.1 (by rw [Nat.succ_mul]; exact hmem.2.1)
    have hdiv' := Nat.div_eq_of_lt_le hmem'.1 (by rw [Nat.succ_mul]; exact hmem'.2.1)
    exact hdiv'.symm.trans hdiv
  · have hlt := hrows ▸ ((hseg hid).mp hmem).2.2
    refine ⟨hlt, Nat.mod_eq_of_lt ?_⟩
    unfold hashBytes size32 hashWords at *
    omega

/-- **A dataset of the table is generated exactly** if its offsets are `uint32`s, by any number of
goroutines in any order, and no other one is. -/
theorem generated_exactly_iff (k : Keccak) (cache : List UInt32) (tables : SizeTables) {epoch : ℕ}
    (hepoch : epoch < maxEpoch) (schedule : Schedule (4 * (tables.datasetSizes epoch / 4))) :
    Exactly k cache (tables.datasetSizes epoch / 4) schedule ↔
      tables.datasetSizes epoch ≤ size32 := by
  have hdvd := tables.datasetSizes_dvd epoch hepoch
  have hle := tables.datasetSizes_le epoch hepoch
  unfold mixBytes at hdvd hle
  unfold maxEpoch at hepoch
  constructor
  · intro h
    by_contra hover
    obtain ⟨id, hid, hmem, hne⟩ := exists_lapped schedule
      (by unfold size32; omega) (by unfold size32 at hover; unfold lap hashWords; omega)
    exact hne (h.within id hid _ hmem).2
  · intro h
    exact exactly_of_le (by omega)

/-- A hash that can be computed by hand. -/
def padHash : Keccak where
  keccak512 data := (data ++ replicate 64 0).take 64
  length_keccak512 data := by
    rw [length_take, length_append, length_replicate]
    omega

def oneRow : List UInt32 := List.replicate 16 0

/-- The goroutines write one after the other, the last one first. -/
def Schedule.backwards (size : ℕ) : Schedule size where
  threads := 4
  order := (range 4).reverse.flatMap (segment size 4)
  threads_pos := by decide
  threads_lt := by decide
  order_perm := (reverse_perm _).flatMap_right _

def someSizes : SizeTables where
  datasetSizes epoch := if epoch = 385 then 4303349632 else 1073739904 + 2 ^ 23 * epoch
  datasetSizes_dvd epoch _ := by unfold mixBytes; split <;> omega
  datasetSizes_le epoch _ := by unfold mixBytes; split <;> omega

theorem generated_exactly_backwards :
    Exactly padHash oneRow (someSizes.datasetSizes 0 / 4) (Schedule.backwards _) :=
  (generated_exactly_iff padHash oneRow someSizes (by decide) (Schedule.backwards _)).mpr
    (by decide)

/-- In epoch 385 row 67108864 is written over row 0. -/
theorem generated_over : 385 < maxEpoch ∧ ¬ Exactly padHash oneRow
    (someSizes.datasetSizes 385 / 4) (Schedule.backwards _) := by
  refine ⟨by decide, fun h => ?_⟩
  obtain ⟨id, hid, hmem, hne⟩ := exists_lapped
    (Schedule.backwards (4 * (someSizes.datasetSizes 385 / 4))) (by decide) (by decide)
  exact hne (h.within id hid _ hmem).2

end XChain.Ethash
