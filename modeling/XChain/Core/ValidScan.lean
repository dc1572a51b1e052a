import XChain.Lib.Word

/-!
# The scan for a block with a valid state

`BinaryScanForValidBlock` finds the height of the chain by a binary search and then goes down from
there. It does not stop at the first block with a large state, and on a short chain its lower bound
wraps.

* **`scan_exact_iff`**: the answer is the newest such block only if there is no choice.
-/

namespace XChain.ValidScan

open Word64 Nat Option

/-- A contiguous chain: the node counts of the states that are there, and whether the iterator takes
a missing state (as one without nodes) or dereferences it. -/
structure Chain where
  height : ℕ
  nodes : ℕ → Option ℕ
  nilSafe : Bool

def stateThreshold : ℕ := 10000
def blockDelay : ℕ := 10000

variable (c : Chain)

/-- The first loop, of at most `fuel` rounds. -/
def search : ℕ → ℕ → ℕ → ℕ → ℕ → Option ℕ
  | 0, _, _, _, _ => none
  | fuel + 1, low, high, prevMid, blockFound =>
    let mid := (low + high) / 2
    if mid = prevMid then some blockFound
    else if mid ≤ c.height then search fuel mid high mid mid
    else search fuel low mid mid blockFound

/-- The nodes counted in the state of a block; `none` is a nil dereference. -/
def count (blockNum : ℕ) : Option ℕ :=
  if (c.nodes blockNum).isSome || c.nilSafe then some ((c.nodes blockNum).getD 0) else none

/-- The second loop, down to a block number above `bound`. -/
def scan (bound : ℕ) : ℕ → ℕ → Option ℕ
  | 0, statedbFound => some statedbFound
  | n + 1, statedbFound =>
    if bound < n + 1 then do
      let count ← count c (n + 1)
      scan bound n (if stateThreshold < count then n + 1 else statedbFound)
    else some statedbFound

def binaryScanForValidBlock : Option ℕ := do
  let blockFound ← search c 42 0 1000000000000 0 0
  if blockFound ≠ 0 then scan c (Word64.sub blockFound blockDelay) blockFound 0 else some 0

/-- One of the last blocks, with a large state. -/
def Valid (n : ℕ) : Prop :=
  0 < n ∧ n ≤ c.height ∧ c.height < n + blockDelay ∧ stateThreshold < (c.nodes n).getD 0

instance : DecidablePred (Valid c) := fun n => by
  unfold Valid
  infer_instance

def Exact : Prop :=
  ∃ r, binaryScanForValidBlock c = some r ∧
    (IsGreatest {n | Valid c n} r ∨ r = 0 ∧ ∀ n, ¬ Valid c n)

variable {c}

/-- The search ends at the height: it stops early only between neighbours. -/
theorem search_eq (k : ℕ) {low high prevMid : ℕ} (hlow : low ≤ c.height) (hhigh : c.height < high)
    (hk : high - low ≤ 2 ^ k) (hprev : high - low = 1 ∨ prevMid ≠ (low + high) / 2) :
    search c (k + 2) low high prevMid low = some c.height := by
  induction k generalizing low high prevMid with
  | zero =>
    have hmid : (low + high) / 2 = low := by omega
    obtain rfl : low = c.height := by omega
    simp [search, hmid]
  | succ k ih =>
    rw [search]
    split_ifs with h1 h2
    · congr 1
      omega
    · exact ih h2 hhigh (by omega) (by omega)
    · exact ih hlow (by omega) (by omega) (by omega)

variable {bound n found r : ℕ}

/-- The last hit is the one that stays, and every state on the way is looked at. -/
theorem scan_eq_some (h : scan c bound n found = some r) :
    (∀ m, bound < m → m ≤ n → count c m ≠ none) ∧
      ((bound < r ∧ r ≤ n ∧ stateThreshold < (c.nodes r).getD 0 ∧
        ∀ m, bound < m → m ≤ n → stateThreshold < (c.nodes m).getD 0 → r ≤ m) ∨
      r = found ∧ ∀ m, bound < m → m ≤ n → ¬ stateThreshold < (c.nodes m).getD 0) := by
  induction n generalizing found with
  | zero =>
    cases h
    exact ⟨fun m _ _ => by omega, .inr ⟨rfl, fun m _ _ => by omega⟩⟩
  | succ n ih =>
    rw [scan] at h
    split_ifs at h with hb
    · obtain ⟨k, hk, h⟩ := bind_eq_some_iff.mp h
      have hcount : k = (c.nodes (n + 1)).getD 0 := by
        rw [count] at hk
        split_ifs at hk
        exact (some.inj hk).symm
      subst hcount
      have hlast : ∀ P : ℕ → Prop, (∀ m, bound < m → m ≤ n → P m) → P (n + 1) →
          ∀ m, bound < m → m ≤ n + 1 → P m := by
        intro P hP hn m hm hle
        rcases le_succ_iff.mp hle with hle | rfl
        exacts [hP m hm hle, hn]
      obtain ⟨hsome, ⟨h1, h2, h3, h4⟩ | ⟨rfl, hnone⟩⟩ := ih h
      · exact ⟨hlast _ hsome (by simp [hk]), .inl ⟨h1, by omega, h3, hlast _ h4 fun _ => by omega⟩⟩
      · refine ⟨hlast _ hsome (by simp [hk]), ?_⟩
        split_ifs with hbig
        · exact .inl ⟨hb, le_rfl, hbig, hlast _ (fun m hm hle h => absurd h (hnone m hm hle))
            fun _ => le_rfl⟩
        · exact .inr ⟨rfl, hlast _ hnone hbig⟩
    · cases h
      exact ⟨fun m _ _ => by omega, .inr ⟨rfl, fun m _ _ => by omega⟩⟩

theorem exists_scan (found : ℕ) (h : ∀ m, bound < m → m ≤ n → count c m ≠ none) :
    ∃ r, scan c bound n found = some r := by
  induction n generalizing found with
  | zero => exact ⟨found, rfl⟩
  | succ n ih =>
    rw [scan]
    split_ifs with hb
    · obtain ⟨k, hk⟩ := ne_none_iff_exists'.mp (h (n + 1) hb le_rfl)
      rw [hk]
      exact ih _ fun m hm hle => h m hm (by omega)
    · exact ⟨found, rfl⟩

/-- **What the scan finds.** -/
theorem scan_exact_iff (h : c.height < 1000000000000) :
    Exact c ↔ (c.height < blockDelay ∧ ∀ n, ¬ Valid c n) ∨
      blockDelay ≤ c.height ∧ (∀ n m, Valid c n → Valid c m → n = m) ∧
        ∀ n, 0 < n → n ≤ c.height → c.height < n + blockDelay → count c n ≠ none := by
  have hsearch : search c 42 0 1000000000000 0 0 = some c.height :=
    search_eq 40 (zero_le _) h (by decide) (by decide)
  have hscan : binaryScanForValidBlock c = scan c (sub c.height blockDelay) c.height 0 := by
    rw [binaryScanForValidBlock, hsearch]
    by_cases h0 : c.height = 0
    · simp [h0, scan]
    · simp [h0]
  rw [Exact, hscan]
  rcases lt_or_ge c.height blockDelay with hlt | hge
  · -- the lower bound wraps
    have hbound : ∀ m, m ≤ c.height → ¬ sub c.height blockDelay < m := by
      unfold sub Word64.size blockDelay at *
      omega
    have h0 : scan c (sub c.height blockDelay) c.height 0 = some 0 := by
      obtain ⟨r, hr⟩ := exists_scan 0 fun m hm hle => absurd hm (hbound m hle)
      obtain ⟨-, ⟨h1, h2, -⟩ | ⟨rfl, -⟩⟩ := scan_eq_some hr
      exacts [absurd h1 (hbound r h2), hr]
    rw [h0]
    constructor
    · rintro ⟨r, hr, ⟨hv, -⟩ | ⟨-, hnone⟩⟩
      · cases hr
        exact absurd hv.1 (lt_irrefl 0)
      · exact .inl ⟨hlt, hnone⟩
    · rintro (⟨-, hnone⟩ | ⟨hge, -⟩)
      · exact ⟨0, rfl, .inr ⟨rfl, hnone⟩⟩
      · omega
  · have hbound : sub c.height blockDelay = c.height - blockDelay :=
      sub_of_le hge (h.trans (by decide))
    have hvalid : ∀ n, Valid c n ↔ c.height - blockDelay < n ∧ n ≤ c.height ∧
        stateThreshold < (c.nodes n).getD 0 := by
      intro n
      unfold Valid blockDelay at *
      omega
    rw [hbound]
    constructor
    · rintro ⟨r, hr, hr'⟩
      obtain ⟨hsome, hcases⟩ := scan_eq_some hr
      refine .inr ⟨hge, fun n m hn hm => ?_, fun n h1 h2 h3 => hsome n (by omega) h2⟩
      rw [hvalid] at hn hm
      obtain ⟨h1, h2, h3, h4⟩ | ⟨rfl, hnone⟩ := hcases
      · obtain ⟨-, hmax⟩ | ⟨rfl, hnone⟩ := hr'
        · have := hmax ((hvalid n).mpr hn)
          have := hmax ((hvalid m).mpr hm)
          have := h4 n hn.1 hn.2.1 hn.2.2
          have := h4 m hm.1 hm.2.1 hm.2.2
          omega
        · omega
      · exact absurd hn.2.2 (hnone n hn.1 hn.2.1)
    · rintro (⟨hlt, -⟩ | ⟨-, hone, hsome⟩)
      · omega
      · have hall : ∀ m, c.height - blockDelay < m → m ≤ c.height → count c m ≠ none :=
          fun m hm hle => hsome m (by omega) hle (by omega)
        obtain ⟨r, hr⟩ := exists_scan 0 hall
        refine ⟨r, hr, ?_⟩
        obtain ⟨-, ⟨h1, h2, h3, h4⟩ | ⟨rfl, hnone⟩⟩ := scan_eq_some hr
        · have hv := (hvalid r).mpr ⟨h1, h2, h3⟩
          exact .inl ⟨hv, fun n hn => (hone n r hn hv).le⟩
        · refine .inr ⟨rfl, fun n hn => ?_⟩
          rw [hvalid] at hn
          exact hnone n hn.1 hn.2.1 hn.2.2

def sampleChain (height nodes : ℕ) : Chain := ⟨height, fun _ => some nodes, false⟩

/-- A long chain with one large state. -/
def oneHit : Chain := ⟨20000, fun n => some (if n = 15000 then 20000 else 3), false⟩

theorem scan_exact_hit : Valid oneHit 15000 ∧ Exact oneHit := by
  have hvalid : ∀ n, Valid oneHit n → n = 15000 := by
    rintro n ⟨-, -, -, hlarge⟩
    by_contra hne
    simp [oneHit, hne, stateThreshold] at hlarge
  refine ⟨by decide, (scan_exact_iff (by decide)).mpr (.inr ⟨by decide, fun n m hn hm => ?_, ?_⟩)⟩
  · rw [hvalid n hn, hvalid m hm]
  · intro n _ _ _
    simp [count, oneHit]

/-- On a short chain no block is found, although all of them have large states. -/
theorem scan_misses : binaryScanForValidBlock (sampleChain 2 20000) = some 0 ∧
    Valid (sampleChain 2 20000) 2 ∧ ¬ Exact (sampleChain 2 20000) := by
  have h0 : binaryScanForValidBlock (sampleChain 2 20000) = some 0 := by decide
  have h2 : Valid (sampleChain 2 20000) 2 := by decide
  refine ⟨h0, h2, ?_⟩
  rintro ⟨r, hr, ⟨hv, -⟩ | ⟨-, hnone⟩⟩
  · cases h0.symm.trans hr
    exact lt_irrefl 0 hv.1
  · exact hnone 2 h2

end XChain.ValidScan
