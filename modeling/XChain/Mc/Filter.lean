import XChain.Core.Bloombits
import XChain.Core.ChainDb

/-!
# Log queries

`mc/filters/filter.go`, and the criteria of `mc/filters/api.go`. A null topic becomes the zero hash,
which the matcher takes for a topic like any other. If the index reaches further than the chain, the
query may go over the range twice. `types.BloomLookup` is given by its law.

* **`logs_canonical_iff`**: the accepted logs of the canonical blocks of the range, in order,
  exactly if the index selects the blocks that have some.
-/

namespace XChain.Filters

open GoText Bitset Bloombits List Function Word64

/-! ## Criteria -/

inductive Json
  | null
  | str (s : Bytes)
  | arr (items : List Json)
  | other

structure Input where
  fromBlock : Option ℤ
  toBlock : Option ℤ
  addresses : Json
  topics : List Json

structure FilterCriteria where
  fromBlock : Option ℤ
  toBlock : Option ℤ
  addresses : List Address
  topics : List (List Hash)

/-- Why criteria are refused; `ε` are the errors of the hex decoder. -/
inductive CriteriaError (ε : Type)
  /-- The error of the decoder. -/
  | hex (err : ε)
  /-- hex has invalid length %d after decoding -/
  | length (n : ℕ)
  /-- invalid address at index %d: %v -/
  | addressAt (i : ℕ) (err : CriteriaError ε)
  /-- non-string address at index %d -/
  | nonString (i : ℕ)
  /-- invalid address: %v -/
  | address (err : CriteriaError ε)
  /-- invalid addresses in query -/
  | addresses
  /-- invalid topic(s) -/
  | topics

section Unmarshal

variable {ε : Type} (decode : Bytes → Except ε (List UInt8))

def decodeFixed (n : ℕ) (s : Bytes) : Except (CriteriaError ε) (FixedBytes n) :=
  match decode s with
  | .error err => .error (.hex err)
  | .ok b => if h : b.length = n then .ok ⟨b, h⟩ else .error (.length b.length)

def decodeAddress : Bytes → Except (CriteriaError ε) Address := decodeFixed decode 20

def decodeTopic : Bytes → Except (CriteriaError ε) Hash := decodeFixed decode 32

def unmarshalAddresses : Json → Except (CriteriaError ε) (List Address)
  | .null => .ok []
  | .arr items => items.zipIdx.mapM fun
      | (.str s, i) => (decodeAddress decode s).mapError (.addressAt i)
      | (_, i) => .error (.nonString i)
  | .str s => ((decodeAddress decode s).map ([·])).mapError .address
  | .other => .error .addresses

def unmarshalTopic : Json → Except (CriteriaError ε) (List Hash)
  | .null => .ok [zeroHash]
  | .str s => (decodeTopic decode s).map ([·])
  | .arr items => items.mapM fun
      | .null => .ok zeroHash
      | .str s => decodeTopic decode s
      | _ => .error .topics
  | .other => .error .topics

def unmarshalJSON (raw : Input) : Except (CriteriaError ε) FilterCriteria := do
  let addresses ← unmarshalAddresses decode raw.addresses
  let topics ← raw.topics.mapM (unmarshalTopic decode)
  return ⟨raw.fromBlock, raw.toBlock, addresses, topics⟩

end Unmarshal

/-! ## Logs and blooms -/

structure Log where
  address : Address
  topics : List Hash
  blockNumber : ℕ
deriving DecidableEq

abbrev Bloom := BitVec 2048

structure Block where
  bloom : Bloom
  receipts : List (List Log)

/-- `types.BloomLookup`: whether a bloom has the three bits of a key. -/
structure BloomLookup (keccak : List UInt8 → Hash) where
  lookup : Bloom → List UInt8 → Bool
  lookup_eq : ∀ bloom b, lookup bloom b = (calcBloomIndexes keccak b).toList.all bloom.getLsbD

def accepts (fromBlock toBlock : Option ℤ) (addresses : List Address) (topics : List (List Hash))
    (log : Log) : Bool :=
  !(fromBlock.any fun n =>
      decide (0 ≤ bigInt64 n) && decide (log.blockNumber < ofInt n)) &&
    !(toBlock.any fun n =>
      decide (0 ≤ bigInt64 n) && decide (ofInt n < log.blockNumber)) &&
    (addresses.isEmpty || addresses.contains log.address) &&
    decide (topics.length ≤ log.topics.length) &&
    (topics.zip log.topics).all fun p => p.1.any fun topic => topic == zeroHash || p.2 == topic

def filterLogs (logs : List Log) (fromBlock toBlock : Option ℤ) (addresses : List Address)
    (topics : List (List Hash)) : List Log :=
  logs.filter (accepts fromBlock toBlock addresses topics)

def bloomFilter {keccak : List UInt8 → Hash} (blooms : BloomLookup keccak) (bloom : Bloom)
    (addresses : List Address) (topics : List (List Hash)) : Bool :=
  (addresses.isEmpty || addresses.any fun addr => blooms.lookup bloom addr.bytes) &&
    topics.all fun sub =>
      sub.any fun topic => topic == zeroHash || blooms.lookup bloom topic.bytes

/-! ## The filter -/

/-- The canonical blocks, the pending block, and the index of the sections. -/
structure Backend where
  blocks : List Block
  pending : Option Block
  sectionSize : ℕ
  sections : ℕ
  bloomBits : ℕ → ℕ → List UInt8
  sectionSize_pos : 0 < sectionSize
  sectionSize_dvd : 8 ∣ sectionSize
  length_lt : blocks.length < 2 ^ 63

def Backend.headerByNumber (backend : Backend) (blockNr : ℤ) : Option Block :=
  if blockNr = -2 then backend.pending
  else if blockNr = -1 then backend.blocks.getLast?
  else backend.blocks[ofInt64 blockNr]?

structure Filter where
  begin : ℤ
  last : ℤ
  addresses : List Address
  topics : List (List Hash)
  matcher : Matcher

def clauses (addresses : List Address) (topics : List (List Hash)) : List (List (List UInt8)) :=
  (if addresses.isEmpty then [] else [addresses.map FixedBytes.bytes]) ++
    topics.map fun topicList => topicList.map FixedBytes.bytes

section Logs

variable {keccak : List UInt8 → Hash} (blooms : BloomLookup keccak) (backend : Backend)

variable (keccak) in
def new (begin last : ℤ) (addresses : List Address) (topics : List (List Hash)) : Filter :=
  ⟨begin, last, addresses, topics, newMatcher keccak backend.sectionSize (clauses addresses topics)⟩

def Filter.checkMatches (f : Filter) (block : Block) : List Log :=
  filterLogs block.receipts.flatten none none f.addresses f.topics

/-- The loop of `indexedLogs`; it ends early at a number without a header. -/
def Filter.collect (f : Filter) : List ℕ → List Log × Bool
  | [] => ([], true)
  | number :: rest =>
    match backend.headerByNumber (toInt64 number) with
    | none => ([], false)
    | some header =>
      let (logs, done) := f.collect rest
      (f.checkMatches header ++ logs, done)

def Filter.indexedLogs (f : Filter) (last : ℕ) : List Log × Filter :=
  let (logs, done) :=
    f.collect backend (f.matcher.start backend.bloomBits (ofInt64 f.begin) last)
  (logs, if done then { f with begin := toInt64 (add last 1) } else f)

def Filter.unindexedLogs (last : ℕ) : ℕ → Filter → Option (List Log × Filter)
  | 0, _ => none
  | fuel + 1, f =>
    if f.begin ≤ toInt64 last then
      match backend.headerByNumber f.begin with
      | none => some ([], f)
      | some header =>
        let found := if bloomFilter blooms header.bloom f.addresses f.topics then
          f.checkMatches header else []
        (Filter.unindexedLogs last fuel { f with begin := f.begin + 1 }).map fun (rest, f) =>
          (found ++ rest, f)
    else some ([], f)

def Filter.gather (f : Filter) (last : ℕ) : Option (List Log × Filter) :=
  let indexed := low (backend.sections * backend.sectionSize)
  let found :=
    if ofInt64 f.begin < indexed then
      if last < indexed then f.indexedLogs backend last else f.indexedLogs backend (indexed - 1)
    else ([], f)
  (Filter.unindexedLogs blooms backend last (backend.blocks.length + 3) found.2).map fun rest =>
    (found.1 ++ rest.1, rest.2)

def Filter.logs (f : Filter) : Option (List Log × Filter) :=
  match backend.headerByNumber (-1) with
  | none => some ([], f)
  | some _ =>
    let head := backend.blocks.length - 1
    let begin := if f.begin = -1 then toInt64 head else f.begin
    let last := if f.last = -1 then head else ofInt64 f.last
    { f with begin := begin }.gather blooms backend last

end Logs

open Filters.Filter

/-! ## Blooms never hide a log -/

section Bloom

variable {keccak : List UInt8 → Hash} {blooms : BloomLookup keccak} {topics : List (List Hash)}
  {addresses : List Address} {bloom : Bloom} {block : Block}

/-- The bloom of a block has the address and the topics of its logs. -/
def Block.Covers (blooms : BloomLookup keccak) (block : Block) : Prop :=
  ∀ log ∈ block.receipts.flatten, blooms.lookup block.bloom log.address.bytes = true ∧
    ∀ topic ∈ log.topics, blooms.lookup block.bloom topic.bytes = true

/-- **The bloom of a header never hides a log.** -/
theorem bloomFilter_of_accepts {fromBlock toBlock : Option ℤ} {log : Log}
    (h : accepts fromBlock toBlock addresses topics log = true)
    (haddr : blooms.lookup bloom log.address.bytes = true)
    (htopics : ∀ topic ∈ log.topics, blooms.lookup bloom topic.bytes = true) :
    bloomFilter blooms bloom addresses topics = true := by
  simp only [accepts, Bool.and_eq_true, decide_eq_true_eq] at h
  obtain ⟨⟨⟨-, haddresses⟩, hlen⟩, hzip⟩ := h
  rw [bloomFilter, Bool.and_eq_true]
  constructor
  · rw [Bool.or_eq_true] at haddresses ⊢
    refine haddresses.imp_right fun hmem => any_eq_true.mpr ?_
    exact ⟨log.address, contains_iff_mem.mp hmem, haddr⟩
  · rw [all_eq_true] at hzip ⊢
    intro sub hsub
    obtain ⟨i, hi, rfl⟩ := getElem_of_mem hsub
    have hlog : i < log.topics.length := by omega
    have hpair : (topics[i], log.topics[i]) ∈ topics.zip log.topics := by
      rw [← getElem_zip (h := by rw [length_zip]; omega)]
      exact getElem_mem _
    obtain ⟨topic, hmem, htopic⟩ := any_eq_true.mp (hzip _ hpair)
    refine any_eq_true.mpr ⟨topic, hmem, ?_⟩
    rw [Bool.or_eq_true] at htopic ⊢
    refine htopic.imp_right fun heq => ?_
    rw [← eq_of_beq heq]
    exact htopics _ (getElem_mem hlog)

theorem checkMatches_eq_nil {f : Filter} (hcovers : block.Covers blooms)
    (h : bloomFilter blooms block.bloom f.addresses f.topics = false) :
    f.checkMatches block = [] := by
  rw [checkMatches, filterLogs, filter_eq_nil_iff]
  intro log hlog haccepts
  obtain ⟨haddr, htopics⟩ := hcovers log hlog
  rw [bloomFilter_of_accepts haccepts haddr htopics] at h
  cases h

/-! ## The matcher and the blooms of headers -/

theorem lt_of_mem_calcBloomIndexes {b : List UInt8} {bit : ℕ}
    (h : bit ∈ (calcBloomIndexes keccak b).toList) : bit < 2048 := by
  rw [calcBloomIndexes, Vector.toList_ofFn, mem_ofFn] at h
  obtain ⟨i, rfl⟩ := h
  have hlow := UInt8.toNat_lt ((keccak b).bytes.getD (2 * i + 1) 0)
  rw [Nat.shiftLeft_eq, show 2047 = 2 ^ 11 - 1 by rfl, Nat.and_two_pow_sub_one_eq_mod]
  omega

theorem bloomFilter_eq_clauses (h : ∀ sub ∈ topics, zeroHash ∉ sub) :
    bloomFilter blooms bloom addresses topics =
      (clauses addresses topics).all fun clause => clause.any (blooms.lookup bloom) := by
  have htopics : (topics.all fun sub =>
      sub.any fun topic => topic == zeroHash || blooms.lookup bloom topic.bytes) =
      (topics.map fun sub => sub.map FixedBytes.bytes).all fun clause =>
        clause.any (blooms.lookup bloom) := by
    rw [all_map, Bool.eq_iff_iff, all_eq_true, all_eq_true]
    refine forall₂_congr fun sub hsub => ?_
    rw [comp_apply, any_map, any_eq_true, any_eq_true]
    refine exists_congr fun topic => and_congr_right fun hmem => ?_
    have hne : (topic == zeroHash) = false := by
      rw [beq_eq_false_iff_ne]
      rintro rfl
      exact h sub hsub hmem
    rw [hne, Bool.false_or]
    rfl
  rw [bloomFilter, htopics, clauses, all_append]
  congr 1
  cases addresses with
  | nil => rfl
  | cons a addresses => simp [comp_def]

/-- The number of the blocks that the index covers. -/
def Backend.indexed (backend : Backend) : ℕ :=
  backend.sections * backend.sectionSize

/-- The vectors of the indexed sections have the bits of the blooms of the headers. -/
def Backend.IndexHolds (backend : Backend) : Prop :=
  ∀ sec < backend.sections, ∀ bit < 2048,
    (backend.bloomBits bit sec).length = backend.sectionSize / 8 ∧
      ∀ i < backend.sectionSize, ∀ block ∈ backend.blocks[sec * backend.sectionSize + i]?,
        bitAt (backend.bloomBits bit sec) i = block.bloom.getLsbD bit

variable {backend : Backend} {f : Filter}

def Filter.Of (keccak : List UInt8 → Hash) (backend : Backend) (f : Filter) : Prop :=
  f.matcher = newMatcher keccak backend.sectionSize (clauses f.addresses f.topics)

theorem Filter.Of.sized (hf : f.Of keccak backend) (hindex : backend.IndexHolds) {sec : ℕ}
    (hsec : sec < backend.sections) : f.matcher.Sized backend.bloomBits sec := by
  rw [hf]
  intro bloom hbloom bits hbits bit hbit
  obtain ⟨filter, -, rfl⟩ := mem_map.mp hbloom
  obtain ⟨b, -, rfl⟩ := mem_map.mp hbits
  exact (hindex sec hsec bit (lt_of_mem_calcBloomIndexes hbit)).1

/-- **Without zero hashes the matcher agrees with the bloom of the header.** -/
theorem selects_eq_bloomFilter (hf : f.Of keccak backend) (hindex : backend.IndexHolds)
    (htopics : ∀ sub ∈ f.topics, zeroHash ∉ sub) {n : ℕ}
    (hn : n < backend.indexed) (hblock : backend.blocks[n]? = some block) :
    f.matcher.selects backend.bloomBits n =
      bloomFilter blooms block.bloom f.addresses f.topics := by
  have hsec : n / backend.sectionSize < backend.sections :=
    (Nat.div_lt_iff_lt_mul backend.sectionSize_pos).mpr hn
  have hmod : n % backend.sectionSize < backend.sectionSize := Nat.mod_lt _ backend.sectionSize_pos
  rw [bloomFilter_eq_clauses htopics, hf, Matcher.selects, newMatcher]
  rw [all_map, Bool.eq_iff_iff, all_eq_true, all_eq_true]
  refine forall₂_congr fun clause _ => ?_
  rw [comp_apply, any_map, any_eq_true, any_eq_true]
  refine exists_congr fun b => and_congr_right fun _ => ?_
  rw [comp_apply, blooms.lookup_eq, all_eq_true, all_eq_true]
  refine forall₂_congr fun bit hbit => ?_
  have hbits := (hindex _ hsec bit (lt_of_mem_calcBloomIndexes hbit)).2 _ hmod block
  rw [Nat.div_add_mod'] at hbits
  rw [hbits hblock]

end Bloom

/-! ## The loops -/

section Loops

variable {keccak : List UInt8 → Hash} {blooms : BloomLookup keccak} {backend : Backend} {f : Filter}

theorem headerByNumber_natCast (n : ℕ) (h : n < 2 ^ 63) :
    backend.headerByNumber n = backend.blocks[n]? := by
  rw [Backend.headerByNumber, if_neg (by omega), if_neg (by omega),
    ofInt64_natCast (h.trans (by decide))]

def Filter.logsAt (backend : Backend) (f : Filter) (n : ℕ) : List Log :=
  (backend.blocks[n]?).elim [] f.checkMatches

theorem flatMap_logsAt (first count : ℕ) :
    (range' first count).flatMap (f.logsAt backend) =
      ((backend.blocks.drop first).take count).flatMap f.checkMatches := by
  induction count generalizing first with
  | zero => rw [take_zero]; rfl
  | succ count ih =>
    rw [range'_succ, flatMap_cons, ih]
    rcases Nat.lt_or_ge first backend.blocks.length with hlt | hge
    · rw [drop_eq_getElem_cons hlt, take_succ_cons, flatMap_cons, logsAt, getElem?_eq_getElem hlt]
      rfl
    · rw [drop_of_length_le hge, drop_of_length_le (Nat.le_succ_of_le hge),
        logsAt, getElem?_eq_none hge]
      simp

/-- The loop finds the logs of all blocks that there are, and ends early if one is missing. -/
theorem collect_eq {numbers : List ℕ} (hsorted : numbers.Pairwise (· < ·))
    (hlt : ∀ n ∈ numbers, n < 2 ^ 63) : f.collect backend numbers =
      (numbers.flatMap (f.logsAt backend), numbers.all (· < backend.blocks.length)) := by
  induction numbers with
  | nil => rfl
  | cons n numbers ih =>
    obtain ⟨hn, hrest⟩ := forall_mem_cons.mp hlt
    obtain ⟨hfirst, hsorted⟩ := pairwise_cons.mp hsorted
    rw [collect, toInt64_of_lt hn, headerByNumber_natCast n hn, ih hsorted hrest, flatMap_cons,
      all_cons, logsAt]
    rcases Nat.lt_or_ge n backend.blocks.length with hblock | hge
    · simp [hblock]
    · have hnone : numbers.flatMap (f.logsAt backend) = [] := by
        refine flatMap_eq_nil_iff.mpr fun m hm => ?_
        rw [logsAt, getElem?_eq_none (hge.trans (hfirst m hm).le)]
        rfl
      simp [hnone, hge.not_gt]

theorem flatMap_filter_eq_iff {α β : Type} {p : α → Bool} {g : α → List β} {l : List α} :
    (l.filter p).flatMap g = l.flatMap g ↔ ∀ x ∈ l, g x ≠ [] → p x = true := by
  induction l with
  | nil => simp
  | cons x l ih =>
    rw [filter_cons, flatMap_cons, forall_mem_cons, ← ih]
    split
    · simp [*]
    · rename_i hp
      have hle : ((l.filter p).flatMap g).length ≤ (l.flatMap g).length :=
        (filter_sublist.flatMap g).length_le
      constructor
      · intro h
        have hnil : g x = [] := by
          rw [h, length_append] at hle
          exact length_eq_zero_iff.mp (by omega)
        rw [hnil] at h
        exact ⟨fun hx => absurd hnil hx, h⟩
      · rintro ⟨hx, h⟩
        rw [h, not_not.mp fun hne => hp (hx hne), nil_append]

/-- The blocks of a range that the index selects. -/
def Filter.selected (backend : Backend) (f : Filter) (first count : ℕ) : List ℕ :=
  (range' first count).filter (f.matcher.selects backend.bloomBits)

theorem indexedLogs_eq (hf : f.Of keccak backend) (hindex : backend.IndexHolds) {first last : ℕ}
    (hbegin : f.begin = first) (hfirst : first < size)
    (hlast : last < backend.indexed) (hsections : backend.indexed < 2 ^ 63) :
    f.indexedLogs backend last =
      ((f.selected backend first (last + 1 - first)).flatMap (f.logsAt backend),
        if (f.selected backend first (last + 1 - first)).all (· < backend.blocks.length) then
          { f with begin := (last + 1 : ℕ) } else f) := by
  have hsize : f.matcher.sectionSize = backend.sectionSize := by rw [hf]; rfl
  have hmatches : f.matcher.start backend.bloomBits first last =
      f.selected backend first (last + 1 - first) := by
    refine Matcher.start_eq (hsize ▸ backend.sectionSize_dvd) (hsize ▸ backend.sectionSize_pos) ?_
    intro sec hsec
    rw [hsize] at hsec
    refine hf.sized hindex (lt_of_le_of_lt hsec ?_)
    exact (Nat.div_lt_iff_lt_mul backend.sectionSize_pos).mpr hlast
  have hnext : toInt64 (add last 1) = (last + 1 : ℕ) := by
    rw [add, Nat.mod_eq_of_lt (by unfold size; omega), toInt64_of_lt (by omega)]
  rw [indexedLogs, hbegin, ofInt64_natCast hfirst, hmatches, collect_eq, hnext]
  · exact (pairwise_lt_range' ..).filter _
  · intro n hn
    have := mem_range'_1.mp (mem_of_mem_filter hn)
    omega

theorem unindexedLogs_eq (hcovers : ∀ block ∈ backend.blocks, block.Covers blooms) {last : ℕ}
    (hlast : last < 2 ^ 63) : ∀ {fuel first : ℕ} {f : Filter}, f.begin = first →
      first < 2 ^ 63 → backend.blocks.length < first + fuel → 0 < fuel →
      ∃ f', unindexedLogs blooms backend last fuel f =
        some ((range' first (last + 1 - first)).flatMap (f.logsAt backend), f') := by
  intro fuel
  induction fuel with
  | zero => exact fun _ _ _ h => absurd h (Nat.lt_irrefl 0)
  | succ fuel ih =>
    intro first f hbegin hfirst hfuel _
    rw [unindexedLogs, hbegin, toInt64_of_lt hlast]
    split
    · rename_i hle
      rw [headerByNumber_natCast first hfirst]
      rcases Nat.lt_or_ge first backend.blocks.length with hlt | hge
      · have hblock := getElem?_eq_getElem hlt
        have hlength := backend.length_lt
        obtain ⟨f', hrest⟩ : ∃ f', unindexedLogs blooms backend last fuel
            { f with begin := (first : ℤ) + 1 } =
            some ((range' (first + 1) (last + 1 - (first + 1))).flatMap (f.logsAt backend),
              f') :=
          ih rfl (by omega) (by omega) (by omega)
        have hfound : (if bloomFilter blooms backend.blocks[first].bloom f.addresses f.topics then
            f.checkMatches backend.blocks[first] else []) = f.logsAt backend first := by
          rw [logsAt, hblock]
          split
          · rfl
          · rename_i hbloom
            exact (checkMatches_eq_nil (hcovers _ (getElem_mem hlt))
              (Bool.eq_false_iff.mpr hbloom)).symm
        have hcount : last + 1 - first = last + 1 - (first + 1) + 1 := by omega
        refine ⟨f', ?_⟩
        rw [hblock, hcount, range'_succ, flatMap_cons, ← hfound]
        rw [hrest]
        rfl
      · -- the chain ends here
        rw [getElem?_eq_none hge, flatMap_logsAt, drop_of_length_le hge, take_nil]
        exact ⟨f, rfl⟩
    · rename_i hgt
      rw [Nat.sub_eq_zero_of_le (by omega)]
      exact ⟨f, rfl⟩

/-- **The index loses no log**: within its sections it gives what reading every block gives. -/
theorem indexed_agrees_unindexed (hf : f.Of keccak backend)
    (hcovers : ∀ block ∈ backend.blocks, block.Covers blooms) (hindex : backend.IndexHolds)
    (htopics : ∀ sub ∈ f.topics, zeroHash ∉ sub) {first last fuel : ℕ} (hbegin : f.begin = first)
    (hfirst : first < 2 ^ 63) (hlast : last < backend.indexed)
    (hfit : backend.indexed ≤ backend.blocks.length) (hfuel : backend.blocks.length < fuel) :
    (unindexedLogs blooms backend last fuel f).map Prod.fst =
      some (f.indexedLogs backend last).1 := by
  have hlength := backend.length_lt
  have hlast' : last < 2 ^ 63 := by omega
  obtain ⟨f', hlogs⟩ := unindexedLogs_eq hcovers hlast' hbegin hfirst
    (Nat.lt_add_left first hfuel) (by omega)
  rw [hlogs, indexedLogs_eq hf hindex hbegin (hfirst.trans (by decide)) hlast (by omega)]
  refine congrArg some (flatMap_filter_eq_iff.mpr fun n hn hne => ?_).symm
  have hn := mem_range'_1.mp hn
  have hlt : n < backend.blocks.length := by omega
  have hblock := getElem?_eq_getElem hlt
  have hselects : _ = bloomFilter blooms _ _ _ :=
    selects_eq_bloomFilter hf hindex htopics (by omega) hblock
  rw [hselects]
  by_contra hbloom
  apply hne
  rw [logsAt, hblock]
  exact checkMatches_eq_nil (hcovers _ (getElem_mem hlt)) (Bool.eq_false_iff.mpr hbloom)

end Loops

/-! ## Queries -/

/-- The number of a block in a query, `-1` for the head. -/
def Backend.resolve (backend : Backend) (blockNr : ℤ) : ℕ :=
  if blockNr = -1 then backend.blocks.length - 1 else blockNr.toNat

/-- What a query is for: the logs of the canonical blocks of the range that the criteria accept. -/
def canonicalLogs (backend : Backend) (begin last : ℤ) (addresses : List Address)
    (topics : List (List Hash)) : List Log :=
  let first := backend.resolve begin
  let final := min (backend.resolve last) (backend.blocks.length - 1)
  ((backend.blocks.drop first).take (final + 1 - first)).flatMap fun block =>
    filterLogs block.receipts.flatten none none addresses topics

/-- The index selects a number of the range without a block: the search starts again. -/
def Filter.Restarts (backend : Backend) (f : Filter) (first last : ℕ) : Prop :=
  ∃ n, first ≤ n ∧ n ≤ last ∧ n < backend.indexed ∧
    backend.blocks.length ≤ n ∧ f.matcher.selects backend.bloomBits n = true

/-- The index selects the blocks of the range with accepted logs, or none if it starts again. -/
def Filter.IndexAgrees (backend : Backend) (f : Filter) (first last : ℕ) : Prop :=
  ∀ n, first ≤ n → n ≤ last → n < backend.indexed →
    f.logsAt backend n ≠ [] →
      (f.matcher.selects backend.bloomBits n = true ↔ ¬ f.Restarts backend first last)

section Query

variable {keccak : List UInt8 → Hash} {blooms : BloomLookup keccak} {backend : Backend} {f : Filter}

theorem resolve_lt {n : ℤ} (h : n < 2 ^ 63) : backend.resolve n < 2 ^ 63 := by
  have := backend.length_lt
  unfold Backend.resolve
  split <;> omega

theorem restarts_iff {first last count : ℕ}
    (hcount : first + count = max first (min (last + 1) backend.indexed)) :
    f.Restarts backend first last ↔
      (f.selected backend first count).all (· < backend.blocks.length) = false := by
  simp only [Restarts, selected, all_eq_false, mem_filter, mem_range'_1, decide_eq_true_eq, not_lt]
  refine exists_congr fun n => ?_
  constructor
  · rintro ⟨h1, h2, h3, h4, h5⟩
    exact ⟨⟨⟨h1, by omega⟩, h5⟩, h4⟩
  · rintro ⟨⟨⟨h1, h2⟩, h5⟩, h4⟩
    exact ⟨h1, by omega, by omega, h4, h5⟩

theorem flatMap_logsAt_min (first last : ℕ) (hne : backend.blocks ≠ []) :
    (range' first (last + 1 - first)).flatMap (f.logsAt backend) =
      ((backend.blocks.drop first).take
        (min last (backend.blocks.length - 1) + 1 - first)).flatMap f.checkMatches := by
  have hpos := length_pos_iff.mpr hne
  rw [flatMap_logsAt]
  congr 1
  rw [take_eq_take_iff, length_drop]
  omega

variable (hf : f.Of keccak backend) (hcovers : ∀ block ∈ backend.blocks, block.Covers blooms)
  (hindex : backend.IndexHolds) (hsections : backend.indexed < 2 ^ 63) {first last : ℕ}
  (hbegin : f.begin = first) (hfirst : first < 2 ^ 63) (hlast : last < 2 ^ 63)
include hf hcovers hindex hsections hbegin hfirst hlast

/-- What the two searches find one after the other. -/
theorem gather_eq {count next : ℕ}
    (hcount : first + count = max first (min (last + 1) backend.indexed))
    (hnext : (f.Restarts backend first last ∧ next = first) ∨
      ¬ f.Restarts backend first last ∧ next = first + count) :
    ∃ f', f.gather blooms backend last =
      some ((f.selected backend first count).flatMap (f.logsAt backend) ++
        (range' next (last + 1 - next)).flatMap (f.logsAt backend), f') := by
  have hlow : low (backend.sections * backend.sectionSize) = backend.indexed :=
    low_of_lt (show backend.indexed < size by unfold size; omega)
  have hsize : first < size := hfirst.trans (by decide)
  -- the second part, from wherever the first one ended
  have hrest : ∀ next : ℕ, next < 2 ^ 63 → ∃ f',
      unindexedLogs blooms backend last (backend.blocks.length + 3)
        { f with begin := (next : ℤ) } =
        some ((range' next (last + 1 - next)).flatMap (f.logsAt backend), f') :=
    fun next hnext => unindexedLogs_eq hcovers hlast rfl hnext (by omega) (by omega)
  unfold gather
  rw [hlow, hbegin, ofInt64_natCast hsize]
  dsimp only
  by_cases hin : first < backend.indexed
  · obtain ⟨stop, hstop⟩ : ∃ stop, stop = min last (backend.indexed - 1) := ⟨_, rfl⟩
    have hindexed : (if last < backend.indexed then f.indexedLogs backend last
        else f.indexedLogs backend (backend.indexed - 1)) = f.indexedLogs backend stop := by
      split <;> congr 1 <;> omega
    rw [if_pos hin, hindexed, indexedLogs_eq hf hindex hbegin hsize (by omega) hsections,
      show stop + 1 - first = count by omega]
    rcases hnext with ⟨hre, rfl⟩ | ⟨hre, rfl⟩
    · obtain ⟨f', hrest⟩ := hrest next hfirst
      rw [← hbegin] at hrest
      rw [(restarts_iff hcount).mp hre]
      exact ⟨f', by simp [hrest]⟩
    · obtain ⟨f', hrest⟩ := hrest (stop + 1) (by omega)
      rw [restarts_iff hcount, Bool.not_eq_false] at hre
      rw [hre, if_pos rfl, hrest]
      refine ⟨f', ?_⟩
      rcases Nat.lt_or_ge (stop + 1) first with hlt | hge
      · rw [Nat.sub_eq_zero_of_le (show last + 1 ≤ stop + 1 by omega),
          Nat.sub_eq_zero_of_le (show last + 1 ≤ first + count by omega)]
        rfl
      · rw [show first + count = stop + 1 by omega]
        rfl
  · obtain rfl : count = 0 := by omega
    obtain ⟨f', hrest⟩ := hrest first hfirst
    rw [← hbegin] at hrest
    obtain rfl : next = first := by omega
    exact ⟨f', by rw [if_neg hin, hrest]; rfl⟩

theorem gather_canonical_iff (hne : backend.blocks ≠ []) :
    (∃ f', f.gather blooms backend last = some (((backend.blocks.drop first).take
      (min last (backend.blocks.length - 1) + 1 - first)).flatMap f.checkMatches, f')) ↔
      f.IndexAgrees backend first last := by
  obtain ⟨count, hcount⟩ : ∃ count, first + count = max first (min (last + 1) backend.indexed) :=
    ⟨_, Nat.add_sub_cancel' (le_max_left _ _)⟩
  have hrange : ∀ n, n ∈ range' first count ↔
      first ≤ n ∧ n ≤ last ∧ n < backend.indexed := by
    intro n
    rw [mem_range'_1]
    omega
  have hlogs : ∀ (xs ys : List Log) (g : Filter),
      (∃ f', some (xs, g) = some (ys, f')) ↔ xs = ys := by simp
  rw [← flatMap_logsAt_min first last hne]
  by_cases hre : f.Restarts backend first last
  · obtain ⟨f', hgather⟩ := gather_eq hf hcovers hindex hsections hbegin hfirst hlast hcount
      (.inl ⟨hre, rfl⟩)
    rw [hgather, hlogs, append_left_eq_self]
    simp only [IndexAgrees, hre, selected, flatMap_eq_nil_iff, mem_filter, hrange]
    refine ⟨fun h n h1 h2 h3 hlogs => ?_, fun h n hn => ?_⟩
    · simpa using fun hsel => hlogs (h n ⟨⟨h1, h2, h3⟩, hsel⟩)
    · by_contra hlogs
      exact absurd trivial ((h n hn.1.1 hn.1.2.1 hn.1.2.2 hlogs).mp hn.2)
  · obtain ⟨f', hgather⟩ := gather_eq hf hcovers hindex hsections hbegin hfirst hlast hcount
      (.inr ⟨hre, rfl⟩)
    have hsplit : range' first (last + 1 - first) =
        range' first count ++ range' (first + count) (last + 1 - (first + count)) := by
      rcases Nat.le_total (first + count) (last + 1) with hle | hge
      · have h := Matcher.range'_append_of_le (Nat.le_add_right first count) hle
        rw [← h, Nat.add_sub_cancel_left]
      · rw [Nat.sub_eq_zero_of_le hge, show last + 1 - first = count by omega]
        simp
    rw [hgather, hlogs, hsplit, flatMap_append, append_cancel_right_eq, selected,
      flatMap_filter_eq_iff]
    simp only [hrange]
    simp only [IndexAgrees, hre, not_false_eq_true, iff_true]
    exact ⟨fun h n h1 h2 h3 => h n ⟨h1, h2, h3⟩, fun h n hn => h n hn.1 hn.2.1 hn.2.2⟩

end Query

/-- **A query returns the accepted logs of the canonical blocks of its range, in order**, if and
only if the index agrees with them. -/
theorem logs_canonical_iff {keccak : List UInt8 → Hash} (blooms : BloomLookup keccak)
    (backend : Backend) {begin last : ℤ} {addresses : List Address} {topics : List (List Hash)}
    (hbegin : -1 ≤ begin) (hbegin' : begin < 2 ^ 63) (hlast : -1 ≤ last) (hlast' : last < 2 ^ 63)
    (hcovers : ∀ block ∈ backend.blocks, block.Covers blooms) (hindex : backend.IndexHolds)
    (hsections : backend.indexed < 2 ^ 63) :
    (∃ f, (new keccak backend begin last addresses topics).logs blooms backend =
      some (canonicalLogs backend begin last addresses topics, f)) ↔
      (new keccak backend begin last addresses topics).IndexAgrees backend (backend.resolve begin)
        (backend.resolve last) := by
  have hlength := backend.length_lt
  rw [logs]
  rcases eq_nil_or_concat backend.blocks with hnil | ⟨blocks, block, hblocks⟩
  · have hheader : backend.headerByNumber (-1) = none := by
      rw [Backend.headerByNumber, if_neg (by decide), if_pos rfl, hnil]
      rfl
    rw [hheader, canonicalLogs, hnil]
    refine iff_of_true ⟨new keccak backend begin last addresses topics, by simp⟩ ?_
    intro n _ _ _ hne
    simp [logsAt, hnil] at hne
  · have hne : backend.blocks ≠ [] := by rw [hblocks]; simp
    have hheader : backend.headerByNumber (-1) = some block := by
      rw [Backend.headerByNumber, if_neg (by decide), if_pos rfl, hblocks]
      simp
    have hstart : (if begin = -1 then toInt64 (backend.blocks.length - 1) else begin) =
        backend.resolve begin := by
      rw [toInt64_of_lt (by omega), Backend.resolve]
      split
      · rfl
      · rw [Int.toNat_of_nonneg (by omega)]
    have hend : (if last = -1 then backend.blocks.length - 1 else ofInt64 last) =
        backend.resolve last := by
      rw [Backend.resolve]
      split
      · rfl
      · unfold ofInt64 size
        omega
    rw [hheader]
    change (∃ f, (new keccak backend (if begin = -1 then _ else begin) last addresses topics).gather
      blooms backend (if last = -1 then _ else ofInt64 last) = _) ↔ _
    rw [hstart, hend]
    exact gather_canonical_iff (f := new keccak backend (backend.resolve begin) last addresses
      topics) rfl hcovers hindex hsections rfl (resolve_lt hbegin') (resolve_lt hlast') hne

/-! ## A null topic in an indexed section -/

def padHash (b : List UInt8) : Hash := ⟨(b ++ replicate 32 0).take 32, by simp⟩

/-- A lookup as its law says. -/
def padLookup : BloomLookup padHash := ⟨_, fun _ _ => rfl⟩

/-- The log of a contract with one topic. -/
def sampleLog : Log := ⟨.fill 2, [.fill 1], 0⟩

/-- The bits of the address and the topic of the log. -/
def sampleBits : List ℕ :=
  (calcBloomIndexes padHash (replicate 20 2)).toList ++
    (calcBloomIndexes padHash (replicate 32 1)).toList

/-- A block with the log. -/
def sampleBlock : Block where
  bloom := sampleBits.foldl (fun bloom bit => bloom ||| BitVec.twoPow 2048 bit) 0
  receipts := [[sampleLog]]

/-- A chain that begins with the block. -/
def sampleBackend (rest : Fin 8) : Backend where
  blocks := sampleBlock :: replicate rest ⟨0, []⟩
  pending := none
  sectionSize := 8
  sections := 1
  bloomBits bit _ := [if sampleBlock.bloom.getLsbD bit then 0x80 else 0]
  sectionSize_pos := by decide
  sectionSize_dvd := by decide
  length_lt := by simp; omega

theorem sampleBackend_covers (rest : Fin 8) :
    ∀ block ∈ (sampleBackend rest).blocks, block.Covers padLookup := by
  intro block hblock
  rcases mem_cons.mp hblock with rfl | hblock
  · unfold Block.Covers
    decide +kernel
  · rw [eq_of_mem_replicate hblock]
    exact nofun

theorem sampleBackend_indexHolds (rest : Fin 8) : (sampleBackend rest).IndexHolds := by
  intro sec hsec bit _
  obtain rfl : sec = 0 := Nat.lt_one_iff.mp hsec
  refine ⟨show 1 = 8 / 8 by decide, fun i hi block hblock => ?_⟩
  change block ∈ (sampleBlock :: replicate rest ⟨0, []⟩)[0 * 8 + i]? at hblock
  change bitAt [if sampleBlock.bloom.getLsbD bit then 0x80 else 0] i = _
  rw [Nat.zero_mul, Nat.zero_add] at hblock
  cases i with
  | zero =>
    cases hblock
    cases sampleBlock.bloom.getLsbD bit <;> rfl
  | succ i =>
    rw [getElem?_cons_succ] at hblock
    have hempty : (0 : Bloom).getLsbD bit = false := BitVec.getLsbD_zero
    rw [eq_of_mem_replicate (mem_of_getElem? hblock)]
    rw [hempty]
    have hi : i + 1 < 8 := hi
    cases sampleBlock.bloom.getLsbD bit with
    | false => exact bitAt_replicate_zero 1 _
    | true =>
      have hone : ∀ i < 7, bitAt [0x80] (i + 1) = false := by decide
      exact hone i (by omega)

/-- The index finds the one block with the topic. -/
theorem logs_canonical_topic : ∃ f, (new padHash (sampleBackend 7) 0 (-1) [] [[.fill 1]]).logs
    padLookup (sampleBackend 7) = some ([sampleLog], f) := by
  have hlogs : canonicalLogs (sampleBackend 7) 0 (-1) [] [[.fill 1]] = [sampleLog] := by
    decide +kernel
  have hfound : ∀ n < 8, (new padHash (sampleBackend 7) 0 (-1) [] [[.fill 1]]).logsAt
      (sampleBackend 7) n ≠ [] → (new padHash (sampleBackend 7) 0 (-1) []
        [[.fill 1]]).matcher.selects (sampleBackend 7).bloomBits n = true := by
    decide +kernel
  rw [← hlogs]
  refine (logs_canonical_iff padLookup _ (by decide) (by decide) (by decide) (by decide)
    (sampleBackend_covers _) (sampleBackend_indexHolds _) (by decide)).mpr ?_
  refine fun n _ _ hn hne => iff_of_true (hfound n hn hne) ?_
  rintro ⟨m, -, -, hm, hlen, -⟩
  exact absurd hlen (not_le.mpr hm)

/-- The same by reading every block. -/
theorem indexed_agrees_topic : (unindexedLogs padLookup (sampleBackend 7) 7 11
    (new padHash (sampleBackend 7) 0 7 [] [[.fill 1]])).map Prod.fst = some [sampleLog] := by
  have hbegin : (0 : ℤ) = (0 : ℕ) := rfl
  refine (indexed_agrees_unindexed (f := new padHash _ 0 7 [] [[.fill 1]]) rfl
    (sampleBackend_covers _) (sampleBackend_indexHolds _) (by decide) hbegin (by decide) (by decide)
    (by decide) (by decide)).trans ?_
  decide +kernel

/-- **A null topic in an indexed section.** An index beyond the head finds the log twice. -/
theorem null_topic_lost :
    (∀ decode : Bytes → Except Unit (List UInt8),
      unmarshalJSON decode ⟨some 0, none, .null, [.null]⟩ = .ok ⟨some 0, none, [], [[zeroHash]]⟩) ∧
    (∀ block ∈ (sampleBackend 7).blocks, block.Covers padLookup) ∧
    (sampleBackend 7).IndexHolds ∧
    canonicalLogs (sampleBackend 7) 0 (-1) [] [[zeroHash]] = [sampleLog] ∧
    ((new padHash (sampleBackend 7) 0 (-1) [] [[zeroHash]]).logs padLookup (sampleBackend 7)).map
      Prod.fst = some [] ∧
    (sampleBackend 0).IndexHolds ∧
    canonicalLogs (sampleBackend 0) 0 7 [] [] = [sampleLog] ∧
    ((new padHash (sampleBackend 0) 0 7 [] []).logs padLookup (sampleBackend 0)).map Prod.fst =
      some [sampleLog, sampleLog] := by
  refine ⟨fun _ => rfl, sampleBackend_covers _, sampleBackend_indexHolds _, ?_, ?_,
    sampleBackend_indexHolds _, ?_, ?_⟩ <;> decide +kernel

end XChain.Filters
