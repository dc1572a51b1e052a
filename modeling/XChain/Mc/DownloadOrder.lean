import XChain.Mc.DownloadQueue

/-!
# Every task of the download queue is in one place, and results come in order

* **`tasks_conserved`**: the tasks, the results and the counters in every run without
  `errInvalidChain`.
-/

namespace XChain.DownloadQueue

open List Option Function StepMachine GoMap GoMap.Table Word64
open Word64 (add low low_of_lt size)
open Option (some)

variable {Hash Header Tx Receipt Peer : Type} [DecidableEq Hash] [DecidableEq Peer]

variable {T : Types Hash Header Tx Receipt} {s t : State Hash Header Tx Receipt Peer}
  {first offset : ℕ} {out : Kind → List Header}

/-! ## Slots -/

variable (T) in
/-- What was fetched for a header has the hashes the header names. -/
def Fits (r : FetchResult Header Tx Receipt) : Kind → Prop
  | .body => T.deriveSha r.transactions = T.txHash r.header ∧
    T.calcUncleHash r.uncles = T.uncleHash r.header
  | .receipt => T.deriveReceiptSha r.receipts = T.receiptHash r.header

def Blank (r : FetchResult Header Tx Receipt) : Kind → Prop
  | .body => r.transactions = [] ∧ r.uncles = []
  | .receipt => r.receipts = []

variable {r : FetchResult Header Tx Receipt} {kind : Kind}
  {f g : Tasks Hash Header Peer → Tasks Hash Header Peer}

theorem Blank.fits (h : Blank r kind) (hnoop : T.isNoop r.header kind = true) : Fits T r kind := by
  cases kind with
  | body =>
    obtain ⟨htx, huncle⟩ := of_decide_eq_true hnoop
    obtain ⟨htransactions, huncles⟩ := h
    exact ⟨by rw [htransactions, T.deriveSha_nil, htx],
      by rw [huncles, T.calcUncleHash_nil, huncle]⟩
  | receipt =>
    have hreceipt : T.receiptHash r.header = T.emptyRootHash := of_decide_eq_true hnoop
    show T.deriveReceiptSha r.receipts = _
    rw [show r.receipts = [] from h, T.deriveReceiptSha_nil, hreceipt]

omit [DecidableEq Hash] in
theorem fits_pending {p : ℤ} :
    Fits T { r with pending := p } kind ↔ Fits T r kind := by cases kind <;> exact .rfl

theorem blank_pending {p : ℤ} :
    Blank { r with pending := p } kind ↔ Blank r kind := by cases kind <;> exact .rfl

namespace State

def done (s : State Hash Header Tx Receipt Peer) (kind : Kind) : Finset Hash :=
  (s.tasks kind).donePool

def outstanding (s : State Hash Header Tx Receipt Peer) (kind : Kind) : List Header :=
  (s.tasks kind).taskQueue ++ (s.tasks kind).pendPool.entries.flatMap (·.2)

variable (T) in
/-- A part of a header is still to be fetched, if `done` are the parts that were. -/
def isOpen (s : State Hash Header Tx Receipt Peer) (done : Kind → Finset Hash) (header : Header)
    (kind : Kind) : Bool :=
  s.needs T header kind ∧ T.hash header ∉ done kind

variable (T) in
def openParts (s : State Hash Header Tx Receipt Peer) (done : Kind → Finset Hash)
    (header : Header) : ℕ :=
  [Kind.body, Kind.receipt].countP (s.isOpen T done header)

@[simp] theorem tasks_update_self :
    (s.update kind f).tasks kind = f (s.tasks kind) := update_self ..

theorem tasks_update_of_ne {k : Kind} (hk : k ≠ kind) :
    (s.update kind f).tasks k = s.tasks k := update_of_ne hk ..

theorem done_update :
    (s.update kind f).done = Function.update s.done kind (f (s.tasks kind)).donePool := by
  funext k
  unfold done
  by_cases hk : k = kind
  · subst hk
    rw [tasks_update_self, update_self]
  · rw [tasks_update_of_ne hk, update_of_ne hk]

variable (s) (header : Header)

theorem done_insert : (s.insert T header).done = s.done := by
  funext kind
  unfold done insert
  dsimp only
  split_ifs <;> rfl

theorem outstanding_insert (kind : Kind) :
    ((s.insert T header).outstanding kind).Perm
      (if s.needs T header kind then header :: s.outstanding kind else s.outstanding kind) := by
  unfold outstanding insert
  dsimp only
  split_ifs
  · unfold Tasks.add
    dsimp only
    rw [append_assoc, singleton_append]
    exact perm_middle
  · exact .refl _

variable {s header} {result : FetchResult Header Tx Receipt}
  {done done' : Kind → Finset Hash} {i : ℕ}

theorem index_eq_some_iff (hoffset : s.resultOffset < size) :
    s.index T header = some i ↔ i < s.resultCache.length ∧ i < 2 ^ 63 ∧
      T.numberU64 header = low (s.resultOffset + i) := by
  have hnumber : T.numberU64 header < size := Nat.mod_lt _ (by decide)
  unfold index subInt64 toInt64 low Int.bmod
  unfold size at *
  dsimp only
  split_ifs <;> simp only [some.injEq, false_iff] <;> omega

theorem pending_container {done : Kind → Finset Hash}
    (hdone : ∀ kind, T.hash header ∉ done kind) :
    (s.container T header).pending = s.openParts T done header := by
  unfold container openParts isOpen
  cases hreceipts : s.fetchesReceipts T header <;> simp [needs, hdone, hreceipts]

theorem openParts_succ (hopen : s.isOpen T done header kind = true)
    (hdone : ∀ k, T.hash header ∈ done' k ↔ k = kind ∨ T.hash header ∈ done k) :
    s.openParts T done' header + 1 = s.openParts T done header := by
  unfold openParts
  cases kind with
  | body => simp_all [isOpen, countP_cons]
  | receipt => simp_all [isOpen, countP_cons, Nat.add_comm]

theorem openParts_congr (hdone : ∀ kind, T.hash header ∈ done' kind ↔ T.hash header ∈ done kind) :
    s.openParts T done' header = s.openParts T done header := by
  unfold openParts isOpen
  simp only [hdone]

theorem index_put (header : Header) : (s.put i result).index T header = s.index T header := by
  unfold index put
  rw [length_set]

theorem mem_done_finish {k : Kind} {hash : Hash} :
    hash ∈ (s.finish T kind header i result).done k ↔
      (hash = T.hash header ∧ k = kind) ∨ hash ∈ s.done k := by
  show hash ∈ (s.update kind fun tasks => { tasks with
    donePool := Insert.insert (T.hash header) tasks.donePool
    taskPool := tasks.taskPool.erase (T.hash header) }).done k ↔ _
  rw [done_update]
  by_cases hk : k = kind
  · subst hk
    rw [update_self, Finset.mem_insert, and_iff_left rfl]
    rfl
  · rw [update_of_ne hk, or_iff_right fun h => hk h.2]

end State

variable (T) in
/-- A result in the cache, if `done` are the parts that were fetched. -/
structure Slot (s : State Hash Header Tx Receipt Peer) (done : Kind → Finset Hash) (i : ℕ)
    (r : FetchResult Header Tx Receipt) : Prop where
  scheduled : r.header ∈ s.scheduled
  fresh : r.header ∉ s.yielded.map (·.header)
  index : s.index T r.header = some i
  pending : r.pending = s.openParts T done r.header
  fits : ∀ kind, T.hash r.header ∈ done kind → Fits T r kind
  blank : ∀ kind, T.hash r.header ∉ done kind → Blank r kind

variable (T first offset) in
/-- `first` is the first scheduled number, `offset` that of the first result, `out` the open
headers. -/
structure Inv (s : State Hash Header Tx Receipt Peer) (out : Kind → List Header) : Prop where
  numbers : s.scheduled.map T.numberU64 = range' first s.scheduled.length
  bound : first + s.scheduled.length < size
  nodup : ∀ kind, (out kind).Nodup
  mem_out : ∀ kind header, header ∈ out kind ↔
    (header ∈ s.scheduled ∧ s.needs T header kind) ∧ T.hash header ∉ s.done kind ∧
      header ∉ s.yielded.map (·.header)
  done_cached : ∀ kind, ∀ hash ∈ s.done kind, ∃ (i : ℕ) (r : FetchResult Header Tx Receipt),
    s.resultCache[i]? = some (some r) ∧ T.hash r.header = hash ∧ s.needs T r.header kind
  cached : ∀ i r, s.resultCache[i]? = some (some r) → Slot T s s.done i r
  resultOffset : s.resultOffset = offset + s.yielded.length
  offset_lt : s.resultOffset < size
  yielded : s.yielded.map (T.numberU64 ·.header) = range' offset s.yielded.length
  complete : ∀ r ∈ s.yielded, r.header ∈ s.scheduled ∧ r.pending = 0 ∧
    ∀ kind, s.needs T r.header kind → Fits T r kind

open State

namespace Inv

variable (h : Inv T first offset s out)
include h

theorem eq_of_number {a b : Header} (ha : a ∈ s.scheduled) (hb : b ∈ s.scheduled)
    (hab : T.numberU64 a = T.numberU64 b) : a = b := by
  refine inj_on_of_nodup_map ?_ ha hb hab
  rw [h.numbers]
  exact nodup_range'

theorem number_lt {a : Header} (ha : a ∈ s.scheduled) :
    T.numberU64 a < first + s.scheduled.length := by
  have hmem := mem_map_of_mem (f := T.numberU64) ha
  rw [h.numbers, mem_range'_1] at hmem
  exact hmem.2

variable {header : Header} {i : ℕ}

theorem slot_header (hmem : header ∈ s.scheduled) (hindex : s.index T header = some i)
    (hr : s.resultCache[i]? = some (some r)) : r.header = header := by
  have hslot := h.cached i r hr
  have hnumber := ((index_eq_some_iff h.offset_lt).mp hindex).2.2
  have hnumber' := ((index_eq_some_iff h.offset_lt).mp hslot.index).2.2
  exact h.eq_of_number hslot.scheduled hmem (hnumber'.trans hnumber.symm)

theorem of_perm {out' : Kind → List Header} (hperm : ∀ kind, (out' kind).Perm (out kind)) :
    Inv T first offset s out' :=
  { h with
    nodup := fun kind => (hperm kind).nodup_iff.mpr (h.nodup kind)
    mem_out := fun kind header => (hperm kind).mem_iff.trans (h.mem_out kind header) }

theorem update (kind : Kind) (hf : (f (s.tasks kind)).donePool = (s.tasks kind).donePool) :
    Inv T first offset (s.update kind f) out := by
  have hdone : (s.update kind f).done = s.done := by
    rw [done_update, hf]
    exact update_eq_self kind s.done
  refine { h with mem_out := ?_, done_cached := ?_, cached := ?_ }
  · rw [hdone]
    exact h.mem_out
  · rw [hdone]
    exact h.done_cached
  · rw [hdone]
    exact fun i r hr => { h.cached i r hr with }

theorem not_done (hindex : s.index T header = some i) (hnone : s.resultCache[i]?.join = none)
    (kind : Kind) : T.hash header ∉ s.done kind := by
  intro hmem
  obtain ⟨j, r, hr, hhash, -⟩ := h.done_cached kind _ hmem
  have heq := T.hash_injective hhash
  have hslot := (h.cached j r hr).index
  rw [heq, hindex] at hslot
  rw [some.inj hslot, hr] at hnone
  cases hnone

/-- **A slot is initialised** for a header with an open task. -/
theorem put (hmem : header ∈ out kind)
    (hindex : s.index T header = some i) :
    Inv T first offset (s.put i (s.resultAt T header i)) out := by
  obtain ⟨⟨hsched, -⟩, -, hfresh⟩ := (h.mem_out kind header).mp hmem
  have hlt := ((index_eq_some_iff h.offset_lt).mp hindex).1
  cases hslot : s.resultCache[i]?.join with
  | some r =>
    have hr : s.resultCache[i]? = some (some r) := join_eq_some_iff.mp hslot
    have heq : s.put i (s.resultAt T header i) = s := by
      unfold State.put State.resultAt
      obtain ⟨hi, heq⟩ := List.getElem?_eq_some_iff.mp hr
      rw [hslot, getD_some, ← heq, set_getElem_self hi]
    rw [heq]
    exact h
  | none =>
    have hnotDone := h.not_done hindex hslot
    have hresult : s.resultAt T header i = s.container T header := by
      unfold resultAt
      rw [hslot, getD_none]
    rw [hresult]
    have hcache : ∀ {j : ℕ} {r : FetchResult Header Tx Receipt},
        s.resultCache[j]? = some (some r) → (s.put i (s.container T header)).resultCache[j]? =
          some (some r) := by
      intro j r hr
      have hne : i ≠ j := by
        rintro rfl
        rw [hr] at hslot
        cases hslot
      exact (getElem?_set_ne hne).trans hr
    refine { h with done_cached := fun kind hash hhash => ?_, cached := fun j r hr => ?_ }
    · obtain ⟨j, r, hr, hrest⟩ := h.done_cached kind hash hhash
      exact ⟨j, r, hcache hr, hrest⟩
    · by_cases hj : i = j
      · subst hj
        have hr : s.container T header = r := by
          have := (getElem?_set_self hlt).symm.trans hr
          exact some.inj (some.inj this)
        subst hr
        refine ⟨hsched, hfresh, (index_put _).trans hindex, pending_container hnotDone,
          fun kind hdone => absurd hdone (hnotDone kind), fun kind _ => ?_⟩
        cases kind with
        | body => exact ⟨rfl, rfl⟩
        | receipt => rfl
      · have hold := h.cached j r ((getElem?_set_ne hj).symm.trans hr)
        exact { hold with index := (index_put _).trans hold.index }

/-- **A task is done**, its slot holding a result that fits. -/
theorem finish {r result : FetchResult Header Tx Receipt}
    {l : List Header} (hout : (out kind).Perm (header :: l)) (hindex : s.index T header = some i)
    (hr : s.resultCache[i]? = some (some r)) (hheader : result.header = r.header)
    (hpending : result.pending = r.pending) (hfits : Fits T result kind)
    (hother : ∀ k ≠ kind, (Fits T r k → Fits T result k) ∧ (Blank r k → Blank result k)) :
    Inv T first offset (s.finish T kind header i result) (Function.update out kind l) := by
  obtain ⟨⟨hsched, hneeds⟩, hnotDone, hfresh⟩ :=
    (h.mem_out kind header).mp (hout.mem_iff.mpr mem_cons_self)
  have hown : r.header = header := h.slot_header hsched hindex hr
  have hresult : result.header = header := hheader.trans hown
  have hslot := h.cached i r hr
  have hlt : i < s.resultCache.length := (List.getElem?_eq_some_iff.mp hr).1
  have hnodup : header ∉ l ∧ l.Nodup := nodup_cons.mp (hout.nodup_iff.mp (h.nodup kind))
  have hself : (s.finish T kind header i result).resultCache[i]? =
      some (some { result with pending := result.pending - 1 }) := getElem?_set_self hlt
  have hne : ∀ {j : ℕ}, i ≠ j →
      (s.finish T kind header i result).resultCache[j]? = s.resultCache[j]? :=
    fun hij => getElem?_set_ne hij
  have hindexEq : ∀ a, (s.finish T kind header i result).index T a = s.index T a := index_put
  refine ⟨h.numbers, h.bound, ?_, fun k a => ?_, fun k hash hhash => ?_,
    fun j r' hr' => ?_, h.resultOffset, h.offset_lt, h.yielded, h.complete⟩
  · exact (forall_update_iff out fun _ l => l.Nodup).mpr ⟨hnodup.2, fun k _ => h.nodup k⟩
  · rw [mem_done_finish, T.hash_injective.eq_iff]
    by_cases hk : k = kind
    · subst hk
      have hold := (hout.mem_iff (a := a)).symm.trans (h.mem_out k a)
      rw [mem_cons] at hold
      rw [update_self, and_iff_left rfl]
      constructor
      · intro ha
        obtain ⟨hs, hd, hy⟩ := hold.mp (.inr ha)
        exact ⟨hs, fun hor => hor.elim (fun heq => hnodup.1 (heq ▸ ha)) hd, hy⟩
      · rintro ⟨hs, hd, hy⟩
        exact (hold.mpr ⟨hs, fun hmem => hd (.inr hmem), hy⟩).resolve_left fun heq => hd (.inl heq)
    · rw [update_of_ne hk, or_iff_right fun hor => hk hor.2]
      exact h.mem_out k a
  · rcases mem_done_finish.mp hhash with ⟨rfl, rfl⟩ | hold
    · exact ⟨i, _, hself, congrArg T.hash hresult, hresult ▸ hneeds⟩
    · obtain ⟨j, r', hr', hhash, hneeds'⟩ := h.done_cached k hash hold
      by_cases hj : i = j
      · subst hj
        obtain rfl : r = r' := some.inj (some.inj (hr.symm.trans hr'))
        rw [← hheader] at hhash hneeds'
        exact ⟨i, _, hself, hhash, hneeds'⟩
      · exact ⟨j, r', (hne hj).trans hr', hhash, hneeds'⟩
  · by_cases hj : i = j
    · subst hj
      obtain rfl := some.inj (some.inj (hself.symm.trans hr'))
      have hiff : ∀ k, T.hash result.header ∈ (s.finish T kind header i result).done k ↔
          k = kind ∨ T.hash r.header ∈ s.done k := by
        intro k
        rw [mem_done_finish, hown, hresult, and_iff_right rfl]
      have hfitsAt : ∀ k, T.hash result.header ∈ (s.finish T kind header i result).done k →
          Fits T result k := by
        intro k hk
        by_cases hkind : k = kind
        · exact hkind ▸ hfits
        · exact (hother k hkind).1 (hslot.fits k (((hiff k).mp hk).resolve_left hkind))
      have hblankAt : ∀ k, T.hash result.header ∉ (s.finish T kind header i result).done k →
          Blank result k := by
        intro k hk
        have hkind : k ≠ kind := fun heq => hk ((hiff k).mpr (.inl heq))
        exact (hother k hkind).2 (hslot.blank k fun hmem => hk ((hiff k).mpr (.inr hmem)))
      refine ⟨show result.header ∈ s.scheduled from hresult ▸ hsched,
        show result.header ∉ s.yielded.map (·.header) from hresult ▸ hfresh,
        (hindexEq _).trans (hresult ▸ hindex), ?_, fun k hk => fits_pending.mpr (hfitsAt k hk),
        fun k hk => blank_pending.mpr (hblankAt k hk)⟩
      have hopen : s.isOpen T s.done result.header kind = true :=
        decide_eq_true (hresult ▸ ⟨hneeds, hnotDone⟩)
      have hcount := openParts_succ hopen fun k => (hiff k).trans (by rw [hheader])
      have hp := hslot.pending
      rw [← hheader, ← hpending, ← hcount] at hp
      show result.pending - 1 = (s.openParts T _ result.header : ℤ)
      omega
    · rw [hne hj] at hr'
      have hold := h.cached j r' hr'
      have hother : r'.header ≠ header := by
        intro heq
        have hindex' := hold.index
        rw [heq, hindex] at hindex'
        exact hj (some.inj hindex')
      have hiff : ∀ k, T.hash r'.header ∈ (s.finish T kind header i result).done k ↔
          T.hash r'.header ∈ s.done k := by
        intro k
        rw [mem_done_finish, T.hash_injective.eq_iff, or_iff_right fun hor => hother hor.1]
      exact ⟨hold.scheduled, hold.fresh, (hindexEq _).trans hold.index,
        hold.pending.trans (congrArg _ (openParts_congr hiff).symm),
        fun k hk => hold.fits k ((hiff k).mp hk),
        fun k hk => hold.blank k fun hmem => hk ((hiff k).mpr hmem)⟩

/-- **A header is scheduled.** -/
theorem insert (hnumber : T.numberU64 header = first + s.scheduled.length)
    (hbound : first + s.scheduled.length + 1 < size) :
    Inv T first offset (s.insert T header)
      (fun kind => if s.needs T header kind then header :: out kind else out kind) := by
  have hnew : header ∉ s.scheduled := by
    intro hmem
    have hlt := h.number_lt hmem
    omega
  have hnotDone : ∀ kind, T.hash header ∉ s.done kind := by
    intro kind hmem
    obtain ⟨i, r, hr, hhash, -⟩ := h.done_cached kind _ hmem
    exact hnew (T.hash_injective hhash ▸ (h.cached i r hr).scheduled)
  have hfresh : header ∉ s.yielded.map (·.header) := by
    intro hmem
    obtain ⟨r, hr, heq⟩ := mem_map.mp hmem
    exact hnew (heq ▸ (h.complete r hr).1)
  have hdone := done_insert (T := T) s header
  refine ⟨?_, ?_, fun kind => ?_, fun kind a => ?_, hdone ▸ h.done_cached, fun i r hr => ?_,
    h.resultOffset, h.offset_lt, h.yielded, fun r hr => ?_⟩
  · show (s.scheduled ++ [header]).map T.numberU64 = range' first (s.scheduled ++ [header]).length
    rw [map_append, h.numbers, length_append, map_singleton, hnumber,
      length_singleton, range'_concat, Nat.one_mul]
  · show first + (s.scheduled ++ [header]).length < _
    rw [length_append, length_singleton]
    omega
  · split_ifs
    · exact nodup_cons.mpr ⟨fun hmem => hnew ((h.mem_out kind header).mp hmem).1.1, h.nodup kind⟩
    · exact h.nodup kind
  · have hold := h.mem_out kind a
    show _ ↔ (a ∈ s.scheduled ++ [header] ∧ s.needs T a kind = true) ∧
      T.hash a ∉ (s.insert T header).done kind ∧ a ∉ s.yielded.map (·.header)
    rw [hdone, mem_append, mem_singleton]
    by_cases ha : a = header
    · subst ha
      have hout : a ∉ out kind := fun hmem => hnew (hold.mp hmem).1.1
      split_ifs with hneeds
      · exact iff_of_true mem_cons_self ⟨⟨.inr rfl, hneeds⟩, hnotDone kind, hfresh⟩
      · exact iff_of_false hout fun hr => hneeds hr.1.2
    · rw [or_iff_left ha, ← hold]
      split_ifs
      · exact mem_cons.trans (or_iff_right ha)
      · rfl
  · have hslot := h.cached i r hr
    rw [hdone]
    exact { hslot with scheduled := mem_append_left _ hslot.scheduled }
  · obtain ⟨hsched, hrest⟩ := h.complete r hr
    exact ⟨mem_append_left _ hsched, hrest⟩

section Yield

variable {results : List (FetchResult Header Tx Receipt)}

omit h

theorem cached_of_front (hfront : results.map some <+: s.resultCache) {k : ℕ}
    (hk : k < results.length) : s.resultCache[k]? = some (some results[k]) := by
  obtain ⟨rest, hrest⟩ := hfront
  rw [← hrest, getElem?_append_left (by rwa [length_map]), getElem?_map, getElem?_eq_getElem hk]
  rfl

variable {r : FetchResult Header Tx Receipt}

theorem mem_done_yield {hash : Hash} :
    hash ∈ (s.yield T results).done kind ↔
      hash ∈ s.done kind ∧ hash ∉ results.map (T.hash ·.header) := by
  show hash ∈ s.done kind \ _ ↔ _
  rw [Finset.mem_sdiff, List.mem_toFinset]

theorem cached_yield (hr : (s.yield T results).resultCache[i]? = some (some r)) :
    s.resultCache[results.length + i]? = some (some r) := by
  rw [← getElem?_drop]
  have hr' : (s.resultCache.drop results.length ++
      replicate results.length none)[i]? = some (some r) := hr
  rw [getElem?_append] at hr'
  split_ifs at hr'
  · exact hr'
  · rw [getElem?_replicate] at hr'
    split_ifs at hr'
    cases hr'

theorem yield_cached (hr : s.resultCache[results.length + i]? = some (some r)) :
    (s.yield T results).resultCache[i]? = some (some r) := by
  rw [← getElem?_drop] at hr
  exact (List.getElem?_append_left (List.getElem?_eq_some_iff.mp hr).1).trans hr

include h

theorem done_of_complete (hr : s.resultCache[i]? = some (some r))
    (hpending : r.pending ≤ 0) :
    r.pending = 0 ∧ ∀ kind, s.needs T r.header kind → T.hash r.header ∈ s.done kind := by
  have hcount := (h.cached i r hr).pending
  have hzero : s.openParts T s.done r.header = 0 := by omega
  refine ⟨by omega, fun kind hneeds => ?_⟩
  have hopen := countP_eq_zero.mp hzero kind (by cases kind <;> decide)
  by_contra hdone
  exact hopen (decide_eq_true ⟨hneeds, hdone⟩)

theorem offset_add_lt (hfront : results.map some <+: s.resultCache) :
    ∀ k ≤ results.length, s.resultOffset + k < size
  | 0, _ => h.offset_lt
  | k + 1, hk => by
    have ih := offset_add_lt hfront k (by omega)
    have hslot := h.cached k _ (cached_of_front hfront hk)
    have hnumber := ((index_eq_some_iff h.offset_lt).mp hslot.index).2.2
    rw [low_of_lt ih] at hnumber
    have hlt := h.number_lt hslot.scheduled
    have hbound := h.bound
    omega

theorem index_yield (hfront : results.map some <+: s.resultCache)
    (hindex : s.index T header = some (results.length + i)) :
    (s.yield T results).index T header = some i := by
  have hoffset := h.offset_add_lt hfront results.length le_rfl
  have hadd : (s.yield T results).resultOffset = s.resultOffset + results.length :=
    low_of_lt hoffset
  have hlen : (s.yield T results).resultCache.length = s.resultCache.length := by
    show (s.resultCache.drop results.length ++ replicate results.length none).length = _
    have hle := hfront.length_le
    rw [length_map] at hle
    rw [length_append, length_drop, length_replicate]
    omega
  obtain ⟨hlt, hsmall, hnumber⟩ := (index_eq_some_iff h.offset_lt).mp hindex
  refine (index_eq_some_iff (hadd ▸ hoffset)).mpr ⟨by omega, by omega, ?_⟩
  rw [hnumber, hadd, Nat.add_assoc]

/-- **Complete results are handed out.** -/
theorem yield (hfront : results.map some <+: s.resultCache)
    (hpending : ∀ r ∈ results, r.pending ≤ 0) : Inv T first offset (s.yield T results) out := by
  have hat : ∀ r ∈ results, ∃ k < results.length, s.resultCache[k]? = some (some r) := by
    intro r hr
    obtain ⟨k, hk, rfl⟩ := getElem_of_mem hr
    exact ⟨k, hk, cached_of_front hfront hk⟩
  have hcomplete : ∀ r ∈ results, r.pending = 0 ∧
      ∀ kind, s.needs T r.header kind → T.hash r.header ∈ s.done kind := by
    intro r hr
    obtain ⟨k, -, hk⟩ := hat r hr
    exact h.done_of_complete hk (hpending r hr)
  have hmem : ∀ a, T.hash a ∈ results.map (T.hash ·.header) ↔ a ∈ results.map (·.header) := by
    intro a
    rw [← List.mem_map_of_injective T.hash_injective, List.map_map]
    rfl
  -- a result that stays is none of those that leave
  have hstays : ∀ i r, s.resultCache[results.length + i]? = some (some r) →
      r.header ∉ results.map (·.header) := by
    intro i r hr hheader
    obtain ⟨r', hr', heq⟩ := mem_map.mp hheader
    obtain ⟨k, hk, hk'⟩ := hat r' hr'
    have hindex := (h.cached k r' hk').index
    rw [heq, (h.cached _ r hr).index] at hindex
    have := some.inj hindex
    omega
  refine ⟨h.numbers, h.bound, h.nodup, fun kind a => ?_, fun kind hash hhash => ?_,
    fun i r hr => ?_, ?_, ?_, ?_, fun r hr => ?_⟩
  · show _ ↔ (a ∈ s.scheduled ∧ s.needs T a kind = true) ∧
      T.hash a ∉ (s.yield T results).done kind ∧ a ∉ (s.yielded ++ results).map (·.header)
    rw [h.mem_out, mem_done_yield, hmem, map_append, mem_append]
    refine and_congr_right fun ⟨_, hneeds⟩ => ⟨fun ⟨hd, hy⟩ => ⟨fun hd' => hd hd'.1, ?_⟩,
      fun ⟨hd, hy⟩ => ⟨fun hd' => hd ⟨hd', fun hr => hy (.inr hr)⟩, fun hy' => hy (.inl hy')⟩⟩
    rintro (hy' | hr)
    · exact hy hy'
    · obtain ⟨r, hresult, rfl⟩ := mem_map.mp hr
      exact hd ((hcomplete r hresult).2 kind hneeds)
  · obtain ⟨hold, hnot⟩ := mem_done_yield.mp hhash
    obtain ⟨j, r, hr, rfl, hneeds⟩ := h.done_cached kind hash hold
    have hj : results.length ≤ j := by
      by_contra hlt
      have hr' := cached_of_front hfront (Nat.lt_of_not_le hlt)
      obtain rfl := some.inj (some.inj (hr'.symm.trans hr))
      exact hnot (mem_map.mpr ⟨_, getElem_mem _, rfl⟩)
    obtain ⟨i, rfl⟩ := Nat.exists_eq_add_of_le hj
    exact ⟨i, r, yield_cached hr, rfl, hneeds⟩
  · have hr := cached_yield hr
    have hslot := h.cached _ r hr
    have hiff : ∀ kind, T.hash r.header ∈ (s.yield T results).done kind ↔
        T.hash r.header ∈ s.done kind := by
      intro kind
      rw [mem_done_yield, hmem, and_iff_left (hstays i r hr)]
    refine ⟨hslot.scheduled, ?_, h.index_yield hfront hslot.index,
      hslot.pending.trans (congrArg _ (openParts_congr hiff).symm),
      fun k hk => hslot.fits k ((hiff k).mp hk),
      fun k hk => hslot.blank k fun hmem => hk ((hiff k).mpr hmem)⟩
    show r.header ∉ (s.yielded ++ results).map (·.header)
    rw [map_append, mem_append]
    exact fun hor => hor.elim hslot.fresh (hstays i r hr)
  · show low (s.resultOffset + results.length) = offset + (s.yielded ++ results).length
    rw [low_of_lt (h.offset_add_lt hfront _ le_rfl), h.resultOffset, length_append, Nat.add_assoc]
  · exact Nat.mod_lt _ (by decide)
  · show (s.yielded ++ results).map (T.numberU64 ·.header) =
      range' offset (s.yielded ++ results).length
    rw [map_append, h.yielded, length_append, ← range'_append_1, ← h.resultOffset]
    refine congrArg _ (ext_getElem (by simp) fun k hk hk' => ?_)
    rw [length_map] at hk
    have hslot := h.cached k _ (cached_of_front hfront hk)
    have hnumber := ((index_eq_some_iff h.offset_lt).mp hslot.index).2.2
    rw [getElem_map, getElem_range', hnumber, Nat.one_mul,
      low_of_lt (h.offset_add_lt hfront k hk.le)]
  · rcases mem_append.mp hr with hold | hnew
    · exact h.complete r hold
    · obtain ⟨k, -, hk⟩ := hat r hnew
      have hslot := h.cached k r hk
      obtain ⟨hzero, hdone⟩ := hcomplete r hnew
      exact ⟨hslot.scheduled, hzero, fun kind hneeds => hslot.fits kind (hdone kind hneeds)⟩

end Yield

end Inv

/-! ## The calls -/

namespace State

def SameQueues (s t : State Hash Header Tx Receipt Peer) : Prop :=
  ∀ kind, (t.tasks kind).taskQueue = (s.tasks kind).taskQueue ∧
    (t.tasks kind).pendPool = (s.tasks kind).pendPool

theorem SameQueues.refl (s : State Hash Header Tx Receipt Peer) : SameQueues s s :=
  fun _ => ⟨rfl, rfl⟩

variable {u : State Hash Header Tx Receipt Peer}

theorem SameQueues.trans (h₁ : SameQueues s t) (h₂ : SameQueues t u) : SameQueues s u :=
  fun kind => ⟨(h₂ kind).1.trans (h₁ kind).1, (h₂ kind).2.trans (h₁ kind).2⟩

theorem sameQueues_finish {header : Header} {i : ℕ} {result : FetchResult Header Tx Receipt} :
    SameQueues s (s.finish T kind header i result) := by
  intro k
  by_cases hk : k = kind
  · subst hk
    unfold finish put
    rw [tasks_update_self]
    exact ⟨rfl, rfl⟩
  · unfold finish put
    rw [tasks_update_of_ne hk]
    exact ⟨rfl, rfl⟩

theorem update_update : (s.update kind f).update kind g = s.update kind (g ∘ f) := by
  unfold update
  dsimp only
  rw [update_self, update_idem]
  rfl

variable {peer : Peer}

theorem outstanding_update (hsame : SameQueues s u) (k : Kind) :
    (u.update kind f).outstanding k = Function.update s.outstanding kind
      ((f (u.tasks kind)).taskQueue ++ (f (u.tasks kind)).pendPool.entries.flatMap (·.2)) k := by
  unfold outstanding
  by_cases hk : k = kind
  · subst hk
    rw [tasks_update_self, update_self]
  · rw [tasks_update_of_ne hk, update_of_ne hk, (hsame k).1, (hsame k).2]

theorem pending_perm {pendPool : Table Peer (List Header)} {headers : List Header}
    (h : pendPool.lookup peer = some headers) : (pendPool.entries.flatMap (·.2)).Perm
      (headers ++ (pendPool.erase peer).entries.flatMap (·.2)) :=
  (entries_perm_erase h).flatMap_right _

omit [DecidableEq Hash] [DecidableEq Peer] in
theorem update_perm {l l' : List Header} (h : l.Perm l') (k : Kind) :
    (Function.update out kind l k).Perm (Function.update out kind l' k) := by
  rw [update_apply, update_apply]
  split
  · exact h
  · rfl

theorem deliver_cases {results : ℕ} {reconstruct : Header → ℕ → FetchResult Header Tx Receipt →
      Option (Option (FetchResult Header Tx Receipt))}
    {r : State Hash Header Tx Receipt Peer × ℕ × Option Err}
    (h : s.deliver T kind peer results reconstruct = some r) :
    r.1 = s ∨ ∃ headers, (s.tasks kind).pendPool.lookup peer = some headers ∧
      let loop := (s.update kind fun tasks => { tasks with
        pendPool := tasks.pendPool.erase peer }).deliverLoop T kind results reconstruct headers
      r.1 = loop.1.1.push kind loop.2.1 := by
  unfold deliver at h
  split at h
  · cases h
    exact .inl rfl
  · rename_i headers hheaders
    refine .inr ⟨headers, hheaders, ?_⟩
    dsimp only at h ⊢
    split at h
    · cases h
    all_goals rename_i heq; cases h; rw [heq]

theorem countProcessable_spec (s : State Hash Header Tx Receipt Peer) :
    ∀ (l : List (Option (FetchResult Header Tx Receipt))) (i : ℕ),
      ∃ results : List (FetchResult Header Tx Receipt),
        s.countProcessable T l i = i + results.length ∧ results.map some <+: l ∧
          ∀ r ∈ results, r.pending ≤ 0
  | [], i => ⟨[], rfl, nil_prefix, by simp⟩
  | none :: l, i => ⟨[], rfl, nil_prefix, by simp⟩
  | some result :: l, i => by
    unfold countProcessable
    split_ifs with hpending hpivot
    · exact ⟨[], rfl, nil_prefix, by simp⟩
    · exact ⟨[], rfl, nil_prefix, by simp⟩
    · obtain ⟨results, hcount, hfront, hresults⟩ := s.countProcessable_spec l (i + 1)
      refine ⟨result :: results, ?_, ?_, ?_⟩
      · rw [hcount, length_cons]
        omega
      · exact cons_prefix_cons.mpr ⟨rfl, hfront⟩
      · exact forall_mem_cons.mpr ⟨by omega, hresults⟩

theorem schedule_spec (T : Types Hash Header Tx Receipt) : ∀ (headers : List Header) (want : ℕ)
    (inserts : List Header) (s : State Hash Header Tx Receipt Peer), ∃ new : List Header,
    (s.schedule T headers want inserts).1.scheduled = s.scheduled ++ new ∧
      (s.schedule T headers want inserts).2 = inserts ++ new
  | [], _, _, _ => ⟨[], (append_nil _).symm, (append_nil _).symm⟩
  | header :: headers, want, inserts, s => by
    unfold schedule
    split_ifs
    · exact ⟨[], (append_nil _).symm, (append_nil _).symm⟩
    · exact ⟨[], (append_nil _).symm, (append_nil _).symm⟩
    · exact schedule_spec T headers want inserts s
    · exact schedule_spec T headers want inserts s
    · obtain ⟨new, hscheduled, hinserts⟩ := schedule_spec T headers (add want 1)
        (inserts ++ [header]) (s.insert T header)
      refine ⟨header :: new, hscheduled.trans ?_, hinserts.trans (append_cons ..).symm⟩
      exact (append_cons ..).symm

end State

namespace Inv

open State

variable (h : Inv T first offset s s.outstanding)
include h

theorem waitResults (ht : s.waitResults T = some t) : Inv T first offset t t.outstanding := by
  obtain ⟨results, hcount, hfront, hpending⟩ := s.countProcessable_spec (T := T) s.resultCache 0
  have hresults : (s.resultCache.take (s.countProcessableItems T)).reduceOption = results := by
    have htake := prefix_iff_eq_take.mp hfront
    rw [length_map] at htake
    rw [countProcessableItems, hcount, Nat.zero_add, ← htake]
    exact filterMap_map.trans filterMap_some
  unfold State.waitResults at ht
  dsimp only at ht
  rw [hresults] at ht
  obtain ⟨-, ht⟩ := ite_none_left_eq_some.mp ht
  cases ht
  exact h.yield hfront hpending

variable {peer : Peer}

theorem cancel (ht : s.cancel kind peer = some t) : Inv T first offset t t.outstanding := by
  obtain ⟨headers, hheaders, rfl⟩ := map_eq_some_iff.mp ht
  refine ((h.update kind ?_).update kind ?_).of_perm fun k => ?_
  · rfl
  · rfl
  · unfold outstanding push
    by_cases hk : k = kind
    · subst hk
      rw [tasks_update_self, tasks_update_self]
      rw [append_assoc]
      exact (pending_perm hheaders).symm.append_left _
    · rw [tasks_update_of_ne hk, tasks_update_of_ne hk]

theorem revoke (peer : Peer) : Inv T first offset (s.revoke peer) (s.revoke peer).outstanding := by
  have hcancel : ∀ {s : State Hash Header Tx Receipt Peer} (kind : Kind),
      Inv T first offset s s.outstanding → Inv T first offset ((s.cancel kind peer).getD s)
        ((s.cancel kind peer).getD s).outstanding := by
    intro s kind h
    cases ht : s.cancel kind peer with
    | none => exact h
    | some t => exact h.cancel ht
  exact hcancel .receipt (hcancel .body h)

theorem expire {expired : List Peer} (ht : s.expire kind expired = some t) :
    Inv T first offset t t.outstanding :=
  run_invariant (I := fun s => Inv T first offset s s.outstanding)
    (fun _ _ _ hi hs => hi.cancel hs) h ht

omit h

theorem schedule : ∀ (headers : List Header) {want : ℕ} (inserts : List Header)
    {s : State Hash Header Tx Receipt Peer}, Inv T first offset s s.outstanding →
    want = first + s.scheduled.length →
    first + (s.schedule T headers want inserts).1.scheduled.length < size →
      Inv T first offset (s.schedule T headers want inserts).1
        (s.schedule T headers want inserts).1.outstanding
  | [], _, _, _, h, _, _ => h
  | header :: headers, want, inserts, s, h, hwant, hbound => by
    unfold State.schedule at hbound ⊢
    split_ifs at hbound ⊢ with hnumber hhead hbody hreceipt
    · exact h
    · exact h
    · exact schedule headers inserts h hwant hbound
    · exact schedule headers inserts h hwant hbound
    · obtain ⟨-, hnumber⟩ := not_or.mp hnumber
      obtain ⟨new, hscheduled, -⟩ := schedule_spec T headers (add want 1)
        (inserts ++ [header]) (s.insert T header)
      have hle := congrArg length hscheduled
      rw [length_append] at hle
      have hlen : (s.insert T header).scheduled.length = s.scheduled.length + 1 := length_append
      have hadd : add want 1 = first + (s.insert T header).scheduled.length := by
        rw [hlen, ← Nat.add_assoc, ← hwant]
        exact low_of_lt (by omega)
      refine schedule headers _ ?_ hadd hbound
      exact (h.insert ((not_not.mp hnumber).trans hwant) (by omega)).of_perm
        (s.outstanding_insert header)

variable {lacks : Hash → Bool} {header : Header}

theorem reserveTask_error
    {l : Loop Hash Header Tx Receipt Peer} {e : Err}
    (h : reserveTask T kind lacks l header = .error e) : e = .invalidChain := by
  unfold reserveTask at h
  cases hindex : l.state.index T header with
  | none =>
    rw [hindex] at h
    cases h
    rfl
  | some i =>
    rw [hindex] at h
    cases h

theorem reserveTask
    {queue rest : List Header} {l l' : Loop Hash Header Tx Receipt Peer}
    (h : Inv T first offset l.state
      (Function.update out kind (header :: queue ++ (l.send ++ l.skip ++ rest))))
    (hl : reserveTask T kind lacks l header = .ok l') :
    SameQueues l.state l'.state ∧ Inv T first offset l'.state
      (Function.update out kind (queue ++ (l'.send ++ l'.skip ++ rest))) := by
  have hmem : header ∈ Function.update out kind
      (header :: queue ++ (l.send ++ l.skip ++ rest)) kind := by simp
  unfold State.reserveTask at hl
  cases hindex : l.state.index T header with
  | none =>
    rw [hindex] at hl
    cases hl
  | some i =>
    rw [hindex] at hl
    cases hl
    have hput := h.put hmem hindex
    have hat : (l.state.put i (l.state.resultAt T header i)).resultCache[i]? =
        some (some (l.state.resultAt T header i)) :=
      getElem?_set_self ((index_eq_some_iff h.offset_lt).mp hindex).1
    have hindex' : (l.state.put i (l.state.resultAt T header i)).index T header = some i :=
      (index_put header).trans hindex
    split_ifs with hnoop hlacks
    · -- a fetch that is a no-op leaves the slot blank
      obtain ⟨⟨hsched, -⟩, hnotDone, -⟩ := (hput.mem_out kind header).mp hmem
      have hheader := hput.slot_header hsched hindex' hat
      have hblank := (hput.cached i _ hat).blank kind (hheader.symm ▸ hnotDone)
      have hfinish := hput.finish (l := queue ++ (l.send ++ l.skip ++ rest))
        (by rw [update_self]; exact .refl _) hindex' hat rfl rfl
        (hblank.fits (hheader.symm ▸ hnoop)) fun k _ => ⟨id, id⟩
      rw [update_idem] at hfinish
      exact ⟨sameQueues_finish, hfinish⟩
    · refine ⟨.refl _, hput.of_perm (update_perm ?_)⟩
      have hmiddle : (queue ++ (l.send ++ l.skip) ++ header :: rest).Perm
          (header :: (queue ++ (l.send ++ l.skip) ++ rest)) := perm_middle
      simpa using hmiddle
    · refine ⟨.refl _, hput.of_perm (update_perm ?_)⟩
      have hmiddle : (queue ++ l.send ++ header :: (l.skip ++ rest)).Perm
          (header :: (queue ++ l.send ++ (l.skip ++ rest))) := perm_middle
      simpa using hmiddle

variable (T first offset s) in
/-- In the loop of `reserveHeaders`: the tasks that were popped are sent or skipped, all others
stay. -/
structure Reserving (kind : Kind) (queue : List Header) (l : Loop Hash Header Tx Receipt Peer) :
    Prop where
  same : SameQueues s l.state
  inv : Inv T first offset l.state (Function.update s.outstanding kind
    (queue ++ (l.send ++ l.skip ++ (s.tasks kind).pendPool.entries.flatMap (·.2))))

include h

theorem reserving (kind : Kind) (order : Ranging Header) : Reserving T s first offset kind
      (order.visit (s.tasks kind).taskQueue) ⟨s, s.space kind, 0, [], [], false⟩ := by
  refine ⟨.refl s, h.of_perm fun k => ?_⟩
  refine (update_perm ((order.visit_perm _).append_right _) k).trans (.of_eq ?_)
  exact congrFun (update_eq_self kind s.outstanding) k

theorem reserveLoop (kind : Kind) (count : ℕ)
    (lacks : Hash → Bool) (order : Ranging Header) :
    Reserving T s first offset kind (s.reserveLoop T kind count lacks order).2.1
      (s.reserveLoop T kind count lacks order).1 := by
  refine drain_invariant (I := Reserving T s first offset kind) ?_ (h.reserving kind order)
  intro header queue l l' hl htask
  obtain ⟨hsame, hinv⟩ := hl.inv.reserveTask htask
  exact ⟨hl.same.trans hsame, hinv⟩

theorem reserveHeaders {count : ℕ} {order : Ranging Header}
    (herr : (s.reserveHeaders T kind peer count lacks order).2.2.2 ≠ some .invalidChain) :
    Inv T first offset (s.reserveHeaders T kind peer count lacks order).1
      (s.reserveHeaders T kind peer count lacks order).1.outstanding := by
  unfold State.reserveHeaders at herr ⊢
  split_ifs at herr ⊢ with hempty hpeer
  · exact h
  · exact h
  have hloop := h.reserveLoop kind count lacks order
  have hnone : (s.tasks kind).pendPool.lookup peer = none := by simpa using hpeer
  rcases hr : s.reserveLoop T kind count lacks order with ⟨l, queue, failure⟩
  rw [hr] at herr hloop
  cases failure with
  | some e =>
    obtain ⟨_, _, _, -, -, htask⟩ := drain_error (I := fun _ _ => True) (fun _ _ _ _ _ _ => trivial)
      trivial (congrArg (·.2.2) hr)
    exact absurd (congrArg some (reserveTask_error htask)) herr
  | none =>
    obtain ⟨hsame, hinv⟩ := hloop
    dsimp only at hinv ⊢
    split_ifs with hsend
    · dsimp only
      refine (hinv.update kind ?_).of_perm fun k => ?_
      · rfl
      · rw [outstanding_update hsame]
        refine update_perm ?_ k
        rw [isEmpty_iff.mp hsend, (hsame kind).2, append_assoc]
        exact .refl _
    · dsimp only
      refine ((hinv.update kind ?_).update kind ?_).of_perm fun k => ?_
      · rfl
      · rfl
      · rw [update_update, outstanding_update hsame]
        refine update_perm ?_ k
        dsimp only [comp_apply]
        rw [(hsame kind).2, AList.entries_insert_of_notMem (AList.lookup_eq_none.mp hnone),
          flatMap_cons]
        simpa using (perm_append_comm_assoc l.skip l.send _).append_left queue

omit h

variable (T) in
/-- What `reconstruct` accepts fits its header, and nothing else of the result changes. -/
def Reconstructs (kind : Kind) (reconstruct : Header → ℕ → FetchResult Header Tx Receipt →
    Option (Option (FetchResult Header Tx Receipt))) : Prop :=
  ∀ header i r result, reconstruct header i r = some (some result) →
    result.header = r.header ∧ result.pending = r.pending ∧
      (r.header = header → Fits T result kind) ∧
      ∀ k ≠ kind, (Fits T r k → Fits T result k) ∧ (Blank r k → Blank result k)

theorem reconstructs_body (T : Types Hash Header Tx Receipt) (txLists : List (List Tx))
    (uncleLists : List (List Header)) :
    Reconstructs T .body (reconstructBody T txLists uncleLists) := by
  intro header i r result h
  obtain ⟨transactions, -, h⟩ := bind_eq_some_iff.mp h
  split_ifs at h with htx
  · cases h
  obtain ⟨uncles, -, h⟩ := map_eq_some_iff.mp h
  obtain ⟨huncle, h⟩ := ite_none_left_eq_some.mp h
  cases h
  refine ⟨rfl, rfl, ?_, fun k hk => ?_⟩
  · rintro rfl
    exact ⟨not_not.mp htx, not_not.mp huncle⟩
  · cases k with
    | body => exact absurd rfl hk
    | receipt => exact ⟨id, id⟩

theorem reconstructs_receipts (T : Types Hash Header Tx Receipt)
    (receiptList : List (List Receipt)) :
    Reconstructs T .receipt (reconstructReceipts T receiptList) := by
  intro header i r result h
  obtain ⟨receipts, -, h⟩ := map_eq_some_iff.mp h
  obtain ⟨hreceipt, h⟩ := ite_none_left_eq_some.mp h
  cases h
  refine ⟨rfl, rfl, ?_, fun k hk => ?_⟩
  · rintro rfl
    exact not_not.mp hreceipt
  · cases k with
    | body => exact ⟨id, id⟩
    | receipt => exact absurd rfl hk

variable {reconstruct : Header → ℕ → FetchResult Header Tx Receipt →
    Option (Option (FetchResult Header Tx Receipt))}
  {headers : List Header} {results : ℕ}

theorem deliverTask (hrec : Reconstructs T kind reconstruct)
    {loop loop' : State Hash Header Tx Receipt Peer × ℕ}
    (h : Inv T first offset loop.1 (Function.update out kind (header :: headers)))
    (hl : deliverTask T kind reconstruct loop header = .ok loop') :
    SameQueues loop.1 loop'.1 ∧ Inv T first offset loop'.1 (Function.update out kind headers) := by
  have hmem : header ∈ Function.update out kind (header :: headers) kind := by simp
  unfold State.deliverTask at hl
  cases hslot : (loop.1.index T header).bind fun j => loop.1.resultCache[j]?.join.map (j, ·) with
  | none =>
    rw [hslot] at hl
    cases hl
  | some p =>
    obtain ⟨j, r⟩ := p
    rw [hslot] at hl
    obtain ⟨_, hindex, hjoin⟩ := bind_eq_some_iff.mp hslot
    obtain ⟨_, hr, heq⟩ := map_eq_some_iff.mp hjoin
    cases heq
    have hr := join_eq_some_iff.mp hr
    dsimp only at hl
    rcases hresult : reconstruct header loop.2 r with _ | _ | result
    · rw [hresult] at hl
      cases hl
    · rw [hresult] at hl
      cases hl
    · rw [hresult] at hl
      cases hl
      obtain ⟨hheader, hpending, hfits, hother⟩ := hrec _ _ _ _ hresult
      have hown := h.slot_header ((h.mem_out kind header).mp hmem).1.1 hindex hr
      have hfinish := h.finish (l := headers) (by rw [update_self]) hindex hr hheader
        hpending (hfits hown) hother
      rw [update_idem] at hfinish
      exact ⟨sameQueues_finish, hfinish⟩

variable (T s first offset) in
/-- In the loop of `deliver`: the headers that were delivered are done. -/
structure Delivering (kind : Kind) (rest headers : List Header)
    (loop : State Hash Header Tx Receipt Peer × ℕ) : Prop where
  same : SameQueues s loop.1
  inv : Inv T first offset loop.1 (Function.update s.outstanding kind (headers ++ rest))

theorem deliverLoop (hrec : Reconstructs T kind reconstruct) {headers rest : List Header}
    (h : Inv T first offset s (Function.update s.outstanding kind (headers ++ rest))) :
    Delivering T s first offset kind rest (s.deliverLoop T kind results reconstruct headers).2.1
      (s.deliverLoop T kind results reconstruct headers).1 := by
  refine drain_invariant (I := Delivering T s first offset kind rest) ?_ ⟨.refl s, h⟩
  intro header headers loop loop' hl htask
  obtain ⟨hsame, hinv⟩ := hl.inv.deliverTask hrec htask
  exact ⟨hl.same.trans hsame, hinv⟩

theorem push {loop : State Hash Header Tx Receipt Peer × ℕ}
    (h : Delivering T s first offset kind (s.outstanding kind) headers loop) :
    Inv T first offset (loop.1.push kind headers) (loop.1.push kind headers).outstanding := by
  refine (h.inv.update kind ?_).of_perm fun k => ?_
  · rfl
  · unfold State.push
    rw [outstanding_update h.same]
    refine update_perm ?_ k
    rw [(h.same kind).1, (h.same kind).2, append_assoc]
    exact perm_append_comm_assoc ..

include h

theorem deliver (hrec : Reconstructs T kind reconstruct)
    {r : State Hash Header Tx Receipt Peer × ℕ × Option Err}
    (hr : s.deliver T kind peer results reconstruct = some r) :
    Inv T first offset r.1 r.1.outstanding := by
  rcases deliver_cases hr with heq | ⟨headers, hheaders, heq⟩
  · rwa [heq]
  rw [heq]
  refine push (deliverLoop hrec ((h.update kind rfl).of_perm fun k => ?_))
  unfold outstanding
  by_cases hk : k = kind
  · subst hk
    rw [update_self, tasks_update_self]
    refine (perm_append_comm_assoc ..).trans ?_
    exact (pending_perm hheaders).symm.append_left _
  · rw [update_of_ne hk, tasks_update_of_ne hk]

/-- **Every call keeps the invariant.** -/
theorem step {a : Act Hash Header Tx Receipt Peer} (hcontinues : continues T first s a = true) (herr
      : ∀ kind peer count lacks order, a = .reserve kind peer count lacks order → (s.reserveHeaders
      T kind peer count lacks order).2.2.2 ≠ some .invalidChain) (ht : step T s a = some t) :
    Inv T first offset t t.outstanding := by
  obtain ⟨r, hcall, rfl⟩ := map_eq_some_iff.mp ht
  cases a with
  | schedule headers want =>
    cases hcall
    obtain ⟨hwant, hbound⟩ := of_decide_eq_true hcontinues
    obtain ⟨new, hscheduled, hinserts⟩ := schedule_spec T headers want [] s
    refine h.schedule headers [] hwant ?_
    rw [hinserts, nil_append] at hbound
    rw [hscheduled, length_append]
    omega
  | reserve kind peer count lacks order =>
    cases hcall
    exact h.reserveHeaders (herr _ _ _ _ _ rfl)
  | deliverBodies peer txLists uncleLists =>
    obtain ⟨r, hr, rfl⟩ := map_eq_some_iff.mp hcall
    exact h.deliver (reconstructs_body T txLists uncleLists) hr
  | deliverReceipts peer receiptList =>
    obtain ⟨r, hr, rfl⟩ := map_eq_some_iff.mp hcall
    exact h.deliver (reconstructs_receipts T receiptList) hr
  | cancel kind peer =>
    obtain ⟨u, hu, rfl⟩ := map_eq_some_iff.mp hcall
    exact h.cancel hu
  | revoke peer =>
    cases hcall
    exact h.revoke peer
  | expire kind expired =>
    obtain ⟨u, hu, rfl⟩ := map_eq_some_iff.mp hcall
    exact h.expire hu
  | waitResults =>
    obtain ⟨u, hu, rfl⟩ := map_eq_some_iff.mp hcall
    exact h.waitResults hu
  | close =>
    cases hcall
    exact ⟨h.numbers, h.bound, h.nodup, h.mem_out, h.done_cached, fun i r hr =>
      { h.cached i r hr with }, h.resultOffset, h.offset_lt, h.yielded, h.complete⟩

omit h

theorem prepared (hfirst : first < size) (hoffset : offset < size) (limit : ℕ)
    (mode : SyncMode) (pivot : ℕ) : Inv T first offset
      (prepared T limit offset mode pivot : State Hash Header Tx Receipt Peer)
      (prepared T limit offset mode pivot : State Hash Header Tx Receipt Peer).outstanding := by
  have hresultOffset : (State.prepared T limit offset mode pivot :
      State Hash Header Tx Receipt Peer).resultOffset = offset := by
    show (if 0 < offset then offset else 0) = offset
    split_ifs <;> omega
  refine ⟨rfl, hfirst, fun _ => nodup_nil, fun kind header => ?_, fun kind hash hhash => ?_,
    fun i r hr => ?_, hresultOffset, hresultOffset.symm ▸ hoffset, rfl, fun r hr => ?_⟩
  · exact iff_of_false not_mem_nil fun hmem => absurd hmem.1.1 not_mem_nil
  · exact absurd hhash (Finset.notMem_empty hash)
  · have hr' : (replicate limit none)[i]? = some (some r) := hr
    rw [getElem?_replicate] at hr'
    split_ifs at hr'
    cases hr'
  · cases hr

theorem done_fresh (h : Inv T first offset s out)
    (hdone : T.hash header ∈ s.done kind) : header ∉ s.yielded.map (·.header) := by
  obtain ⟨i, r, hr, hhash, -⟩ := h.done_cached kind _ hdone
  exact T.hash_injective hhash ▸ (h.cached i r hr).fresh

end Inv

/-! ## Runs -/

/-- **No task is lost or doubled, and results come in order.** -/
theorem tasks_conserved {limit pivot : ℕ} {mode : SyncMode}
    {as : List (Act Hash Header Tx Receipt Peer)} (hfirst : first < size)
    (hoffset : offset < size)
    (hrun : run (step T) (prepared T limit offset mode pivot) as = some s)
    (hok : Along (step T) (Admissible T first) (prepared T limit offset mode pivot) as) :
    (∀ kind, ((s.tasks kind).taskQueue ++ (s.tasks kind).pendPool.entries.flatMap (·.2)).Nodup) ∧
      (∀ kind, ∀ header ∈ s.scheduled, s.needs T header kind →
        (header ∈ s.outstanding kind ∧ T.hash header ∉ (s.tasks kind).donePool ∧
          header ∉ s.yielded.map (·.header)) ∨
        (header ∉ s.outstanding kind ∧ T.hash header ∈ (s.tasks kind).donePool ∧
          header ∉ s.yielded.map (·.header)) ∨
        (header ∉ s.outstanding kind ∧ T.hash header ∉ (s.tasks kind).donePool ∧
          header ∈ s.yielded.map (·.header))) ∧
      s.yielded.map (T.numberU64 ·.header) = range' offset s.yielded.length ∧
      (∀ r ∈ s.yielded, r.header ∈ s.scheduled ∧ ∀ kind, s.needs T r.header kind → Fits T r kind) ∧
      ∀ r, some r ∈ s.resultCache ∨ r ∈ s.yielded → 0 ≤ r.pending := by
  have h : Inv T first offset s s.outstanding :=
    run_invariant_along (I := fun s => Inv T first offset s s.outstanding)
      (fun _ _ _ hi ha hs => hi.step ha.1 (by rintro _ _ _ _ _ rfl; exact ha.2) hs)
      (Inv.prepared hfirst hoffset limit mode pivot) hok hrun
  refine ⟨h.nodup, fun kind header hmem hneeds => ?_, h.yielded,
    fun r hr => ⟨(h.complete r hr).1, (h.complete r hr).2.2⟩, fun r hr => ?_⟩
  · have hout := h.mem_out kind header
    rw [and_iff_right ⟨hmem, hneeds⟩] at hout
    by_cases hdone : T.hash header ∈ s.done kind
    · exact .inr (.inl ⟨fun ho => (hout.mp ho).1 hdone, hdone, h.done_fresh hdone⟩)
    · by_cases hyielded : header ∈ s.yielded.map (·.header)
      · exact .inr (.inr ⟨fun ho => (hout.mp ho).2 hyielded, hdone, hyielded⟩)
      · exact .inl ⟨hout.mpr ⟨hdone, hyielded⟩, hdone, hyielded⟩
  · rcases hr with hcached | hyielded
    · obtain ⟨i, hi⟩ := mem_iff_getElem?.mp hcached
      rw [(h.cached i r hi).pending]
      exact Int.natCast_nonneg _
    · exact (h.complete r hyielded).2.1.ge

def parityTypes : Types ℕ ℕ Unit Unit where
  hash := id
  number := some
  parentHash := Nat.pred
  txHash := (· % 2)
  uncleHash := fun _ => 0
  receiptHash := (· % 2)
  zeroHash := 0
  emptyRootHash := 0
  emptyUncleHash := 0
  deriveSha := length
  deriveReceiptSha := length
  calcUncleHash := length
  hash_injective := injective_id
  deriveSha_nil := rfl
  deriveReceiptSha_nil := rfl
  calcUncleHash_nil := rfl

def twoHeaders : List (Act ℕ ℕ Unit Unit ℕ) :=
  [.schedule [1, 2] 1, .reserve .body 7 2 (fun _ => false) .listed,
    .deliverBodies 7 [[()]] [[]], .reserve .receipt 7 2 (fun _ => false) .listed,
    .deliverReceipts 7 [[()]], .waitResults]

theorem tasks_conserved_two : ∃ s,
    run (step parityTypes) (prepared parityTypes 4 1 .fastSync 5) twoHeaders = some s ∧
    s.yielded.length = 2 ∧
    (∀ kind, ((s.tasks kind).taskQueue ++ (s.tasks kind).pendPool.entries.flatMap (·.2)).Nodup) ∧
      (∀ kind, ∀ header ∈ s.scheduled, s.needs parityTypes header kind →
        (header ∈ s.outstanding kind ∧ parityTypes.hash header ∉ (s.tasks kind).donePool ∧
          header ∉ s.yielded.map (·.header)) ∨
        (header ∉ s.outstanding kind ∧ parityTypes.hash header ∈ (s.tasks kind).donePool ∧
          header ∉ s.yielded.map (·.header)) ∨
        (header ∉ s.outstanding kind ∧ parityTypes.hash header ∉ (s.tasks kind).donePool ∧
          header ∈ s.yielded.map (·.header))) ∧
      s.yielded.map (parityTypes.numberU64 ·.header) = range' 1 s.yielded.length ∧
      (∀ r ∈ s.yielded, r.header ∈ s.scheduled ∧
        ∀ kind, s.needs parityTypes r.header kind → Fits parityTypes r kind) ∧
      ∀ r, some r ∈ s.resultCache ∨ r ∈ s.yielded → 0 ≤ r.pending :=
  exists_run (by decide +kernel) fun hrun => ⟨by decide +kernel,
    tasks_conserved (by decide) (by decide) hrun
      (by decide +kernel : Along (step parityTypes) (Admissible parityTypes 1) _ _)⟩

def oneHeader : List (Act ℕ ℕ Unit Unit ℕ) :=
  [.schedule [2] 2, .reserve .body 7 1 (fun _ => false) .listed, .waitResults]

/-- **A header that was handed out has left the done set.** -/
theorem done_forgotten : ∃ s,
    run (step parityTypes) (prepared parityTypes 4 2 .fullSync 0) oneHeader = some s ∧
    Along (step parityTypes) (Admissible parityTypes 2)
      (prepared parityTypes 4 2 .fullSync 0) oneHeader ∧
    2 ∈ s.scheduled ∧ s.needs parityTypes 2 .body ∧ 2 ∉ s.outstanding .body ∧
      parityTypes.hash 2 ∉ (s.tasks .body).donePool :=
  exists_run (by decide +kernel) fun _ => by decide +kernel

end XChain.DownloadQueue
