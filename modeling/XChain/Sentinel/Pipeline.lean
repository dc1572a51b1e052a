import XChain.Sentinel.Pending
import XChain.Sentinel.Scan

/-!
# From the source vault to the watermark

`Pipeline.step` interleaves the three workers of one `XdefiContext` with the growth of the source
chain, with the token-mapping watermarks of xevents, which rise as sentinels record events, and with
the mining of submitted watermark updates.

* **`no_event_lost`**: as long as the head is known to the scanner and no log iterator breaks off,
  the watermark is only moved over blocks whose events are all recorded.
-/

namespace XChain

open GoText StepMachine List Option Word64 Function PendingPc ScanPc

/-! ## The source vault -/

/-- A vault on the source chain: the block of its creation and the logs of each block. -/
structure Source where
  vault : Address
  createdAt : ℕ
  logs : ℕ → List TokenLog
  quiet : ∀ b < createdAt, logs b = []

/-- What the filter finds in a range of blocks while the chain has `head` blocks. -/
def Source.filter (V : Source) (head first last : ℕ) : List TokenLog :=
  ((range' first (last + 1 - first)).filter fun b => b ≤ head).flatMap V.logs

theorem Source.mem_filter {V : Source} {head first last b : ℕ} {l : TokenLog}
    (hl : l ∈ V.logs b) (h1 : first ≤ b) (h2 : b ≤ last) (h3 : b ≤ head) :
    l ∈ V.filter head first last := by
  refine List.mem_flatMap.mpr ⟨b, List.mem_filter.mpr ⟨?_, by simpa using h3⟩, hl⟩
  rw [List.mem_range'_1]
  omega

/-! ## The machine -/

/-- Where `QueueVaultEventsBatch` is: at its `select`, waiting for signatures, or sending. -/
inductive QueuePc
  | select
  | waiting (b : VaultEventsBatch)
  | sending (b : VaultEventsBatch)

def QueuePc.batches : QueuePc → List VaultEventsBatch
  | .select => []
  | .waiting b => [b]
  | .sending b => [b]

structure Pipeline where
  head : ℕ
  vaultWatermark : ℕ
  tokenMappingWatermark : Address → Hash → ℕ
  submitted : List ℕ
  tables : Tables
  batchNumber : ℕ
  scan : ScanPc
  queueChan : List VaultEventsBatch
  queue : QueuePc
  pendingChan : List VaultEventsBatch
  pending : PendingPc

/-- `broken` logs are read before the iterator breaks off; `lag i` is the lag of a watermark. -/
inductive PipelineAct
  | grow
  | raise (vault : Address) (tokenMapping : Hash) (n : ℕ)
  | mine (i : ℕ)
  | share (batchNumber : ℕ)
  | receive (v : VaultEventWithSig)
  | scanStart (watermarkRead createdAtRead : Bool)
  | scanQuery (newVersion blockNumber : Option ℕ) (filtered : Bool) (broken : Option ℕ)
      (vssReady : Bool)
  | scanFile
  | scanFinish
  | scanSend
  | queueTake
  | queueDecide (d : Dkg)
  | queueSend
  | pendingTake (myTurn : Bool)
  | pendingEnter (a : EnterAnswers)
  | pendingRecord (transactor : Bool) (lag : ℕ → Option ℕ) (recorded : Bool)
  | pendingBefore (blockNumber : Option ℕ)
  | pendingRound (newVersion blockNumber : Option ℕ)

section Machine

variable (L : Imports) (V : Source) (configVersion : ℕ)

/-- The answers in a round of the scan. A node knows no block above the head. -/
def Pipeline.scanAnswers (s : Pipeline) (newVersion blockNumber : Option ℕ) (filtered : Bool)
    (broken : Option ℕ) (vssReady : Bool) : ScanAnswers where
  newVersion := newVersion
  blockNumber := blockNumber
  filter first last :=
    if filtered then
      some (broken.elim (V.filter s.head first last) fun k => (V.filter s.head first last).take k)
    else none
  vssReady := vssReady

def Pipeline.recordAnswers (s : Pipeline) (transactor : Bool) (lag : ℕ → Option ℕ)
    (recorded : Bool) : RecordAnswers where
  transactor := transactor
  tokenMappingWatermark i vault tokenMapping :=
    (lag i).map fun d => s.tokenMappingWatermark vault tokenMapping - d
  recorded := recorded

def Pipeline.step (s : Pipeline) : PipelineAct → Option Pipeline
  | .grow => some { s with head := s.head + 1 }
  | .raise vault tokenMapping n => some { s with
      tokenMappingWatermark := fun v k =>
        if v = vault ∧ k = tokenMapping then s.tokenMappingWatermark v k + n
        else s.tokenMappingWatermark v k }
  | .mine i => (s.submitted[i]?).map fun n =>
      { s with vaultWatermark := n, submitted := s.submitted.eraseIdx i }
  | .share n => some { s with batchNumber := n }
  | .receive v => some { s with tables := processVaultEventWithSig L.rlpHash s.tables v }
  | .scanStart watermarkRead createdAtRead =>
    let lastBlock := getLastBlock (if watermarkRead then some s.vaultWatermark else none)
      (if createdAtRead then some V.createdAt else none)
    (s.scan.start (lastBlock.getD 0)).map fun p =>
      { s with scan := p, batchNumber := lastBlock.getD s.batchNumber }
  | .scanQuery newVersion blockNumber filtered broken vssReady =>
    if blockNumber.all fun n => decide (n ≤ s.head ∧ n < size) then
      (s.scan.query configVersion
        (s.scanAnswers V newVersion blockNumber filtered broken vssReady)).map fun p =>
          { s with scan := p }
    else none
  | .scanFile => (s.scan.file L V.vault).map fun r =>
      { s with scan := r.1, tables := processVaultEventWithSig L.rlpHash s.tables r.2 }
  | .scanFinish => (s.scan.finish V.vault s.batchNumber).map fun p => { s with scan := p }
  | .scanSend => match s.scan with
    | .returned b =>
      if s.queueChan.length < vaultEventsBatchQueueSize then
        some { s with scan := .idle, queueChan := s.queueChan ++ [b] }
      else none
    | _ => none
  | .queueTake => match s.queue, s.queueChan with
    | .select, b :: bs => some { s with queue := .waiting b, queueChan := bs }
    | _, _ => none
  | .queueDecide d => match s.queue with
    | .waiting b => some { s with
        queue := if b.batch = [] ∨ (receivedAllSigs d s.tables b).2 = true then .sending b
          else .select }
    | _ => none
  | .queueSend => match s.queue with
    | .sending b =>
      if s.pendingChan.length < vaultEventsBatchPendingSize then
        some { s with queue := .select, pendingChan := s.pendingChan ++ [b] }
      else none
    | _ => none
  | .pendingTake myTurn => match s.pendingChan with
    | b :: bs => (s.pending.take myTurn b).map fun p => { s with pending := p, pendingChan := bs }
    | [] => none
  | .pendingEnter a => (s.pending.enter a).map fun p => { s with pending := p }
  | .pendingRecord transactor lag recorded =>
    (s.pending.record L s.tables (s.recordAnswers transactor lag recorded)).map fun p =>
      { s with pending := p }
  | .pendingBefore n => (s.pending.before n).map fun p => { s with pending := p }
  | .pendingRound newVersion n => (s.pending.round configVersion newVersion n).map fun r =>
      { s with
        pending := r.1
        submitted := s.submitted ++ (r.2.map fun b => storedWord b.endBlock).toList }

end Machine

/-! ## The invariant -/

section Invariant

variable (L : Imports) (V : Source)

/-- The log is recorded: its nonce is below the watermark of its token mapping. -/
def Recorded (w : Address → Hash → ℕ) (l : TokenLog) : Prop :=
  l.nonce < w V.vault ((l.vaultEvent V.vault).tokenMappingSha256 L.sha256)

def RecordedBelow (w : Address → Hash → ℕ) (n : ℕ) : Prop :=
  ∀ b < n, ∀ l ∈ V.logs b, Recorded L V w l

/-- The batch holds all events of its blocks, and the blocks before it are recorded. -/
structure BatchSound (w : Address → Hash → ℕ) (b : VaultEventsBatch) : Prop where
  below : RecordedBelow L V w b.startBlock
  holds : ∀ n, b.startBlock ≤ n → n ≤ b.endBlock → ∀ l ∈ V.logs n,
    L.rlpHash (l.vaultEvent V.vault) ∈ b.batch

/-- Blocks from the start on were empty; events up to the window's end are filed or to be filed. -/
def ScanSound (w : Address → Hash → ℕ) : ScanPc → Prop
  | .looping l => RecordedBelow L V w l.startBlock ∧
      (l.eventCount = 0 → ∀ n, l.startBlock ≤ n → n < l.lastBlock → V.logs n = [])
  | .filing f => RecordedBelow L V w f.startBlock ∧ (f.rawBatch ≠ [] → 0 < f.eventCount) ∧
      (∀ l ∈ f.rest, ∃ n, l ∈ V.logs n) ∧
      ∀ n, f.startBlock ≤ n → n ≤ f.endBlock → ∀ l ∈ V.logs n,
        L.rlpHash (l.vaultEvent V.vault) ∈ f.rawBatch ∨ l ∈ f.rest
  | .returned b => BatchSound L V w b
  | .idle => True

def PendingSound (w : Address → Hash → ℕ) : PendingPc → Prop
  | .select => True
  | .taken b => BatchSound L V w b
  | .committing b => BatchSound L V w b
  | .confirming b succeeded => succeeded.length = b.batch.length →
      RecordedBelow L V w (b.endBlock + 1)
  | .waiting b succeeded _ => succeeded.length = b.batch.length →
      RecordedBelow L V w (b.endBlock + 1)

/-- The tables hold events that occur, each under its own hash. -/
def TablesSound (occurs : VaultEvent → Prop) (t : Tables) : Prop :=
  ∀ h v, t.vaultEvents h = some v → L.rlpHash v.event = h ∧ occurs v.event

structure Pipeline.Sound (occurs : VaultEvent → Prop) (s : Pipeline) : Prop where
  tables : TablesSound L occurs s.tables
  vaultWatermark : RecordedBelow L V s.tokenMappingWatermark (low s.vaultWatermark + 1)
  submitted : ∀ n ∈ s.submitted, RecordedBelow L V s.tokenMappingWatermark (low n + 1)
  scan : ScanSound L V s.tokenMappingWatermark s.scan
  queueChan : ∀ b ∈ s.queueChan, BatchSound L V s.tokenMappingWatermark b
  queue : ∀ b ∈ s.queue.batches, BatchSound L V s.tokenMappingWatermark b
  pendingChan : ∀ b ∈ s.pendingChan, BatchSound L V s.tokenMappingWatermark b
  pending : PendingSound L V s.tokenMappingWatermark s.pending

end Invariant

section Monotone

variable {L : Imports} {V : Source} {w w' : Address → Hash → ℕ}

theorem RecordedBelow.mono {m n : ℕ} (h : RecordedBelow L V w n) (hw : ∀ v k, w v k ≤ w' v k)
    (hmn : m ≤ n) : RecordedBelow L V w' m := by
  intro b hb l hl
  have h1 := h b (by omega) l hl
  have h2 := hw V.vault ((l.vaultEvent V.vault).tokenMappingSha256 L.sha256)
  unfold Recorded at h1 ⊢
  omega

theorem BatchSound.mono {b : VaultEventsBatch} (h : BatchSound L V w b)
    (hw : ∀ v k, w v k ≤ w' v k) : BatchSound L V w' b :=
  ⟨h.below.mono hw le_rfl, h.holds⟩

theorem ScanSound.mono {p : ScanPc} (h : ScanSound L V w p) (hw : ∀ v k, w v k ≤ w' v k) :
    ScanSound L V w' p := by
  cases p with
  | idle => trivial
  | looping l | filing f => exact ⟨h.1.mono hw le_rfl, h.2⟩
  | returned b => exact BatchSound.mono h hw

theorem PendingSound.mono {p : PendingPc} (h : PendingSound L V w p)
    (hw : ∀ v k, w v k ≤ w' v k) : PendingSound L V w' p := by
  cases p with
  | select => trivial
  | taken b | committing b => exact BatchSound.mono h hw
  | confirming b succeeded | waiting b succeeded n => exact fun hs => (h hs).mono hw le_rfl

end Monotone

/-! ## The steps of the workers -/

/-- The events that occur have different hashes, those of the vault among them. -/
structure Collisionless (L : Imports) (V : Source) (occurs : VaultEvent → Prop) : Prop where
  logs : ∀ n, ∀ l ∈ V.logs n, occurs (l.vaultEvent V.vault)
  injective : ∀ e e', occurs e → occurs e' → L.rlpHash e = L.rlpHash e' → e = e'

def PipelineAct.Occurring (occurs : VaultEvent → Prop) : PipelineAct → Prop
  | .receive v => occurs v.event
  | _ => True

/-- The scanner learns a head of at least `blockDelay`, and its log iterator does not break off. -/
def PipelineAct.Reliable : PipelineAct → Prop
  | .scanQuery _ blockNumber _ broken _ => (∃ n ∈ blockNumber, blockDelay ≤ n) ∧ broken = none
  | _ => True

def Source.NoncesFit (V : Source) : Prop :=
  ∀ n, ∀ l ∈ V.logs n, 0 ≤ l.nonce ∧ l.nonce < size

section Steps

variable {L : Imports} {V : Source} {w : Address → Hash → ℕ} {occurs : VaultEvent → Prop}
  {v : VaultEventWithSig} {t : Tables}

theorem TablesSound.process (h : TablesSound L occurs t) (hv : occurs v.event) :
    TablesSound L occurs (processVaultEventWithSig L.rlpHash t v) :=
  (forall_update_iff t.vaultEvents fun k u => ∀ v, u = some v →
    L.rlpHash v.event = k ∧ occurs v.event).mpr
      ⟨fun _ hu => some.inj hu ▸ ⟨rfl, hv⟩, fun k _ => h k⟩

theorem recordedBelow_getLastBlock {n : ℕ} (h : RecordedBelow L V w (low n + 1))
    (watermarkRead createdAtRead : Bool) :
    RecordedBelow L V w ((getLastBlock (if watermarkRead then some n else none)
      (if createdAtRead then some V.createdAt else none)).getD 0) := by
  have hzero : RecordedBelow L V w 0 := fun b hb => absurd hb (Nat.not_lt_zero b)
  cases watermarkRead with
  | false => exact hzero
  | true =>
    by_cases hw : low n = 0
    · cases createdAtRead with
      | false => simpa [getLastBlock, hw] using hzero
      | true =>
        intro b hb l hl
        have hlow := low_le V.createdAt
        simp only [getLastBlock, if_true, bind_some, hw, map_some, getD_some] at hb
        rw [V.quiet b (by omega)] at hl
        cases hl
    · have hle : add (low n) 1 ≤ low n + 1 := Nat.mod_le _ _
      simpa [getLastBlock, hw] using h.mono (fun _ _ => le_rfl) hle

theorem ScanSound.query {p q : ScanPc} {configVersion head k : ℕ} {a : ScanAnswers}
    (h : ScanSound L V w p) (hq : p.query configVersion a = some q)
    (hk : a.blockNumber = some k) (hd : blockDelay ≤ k) (hhead : k ≤ head) (hsize : k < size)
    (hfilter : ∀ first last logs, a.filter first last = some logs →
      logs = V.filter head first last) : ScanSound L V w q := by
  obtain ⟨l, rfl, rfl | rfl | ⟨lastBlock, endBlock, logs, hcount, hwin, hlogs, rfl⟩⟩ :=
    query_cases hq
  · trivial
  · exact h
  · rw [hk, getD_some] at hwin
    obtain ⟨hlast, -, hend⟩ := scanWindow_range hwin hd hsize
    cases hfilter _ _ _ hlogs
    refine ⟨h.1, fun hne => absurd rfl hne, fun x hx => ?_, fun n h1 h2 x hx => .inr ?_⟩
    · obtain ⟨n, -, hn⟩ := mem_flatMap.mp hx
      exact ⟨n, hn⟩
    · change n ≤ endBlock at h2
      -- blocks before the last one were found empty in an earlier round
      by_cases hn : n < l.lastBlock
      · rw [h.2 hcount n h1 hn] at hx
        cases hx
      · exact Source.mem_filter hx (by omega) h2 (by omega)

theorem ScanSound.file {p q : ScanPc} (h : ScanSound L V w p) (hq : p.file L V.vault = some (q, v))
    (hc : Collisionless L V occurs) : ScanSound L V w q ∧ occurs v.event := by
  obtain ⟨f, l, rest, rfl, hrest, hv, rfl⟩ := file_cases hq
  obtain ⟨hbelow, -, hlogs, hall⟩ := h
  refine ⟨⟨hbelow, fun _ => Nat.succ_pos _, fun x hx => ?_, fun n h1 h2 x hx => ?_⟩, ?_⟩
  · exact hlogs x (by rw [hrest]; exact mem_cons_of_mem _ hx)
  · rcases hall n h1 h2 x hx with hin | hin
    · exact .inl (mem_insert_of_mem hin)
    · rw [hrest] at hin
      rcases mem_cons.mp hin with rfl | hin
      · exact .inl (mem_insert_self)
      · exact .inr hin
  · obtain ⟨n, hn⟩ := hlogs l (by rw [hrest]; exact mem_cons_self)
    rw [hv]
    exact hc.logs n l hn

theorem ScanSound.finish {p q : ScanPc} {batchNumber : ℕ} (h : ScanSound L V w p)
    (hq : p.finish V.vault batchNumber = some q) : ScanSound L V w q := by
  obtain ⟨f, rfl, hrest, hq⟩ := finish_cases hq
  obtain ⟨hbelow, hcount, -, hall⟩ := h
  have hin : ∀ n, f.startBlock ≤ n → n ≤ f.endBlock → ∀ l ∈ V.logs n,
      L.rlpHash (l.vaultEvent V.vault) ∈ f.rawBatch := by
    intro n h1 h2 l hl
    refine (hall n h1 h2 l hl).resolve_right fun hr => ?_
    rw [hrest] at hr
    cases hr
  rcases hq with rfl | rfl
  · exact ⟨hbelow, hin⟩
  · refine ⟨hbelow, fun hzero n h1 h2 => ?_⟩
    have hraw : f.rawBatch = [] := by
      by_contra hne
      exact absurd (hcount hne) (by simpa using hzero)
    have hle : add f.endBlock 1 ≤ f.endBlock + 1 := Nat.mod_le _ _
    refine eq_nil_iff_forall_not_mem.mpr fun l hl => ?_
    have := hin n h1 (by simp only at h2; omega) l hl
    rw [hraw] at this
    cases this

theorem recordedBelow_of_commit {b : VaultEventsBatch} {a : RecordAnswers} {r : CommitResult}
    (hb : BatchSound L V w b) (ht : TablesSound L occurs t) (hc : Collisionless L V occurs)
    (hfit : V.NoncesFit) (hread : ∀ i v k n, a.tokenMappingWatermark i v k = some n → n ≤ w v k)
    (hr : L.commitEvents t b a = some r) (hlen : r.succeeded.length = b.batch.length) :
    RecordedBelow L V w (b.endBlock + 1) := by
  intro n hn l hl
  by_cases hstart : n < b.startBlock
  · exact hb.below n hstart l hl
  · have hmem := hb.holds n (by omega) (by omega) l hl
    obtain ⟨v, hv, i, m, hm, hlt⟩ := Imports.commitEvents_all_recorded hr hlen _ hmem
    obtain ⟨hhash, hocc⟩ := ht _ v hv
    have hev : v.event = l.vaultEvent V.vault := hc.injective _ _ hocc (hc.logs n l hl) hhash
    rw [hev] at hm hlt
    have hle := hread _ _ _ _ hm
    have hlow := low_le m
    obtain ⟨hnonneg, hsize⟩ := hfit n l hl
    have hnonce : ofInt l.nonce = l.nonce.natAbs := low_of_lt (by omega)
    change ofInt l.nonce < low m at hlt
    change m ≤ w V.vault _ at hle
    unfold Recorded
    omega

theorem low_storedWord (n : ℕ) : low (storedWord n) ≤ n := by
  have hmod : (storedWord n : ℤ) % (size : ℤ) = (n : ℤ) % (size : ℤ) := by
    unfold storedWord
    rw [Int.toNat_of_nonneg (Int.emod_nonneg _ (by decide)), Int.emod_emod_of_dvd _ (by decide)]
    unfold toInt64
    split_ifs
    · rfl
    · exact Int.sub_emod_right _ _
  have : storedWord n % size = n % size := by exact_mod_cast hmod
  unfold low
  rw [this]
  exact Nat.mod_le _ _

end Steps

open Pipeline

/-! ## Whole runs -/

section Runs

variable {L : Imports} {V : Source} {configVersion : ℕ} {occurs : VaultEvent → Prop}
  {s t : Pipeline}

namespace Pipeline.Sound

theorem raise {vault : Address} {tokenMapping : Hash} {n : ℕ}
    (hs : s.Sound L V occurs)
    (h : step L V configVersion s (.raise vault tokenMapping n) = some t) :
    t.Sound L V occurs := by
  cases h
  have hw : ∀ v k, s.tokenMappingWatermark v k ≤
      if v = vault ∧ k = tokenMapping then s.tokenMappingWatermark v k + n
      else s.tokenMappingWatermark v k := by
    intro v k
    split_ifs <;> omega
  exact ⟨hs.tables, hs.vaultWatermark.mono hw le_rfl,
    fun m hm => (hs.submitted m hm).mono hw le_rfl, hs.scan.mono hw,
    fun b hb => (hs.queueChan b hb).mono hw, fun b hb => (hs.queue b hb).mono hw,
    fun b hb => (hs.pendingChan b hb).mono hw, hs.pending.mono hw⟩

theorem scanQuery {newVersion blockNumber broken : Option ℕ}
    {filtered vssReady : Bool} (hs : s.Sound L V occurs)
    (hok : (PipelineAct.scanQuery newVersion blockNumber filtered broken vssReady).Reliable)
    (h : step L V configVersion s
      (.scanQuery newVersion blockNumber filtered broken vssReady) = some t) :
    t.Sound L V occurs := by
  obtain ⟨⟨k, rfl, hd⟩, rfl⟩ := hok
  simp only [step, all_some, decide_eq_true_eq] at h
  split_ifs at h with hk
  obtain ⟨q, hq, rfl⟩ := map_eq_some_iff.mp h
  refine { hs with scan := hs.scan.query hq rfl hd hk.1 hk.2 ?_ }
  intro first last logs hlogs
  simp only [scanAnswers] at hlogs
  split_ifs at hlogs
  exact (some.inj hlogs).symm

theorem pendingRecord {transactor recorded : Bool} {lag : ℕ → Option ℕ}
    (hc : Collisionless L V occurs) (hfit : V.NoncesFit) (hs : s.Sound L V occurs)
    (h : step L V configVersion s (.pendingRecord transactor lag recorded) = some t) :
    t.Sound L V occurs := by
  obtain ⟨q, hq, rfl⟩ := map_eq_some_iff.mp h
  obtain ⟨b, r, hp, hr, rfl | rfl⟩ := record_batch hq
  · have hb := hs.pending
    rw [hp] at hb
    refine { hs with pending := fun hlen =>
      recordedBelow_of_commit hb hs.tables hc hfit ?_ hr hlen }
    intro i v k n hn
    obtain ⟨d, -, rfl⟩ := map_eq_some_iff.mp hn
    exact Nat.sub_le _ _
  · exact { hs with pending := trivial }

theorem pendingRound {newVersion blockNumber : Option ℕ} (hs : s.Sound L V occurs)
    (h : step L V configVersion s (.pendingRound newVersion blockNumber) = some t) :
    t.Sound L V occurs := by
  obtain ⟨⟨q, moved⟩, hq, rfl⟩ := map_eq_some_iff.mp h
  obtain ⟨b, succeeded, n, hp, ⟨rfl, rfl, hlen⟩ | ⟨hq', rfl⟩⟩ := round_batch hq
  · have hb := hs.pending
    rw [hp] at hb
    refine { hs with pending := trivial, submitted := fun m hm => ?_ }
    rcases mem_append.mp hm with hm | hm
    · exact hs.submitted m hm
    · rw [mem_singleton.mp hm]
      exact (hb hlen).mono (fun _ _ => le_rfl) (Nat.succ_le_succ (low_storedWord _))
  · rw [map_none, toList_none, append_nil]
    rcases hq' with rfl | rfl
    · exact hs
    · exact { hs with pending := trivial }

/-- **One step keeps the pipeline sound.** -/
theorem step {a : PipelineAct} (hc : Collisionless L V occurs)
    (hfit : V.NoncesFit) (hs : s.Sound L V occurs) (hocc : a.Occurring occurs)
    (hok : a.Reliable) (h : Pipeline.step L V configVersion s a = some t) : t.Sound L V occurs := by
  cases a with
  | grow | share n =>
    cases h
    exact { hs with }
  | raise vault tokenMapping n => exact hs.raise h
  | mine i =>
    obtain ⟨n, hn, rfl⟩ := map_eq_some_iff.mp h
    exact { hs with
      vaultWatermark := hs.submitted n (mem_of_getElem? hn)
      submitted := fun m hm => hs.submitted m (mem_of_mem_eraseIdx hm) }
  | receive v =>
    cases h
    exact { hs with tables := hs.tables.process hocc }
  | scanStart watermarkRead createdAtRead =>
    obtain ⟨q, hq, rfl⟩ := map_eq_some_iff.mp h
    cases start_cases hq
    refine { hs with scan := ⟨recordedBelow_getLastBlock hs.vaultWatermark _ _, ?_⟩ }
    exact fun _ n h1 h2 => absurd h1 (not_le.mpr h2)
  | scanQuery newVersion blockNumber filtered broken vssReady => exact hs.scanQuery hok h
  | scanFile =>
    obtain ⟨⟨q, v⟩, hq, rfl⟩ := map_eq_some_iff.mp h
    obtain ⟨hscan, hv⟩ := hs.scan.file hq hc
    exact { hs with scan := hscan, tables := hs.tables.process hv }
  | scanFinish =>
    obtain ⟨q, hq, rfl⟩ := map_eq_some_iff.mp h
    exact { hs with scan := hs.scan.finish hq }
  | scanSend =>
    simp only [Pipeline.step] at h
    split at h
    · rename_i b hb
      split_ifs at h
      cases h
      have hbatch := hs.scan
      rw [hb] at hbatch
      exact { hs with
        scan := trivial
        queueChan := forall_mem_append.mpr ⟨hs.queueChan, forall_mem_singleton.mpr hbatch⟩ }
    · cases h
  | queueTake =>
    simp only [Pipeline.step] at h
    split at h
    · rename_i b bs hsel hchan
      cases h
      have hall := hs.queueChan
      rw [hchan] at hall
      obtain ⟨hb, hbs⟩ := forall_mem_cons.mp hall
      exact { hs with queue := forall_mem_singleton.mpr hb, queueChan := hbs }
    · cases h
  | queueDecide d =>
    simp only [Pipeline.step] at h
    split at h
    · rename_i b hb
      cases h
      have hall := hs.queue
      rw [hb] at hall
      refine { hs with queue := fun c hmem => ?_ }
      split_ifs at hmem
      · exact hall c hmem
      · cases hmem
    · cases h
  | queueSend =>
    simp only [Pipeline.step] at h
    split at h
    · rename_i b hb
      split_ifs at h
      cases h
      have hall := hs.queue
      rw [hb] at hall
      exact { hs with
        queue := nofun
        pendingChan := forall_mem_append.mpr ⟨hs.pendingChan, hall⟩ }
    · cases h
  | pendingTake myTurn =>
    simp only [Pipeline.step] at h
    split at h
    · rename_i b bs hchan
      obtain ⟨q, hq, rfl⟩ := map_eq_some_iff.mp h
      have hall := hs.pendingChan
      rw [hchan] at hall
      obtain ⟨hb, hbs⟩ := forall_mem_cons.mp hall
      rcases take_batch hq with rfl | rfl
      · exact { hs with pending := hb, pendingChan := hbs }
      · exact { hs with pending := trivial, pendingChan := hbs }
    · cases h
  | pendingEnter a =>
    obtain ⟨q, hq, rfl⟩ := map_eq_some_iff.mp h
    obtain ⟨b, hp, ⟨rfl, -⟩ | rfl⟩ := enter_batch hq
    · have hb := hs.pending
      rw [hp] at hb
      exact { hs with pending := hb }
    · exact { hs with pending := trivial }
  | pendingRecord transactor lag recorded => exact hs.pendingRecord hc hfit h
  | pendingBefore n =>
    obtain ⟨q, hq, rfl⟩ := map_eq_some_iff.mp h
    obtain ⟨b, succeeded, hp, ⟨k, rfl⟩ | rfl⟩ := before_batch hq
    · have hb := hs.pending
      rw [hp] at hb
      exact { hs with pending := hb }
    · exact { hs with pending := trivial }
  | pendingRound newVersion n => exact hs.pendingRound h

end Pipeline.Sound

/-- The workers at rest with empty tables and channels; the blocks up to the watermark are
recorded. -/
structure Pipeline.Fresh (L : Imports) (V : Source) (s : Pipeline) : Prop where
  recorded : RecordedBelow L V s.tokenMappingWatermark (low s.vaultWatermark + 1)
  submitted : s.submitted = []
  tables : s.tables = Tables.empty
  scan : s.scan = .idle
  queueChan : s.queueChan = []
  queue : s.queue = .select
  pendingChan : s.pendingChan = []
  pending : s.pending = .select

theorem Pipeline.Fresh.sound (hs : s.Fresh L V) : s.Sound L V occurs where
  tables := by
    rw [hs.tables]
    exact fun h v hv => by cases hv
  vaultWatermark := hs.recorded
  submitted := by simp [hs.submitted]
  scan := by
    rw [hs.scan]
    trivial
  queueChan := by simp [hs.queueChan]
  queue := by simp [hs.queue, QueuePc.batches]
  pendingChan := by simp [hs.pendingChan]
  pending := by
    rw [hs.pending]
    trivial

end Runs

/-- **No event is lost behind the watermark.** -/
theorem no_event_lost (L : Imports) (V : Source) (configVersion : ℕ) (occurs : VaultEvent → Prop)
    (hc : Collisionless L V occurs) (hfit : V.NoncesFit) (s t : Pipeline) (hs : s.Fresh L V)
    (as : List PipelineAct) (hocc : ∀ a ∈ as, a.Occurring occurs) (hok : ∀ a ∈ as, a.Reliable)
    (hrun : run (Pipeline.step L V configVersion) s as = some t)
    (newVersion blockNumber : Option ℕ) (q : PendingPc) (b : VaultEventsBatch)
    (hsubmit : t.pending.round configVersion newVersion blockNumber = some (q, some b)) :
    ∀ n, t.vaultWatermark < n → n ≤ b.endBlock → ∀ l ∈ V.logs n,
      Recorded L V t.tokenMappingWatermark l := by
  have halong : Along (step L V configVersion) (fun _ a => a.Occurring occurs ∧ a.Reliable) s as :=
    along_of_forall s fun a ha => ⟨hocc a ha, hok a ha⟩
  have hsound : t.Sound L V occurs :=
    run_invariant_along (fun _ _ _ hi ha => Pipeline.Sound.step hc hfit hi ha.1 ha.2) hs.sound
      halong hrun
  obtain ⟨b', succeeded, k, hp, ⟨-, hb, hlen⟩ | ⟨-, hb⟩⟩ := round_batch hsubmit
  · cases hb
    have hpending := hsound.pending
    rw [hp] at hpending
    exact fun n _ hn l hl => hpending hlen n (Nat.lt_succ_of_le hn) l hl
  · cases hb

/-! ## A broken iterator -/

def sampleLog (nonce : ℤ) : TokenLog where
  sourceChainid := 1
  sourceToken := sampleAddress 1
  mappedChainid := 2
  mappedToken := sampleAddress 2
  fromAddr := sampleAddress 3
  amount := 5
  nonce := nonce
  totalNonce := nonce
  blockNumber := 105
  tip := 0

def sampleSource : Source where
  vault := sampleAddress 7
  createdAt := 100
  logs n := if n = 105 then [sampleLog 0] else []
  quiet n hn := if_neg (by omega)

def pipelineStart (n : ℕ) : Pipeline where
  head := 300
  vaultWatermark := 0
  tokenMappingWatermark _ _ := n
  submitted := []
  tables := Tables.empty
  batchNumber := 0
  scan := .idle
  queueChan := []
  queue := .select
  pendingChan := []
  pending := .select

def handOn : List PipelineAct :=
  [.scanSend, .queueTake, .queueDecide ⟨true, some ⟨1, true⟩⟩, .queueSend, .pendingTake true,
    .pendingEnter ⟨some 1, some 0, some 0⟩, .pendingRecord true (fun _ => some 0) true,
    .pendingBefore (some 50)]

theorem sampleSource_mem {n : ℕ} {l : TokenLog} (h : l ∈ sampleSource.logs n) :
    n = 105 ∧ l = sampleLog 0 := by
  simp only [sampleSource] at h
  split_ifs at h with hn
  · exact ⟨hn, mem_singleton.mp h⟩
  · cases h

theorem collisionless_sample :
    Collisionless sampleImports sampleSource fun e => e = sampleEvent 0 where
  logs n l hl := by
    rw [(sampleSource_mem hl).2]
    rfl
  injective e e' he he' _ := he.trans he'.symm

theorem noncesFit_sample : sampleSource.NoncesFit := by
  intro n l hl
  rw [(sampleSource_mem hl).2]
  decide

theorem fresh_pipelineStart (n : ℕ) : (pipelineStart n).Fresh sampleImports sampleSource where
  recorded b hb l hl := by
    have := (sampleSource_mem hl).1
    have hzero : b < 1 := hb
    omega
  submitted := rfl
  tables := rfl
  scan := rfl
  queueChan := rfl
  queue := rfl
  pendingChan := rfl
  pending := rfl

/-- The deposit is found, was recorded before, and the watermark moves to block `119`. -/
theorem no_event_lost_deposit : ∃ t, run (Pipeline.step sampleImports sampleSource 1)
      (pipelineStart 1) (.scanStart true true :: .scanQuery none (some 300) true none true ::
        .scanFile :: .scanFinish :: handOn) = some t ∧
    ∀ n, t.vaultWatermark < n → n ≤ 119 → ∀ l ∈ sampleSource.logs n,
      Recorded sampleImports sampleSource t.tokenMappingWatermark l := by
  refine exists_run (by decide +kernel) fun ht => no_event_lost sampleImports sampleSource 1 _
    collisionless_sample noncesFit_sample (pipelineStart 1) _ (fresh_pipelineStart 1) _ ?_ ?_ ht
    none (some 51) .select ⟨[sampleHash (sampleEvent 0)], by decide, sampleAddress 7, 100, 119⟩
    (by decide +kernel)
  · simp [handOn, PipelineAct.Occurring]
  · simp [handOn, PipelineAct.Reliable, blockDelay]

/-- The iterator breaks off before the deposit; the blocks look empty, and the watermark moves over
the deposit to block `179`. -/
theorem event_lost_broken_iterator :
    ¬ ∀ (L : Imports) (V : Source) (configVersion : ℕ) (occurs : VaultEvent → Prop),
      Collisionless L V occurs → V.NoncesFit → ∀ s t : Pipeline, s.Fresh L V →
      ∀ as : List PipelineAct, (∀ a ∈ as, a.Occurring occurs) →
      run (Pipeline.step L V configVersion) s as = some t →
      ∀ (newVersion blockNumber : Option ℕ) (q : PendingPc) (b : VaultEventsBatch),
      t.pending.round configVersion newVersion blockNumber = some (q, some b) →
      ∀ n, t.vaultWatermark < n → n ≤ b.endBlock → ∀ l ∈ V.logs n,
        Recorded L V t.tokenMappingWatermark l := by
  intro h
  obtain ⟨t, ht, hpending, hwm, htm⟩ : ∃ t, run (step sampleImports sampleSource 1)
      (pipelineStart 0) (.scanStart true true ::
        .scanQuery none (some 300) true (some 0) true :: .scanFinish ::
        .scanQuery none (some 300) true none true :: .scanFinish ::
        .scanQuery none (some 300) true none true :: .scanFinish ::
        .scanQuery none (some 300) true none true :: .scanFinish :: handOn) = some t ∧
      t.pending = .waiting (emptyBatch 100 179) [] 50 ∧ t.vaultWatermark = 0 ∧
      t.tokenMappingWatermark (sampleAddress 7) ⟨replicate 32 0, by simp⟩ = 0 :=
    exists_run (by decide +kernel) fun _ => by decide +kernel
  have hlost := h sampleImports sampleSource 1 _ collisionless_sample noncesFit_sample
    (pipelineStart 0) t (fresh_pipelineStart 0) _ (by simp [handOn, PipelineAct.Occurring]) ht
    none (some 51) .select (emptyBatch 100 179) (by rw [hpending]; decide) 105 (by omega)
    (by decide)
    (sampleLog 0) mem_cons_self
  have : (0 : ℤ) < (0 : ℕ) := by rw [← htm]; exact hlost
  exact absurd this (by decide)

end XChain
