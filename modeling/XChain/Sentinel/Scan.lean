import XChain.Sentinel.Commit

/-!
# Scanning a vault

One call of `scanVaultEvents`. The block arithmetic is that of `uint64`: with a head below
`blockDelay` the horizon wraps around, and a failed `BlockNumber` counts as head `0`.

* `scanWindow_range`: with a head of at least `blockDelay` a window ends at the horizon or below.
-/

namespace XChain

open GoText Word64 Option

def blockDelay : ℕ := 12
def minScanBlockNumber : ℕ := 20
def scanRangeMulti : ℕ := 20
def scanRangeDouble : ℕ := 2
def catchupWithinBlocks : ℕ := 100
def maxEmptyBatchBlocks : ℕ := 60

structure TokenLog where
  sourceChainid : ℤ
  sourceToken : Address
  mappedChainid : ℤ
  mappedToken : Address
  fromAddr : Address
  amount : ℤ
  nonce : ℤ
  totalNonce : ℤ
  blockNumber : ℤ
  tip : ℤ

def TokenLog.vaultEvent (vaultAddrFrom : Address) (l : TokenLog) : VaultEvent where
  vault := vaultAddrFrom
  sourceChainid := l.sourceChainid
  sourceToken := l.sourceToken
  mappedChainid := l.mappedChainid
  mappedToken := l.mappedToken
  toAddr := l.fromAddr
  amount := l.amount
  nonce := l.nonce
  totalNonce := l.totalNonce
  blockNumber := l.blockNumber
  tip := l.tip

/-- `getLastBlock`; with an error (`none`) it returns `0` and leaves `batchNumber` alone. -/
def getLastBlock (vaultWatermark createdAt : Option ℕ) : Option ℕ :=
  vaultWatermark.bind fun w =>
    if low w = 0 then createdAt.map low else some (add (low w) 1)

/-! ## The window of a filter call -/

inductive ScanWindow
  | omitted
  | tooShort
  | range (lastBlock endBlock : ℕ)
deriving DecidableEq

def windowEnd (lastBlock scanHorizon : ℕ) : ℕ :=
  if sub (add lastBlock scanRangeMulti) 1 ≤ scanHorizon then
    sub (add lastBlock scanRangeMulti) 1
  else sub (add lastBlock scanRangeDouble) 1

def scanWindow (lastBlock lastCurrentBlock currentBlock : ℕ) : ScanWindow :=
  if currentBlock = lastCurrentBlock ∧
      sub lastCurrentBlock lastBlock < catchupWithinBlocks then .omitted
  else
    let scanHorizon := sub currentBlock blockDelay
    if scanHorizon < minScanBlockNumber then .tooShort
    else
      let endBlock := min (windowEnd lastBlock scanHorizon) scanHorizon
      .range (min lastBlock endBlock) endBlock

/-- **Windows below the horizon.** -/
theorem scanWindow_range {lastBlock lastCurrentBlock currentBlock a b : ℕ}
    (h : scanWindow lastBlock lastCurrentBlock currentBlock = .range a b)
    (hd : blockDelay ≤ currentBlock) (hw : currentBlock < size) :
    a ≤ lastBlock ∧ a ≤ b ∧ b + blockDelay ≤ currentBlock := by
  have hz : sub currentBlock blockDelay = currentBlock - blockDelay := sub_of_le hd hw
  simp only [scanWindow, hz] at h
  split at h
  · cases h
  split at h
  · cases h
  · cases h
    exact ⟨min_le_left _ _, min_le_right _ _, by omega⟩

/-! ## The control state of a call -/

structure ScanLocal where
  startBlock : ℕ
  lastBlock : ℕ
  lastCurrentBlock : ℕ
  eventCount : ℕ

structure ScanFiling extends ScanLocal where
  endBlock : ℕ
  rest : List TokenLog
  rawBatch : List Hash
  nodup : rawBatch.Nodup

/-- Not scanning, in the outer loop, filing, or about to hand over a batch. -/
inductive ScanPc
  | idle
  | looping (l : ScanLocal)
  | filing (f : ScanFiling)
  | returned (b : VaultEventsBatch)

/-- The configuration channel, the head, the logs (`none` for an error) and whether it can sign. -/
structure ScanAnswers where
  newVersion : Option ℕ
  blockNumber : Option ℕ
  filter : ℕ → ℕ → Option (List TokenLog)
  vssReady : Bool

def ScanPc.start (lastBlock : ℕ) : ScanPc → Option ScanPc
  | .idle => some (.looping ⟨lastBlock, lastBlock, 0, 0⟩)
  | _ => none

def ScanPc.query (configVersion : ℕ) (a : ScanAnswers) : ScanPc → Option ScanPc
  | .looping l => some <|
    if 0 < l.eventCount then .idle
    else if a.newVersion.any fun v => decide (configVersion < v) then .idle
    else
      -- the error of `BlockNumber` is only logged
      let currentBlock := a.blockNumber.getD 0
      match scanWindow l.lastBlock l.lastCurrentBlock currentBlock with
      | .omitted => .looping l
      | .tooShort => .idle
      | .range lastBlock endBlock =>
        match a.filter lastBlock endBlock with
        | none => .idle
        | some logs =>
          if a.vssReady then
            .filing ⟨⟨l.startBlock, lastBlock, currentBlock, l.eventCount⟩, endBlock, logs, [],
              List.nodup_nil⟩
          else .idle
  | _ => none

section Filing

variable (L : Imports) (vaultAddrFrom : Address)

/-- Count the next log, sign its event and add it to the batch. -/
def ScanPc.file : ScanPc → Option (ScanPc × VaultEventWithSig)
  | .filing f => match f.rest with
    | [] => none
    | l :: rest =>
      let e := l.vaultEvent vaultAddrFrom
      some (.filing { f with
          eventCount := f.eventCount + 1
          rest := rest
          rawBatch := f.rawBatch.insert (L.rlpHash e)
          nodup := f.nodup.insert },
        ⟨e, L.signBytes (L.rlpHash e)⟩)
  | _ => none

def ScanPc.finish (batchNumber : ℕ) : ScanPc → Option ScanPc
  | .filing f => match f.rest with
    | [] => some <|
      if if f.rawBatch = [] then maxEmptyBatchBlocks ≤ sub f.endBlock f.startBlock
          else batchNumber ≠ 0 then
        .returned ⟨f.rawBatch, f.nodup, vaultAddrFrom, f.startBlock, f.endBlock⟩
      else .looping { f.toScanLocal with lastBlock := add f.endBlock 1 }
    | _ :: _ => none
  | _ => none

end Filing

/-! ## What a step can do -/

section Cases

variable {p q : ScanPc} {vaultAddrFrom : Address}

theorem ScanPc.start_cases {lastBlock : ℕ} (h : p.start lastBlock = some q) :
    q = .looping ⟨lastBlock, lastBlock, 0, 0⟩ := by
  cases p <;> simp only [ScanPc.start, reduceCtorEq, some.injEq] at h
  exact h.symm

theorem ScanPc.query_cases {configVersion : ℕ} {a : ScanAnswers}
    (h : p.query configVersion a = some q) :
    ∃ l, p = .looping l ∧ (q = .idle ∨ q = .looping l ∨
      ∃ lastBlock endBlock logs, l.eventCount = 0 ∧
        scanWindow l.lastBlock l.lastCurrentBlock (a.blockNumber.getD 0) =
          .range lastBlock endBlock ∧ a.filter lastBlock endBlock = some logs ∧
        q = .filing ⟨⟨l.startBlock, lastBlock, a.blockNumber.getD 0, l.eventCount⟩, endBlock, logs,
          [], List.nodup_nil⟩) := by
  cases p <;> simp only [ScanPc.query, reduceCtorEq, some.injEq] at h
  rename_i l
  refine ⟨l, rfl, ?_⟩
  split at h
  · exact .inl h.symm
  rename_i hcount
  split at h
  · exact .inl h.symm
  split at h
  · exact .inr (.inl h.symm)
  · exact .inl h.symm
  rename_i lastBlock endBlock hw
  split at h
  · exact .inl h.symm
  rename_i logs hlogs
  split at h
  · exact .inr (.inr ⟨lastBlock, endBlock, logs, by omega, hw, hlogs, h.symm⟩)
  · exact .inl h.symm

theorem ScanPc.file_cases {L : Imports} {v : VaultEventWithSig}
    (h : p.file L vaultAddrFrom = some (q, v)) :
    ∃ f l rest, p = .filing f ∧ f.rest = l :: rest ∧ v.event = l.vaultEvent vaultAddrFrom ∧
      q = .filing { f with
        eventCount := f.eventCount + 1
        rest := rest
        rawBatch := f.rawBatch.insert (L.rlpHash (l.vaultEvent vaultAddrFrom))
        nodup := f.nodup.insert } := by
  cases p <;> simp only [ScanPc.file, reduceCtorEq] at h
  rename_i f
  split at h
  · cases h
  · rename_i l rest hrest
    cases h
    exact ⟨f, l, rest, rfl, hrest, rfl, rfl⟩

theorem ScanPc.finish_cases {batchNumber : ℕ} (h : p.finish vaultAddrFrom batchNumber = some q) :
    ∃ f, p = .filing f ∧ f.rest = [] ∧
      (q = .returned ⟨f.rawBatch, f.nodup, vaultAddrFrom, f.startBlock, f.endBlock⟩ ∨
        q = .looping { f.toScanLocal with lastBlock := add f.endBlock 1 }) := by
  cases p <;> simp only [ScanPc.finish, reduceCtorEq] at h
  rename_i f
  split at h
  · rename_i hrest
    rw [some.injEq] at h
    refine ⟨f, rfl, hrest, ?_⟩
    split_ifs at h
    · exact .inl h.symm
    · exact .inr h.symm
    · exact .inl h.symm
    · exact .inr h.symm
  · cases h

end Cases

end XChain
