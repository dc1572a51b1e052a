import XChain.Lib.Machine
import XChain.Sentinel.Commit

/-!
# The pending worker and the vault watermark

`PendingVaultEventsBatch` commits one batch after the other and, once all events of the batch are
recorded, moves the watermark of `batch.Vault` to the end of the batch. The re-entry check compares
`batch.Start` with the watermark of `xeventsXYAddr`, not with the one of `batch.Vault`.

* **`watermark_moves_forward`**: if every batch that reaches the check and is not stopped by it lies
  above the watermark of its own vault, no submitted value is below that watermark.
-/

namespace XChain

open GoText StepMachine Option Word64

/-! ## The worker -/

inductive PendingPc
  | select
  | taken (b : VaultEventsBatch)
  | committing (b : VaultEventsBatch)
  | confirming (b : VaultEventsBatch) (succeeded : List ℕ)
  | waiting (b : VaultEventsBatch) (succeeded : List ℕ) (blockNumberBefore : ℕ)
deriving DecidableEq

/-- A batch is received; it is dropped when it is not this node's turn. -/
def PendingPc.take (myTurn : Bool) (b : VaultEventsBatch) : PendingPc → Option PendingPc
  | .select => some (if myTurn then .taken b else .select)
  | _ => none

/-- The account and re-entry checks. Without a transactor the worker goes back to `select`. -/
def PendingPc.enter (a : EnterAnswers) : PendingPc → Option PendingPc
  | .taken b => some (if reentryPasses a b then .committing b else .select)
  | _ => none

def PendingPc.record (L : Imports) (t : Tables) (a : RecordAnswers) : PendingPc → Option PendingPc
  | .committing b => (L.commitEvents t b a).map fun r =>
      if r.transactor then .confirming b r.succeeded else .select
  | _ => none

def PendingPc.before (blockNumberBefore : Option ℕ) : PendingPc → Option PendingPc
  | .confirming b succeeded => some <|
      blockNumberBefore.elim .select fun n => .waiting b succeeded n
  | _ => none

/-- One round of the wait, with the batch for which the watermark is moved, if it is. -/
def PendingPc.round (configVersion : ℕ) (newVersion blockNumberAfter : Option ℕ) :
    PendingPc → Option (PendingPc × Option VaultEventsBatch)
  | .waiting b succeeded n => some <|
      match confirmRound configVersion newVersion n blockNumberAfter succeeded b with
      | .submit => (.select, some b)
      | .again => (.waiting b succeeded n, none)
      | _ => (.select, none)
  | _ => none

/-- The batch behind the re-entry check, with the marked events once they are known. -/
def PendingPc.batch? : PendingPc → Option (VaultEventsBatch × Option (List ℕ))
  | .committing b => some (b, none)
  | .confirming b succeeded => some (b, some succeeded)
  | .waiting b succeeded _ => some (b, some succeeded)
  | _ => none

open PendingPc

section Worker

variable {p q : PendingPc}

theorem PendingPc.take_batch {myTurn : Bool} {b : VaultEventsBatch}
    (h : p.take myTurn b = some q) : q = .taken b ∨ q = .select := by
  cases p <;> simp only [take, reduceCtorEq, some.injEq] at h
  split_ifs at h
  · exact .inl h.symm
  · exact .inr h.symm

theorem PendingPc.enter_batch {a : EnterAnswers} (h : p.enter a = some q) :
    ∃ b, p = .taken b ∧ (q = .committing b ∧ reentryPasses a b = true ∨ q = .select) := by
  cases p <;> simp only [enter, reduceCtorEq, some.injEq] at h
  rename_i b
  split_ifs at h with hp
  · exact ⟨b, rfl, .inl ⟨h.symm, hp⟩⟩
  · exact ⟨b, rfl, .inr h.symm⟩

theorem PendingPc.record_batch {L : Imports} {t : Tables} {a : RecordAnswers}
    (h : p.record L t a = some q) : ∃ b r, p = .committing b ∧ L.commitEvents t b a = some r ∧
      (q = .confirming b r.succeeded ∨ q = .select) := by
  cases p <;> simp only [record, reduceCtorEq] at h
  rename_i b
  obtain ⟨r, hr, h⟩ := map_eq_some_iff.mp h
  split_ifs at h
  · exact ⟨b, r, rfl, hr, .inl h.symm⟩
  · exact ⟨b, r, rfl, hr, .inr h.symm⟩

theorem PendingPc.before_batch {n : Option ℕ} (h : p.before n = some q) :
    ∃ b succeeded, p = .confirming b succeeded ∧
      ((∃ k, q = .waiting b succeeded k) ∨ q = .select) := by
  cases p <;> simp only [before, reduceCtorEq, some.injEq] at h
  rename_i b succeeded
  cases n with
  | none => exact ⟨b, succeeded, rfl, .inr h.symm⟩
  | some k => exact ⟨b, succeeded, rfl, .inl ⟨k, h.symm⟩⟩

theorem PendingPc.round_batch {configVersion : ℕ} {newVersion after : Option ℕ}
    {moved : Option VaultEventsBatch}
    (h : p.round configVersion newVersion after = some (q, moved)) :
    ∃ b succeeded n, p = .waiting b succeeded n ∧
      (q = .select ∧ moved = some b ∧ succeeded.length = b.batch.length ∨
        (q = p ∨ q = .select) ∧ moved = none) := by
  cases p <;> simp only [round, reduceCtorEq, some.injEq] at h
  rename_i b succeeded n
  refine ⟨b, succeeded, n, rfl, ?_⟩
  split at h <;> cases h
  · rename_i hs
    exact .inl ⟨rfl, rfl, confirmRound_submit hs⟩
  · exact .inr ⟨.inl rfl, rfl⟩
  · exact .inr ⟨.inr rfl, rfl⟩

end Worker

/-! ## The worker against xevents -/

/-- `big.NewInt(int64(n))` as the contract stores it: two's complement in 256 bits. -/
def storedWord (n : ℕ) : ℕ := (toInt64 n % 2 ^ 256).toNat

/-- `checked` is the watermark at the last re-entry check; `moves` has it with what was submitted.
-/
structure Ledger where
  vaultWatermark : Address → ℕ
  tables : Tables
  submitted : List (Address × ℕ)
  pending : PendingPc
  checked : ℕ
  moves : List (ℕ × ℤ)

inductive LedgerAct
  | take (b : VaultEventsBatch) (myTurn : Bool)
  | enter (balance nonceAt : Option ℕ) (readable : Bool)
  | record (a : RecordAnswers)
  | before (blockNumber : Option ℕ)
  | round (newVersion blockNumber : Option ℕ)
  | mine (i : ℕ)
  | update (vault : Address) (n : ℕ)
  | file (v : VaultEventWithSig)

section Ledger

variable (L : Imports) (configVersion : ℕ)

def Ledger.enterAnswers (s : Ledger) (balance nonceAt : Option ℕ) (readable : Bool) :
    EnterAnswers :=
  ⟨balance, nonceAt, if readable then some (s.vaultWatermark xeventsXYAddr) else none⟩

def Ledger.step (s : Ledger) : LedgerAct → Option Ledger
  | .take b myTurn => (s.pending.take myTurn b).map fun p => { s with pending := p }
  | .enter balance nonceAt readable =>
    (s.pending.enter (s.enterAnswers balance nonceAt readable)).map fun p =>
      { s with
        pending := p
        checked := p.batch?.elim s.checked fun x => s.vaultWatermark x.1.vault }
  | .record a => (s.pending.record L s.tables a).map fun p => { s with pending := p }
  | .before n => (s.pending.before n).map fun p => { s with pending := p }
  | .round newVersion n =>
    (s.pending.round configVersion newVersion n).map fun r =>
      match r.2 with
      | none => { s with pending := r.1 }
      | some b => { s with
          pending := r.1
          submitted := s.submitted ++ [(b.vault, storedWord b.endBlock)]
          moves := s.moves ++ [(s.checked, toInt64 b.endBlock)] }
  | .mine i => (s.submitted[i]?).map fun x =>
      { s with
        vaultWatermark := Function.update s.vaultWatermark x.1 x.2
        submitted := s.submitted.eraseIdx i }
  | .update vault n => some
      { s with vaultWatermark := Function.update s.vaultWatermark vault n }
  | .file v => some { s with tables := processVaultEventWithSig L.rlpHash s.tables v }

structure Ledger.Fresh (s : Ledger) : Prop where
  pending : s.pending = .select
  moves : s.moves = []

/-- A batch is stopped, or starts above the watermark of its own vault and fits an `int64`. -/
def Ledger.Ordered (s : Ledger) : LedgerAct → Prop
  | .enter _ _ _ => match s.pending with
    | .taken b => b.startBlock ≤ low (s.vaultWatermark xeventsXYAddr) ∨
        s.vaultWatermark b.vault < b.startBlock ∧ b.startBlock ≤ b.endBlock + 1 ∧
          b.endBlock < 2 ^ 63
    | _ => True
  | _ => True

instance Ledger.decidableOrdered (s : Ledger) (a : LedgerAct) : Decidable (s.Ordered a) := by
  unfold Ledger.Ordered
  split
  · split <;> infer_instance
  · infer_instance

/-- The end of the batch behind the check is not below the watermark read there. -/
def Ledger.Above (s : Ledger) : Prop :=
  (∀ x, s.pending.batch? = some x → (s.checked : ℤ) ≤ toInt64 x.1.endBlock) ∧
    ∀ m ∈ s.moves, (m.1 : ℤ) ≤ m.2

end Ledger

section Invariant

variable {L : Imports} {configVersion : ℕ} {s t : Ledger}

theorem reentryPasses_lt {a : EnterAnswers} {b : VaultEventsBatch} (h : reentryPasses a b = true) :
    ∃ w, a.vaultWatermark = some w ∧ low w < b.startBlock := by
  unfold reentryPasses at h
  split at h
  · rename_i w _ _ hw
    simp only [Bool.and_eq_true, Bool.not_eq_true', decide_eq_false_iff_not, not_le] at h
    exact ⟨w, hw, h.2⟩
  · cases h

theorem Ledger.above_enter {balance nonceAt : Option ℕ} {readable : Bool} (hs : s.Above)
    (hok : s.Ordered (.enter balance nonceAt readable))
    (h : Ledger.step L configVersion s (.enter balance nonceAt readable) = some t) : t.Above := by
  obtain ⟨q, hq, rfl⟩ := map_eq_some_iff.mp h
  obtain ⟨b, hp, ⟨rfl, hpass⟩ | rfl⟩ := enter_batch hq
  · refine ⟨fun x hx => ?_, hs.2⟩
    cases hx
    obtain ⟨w, hw, hlt⟩ := reentryPasses_lt hpass
    have hw' : w = s.vaultWatermark xeventsXYAddr := by
      simp only [Ledger.enterAnswers] at hw
      split_ifs at hw
      exact (some.inj hw).symm
    subst hw'
    rw [Ledger.Ordered, hp] at hok
    obtain hstop | ⟨hfresh, hrange, hfit⟩ := hok
    · exact absurd hlt (not_lt.mpr hstop)
    · simp only [batch?, elim_some, toInt64_of_lt hfit]
      omega
  · exact ⟨fun x hx => (by cases hx), hs.2⟩

theorem Ledger.above_round {newVersion n : Option ℕ} (hs : s.Above)
    (h : Ledger.step L configVersion s (.round newVersion n) = some t) : t.Above := by
  obtain ⟨⟨q, moved⟩, hq, rfl⟩ := map_eq_some_iff.mp h
  obtain ⟨b, succeeded, k, hp, ⟨rfl, rfl, -⟩ | ⟨hq', rfl⟩⟩ := round_batch hq
  · have hb := hs.1 (b, some succeeded) (by rw [hp]; rfl)
    refine ⟨fun x hx => (by cases hx), fun m hm => ?_⟩
    rcases List.mem_append.mp hm with hm | hm
    · exact hs.2 m hm
    · rw [List.mem_singleton.mp hm]
      exact hb
  · refine ⟨fun x hx => ?_, hs.2⟩
    rcases hq' with rfl | rfl
    · exact hs.1 x hx
    · cases hx

theorem Ledger.above_step {a : LedgerAct} (hs : s.Above) (hok : s.Ordered a)
    (h : Ledger.step L configVersion s a = some t) : t.Above := by
  cases a with
  | take b myTurn =>
    obtain ⟨q, hq, rfl⟩ := map_eq_some_iff.mp h
    refine ⟨fun x hx => ?_, hs.2⟩
    rcases take_batch hq with rfl | rfl <;> cases hx
  | enter balance nonceAt readable => exact Ledger.above_enter hs hok h
  | record a =>
    obtain ⟨q, hq, rfl⟩ := map_eq_some_iff.mp h
    refine ⟨fun x hx => ?_, hs.2⟩
    obtain ⟨b, r, hp, -, rfl | rfl⟩ := record_batch hq <;> cases hx
    exact hs.1 (b, none) (by rw [hp]; rfl)
  | before n =>
    obtain ⟨q, hq, rfl⟩ := map_eq_some_iff.mp h
    refine ⟨fun x hx => ?_, hs.2⟩
    obtain ⟨b, succeeded, hp, ⟨k, rfl⟩ | rfl⟩ := before_batch hq <;> cases hx
    exact hs.1 (b, some succeeded) (by rw [hp]; rfl)
  | round newVersion n => exact Ledger.above_round hs h
  | mine i =>
    obtain ⟨x, -, rfl⟩ := map_eq_some_iff.mp h
    exact hs
  | update vault n | file v =>
    cases h
    exact hs

end Invariant

/-- **The watermark moves forward** if batches lie above it or are stopped. -/
theorem watermark_moves_forward (L : Imports) (configVersion : ℕ) (s t : Ledger)
    (as : List LedgerAct) (hs : s.Fresh)
    (hok : Along (Ledger.step L configVersion) Ledger.Ordered s as)
    (hrun : run (Ledger.step L configVersion) s as = some t) :
    ∀ m ∈ t.moves, (m.1 : ℤ) ≤ m.2 := by
  have hstart : s.Above := by
    refine ⟨fun x hx => ?_, fun m hm => ?_⟩
    · rw [hs.pending] at hx
      cases hx
    · rw [hs.moves] at hm
      cases hm
  exact (run_invariant_along (fun _ _ _ => Ledger.above_step) hstart hok hrun).2

/-! ## A stale batch -/

def emptyBatch (startBlock endBlock : ℕ) : VaultEventsBatch :=
  ⟨[], List.nodup_nil, sampleAddress 7, startBlock, endBlock⟩

def commitRun (b : VaultEventsBatch) : List LedgerAct :=
  [.take b true, .enter (some 1) (some 0) true, .record ⟨true, fun _ _ _ => none, true⟩,
    .before (some 50), .round none (some 51)]

def ledgerStart : Ledger := ⟨fun _ => 0, Tables.empty, [], .select, 0, []⟩

/-- The second batch is above the watermark of the first one, which is mined before. -/
theorem watermark_moves_forward_twice :
    ∃ t, run (Ledger.step sampleImports 1) ledgerStart
        (commitRun (emptyBatch 101 161) ++ .mine 0 :: commitRun (emptyBatch 162 200)) = some t ∧
      t.moves = [(0, 161), (161, 200)] ∧ ∀ m ∈ t.moves, (m.1 : ℤ) ≤ m.2 :=
  ⟨_, rfl, rfl, watermark_moves_forward sampleImports 1 ledgerStart _
    (commitRun (emptyBatch 101 161) ++ .mine 0 :: commitRun (emptyBatch 162 200)) ⟨rfl, rfl⟩
      (by decide) rfl⟩

/-- A stale batch up to block `161` passes the check after block `180` was committed. -/
theorem watermark_moved_back :
    ¬ ∀ (L : Imports) (configVersion : ℕ) (s t : Ledger) (as : List LedgerAct), s.Fresh →
      run (Ledger.step L configVersion) s as = some t → ∀ m ∈ t.moves, (m.1 : ℤ) ≤ m.2 := by
  intro h
  have hm := h sampleImports 1 ledgerStart _
    (commitRun (emptyBatch 101 180) ++ .mine 0 :: commitRun (emptyBatch 101 161)) ⟨rfl, rfl⟩ rfl
    (180, 161) (by decide)
  exact absurd hm (by decide)

end XChain
