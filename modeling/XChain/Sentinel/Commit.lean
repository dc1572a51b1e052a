import XChain.Lib.Assoc
import XChain.Lib.Word
import XChain.Sentinel.Signatures

/-!
# Committing a batch to xevents

`commitVaultEvents` submits the events whose nonce is not below the token-mapping watermark of
xevents; `confirmVaultEvents` then waits for a block of xevents and moves the vault watermark to the
end of the batch, if all events of the batch had been recorded before. The answers of remote nodes
are arguments.

* **`commitEvents_all_recorded`**: a batch counts as succeeded only if every event in it was read
  below its token-mapping watermark.
-/

namespace XChain

open GoText List Option Word64

/-- Functions of imported packages: `common.RlpHash`, `rlp.EncodeToBytes`, `sha256` and
`SignBytes` with the share of this node. -/
structure Imports where
  rlpHash : VaultEvent → Hash
  encodeToBytes : VaultEvent → Bytes
  sha256 : Bytes → Hash
  signBytes : Hash → Bytes

def sampleImports : Imports where
  rlpHash := sampleHash
  encodeToBytes _ := []
  sha256 _ := ⟨List.replicate 32 0, by simp⟩
  signBytes _ := [9]

def xeventsXYAddr : Address := ⟨List.replicate 17 0 ++ [1, 0, 1], by simp⟩

/-- `BatchCommitThreshold`, in blocks. -/
def batchCommitThreshold : ℕ := 3

/-- One entry of a call of `RecordVaultEventBatch`. -/
structure VaultEventExt where
  sig : Bytes
  vault : Address
  nonce : ℤ
  tokenMapping : Hash
  eventData : Bytes
deriving DecidableEq

open Imports

/-! ## The order of the commits -/

section Order

variable (L : Imports)

/-- `fmt.Sprintf("%x,%x,%12d", …)`: vault, token mapping and nonce. -/
def Imports.nonceKey (e : VaultEvent) : Bytes :=
  hex e.vault.bytes ++ comma :: (hex (e.tokenMappingSha256 L.sha256).bytes ++ comma ::
    padLeft 12 (formatInt e.nonce))

/-- The keys of a batch with their hashes; `none` if an event is missing in the table. -/
def Imports.nonces (t : Tables) (hs : List Hash) : Option (List (Bytes × Hash)) :=
  hs.mapM fun h => (t.vaultEvents h).map fun v => (L.nonceKey v.event, h)

def sortStrings (l : List Bytes) : List Bytes := l.insertionSort fun a b => bytesLe a b = true

/-- The events in the order of their keys, through `noncesMap`: later hashes replace earlier ones.
-/
def Imports.orderedEvents (t : Tables) (hs : List Hash) : Option (List VaultEventWithSig) :=
  (L.nonces t hs).bind fun ps => (sortStrings (ps.map Prod.fst)).mapM fun key =>
    (GoMap.ofPairs ps key).bind t.vaultEvents

theorem Imports.nonceKey_inj {e e' : VaultEvent} (h : L.nonceKey e = L.nonceKey e') :
    e.vault = e'.vault ∧ e.tokenMappingSha256 L.sha256 = e'.tokenMappingSha256 L.sha256 ∧
      e.nonce = e'.nonce := by
  obtain ⟨hv, h⟩ := append_comma_inj (field_hex _) (field_hex _) h
  obtain ⟨hm, hn⟩ := append_comma_inj (field_hex _) (field_hex _) h
  exact ⟨FixedBytes.hex_inj hv, FixedBytes.hex_inj hm, formatInt_injective
    (padLeft_inj (space_notMem_formatInt _) (space_notMem_formatInt _) hn)⟩

variable {L} {t : Tables} {hs : List Hash} {vs : List VaultEventWithSig}

theorem Imports.mem_nonces {ps : List (Bytes × Hash)} (hps : L.nonces t hs = some ps)
    {key : Bytes} {h : Hash} (hk : (key, h) ∈ ps) :
    h ∈ hs ∧ ∃ v, t.vaultEvents h = some v ∧ key = L.nonceKey v.event := by
  obtain ⟨h', hh', e⟩ := (GoMap.mapM_eq_some hps).2.2 _ hk
  obtain ⟨v, hv, e⟩ := map_eq_some_iff.mp e
  cases e
  exact ⟨hh', v, hv, rfl⟩

/-- **The sorted events**: each is stored for one of the hashes, with every key. -/
theorem Imports.orderedEvents_spec (h : L.orderedEvents t hs = some vs) :
    vs.length = hs.length ∧ (∀ v ∈ vs, ∃ h ∈ hs, t.vaultEvents h = some v) ∧
      ∀ h ∈ hs, ∃ v, t.vaultEvents h = some v ∧
        ∃ u ∈ vs, L.nonceKey u.event = L.nonceKey v.event := by
  obtain ⟨ps, hps, h⟩ := bind_eq_some_iff.mp h
  have hperm : (sortStrings (ps.map Prod.fst)).Perm (ps.map Prod.fst) := perm_insertionSort _ _
  obtain ⟨hlen, hto, hfrom⟩ := GoMap.mapM_eq_some h
  obtain ⟨hlen', hto', -⟩ := GoMap.mapM_eq_some hps
  refine ⟨by rw [hlen, hperm.length_eq, length_map, hlen'], fun v hv => ?_, fun h hh => ?_⟩
  · obtain ⟨key, -, e⟩ := hfrom v hv
    obtain ⟨h, hh, e⟩ := bind_eq_some_iff.mp e
    exact ⟨h, (mem_nonces hps (GoMap.mem_of_ofPairs hh)).1, e⟩
  · obtain ⟨p, hp, e⟩ := hto' h hh
    obtain ⟨v, hv, rfl⟩ := map_eq_some_iff.mp e
    obtain ⟨u, hu, e⟩ := hto (L.nonceKey v.event) (hperm.mem_iff.mpr (mem_map.mpr ⟨_, hp, rfl⟩))
    obtain ⟨h', hh', e⟩ := bind_eq_some_iff.mp e
    obtain ⟨-, u', hu', hkey⟩ := mem_nonces hps (GoMap.mem_of_ofPairs hh')
    rw [hu'] at e
    cases e
    exact ⟨v, hv, u, hu, hkey.symm⟩

end Order

/-! ## The commit loop -/

/-- Balance, nonce and the watermark under `xeventsXYAddr`; `none` is an error. -/
structure EnterAnswers where
  balance : Option ℕ
  nonceAt : Option ℕ
  vaultWatermark : Option ℕ

/-- The part of `commitVaultEvents` before the transactor is set up: account and re-entry checks. -/
def reentryPasses (a : EnterAnswers) (b : VaultEventsBatch) : Bool :=
  match a.balance, a.nonceAt, a.vaultWatermark with
  | some balance, some _, some vaultWatermark =>
    decide (low balance ≠ 0) && !decide (b.startBlock ≤ low vaultWatermark)
  | _, _, _ => false

structure RecordAnswers where
  transactor : Bool
  tokenMappingWatermark : ℕ → Address → Hash → Option ℕ
  recorded : Bool

structure CommitLists where
  succeeded : List ℕ
  errors : List ℕ
  exts : List VaultEventExt

section Loop

variable (L : Imports) (read : ℕ → Address → Hash → Option ℕ)

def Imports.vaultEventExt (v : VaultEventWithSig) : VaultEventExt where
  sig := v.blssig
  vault := v.event.vault
  nonce := v.event.nonce
  tokenMapping := v.event.tokenMappingSha256 L.sha256
  eventData := L.encodeToBytes v.event

/-- One event, at position `i`: an error, already recorded, or to be submitted. -/
def Imports.commitOne (i : ℕ) (v : VaultEventWithSig) (c : CommitLists) : CommitLists :=
  match read i v.event.vault (v.event.tokenMappingSha256 L.sha256) with
  | none => { c with errors := c.errors ++ [ofInt v.event.nonce] }
  | some w =>
    if ofInt v.event.nonce < low w then
      { c with succeeded := c.succeeded ++ [ofInt v.event.nonce] }
    else { c with exts := c.exts ++ [L.vaultEventExt v] }

def Imports.commitLoop : ℕ → List VaultEventWithSig → CommitLists → CommitLists
  | _, [], c => c
  | i, v :: vs, c => Imports.commitLoop (i + 1) vs (L.commitOne read i v c)

/-- The event was read below its token-mapping watermark. -/
def Imports.ReadBelow (e : VaultEvent) : Prop :=
  ∃ i w, read i e.vault (e.tokenMappingSha256 L.sha256) = some w ∧
    ofInt e.nonce < low w

theorem Imports.commitOne_succeeded (i : ℕ) (v : VaultEventWithSig) (c : CommitLists) :
    (L.commitOne read i v c).succeeded.length ≤ c.succeeded.length + 1 ∧
      ((L.commitOne read i v c).succeeded.length = c.succeeded.length + 1 →
        L.ReadBelow read v.event) := by
  unfold commitOne
  split
  · exact ⟨Nat.le_succ _, fun h => absurd h (Nat.ne_of_lt (Nat.lt_succ_self _))⟩
  · rename_i w hw
    split_ifs with hlt
    · exact ⟨by simp, fun _ => ⟨i, w, hw, hlt⟩⟩
    · exact ⟨Nat.le_succ _, fun h => absurd h (Nat.ne_of_lt (Nat.lt_succ_self _))⟩

theorem Imports.commitLoop_succeeded_le (i : ℕ) (vs : List VaultEventWithSig) (c : CommitLists) :
    (L.commitLoop read i vs c).succeeded.length ≤ c.succeeded.length + vs.length := by
  induction vs generalizing i c with
  | nil => exact le_rfl
  | cons v vs ih =>
    have h1 := ih (i + 1) (L.commitOne read i v c)
    have h2 := (L.commitOne_succeeded read i v c).1
    simp only [commitLoop, length_cons]
    omega

/-- **All succeeded.** If the loop marks as many events as it sees, it read each of them below
its token-mapping watermark. -/
theorem Imports.commitLoop_all_succeeded (i : ℕ) (vs : List VaultEventWithSig) (c : CommitLists)
    (h : (L.commitLoop read i vs c).succeeded.length = c.succeeded.length + vs.length) :
    ∀ v ∈ vs, L.ReadBelow read v.event := by
  induction vs generalizing i c with
  | nil => exact nofun
  | cons v vs ih =>
    have h1 := L.commitLoop_succeeded_le read (i + 1) vs (L.commitOne read i v c)
    have h2 := L.commitOne_succeeded read i v c
    simp only [commitLoop, length_cons] at h
    intro u hu
    rcases mem_cons.mp hu with rfl | hu
    · exact h2.2 (by omega)
    · exact ih (i + 1) (L.commitOne read i v c) (by omega) u hu

theorem Imports.commitLoop_exts (i : ℕ) (vs : List VaultEventWithSig) (c : CommitLists)
    {x : VaultEventExt} (hx : x ∈ (L.commitLoop read i vs c).exts) :
    x ∈ c.exts ∨ ∃ v ∈ vs, x = L.vaultEventExt v := by
  induction vs generalizing i c with
  | nil => exact .inl hx
  | cons v vs ih =>
    rcases ih (i + 1) _ hx with h | ⟨u, hu, rfl⟩
    · unfold commitOne at h
      split at h
      · exact .inl h
      · split_ifs at h
        · exact .inl h
        · rcases mem_append.mp h with h | h
          · exact .inl h
          · exact .inr ⟨v, mem_cons_self, mem_singleton.mp h⟩
    · exact .inr ⟨u, mem_cons_of_mem _ hu, rfl⟩

end Loop

/-! ## The whole commit -/

/-- What `commitVaultEvents` returns, with the entries it passed to `RecordVaultEventBatch`. -/
structure CommitResult where
  succeeded : List ℕ
  committed : List ℕ
  errors : List ℕ
  transactor : Bool
  exts : List VaultEventExt

section Commit

variable (L : Imports) (t : Tables) (b : VaultEventsBatch)

/-- `commitVaultEvents` after the re-entry check; `none` is a nil dereference. -/
def Imports.commitEvents (a : RecordAnswers) : Option CommitResult :=
  (L.orderedEvents t b.batch).bind fun vs =>
    let c := L.commitLoop a.tokenMappingWatermark 0 vs ⟨[], [], []⟩
    if c.exts = [] then some ⟨c.succeeded, [], c.errors, a.transactor, []⟩
    else if a.transactor = false then none
    else if a.recorded then
      some ⟨c.succeeded, c.exts.map fun x => ofInt x.nonce, c.errors, true, c.exts⟩
    else
      some ⟨c.succeeded, [], c.errors ++ c.exts.map fun x => ofInt x.nonce, true, c.exts⟩

def Imports.commitVaultEvents (e : EnterAnswers) (a : RecordAnswers) : Option CommitResult :=
  if reentryPasses e b then L.commitEvents t b a else some ⟨[], [], [], false, []⟩

variable {L t b} {a : RecordAnswers} {r : CommitResult}

variable (h : L.commitEvents t b a = some r)
include h

theorem Imports.commitEvents_eq_some :
    ∃ vs, L.orderedEvents t b.batch = some vs ∧
      r.succeeded = (L.commitLoop a.tokenMappingWatermark 0 vs ⟨[], [], []⟩).succeeded ∧
      ∀ x ∈ r.exts, ∃ v ∈ vs, x = L.vaultEventExt v := by
  obtain ⟨vs, hvs, h⟩ := bind_eq_some_iff.mp h
  have hx : ∀ x ∈ (L.commitLoop a.tokenMappingWatermark 0 vs ⟨[], [], []⟩).exts,
      ∃ v ∈ vs, x = L.vaultEventExt v := fun x hx =>
    (L.commitLoop_exts _ 0 vs _ hx).resolve_left not_mem_nil
  refine ⟨vs, hvs, ?_⟩
  dsimp only at h
  split_ifs at h <;> cases h
  · exact ⟨rfl, nofun⟩
  · exact ⟨rfl, hx⟩
  · exact ⟨rfl, hx⟩

/-- **Recorded before.** If all events of the batch count as succeeded, each was read below its
token-mapping watermark. -/
theorem Imports.commitEvents_all_recorded (hlen : r.succeeded.length = b.batch.length) :
    ∀ h ∈ b.batch, ∃ v, t.vaultEvents h = some v ∧ L.ReadBelow a.tokenMappingWatermark v.event := by
  obtain ⟨vs, hvs, hr, -⟩ := commitEvents_eq_some h
  obtain ⟨hcard, -, hkeys⟩ := orderedEvents_spec hvs
  have hall := L.commitLoop_all_succeeded a.tokenMappingWatermark 0 vs ⟨[], [], []⟩
    (by rw [← hr, hlen, hcard]; exact (Nat.zero_add _).symm)
  intro h hh
  obtain ⟨v, hv, u, hu, hkey⟩ := hkeys h hh
  -- the event looked up under the key may be another one, but the loop reads only what the key has
  obtain ⟨hvault, hsha, hnonce⟩ := L.nonceKey_inj hkey
  have := hall u hu
  unfold Imports.ReadBelow at this
  rw [hvault, hsha, hnonce] at this
  exact ⟨v, hv, this⟩

/-- **What is submitted** is the entry of the event stored for a hash of the batch. -/
theorem Imports.commitEvents_exts :
    ∀ x ∈ r.exts, ∃ h ∈ b.batch, ∃ v, t.vaultEvents h = some v ∧ x = L.vaultEventExt v := by
  obtain ⟨vs, hvs, -, hexts⟩ := commitEvents_eq_some h
  intro x hx
  obtain ⟨v, hv, rfl⟩ := hexts x hx
  obtain ⟨h, hh, e⟩ := (orderedEvents_spec hvs).2.1 v hv
  exact ⟨h, hh, v, e, rfl⟩

end Commit

/-! ## Waiting for confirmation -/

inductive ConfirmRound
  | newConfig
  | failed
  | submit
  | timeOut
  | again
deriving DecidableEq

/-- One round: `newVersion` is what the configuration channel holds, `blockNumberAfter` the
answer of `BlockNumber`. -/
def confirmRound (configVersion : ℕ) (newVersion : Option ℕ) (blockNumberBefore : ℕ)
    (blockNumberAfter : Option ℕ) (succeeded : List ℕ) (b : VaultEventsBatch) : ConfirmRound :=
  if newVersion.any fun v => decide (configVersion < v) then .newConfig
  else match blockNumberAfter with
    | none => .failed
    | some after =>
      if blockNumberBefore < after ∧ succeeded.length = b.batch.length then .submit
      else if batchCommitThreshold < sub after blockNumberBefore then .timeOut
      else .again

theorem confirmRound_submit {configVersion blockNumberBefore : ℕ}
    {newVersion blockNumberAfter : Option ℕ} {succeeded : List ℕ} {b : VaultEventsBatch}
    (h : confirmRound configVersion newVersion blockNumberBefore blockNumberAfter succeeded b =
      .submit) : succeeded.length = b.batch.length := by
  unfold confirmRound at h
  split_ifs at h
  split at h
  · cases h
  · split_ifs at h with hs
    exact hs.2

end XChain
