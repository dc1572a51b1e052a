import XChain.Sentinel.Event

/-!
# Counting the signatures of vault events

`processVaultEventWithSig` files a signed event under the hash of the event. The first signature of
a hash is stored as its hexadecimal text, every later one as the raw bytes. `receivedAllSigs`
compares the size of the set with the threshold of the current group key.

* **`signature_count_exact_iff`**: the count is the number of distinct signatures exactly if, for
  every hash, the first signature comes again just when its hexadecimal text also comes.
-/

namespace XChain

open GoText List Finset Function

/-! ## The tables of the sentinel -/

structure Tables where
  vaultEventsSigs : Hash → Option (Finset Bytes)
  vaultEvents : Hash → Option VaultEventWithSig

def Tables.empty : Tables := ⟨fun _ => none, fun _ => none⟩

/-- The group key, as far as the sentinel reads it: `dkg.Bls` with its threshold and whether it
holds a private share. -/
structure Bls where
  threshold : ℤ
  groupPrivateShare : Bool

structure Dkg where
  vssEnabled : Bool
  bls : Option Bls

def Dkg.isVSSReady (d : Dkg) : Bool := d.vssEnabled && d.bls.any Bls.groupPrivateShare

/-- `Threshold`: the threshold of the group key, `0` while it is not ready. -/
def Dkg.threshold (d : Dkg) : ℤ :=
  if d.isVSSReady then (d.bls.map Bls.threshold).getD 0 else 0

/-- A batch of scanned events: the keys of the Go map, each once. -/
structure VaultEventsBatch where
  batch : List Hash
  nodup : batch.Nodup
  vault : Address
  startBlock : ℕ
  endBlock : ℕ
deriving DecidableEq

def vaultEventsBatchQueueSize : ℕ := 100
def vaultEventsBatchPendingSize : ℕ := 100
def committedVaultEventsBatchChanSize : ℕ := 100

section Process

variable (rlpHash : VaultEvent → Hash)

def processVaultEventWithSig (s : Tables) (v : VaultEventWithSig) : Tables where
  vaultEventsSigs := update s.vaultEventsSigs (rlpHash v.event) <|
    match s.vaultEventsSigs (rlpHash v.event) with
    | some received => some (insert v.blssig received)
    | none => some {hex v.blssig}
  vaultEvents := update s.vaultEvents (rlpHash v.event) (some v)

def processAll (s : Tables) (vs : List VaultEventWithSig) : Tables :=
  vs.foldl (processVaultEventWithSig rlpHash) s

def sigsFor (h : Hash) (vs : List VaultEventWithSig) : List Bytes :=
  (vs.filter fun v => rlpHash v.event = h).map VaultEventWithSig.blssig

end Process

def sigCount (s : Tables) (h : Hash) : ℕ := (s.vaultEventsSigs h).elim 0 card

def Tables.ready (s : Tables) (t : ℤ) (h : Hash) : Bool :=
  match s.vaultEventsSigs h with
  | some sigs => decide (t ≤ sigs.card)
  | none => false

/-- `ReceivedAllSigs`: the number of ready events, and whether all are. -/
def receivedAllSigs (d : Dkg) (s : Tables) (b : VaultEventsBatch) : ℕ × Bool :=
  let readyCount := b.batch.countP (s.ready d.threshold)
  (readyCount, readyCount == b.batch.length)

theorem receivedAllSigs_iff (d : Dkg) (s : Tables) (b : VaultEventsBatch) :
    (receivedAllSigs d s b).2 = true ↔ ∀ h ∈ b.batch, s.ready d.threshold h = true := by
  simp only [receivedAllSigs, beq_iff_eq]
  exact countP_eq_length

theorem Tables.ready_le_sigCount {s : Tables} {t : ℤ} {h : Hash} (hr : s.ready t h = true) :
    t ≤ sigCount s h := by
  unfold Tables.ready at hr
  unfold sigCount
  split at hr
  · rename_i sigs hs
    rw [hs]
    exact of_decide_eq_true hr
  · exact absurd hr (by decide)

/-! ## What is stored -/

/-- The stored set, from the signatures received: the first one as hexadecimal text. -/
def storedSigs : List Bytes → Option (Finset Bytes)
  | [] => none
  | s :: rest => some (insert (hex s) rest.toFinset)

theorem storedSigs_append (l : List Bytes) (b : Bytes) :
    storedSigs (l ++ [b]) = match storedSigs l with
      | some received => some (insert b received)
      | none => some {hex b} := by
  cases l with
  | nil => rfl
  | cons s rest =>
    simp only [cons_append, storedSigs]
    rw [toFinset_append, insert_comm]
    congr 2
    ext x
    simp

section Stored

variable (rlpHash : VaultEvent → Hash)

theorem sigsFor_append (h : Hash) (vs : List VaultEventWithSig) (v : VaultEventWithSig) :
    sigsFor rlpHash h (vs ++ [v]) =
      sigsFor rlpHash h vs ++ if rlpHash v.event = h then [v.blssig] else [] := by
  simp only [sigsFor, filter_append, map_append]
  by_cases hv : rlpHash v.event = h <;> simp [hv]

theorem processAll_append (s : Tables) (vs : List VaultEventWithSig) (v : VaultEventWithSig) :
    processAll rlpHash s (vs ++ [v]) =
      processVaultEventWithSig rlpHash (processAll rlpHash s vs) v := by
  simp [processAll]

/-- **The set stored for a hash.** -/
theorem processAll_sigs (vs : List VaultEventWithSig) (h : Hash) :
    (processAll rlpHash Tables.empty vs).vaultEventsSigs h = storedSigs (sigsFor rlpHash h vs) := by
  induction vs using reverseRecOn with
  | nil => rfl
  | append_singleton vs v ih =>
    rw [processAll_append, sigsFor_append]
    by_cases hv : rlpHash v.event = h
    · subst hv
      rw [if_pos rfl, storedSigs_append, ← ih]
      simp only [processVaultEventWithSig, update_self]
    · rw [if_neg hv, append_nil, ← ih]
      simp only [processVaultEventWithSig, update_of_ne (Ne.symm hv)]

/-- **The event stored for a hash** is the last one received for it. -/
theorem processAll_events (vs : List VaultEventWithSig) (h : Hash) :
    (processAll rlpHash Tables.empty vs).vaultEvents h =
      (vs.filter fun v => rlpHash v.event = h).getLast? := by
  induction vs using reverseRecOn with
  | nil => rfl
  | append_singleton vs v ih =>
    rw [processAll_append, filter_append]
    by_cases hv : rlpHash v.event = h
    · subst hv
      simp [processVaultEventWithSig]
    · simp [processVaultEventWithSig, update_of_ne (Ne.symm hv), ih, hv]

end Stored

/-! ## Exact counting -/

theorem card_insert_eq_card_insert_iff {α : Type*} [DecidableEq α] (a b : α) (s : Finset α) :
    (insert a s).card = (insert b s).card ↔ (a ∈ s ↔ b ∈ s) := by
  by_cases ha : a ∈ s <;> by_cases hb : b ∈ s <;> simp [ha, hb]

/-- The first signature comes again just when its hexadecimal text also comes. -/
def FirstSigConsistent : List Bytes → Prop
  | [] => True
  | s :: rest => s ∈ rest ↔ hex s ∈ rest

theorem card_storedSigs_eq_iff (l : List Bytes) :
    (storedSigs l).elim 0 card = l.toFinset.card ↔ FirstSigConsistent l := by
  cases l with
  | nil => simp [storedSigs, FirstSigConsistent]
  | cons s rest =>
    rw [storedSigs, Option.elim_some, toFinset_cons, card_insert_eq_card_insert_iff,
      FirstSigConsistent, mem_toFinset, mem_toFinset]
    exact Iff.comm

/-- **Signature counting** is exact iff every hash meets `FirstSigConsistent`. -/
theorem signature_count_exact_iff (rlpHash : VaultEvent → Hash) (vs : List VaultEventWithSig) :
    ((∀ h, sigCount (processAll rlpHash Tables.empty vs) h = (sigsFor rlpHash h vs).toFinset.card) ∧
      ∀ (d : Dkg) (b : VaultEventsBatch),
        (receivedAllSigs d (processAll rlpHash Tables.empty vs) b).2 = true →
          ∀ h ∈ b.batch, d.threshold ≤ (sigsFor rlpHash h vs).toFinset.card) ↔
      ∀ h, FirstSigConsistent (sigsFor rlpHash h vs) := by
  have hcount : ∀ h, sigCount (processAll rlpHash Tables.empty vs) h =
      (sigsFor rlpHash h vs).toFinset.card ↔ FirstSigConsistent (sigsFor rlpHash h vs) := by
    intro h
    rw [sigCount, processAll_sigs]
    exact card_storedSigs_eq_iff _
  constructor
  · exact fun hex h => (hcount h).mp (hex.1 h)
  · refine fun hc => ⟨fun h => (hcount h).mpr (hc h), fun d b hb h hh => ?_⟩
    rw [← (hcount h).mpr (hc h)]
    exact Tables.ready_le_sigCount ((receivedAllSigs_iff d _ b).mp hb h hh)

/-! ## A signature delivered twice -/

def sampleAddress (b : UInt8) : Address := .fill b

def sampleEvent (nonce : ℤ) : VaultEvent where
  vault := sampleAddress 7
  sourceChainid := 1
  sourceToken := sampleAddress 1
  mappedChainid := 2
  mappedToken := sampleAddress 2
  toAddr := sampleAddress 3
  amount := 5
  nonce := nonce
  totalNonce := nonce
  blockNumber := 105
  tip := 0

def sampleHash (e : VaultEvent) : Hash :=
  ⟨replicate 31 0 ++ [UInt8.ofNat e.nonce.toNat], by simp⟩

/-- One signature, delivered twice, counts as two and completes a batch of threshold two. -/
theorem signature_counted_twice :
    ¬ ∀ (rlpHash : VaultEvent → Hash) (vs : List VaultEventWithSig),
      (∀ h, sigCount (processAll rlpHash Tables.empty vs) h =
        (sigsFor rlpHash h vs).toFinset.card) ∧
      ∀ (d : Dkg) (b : VaultEventsBatch),
        (receivedAllSigs d (processAll rlpHash Tables.empty vs) b).2 = true →
          ∀ h ∈ b.batch, d.threshold ≤ (sigsFor rlpHash h vs).toFinset.card := by
  intro hex
  have h := (hex sampleHash [⟨sampleEvent 0, [1]⟩, ⟨sampleEvent 0, [1]⟩]).2 ⟨true, some ⟨2, true⟩⟩
    ⟨[sampleHash (sampleEvent 0)], by decide, sampleAddress 7, 101, 120⟩ (by decide)
    (sampleHash (sampleEvent 0)) (by decide)
  revert h
  decide

end XChain
