import XChain.Lib.Assoc
import XChain.Lib.Sharing
import XChain.Lib.Text
import XChain.Lib.Word

/-!
# Loading a VSS config

`UpdateVSSConfig` checks the shares addressed to this node and, if they verify, stores a new group
key under the version. `setVssConfig` makes a stored key the current one; `RunVssStateMachine`
decides which of the two is due. All answers of the contract within one call are one record, each
read on its own.

Scalars `F` and points `P` are any field and module over it; the group operations of the curve
library, the codecs of the shares and gzip are parameters.
-/

namespace XChain.Vss

open Sharing GoText GoMap Word64 Prod

abbrev PubShare (P : Type) := Share P

abbrev PriShare (F : Type) := Share F

inductive ConfigResult
  | vssConfigVote
  | vssConfigReveal
  | vssConfigRecheck
  | vssConfigOmit
deriving DecidableEq

/-- `blslib.BLS` as far as it is read here. `id` tells two objects apart that have equal fields. -/
structure BLS (F P : Type) where
  id : ℕ
  threshold : ℤ
  nodeIndex : ℤ
  n : ℕ
  totalN : ℤ
  groupPublicPoly : List P
  groupPrivateShare : Option (PriShare F)
deriving DecidableEq

/-- What the curve library, the codecs and gzip contribute. -/
structure Crypto (F P : Type) where
  base : P
  recoverPubPoly : List (Option (PubShare P)) → ℤ → ℤ → Option (List P)
  unmarshalPublicShares : Bytes → Bytes → List (PubShare P)
  unmarshalPrivateShares : Bytes → Bytes → ℤ → Bytes → List (PriShare F)
  gunzip : Bytes → Bytes

structure Self where
  vssid : Address
  vssKey : Bytes

/-! ## Waiting for the contract -/

/-- What the contract answers in one round of the wait of `shouldUpdateVSSConfig`, and whether the
time is over after it. -/
structure WaitRound where
  lastNodeChangeConfigVersion : ℕ
  vssThreshold : ℕ
  lastConfigUpload : Address → ℕ
  timedOut : Bool

def WaitRound.nodeUptoDateCount (r : WaitRound) (activeNodeList : List Address) : ℕ :=
  activeNodeList.countP fun addr =>
    decide (r.lastNodeChangeConfigVersion ≤ r.lastConfigUpload addr)

/-- The wait itself; it has no result while every round asks for another one. -/
def waitForUploads (activeNodeList : List Address) : List WaitRound → Option Bool
  | [] => none
  | r :: rs =>
    if r.nodeUptoDateCount activeNodeList = activeNodeList.length then some true
    else if r.timedOut then
      some (decide (toInt64 r.vssThreshold ≤ r.nodeUptoDateCount activeNodeList))
    else waitForUploads activeNodeList rs

def shouldUpdateVSSConfig (currentConfigVersion vssConfigVersion : ℤ)
    (activeNodeList : List Address) (rounds : List WaitRound) : Option Bool :=
  if currentConfigVersion < vssConfigVersion then waitForUploads activeNodeList rounds
  else some false

def receivedFrom (activeNodeList : List Address) (received : Address → Option Bytes) :
    List Address :=
  activeNodeList.dedup.filter fun addr => (received addr).isSome

/-- One round of questions: an answer of more than one byte is unzipped and kept. -/
def receiveShares (gunzip : Bytes → Bytes) (activeNodeList : List Address)
    (received : Address → Option Bytes) (answer : Address → Bytes) : Address → Option Bytes :=
  fun addr => match received addr with
    | some b => some b
    | none => if addr ∈ activeNodeList ∧ 1 < (answer addr).length then some (gunzip (answer addr))
      else none

/-- `GetVSSShares`, given the answers of the rounds before the timeout. -/
def getVSSShares (gunzip : Bytes → Bytes) (activeNodeList : List Address) :
    (Address → Option Bytes) → List (Address → Bytes) → Option (Address → Option Bytes)
  | _, [] => none
  | received, answer :: answers =>
    let received' := receiveShares gunzip activeNodeList received answer
    if (receivedFrom activeNodeList received').length = activeNodeList.length then some received'
    else getVSSShares gunzip activeNodeList received' answers

/-! ## One call of `UpdateVSSConfig` -/

/-- What the contract answers during one call of `UpdateVSSConfig`, and the orders in which its maps
of shares are visited. -/
structure Answers where
  vssConfigVersion : ℕ
  activeNodeList : List Address
  listErr : Bool
  waitRounds : List WaitRound
  vssThreshold : ℕ
  vssNodeIndex : ℤ
  vssNodeCount : ℕ
  nodesPubkey : Address → Bytes
  lastConfigUploadBefore : Address → ℕ
  lastConfigUploadAfter : Address → ℕ
  publicShares : List (Address → Bytes)
  privateShares : List (Address → Bytes)
  pubRange : Ranging Address
  priRange : Ranging Address

def Answers.version (a : Answers) : ℤ := toInt64 a.vssConfigVersion

section Evaluate

variable {F P : Type} [Field F] [AddCommGroup P] [Module F P] [DecidableEq P]

/-- The shares of each sender, decoded with the public key of the sender, in the order `range`. -/
def decodeShares {V : Type} (range : Ranging Address) (activeNodeList : List Address)
    (nodesPubkey : Address → Bytes) (received : Address → Option Bytes)
    (unmarshal : Bytes → Bytes → List (Share V)) : List (Address × List (Share V)) :=
  (range.visit (receivedFrom activeNodeList received)).filterMap fun addr =>
    if addr ∈ activeNodeList then
      (received addr).map fun shares => (addr, unmarshal shares (nodesPubkey addr))
    else none

/-- `verifyShares`: the senders whose private share for this node does not match the public one,
with the last such share. -/
def verifyShares (base : P) (nodeIndex : ℤ)
    (verifyPublicShares : List (Address × List (PubShare P)))
    (verifyPrivateShares : List (Address × List (PriShare F))) : List (Address × PriShare F) :=
  verifyPublicShares.filterMap fun (sender, pubshares) =>
    (((pubshares.filter fun pubshare => pubshare.I = nodeIndex).flatMap fun pubshare =>
      ((verifyPrivateShares.lookup sender).getD []).filter fun prishare =>
        prishare.I = nodeIndex ∧ prishare.V • base ≠ pubshare.V).getLast?).map fun prishare =>
          (sender, prishare)

/-- The commitment of one sender; shares of negative index are left out. -/
def recoverShares (K : Crypto F P) (threshold totalN : ℤ) (ps : List (PubShare P)) :
    Option (List P) :=
  K.recoverPubPoly (ps.map fun s => if s.I < 0 then none else some s) threshold totalN

/-- The sum of the commitments of all senders; the node itself is one. -/
def groupPublicPoly (K : Crypto F P) (threshold totalN : ℤ) :
    List (List (PubShare P)) → Option (List P)
  | [] => none
  | ps :: rest =>
    (recoverShares K threshold totalN ps).bind fun pubpoly =>
      rest.foldlM (fun sum qs => (recoverShares K threshold totalN qs).bind (addPoly sum)) pubpoly

def groupPrivateShare (nodeIndex : ℤ) (allPrivateShares : List (List (PriShare F))) : F :=
  ((allPrivateShares.flatten.filter fun s => s.I = nodeIndex).map Share.V).sum

inductive Outcome (F P : Type)
  | recheck
  | reveal (notVerify : List (Address × PriShare F))
  | vote (poly : List P) (share : F)

def checkShares (K : Crypto F P) (threshold nodeIndex totalN : ℤ)
    (pubs : List (Address × List (PubShare P))) (pris : List (Address × List (PriShare F))) :
    Outcome F P :=
  let notVerify := verifyShares K.base nodeIndex pubs pris
  if notVerify ≠ [] then .reveal notVerify
  else
    match groupPublicPoly K threshold totalN (pubs.map snd) with
    | none => .recheck
    | some poly =>
      let share := groupPrivateShare nodeIndex (pris.map snd)
      if evalPoly (abscissa (F := F) nodeIndex) poly = share • K.base then .vote poly share
      else .recheck

/-- The part of `UpdateVSSConfig` after `shouldUpdateVSSConfig`. -/
def evaluate (K : Crypto F P) (me : Self) (a : Answers) : Outcome F P :=
  if me.vssid ∉ a.activeNodeList then .recheck
  else if (a.activeNodeList.length : ℤ) < toInt64 a.vssThreshold then .recheck
  else
    match getVSSShares K.gunzip a.activeNodeList (fun _ => none) a.publicShares with
    | none => .recheck
    | some pubshares =>
      match getVSSShares K.gunzip a.activeNodeList (fun _ => none) a.privateShares with
      | none => .recheck
      | some prishares =>
        -- an upload in between: the two sets of shares may belong to different polynomials
        if a.activeNodeList.any fun addr =>
            a.lastConfigUploadBefore addr != a.lastConfigUploadAfter addr then .recheck
        else
          checkShares K (toInt64 a.vssThreshold) a.vssNodeIndex
            (toInt64 a.vssNodeCount)
            (decodeShares a.pubRange a.activeNodeList a.nodesPubkey pubshares
              K.unmarshalPublicShares)
            (decodeShares a.priRange a.activeNodeList a.nodesPubkey prishares fun shares pubkey =>
              K.unmarshalPrivateShares shares me.vssKey a.vssNodeIndex pubkey)

end Evaluate

/-! ## The state of the DKG service -/

/-- `created` numbers the key objects, `votes` and `reveals` are the transactions sent. -/
structure DKG (F P : Type) where
  vssEnabled : Bool
  bls : Option (BLS F P)
  prevbls : List (BLS F P)
  vssSeenConfigs : ℤ → Bool
  vssSettings : ℤ → Option (BLS F P)
  currentConfigVersion : ℤ
  created : ℕ
  votes : List ℤ
  reveals : List (ℤ × Address)

def DKG.new (F P : Type) : DKG F P where
  vssEnabled := true
  bls := none
  prevbls := []
  vssSeenConfigs := fun _ => false
  vssSettings := fun _ => none
  currentConfigVersion := 0
  created := 0
  votes := []
  reveals := []

def maximumBLSHistorySize : ℕ := 100

def minBLSBlockNumber : ℤ := 1

/-! ## Storing and switching keys -/

section Keys

variable {F P : Type}

def newBLS (s : DKG F P) (a : Answers) (poly : List P) (share : F) : BLS F P where
  id := s.created
  threshold := toInt64 a.vssThreshold
  nodeIndex := a.vssNodeIndex
  n := a.activeNodeList.length
  totalN := toInt64 a.vssNodeCount
  groupPublicPoly := poly
  groupPrivateShare := some ⟨a.vssNodeIndex, share⟩

def DKG.vote (s : DKG F P) (a : Answers) (poly : List P) (share : F) : DKG F P :=
  { s with
    vssSettings := Function.update s.vssSettings a.version (some (newBLS s a poly share))
    created := s.created + 1
    votes := s.votes ++ [a.version] }

def DKG.reveal (s : DKG F P) (a : Answers) (notVerify : List (Address × PriShare F)) : DKG F P :=
  { s with reveals := s.reveals ++ notVerify.map fun r => (a.version, r.1) }

def DKG.markSeen (s : DKG F P) (vssConfigVersion : ℤ) : DKG F P :=
  { s with vssSeenConfigs := Function.update s.vssSeenConfigs vssConfigVersion true }

def pushBLS (bls : Option (BLS F P)) (prevbls : List (BLS F P)) : List (BLS F P) :=
  let pushed := bls.toList ++ prevbls
  if maximumBLSHistorySize < pushed.length then pushed.dropLast else pushed

def setVssConfig (s : DKG F P) (vssConfigVersion : ℤ) : DKG F P :=
  match s.vssSettings vssConfigVersion with
  | some bls =>
    if s.currentConfigVersion < vssConfigVersion then
      { s with
        prevbls := pushBLS s.bls s.prevbls
        bls := some bls
        currentConfigVersion := vssConfigVersion }
    else s
  | none => s

def DKG.isVSSReady (s : DKG F P) : Bool :=
  s.vssEnabled && s.bls.any fun bls => bls.groupPrivateShare.isSome

def DKG.shouldSkipVSS (s : DKG F P) (blockNumber : ℤ) : Bool :=
  !s.vssEnabled || decide (blockNumber < minBLSBlockNumber)

/-- `ValidateBLSSig`: the current key first, then the earlier ones from the newest on. -/
def validateBLSSig [AddCommGroup P] (verify : P → Bytes → Bytes → Bool) (s : DKG F P)
    (toSign blsSig : Bytes) (syncBlock : Bool) (blockNumber : ℤ) : Bool :=
  if syncBlock then true
  else if s.shouldSkipVSS blockNumber then true
  else if !s.isVSSReady then false
  else (s.bls.toList ++ s.prevbls).any fun bls => verify (commit bls.groupPublicPoly) toSign blsSig

/-- **A switch of keys.** `setVssConfig` changes nothing, or it makes a stored key of a higher
version the current one. -/
theorem setVssConfig_cases (s : DKG F P) (v : ℤ) :
    setVssConfig s v = s ∨ ∃ bls, s.vssSettings v = some bls ∧ s.currentConfigVersion < v ∧
      setVssConfig s v = { s with
        prevbls := pushBLS s.bls s.prevbls
        bls := some bls
        currentConfigVersion := v } := by
  unfold setVssConfig
  split
  · rename_i bls hbls
    split
    · rename_i hlt
      exact .inr ⟨bls, hbls, hlt, rfl⟩
    · exact .inl rfl
  · exact .inl rfl

end Keys

section Service

variable {F P : Type} [Field F] [AddCommGroup P] [Module F P] [DecidableEq P]

/-- `UpdateVSSConfig`; no result while it waits for the other nodes. -/
def updateVSSConfig (K : Crypto F P) (me : Self) (s : DKG F P) (a : Answers) :
    Option (ConfigResult × DKG F P) :=
  if a.listErr then some (.vssConfigRecheck, s)
  else
    match shouldUpdateVSSConfig s.currentConfigVersion a.version a.activeNodeList a.waitRounds with
    | none => none
    | some false => some (.vssConfigOmit, s)
    | some true =>
      match evaluate K me a with
      | .recheck => some (.vssConfigRecheck, s)
      | .reveal notVerify => some (.vssConfigReveal, s.reveal a notVerify)
      | .vote poly share => some (.vssConfigVote, s.vote a poly share)

/-- `RunVssStateMachine`; the version is read once more in `UpdateVSSConfig`. -/
def runVssStateMachine (K : Crypto F P) (me : Self) (s : DKG F P) (vssConfigVersion : ℕ)
    (a : Answers) (ready : Bool) : Option (DKG F P) :=
  let version := toInt64 vssConfigVersion
  if s.vssSeenConfigs version = false then
    (updateVSSConfig K me s a).map fun (updateResult, s') =>
      if updateResult ≠ .vssConfigRecheck then s'.markSeen version else s'
  else if ready then some (setVssConfig s version)
  else some s

/-! ## What a call can do -/

variable {K : Crypto F P} {me : Self} {a : Answers}

theorem evaluate_ne_recheck (h : evaluate K me a ≠ .recheck) :
    me.vssid ∈ a.activeNodeList ∧ ∃ pubshares pris,
      getVSSShares K.gunzip a.activeNodeList (fun _ => none) a.publicShares = some pubshares ∧
      evaluate K me a = checkShares K (toInt64 a.vssThreshold) a.vssNodeIndex
        (toInt64 a.vssNodeCount) (decodeShares a.pubRange a.activeNodeList a.nodesPubkey pubshares
          K.unmarshalPublicShares) pris := by
  unfold evaluate at h ⊢
  split at h
  · exact absurd rfl h
  rename_i hme
  rw [if_neg hme]
  split at h
  · exact absurd rfl h
  rename_i hlen
  rw [if_neg hlen]
  split at h
  · exact absurd rfl h
  rename_i pubshares hpub
  split at h
  · exact absurd rfl h
  split at h
  · exact absurd rfl h
  rename_i hsame
  rw [if_neg hsame]
  exact ⟨not_not.mp hme, pubshares, _, hpub, rfl⟩

theorem evaluate_eq_checkShares {pubshares prishares : Address → Option Bytes}
    (hme : me.vssid ∈ a.activeNodeList)
    (hlen : toInt64 a.vssThreshold ≤ (a.activeNodeList.length : ℤ))
    (hpub : getVSSShares K.gunzip a.activeNodeList (fun _ => none) a.publicShares = some pubshares)
    (hpri : getVSSShares K.gunzip a.activeNodeList (fun _ => none) a.privateShares = some prishares)
    (hsame : ∀ addr ∈ a.activeNodeList,
      a.lastConfigUploadBefore addr = a.lastConfigUploadAfter addr) :
    evaluate K me a = checkShares K (toInt64 a.vssThreshold) a.vssNodeIndex
      (toInt64 a.vssNodeCount)
      (decodeShares a.pubRange a.activeNodeList a.nodesPubkey pubshares K.unmarshalPublicShares)
      (decodeShares a.priRange a.activeNodeList a.nodesPubkey prishares fun shares pubkey =>
        K.unmarshalPrivateShares shares me.vssKey a.vssNodeIndex pubkey) := by
  have hany : ¬ (a.activeNodeList.any fun addr =>
      a.lastConfigUploadBefore addr != a.lastConfigUploadAfter addr) = true := by
    simpa using hsame
  unfold evaluate
  rw [if_neg (not_not.mpr hme), if_neg (not_lt.mpr hlen)]
  simp only [hpub, hpri]
  rw [if_neg hany]

variable {threshold nodeIndex totalN : ℤ} {pubs : List (Address × List (PubShare P))}
  {pris : List (Address × List (PriShare F))} {share : F}

theorem checkShares_of_match {poly : List P}
    (hverify : verifyShares K.base nodeIndex pubs pris = [])
    (hpoly : groupPublicPoly K threshold totalN (pubs.map snd) = some poly)
    (hmatch : evalPoly (abscissa (F := F) nodeIndex) poly =
      groupPrivateShare nodeIndex (pris.map snd) • K.base) :
    checkShares K threshold nodeIndex totalN pubs pris =
      .vote poly (groupPrivateShare nodeIndex (pris.map snd)) := by
  unfold checkShares
  simp only [hverify, hpoly, ne_eq, not_true_eq_false, if_false]
  rw [if_pos hmatch]

theorem checkShares_ne_reveal_nil :
    checkShares K threshold nodeIndex totalN pubs pris ≠ .reveal [] := by
  intro h
  unfold checkShares at h
  simp only at h
  split at h
  · rename_i hne
    injection h with h
    exact hne h
  · split at h
    · cases h
    · split at h <;> cases h

/-- **A vote**: no sender is caught and the private shares match the commitments. -/
theorem checkShares_eq_vote {poly : List P}
    (h : checkShares K threshold nodeIndex totalN pubs pris = .vote poly share) :
    groupPublicPoly K threshold totalN (pubs.map snd) = some poly ∧
      evalPoly (abscissa (F := F) nodeIndex) poly = share • K.base := by
  unfold checkShares at h
  simp only at h
  split at h
  · cases h
  · split at h
    · cases h
    · rename_i g hg
      split at h
      · rename_i heq
        cases h
        exact ⟨hg, heq⟩
      · cases h

/-- **One call of `UpdateVSSConfig`**: the four results, each with the change it makes. -/
theorem updateVSSConfig_cases {s s' : DKG F P} {r : ConfigResult}
    (h : updateVSSConfig K me s a = some (r, s')) :
    (r = .vssConfigRecheck ∧ s' = s) ∨
    (r = .vssConfigOmit ∧ s' = s ∧ (a.version ≤ s.currentConfigVersion ∨
      waitForUploads a.activeNodeList a.waitRounds = some false)) ∨
    (r = .vssConfigReveal ∧ ∃ notVerify, notVerify ≠ [] ∧ s' = s.reveal a notVerify) ∨
    (r = .vssConfigVote ∧ s.currentConfigVersion < a.version ∧
      ∃ poly share, evaluate K me a = .vote poly share ∧ s' = s.vote a poly share) := by
  unfold updateVSSConfig at h
  split at h
  · cases h
    exact .inl ⟨rfl, rfl⟩
  split at h
  · cases h
  · rename_i hshould
    cases h
    refine .inr (.inl ⟨rfl, rfl, ?_⟩)
    unfold shouldUpdateVSSConfig at hshould
    split at hshould
    · exact .inr hshould
    · rename_i hle
      exact .inl (not_lt.mp hle)
  · rename_i hshould
    split at h
    · cases h
      exact .inl ⟨rfl, rfl⟩
    · rename_i notVerify hev
      cases h
      refine .inr (.inr (.inl ⟨rfl, notVerify, ?_, rfl⟩))
      rintro rfl
      obtain ⟨-, _, _, -, hcheck⟩ := evaluate_ne_recheck (by rw [hev]; exact nofun)
      exact checkShares_ne_reveal_nil (hcheck.symm.trans hev)
    · rename_i poly share hev
      cases h
      refine .inr (.inr (.inr ⟨rfl, ?_, poly, share, hev, rfl⟩))
      by_contra hle
      rw [shouldUpdateVSSConfig, if_neg hle] at hshould
      cases hshould

theorem updateVSSConfig_of_vote {s : DKG F P} {poly : List P} (hlist : a.listErr = false) (hshould :
      shouldUpdateVSSConfig s.currentConfigVersion a.version a.activeNodeList a.waitRounds = some
      true) (hev : evaluate K me a = .vote poly share) :
    updateVSSConfig K me s a = some (.vssConfigVote, s.vote a poly share) := by
  simp only [updateVSSConfig, hlist, hshould, hev, Bool.false_eq_true, if_false]

/-- **One tick of `RunVssStateMachine`.** -/
theorem runVssStateMachine_cases {s t : DKG F P} {vssConfigVersion : ℕ} {ready : Bool}
    (h : runVssStateMachine K me s vssConfigVersion a ready = some t) :
    (∃ r s', updateVSSConfig K me s a = some (r, s') ∧
      (r = .vssConfigRecheck ∧ t = s' ∨
        r ≠ .vssConfigRecheck ∧ t = s'.markSeen (toInt64 vssConfigVersion))) ∨
      t = setVssConfig s (toInt64 vssConfigVersion) ∨ t = s := by
  unfold runVssStateMachine at h
  simp only at h
  split at h
  · obtain ⟨⟨r, s'⟩, hup, heq⟩ := Option.map_eq_some_iff.mp h
    refine .inl ⟨r, s', hup, ?_⟩
    split at heq
    · rename_i hr
      exact .inr ⟨hr, heq.symm⟩
    · rename_i hr
      exact .inl ⟨not_not.mp hr, heq.symm⟩
  · split at h
    · cases h
      exact .inr (.inl rfl)
    · cases h
      exact .inr (.inr rfl)

end Service

end XChain.Vss
