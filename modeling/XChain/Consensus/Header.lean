import XChain.Lib.Text
import XChain.Lib.Word

/-!
# Headers of the proof-of-work engine

`verifyHeader` and `CalcDifficulty` of `consensus/ethash/consensus.go`, `CalcGasLimit` of
`core/block_validator.go` and the header that `commitNewWork` of `miner/worker.go` builds.

A `*big.Int` is an integer; number and gas used are never negative, as RLP carries no sign. The seal
is verified by a parameter.

* **`newWork_follows`**: the header of a new block follows its parent and is accepted.
-/

namespace XChain.Ethash

open GoText Word64 Int

structure Header where
  parentHash : Hash
  uncleHash : Hash
  number : ℕ
  time : ℤ
  difficulty : ℤ
  gasLimit : ℤ
  gasUsed : ℕ
  extra : Bytes
  mixDigest : Hash
  nonce : ℕ
deriving DecidableEq

structure Block where
  header : Header
  uncles : List Header
deriving DecidableEq

/-- What the engine and the miner ask of the chain; `hash` is the hash of a header and of
its block. -/
structure ChainReader where
  hash : Header → Hash
  getHeader : Hash → ℕ → Option Header
  getBlock : Hash → ℕ → Option Block
  getBlockNumber : Hash → ℕ

structure Params where
  maximumExtraDataSize : ℕ
  minGasLimit : ℤ
  targetGasLimit : ℤ
  minimumDifficulty : ℤ
  difficultyBoundDivisor : ℤ
  difficultyBoundDivisor_pos : 0 < difficultyBoundDivisor
  diffBombDefuseBlock : ℤ
  emptyUncleHash : Hash

def gasLimitBoundDivisor : ℤ := 1024

def maxBig63 : ℤ := 2 ^ 63 - 1

def maxBig256 : ℤ := 2 ^ 256 - 1

/-! ## Difficulty -/

/-- The difficulty of a block made at `time` on a parent; `time` is a `uint64`. -/
def calcDifficultyPangu (p : Params) (time : ℕ) (parent : Header) : ℤ :=
  let elapsed := (time - parent.time) / 3
  let x := if parent.uncleHash = p.emptyUncleHash then 1 - elapsed else 2 - elapsed
  let x := if x < -99 then -99 else x
  let x := parent.difficulty + parent.difficulty / p.difficultyBoundDivisor * x
  let x := if x < p.minimumDifficulty then p.minimumDifficulty else x
  -- the bomb ticks only from block 2999999 on, until it is defused
  let fakeBlockNumber : ℤ :=
    if 2999999 ≤ (parent.number : ℤ) ∧ (parent.number : ℤ) < p.diffBombDefuseBlock then
      parent.number - 2999999
    else 0
  let periodCount := fakeBlockNumber / 100000
  if 1 < periodCount then x + 2 ^ (periodCount - 2).toNat else x

/-- `CalcDifficulty`: only the Pangu rules are used. -/
def calcDifficulty (p : Params) (time : ℕ) (parent : Header) : ℤ :=
  calcDifficultyPangu p time parent

/-! ## Verification -/

inductive SealError
  | nonceOutOfRange
  | invalidDifficulty
  | invalidMixDigest
  | invalidPoW
deriving DecidableEq

inductive HeaderError
  | extraTooLong (length max : ℕ)
  | largeBlockTime
  | futureBlock
  | zeroBlockTime
  | invalidDifficulty (given want : ℤ)
  | gasLimitTooLarge (given max : ℤ)
  | invalidGasUsed (given : ℕ) (gasLimit : ℤ)
  | invalidGasLimit (given want limit : ℤ)
  | invalidNumber
  | badSeal (e : SealError)
deriving DecidableEq

section Verify

variable (p : Params) (verifySeal : Header → Except SealError Unit) (now : ℤ)

def verifyHeader (header parent : Header) (uncle sealed : Bool) : Except HeaderError Unit :=
  let diff := |parent.gasLimit - header.gasLimit|
  let limit := parent.gasLimit / gasLimitBoundDivisor
  let expected := calcDifficulty p (ofInt header.time) parent
  if p.maximumExtraDataSize < header.extra.length then
    .error (.extraTooLong header.extra.length p.maximumExtraDataSize)
  else if uncle = true ∧ maxBig256 < header.time then .error .largeBlockTime
  else if uncle = false ∧ now < header.time then .error .futureBlock
  else if header.time ≤ parent.time then .error .zeroBlockTime
  else if expected ≠ header.difficulty then
    .error (.invalidDifficulty header.difficulty expected)
  else if maxBig63 < header.gasLimit then .error (.gasLimitTooLarge header.gasLimit maxBig63)
  else if header.gasLimit < header.gasUsed then
    .error (.invalidGasUsed header.gasUsed header.gasLimit)
  else if limit ≤ diff ∨ header.gasLimit < p.minGasLimit then
    .error (.invalidGasLimit header.gasLimit parent.gasLimit limit)
  else if (header.number : ℤ) - parent.number ≠ 1 then .error .invalidNumber
  else if sealed = true then (verifySeal header).mapError .badSeal
  else .ok ()

/-- A header follows its parent: the rules on difficulty, gas limit and number. -/
structure Header.Follows (header parent : Header) : Prop where
  difficulty_eq : header.difficulty = calcDifficulty p (ofInt header.time) parent
  near : |parent.gasLimit - header.gasLimit| < parent.gasLimit / gasLimitBoundDivisor
  min_le : p.minGasLimit ≤ header.gasLimit
  le_max : header.gasLimit ≤ maxBig63
  number_eq : header.number = parent.number + 1

structure Header.Timely (header parent : Header) (uncle : Bool) : Prop where
  small : uncle = true → header.time ≤ maxBig256
  past : uncle = false → header.time ≤ now
  later : parent.time < header.time

variable {p verifySeal now} {header parent : Header} {uncle sealed : Bool}

theorem check_eq_ok {c : Prop} [Decidable c] {e : HeaderError} {r : Except HeaderError Unit} :
    (if c then .error e else r) = .ok () ↔ ¬ c ∧ r = .ok () := by
  by_cases h : c
  · simp [h]
  · simp [h]

theorem sealCheck_eq_ok :
    (if sealed = true then (verifySeal header).mapError .badSeal else .ok ()) =
      (.ok () : Except HeaderError Unit) ↔ (sealed = true → verifySeal header = .ok ()) := by
  cases sealed with
  | false => simp
  | true => cases verifySeal header <;> simp [Except.mapError]

theorem verifyHeader_eq_ok : verifyHeader p verifySeal now header parent uncle sealed = .ok () ↔
    header.extra.length ≤ p.maximumExtraDataSize ∧ header.Timely now parent uncle ∧
      (header.gasUsed : ℤ) ≤ header.gasLimit ∧ header.Follows p parent ∧
      (sealed = true → verifySeal header = .ok ()) := by
  unfold verifyHeader
  simp only [check_eq_ok, sealCheck_eq_ok]
  constructor
  · rintro ⟨hextra, hlarge, hfuture, hzero, hdiff, hmax, hused, hnear, hnumber, hs⟩
    refine ⟨by omega, ⟨fun hu => ?_, fun hu => ?_, by omega⟩, by omega,
      ⟨?_, by omega, by omega, by omega, by omega⟩, hs⟩
    · exact not_lt.mp fun hlt => hlarge ⟨hu, hlt⟩
    · exact not_lt.mp fun hlt => hfuture ⟨hu, hlt⟩
    · exact (not_not.mp hdiff).symm
  · rintro ⟨hextra, ht, hused, hf, hs⟩
    have hnear := hf.near
    have hmin := hf.min_le
    have hmax := hf.le_max
    have hnumber := hf.number_eq
    have hlater := ht.later
    refine ⟨by omega, fun h => ?_, fun h => ?_, by omega, not_not.mpr hf.difficulty_eq.symm,
      by omega, by omega, by omega, by omega, hs⟩
    · exact absurd (ht.small h.1) (by omega)
    · exact absurd (ht.past h.1) (by omega)

end Verify

/-! ## The gas limit of the miner -/

def calcGasLimit (p : Params) (parent : Header) : ℤ :=
  let contrib := parent.gasUsed * 3 / 2 / gasLimitBoundDivisor
  let decay := parent.gasLimit / gasLimitBoundDivisor - 1
  let gl := max (parent.gasLimit - decay + contrib) p.minGasLimit
  if gl < p.targetGasLimit then min (parent.gasLimit + decay) p.targetGasLimit else gl

section GasLimit

variable {p : Params} {parent : Header}

theorem contrib_le (hused : (parent.gasUsed : ℤ) ≤ parent.gasLimit)
    (hlimit : 5120 ≤ parent.gasLimit) :
    (parent.gasUsed : ℤ) * 3 / 2 / gasLimitBoundDivisor ≤
      2 * (parent.gasLimit / gasLimitBoundDivisor - 1) := by
  unfold gasLimitBoundDivisor
  omega

/-- **The gas limit of the miner stays within the bound of the verifier**, for any target. -/
theorem calcGasLimit_near (hmin : p.minGasLimit ≤ parent.gasLimit) (hlimit : 5120 ≤ parent.gasLimit)
    (hused : (parent.gasUsed : ℤ) ≤ parent.gasLimit) :
    |parent.gasLimit - calcGasLimit p parent| < parent.gasLimit / gasLimitBoundDivisor ∧
      p.minGasLimit ≤ calcGasLimit p parent := by
  have hcontrib := contrib_le hused hlimit
  have hpos : 0 ≤ (parent.gasUsed : ℤ) * 3 / 2 / gasLimitBoundDivisor := by
    unfold gasLimitBoundDivisor
    omega
  have hdecay : 5 ≤ parent.gasLimit / gasLimitBoundDivisor := by
    unfold gasLimitBoundDivisor
    omega
  unfold calcGasLimit
  simp only
  rw [abs_lt]
  -- the target lies above the first value, so the second one is not below it
  split <;> omega

end GasLimit

/-! ## The header of a new block -/

/-- `Int64()` of a big integer, and what an `int64` sum wraps to. -/
def int64 (i : ℤ) : ℤ := bmod i size

/-- The time of a new block: now, or one second after the parent. -/
def workTime (tstart : ℤ) (parent : Header) : ℤ :=
  if tstart ≤ parent.time then int64 (int64 parent.time + 1) else tstart

def prepare (p : Params) (chain : ChainReader) (header : Header) : Option Header :=
  (chain.getHeader header.parentHash (sub (low header.number) 1)).map fun parent =>
    { header with difficulty := calcDifficulty p (ofInt header.time) parent }

/-- The header that `commitNewWork` starts from; what is not set yet is zero. -/
def newWork (p : Params) (chain : ChainReader) (extra : Bytes) (tstart : ℤ) (parent : Header) :
    Option Header :=
  prepare p chain
    { parentHash := chain.hash parent
      uncleHash := .fill 0
      number := parent.number + 1
      time := workTime tstart parent
      difficulty := 0
      gasLimit := calcGasLimit p parent
      gasUsed := 0
      extra := extra
      mixDigest := .fill 0
      nonce := 0 }

section NewWork

variable (p : Params) (chain : ChainReader) (verifySeal : Header → Except SealError Unit)

/-- **The header of a new block follows its parent.** -/
theorem newWork_follows (extra : Bytes) (tstart now : ℤ) (parent : Header)
    (hknown : chain.getHeader (chain.hash parent) (low parent.number) = some parent)
    (hlimit : max p.minGasLimit 5120 ≤ parent.gasLimit)
    (hused : (parent.gasUsed : ℤ) ≤ parent.gasLimit) (hmax : parent.gasLimit ≤ 2 ^ 62)
    (hlater : parent.time < workTime tstart parent) (hpast : workTime tstart parent ≤ now) :
    ∃ header, newWork p chain extra tstart parent = some header ∧
      header.time = workTime tstart parent ∧ header.Follows p parent ∧
      (extra.length ≤ p.maximumExtraDataSize →
        verifyHeader p verifySeal now header parent false false = .ok ()) := by
  obtain ⟨hmin, h5120⟩ := max_le_iff.mp hlimit
  obtain ⟨hnear, hfloor⟩ := calcGasLimit_near hmin h5120 hused
  have hword : sub (low (parent.number + 1)) 1 = low parent.number := low_succ_sub_one _
  have hceil : calcGasLimit p parent ≤ maxBig63 := by
    have hbound : parent.gasLimit / gasLimitBoundDivisor ≤ 2 ^ 62 / 1024 :=
      Int.ediv_le_ediv (by decide) hmax
    have := (abs_lt.mp hnear).1
    unfold maxBig63
    omega
  have hpositive : (0 : ℤ) ≤ calcGasLimit p parent := by
    have hbound : parent.gasLimit / gasLimitBoundDivisor ≤ parent.gasLimit := by
      unfold gasLimitBoundDivisor
      omega
    have := (abs_lt.mp hnear).2
    omega
  unfold newWork prepare
  simp only [hword, hknown, Option.map_some]
  refine ⟨_, rfl, rfl, ⟨rfl, hnear, hfloor, hceil, rfl⟩, fun hextra => ?_⟩
  exact verifyHeader_eq_ok.mpr ⟨hextra, ⟨fun h => absurd h (by decide), fun _ => hpast, hlater⟩,
    hpositive, ⟨rfl, hnear, hfloor, hceil, rfl⟩, fun h => absurd h (by decide)⟩

end NewWork

def digest (b : UInt8) : Hash := .fill b

def lowTarget : Params where
  maximumExtraDataSize := 32
  minGasLimit := 5000
  targetGasLimit := 0
  minimumDifficulty := 16
  difficultyBoundDivisor := 2048
  difficultyBoundDivisor_pos := by decide
  diffBombDefuseBlock := 0
  emptyUncleHash := digest 9

def fullHeader : Header where
  parentHash := digest 0
  uncleHash := digest 9
  number := 0
  time := 10
  difficulty := 4096
  gasLimit := 6143
  gasUsed := 6143
  extra := []
  mixDigest := digest 0
  nonce := 0

def singleChain : ChainReader where
  hash _ := digest 1
  getHeader _ _ := some fullHeader
  getBlock _ _ := none
  getBlockNumber _ := 0

/-- After a full block of 6143 gas the limit rises by 4, the most that is allowed. -/
theorem newWork_follows_full : calcGasLimit lowTarget fullHeader = 6147 ∧
    ∃ header, newWork lowTarget singleChain [] 13 fullHeader = some header ∧
      header.time = workTime 13 fullHeader ∧ header.Follows lowTarget fullHeader ∧
      (([] : Bytes).length ≤ lowTarget.maximumExtraDataSize →
        verifyHeader lowTarget (fun _ => .ok ()) 13 header fullHeader false false = .ok ()) :=
  ⟨by decide, newWork_follows lowTarget singleChain (fun _ => .ok ()) [] 13 13 fullHeader rfl
    (by decide) (by decide) (by decide) (by decide) (by decide)⟩

/-! ## Bounds of the difficulty -/

/-- The result of `calcDifficultyPangu` before the exponential term. -/
def withoutBomb (p : Params) (time : ℕ) (parent : Header) : ℤ :=
  calcDifficultyPangu { p with diffBombDefuseBlock := 0 } time parent

/-- The exponential term of a block after the parent of this number. -/
def bomb (p : Params) (number : ℕ) : ℤ :=
  if 2999999 ≤ number ∧ (number : ℤ) < p.diffBombDefuseBlock ∧ 1 < (number - 2999999) / 100000 then
    2 ^ ((number - 2999999) / 100000 - 2)
  else 0

theorem withoutBomb_eq (p : Params) (time : ℕ) (parent : Header) :
    withoutBomb p time parent = max p.minimumDifficulty (parent.difficulty +
      parent.difficulty / p.difficultyBoundDivisor *
        max (-99) ((if parent.uncleHash = p.emptyUncleHash then 1 else 2) -
          (time - parent.time) / 3)) := by
  have hclamp : ∀ low x : ℤ, (if x < low then low else x) = max low x := by
    intro low x
    split_ifs <;> omega
  have hoff : ¬ (2999999 ≤ (parent.number : ℤ) ∧ (parent.number : ℤ) < 0) := by omega
  have hzero : ¬ (1 < (0 / 100000 : ℤ)) := by decide
  simp only [withoutBomb, calcDifficultyPangu, hclamp, if_neg hoff, if_neg hzero]
  split_ifs <;> rfl

theorem calcDifficultyPangu_eq (p : Params) (time : ℕ) (parent : Header) :
    calcDifficultyPangu p time parent = withoutBomb p time parent + bomb p parent.number := by
  have hoff : ¬ (2999999 ≤ (parent.number : ℤ) ∧ (parent.number : ℤ) < 0) := by omega
  simp only [withoutBomb, calcDifficultyPangu, bomb, if_neg hoff]
  generalize ite (_ < p.minimumDifficulty) _ _ = x
  by_cases h : 2999999 ≤ (parent.number : ℤ) ∧ (parent.number : ℤ) < p.diffBombDefuseBlock
  · have hperiod : ((parent.number : ℤ) - 2999999) / 100000 =
        ((parent.number - 2999999) / 100000 : ℕ) := by omega
    have hexp : (((parent.number - 2999999) / 100000 : ℕ) - 2 : ℤ).toNat =
        (parent.number - 2999999) / 100000 - 2 := by omega
    rw [if_pos h, hperiod, hexp]
    split_ifs <;> omega
  · rw [if_neg h, if_neg (by decide), if_neg (by omega)]
    simp

theorem bomb_mono {p : Params} {m n : ℕ} (hm : 2999999 ≤ m) (hmn : m ≤ n)
    (hn : (n : ℤ) < p.diffBombDefuseBlock) : bomb p m ≤ bomb p n := by
  unfold bomb
  split_ifs with h h'
  · exact pow_le_pow_right₀ (by decide) (by omega)
  · omega
  · exact pow_nonneg (by decide) _
  · exact le_rfl

/-- **The difficulty is bounded and falls with the time of a block.** -/
theorem difficulty_bounded {p : Params} {parent : Header} {t₁ t₂ : ℕ}
    (hmin : 0 ≤ p.minimumDifficulty) (hdiv : p.difficultyBoundDivisor = 2048)
    (hparent : p.minimumDifficulty ≤ parent.difficulty) (hafter : parent.time < t₁)
    (hle : t₁ ≤ t₂) :
    calcDifficultyPangu p t₂ parent ≤ calcDifficultyPangu p t₁ parent ∧
      p.minimumDifficulty ≤ calcDifficultyPangu p t₂ parent ∧
      max p.minimumDifficulty (parent.difficulty - 99 * (parent.difficulty / 2048)) ≤
        withoutBomb p t₁ parent ∧
      withoutBomb p t₁ parent ≤ parent.difficulty + 2 * (parent.difficulty / 2048) ∧
      calcDifficultyPangu p t₁ parent = withoutBomb p t₁ parent + bomb p parent.number ∧
      (∀ n : ℕ, ¬ (2999999 ≤ n ∧ (n : ℤ) < p.diffBombDefuseBlock) → bomb p n = 0) ∧
      ∀ m n : ℕ, 2999999 ≤ m → m ≤ n → (n : ℤ) < p.diffBombDefuseBlock → bomb p m ≤ bomb p n := by
  have hbomb : 0 ≤ bomb p parent.number := by
    unfold bomb
    split_ifs
    · exact pow_nonneg (by decide) _
    · exact le_rfl
  rw [calcDifficultyPangu_eq, calcDifficultyPangu_eq, withoutBomb_eq, withoutBomb_eq, hdiv]
  generalize hk : (if parent.uncleHash = p.emptyUncleHash then 1 else 2 : ℤ) = k
  have hk : k ≤ 2 := by rw [← hk]; split_ifs <;> decide
  generalize hstep : parent.difficulty / 2048 = step
  have hstep : 0 ≤ step := by omega
  -- the factor is between -99 and 2 and falls with the time
  generalize h₁ : max (-99) (k - (t₁ - parent.time) / 3) = x₁
  generalize h₂ : max (-99) (k - (t₂ - parent.time) / 3) = x₂
  have hfall := mul_le_mul_of_nonneg_left (show x₂ ≤ x₁ by omega) hstep
  have hlow := mul_le_mul_of_nonneg_left (show -99 ≤ x₁ by omega) hstep
  have hhigh := mul_le_mul_of_nonneg_left (show x₁ ≤ 2 by omega) hstep
  refine ⟨by omega, by omega, by omega, by omega, rfl, fun n hn => if_neg ?_, fun m n => bomb_mono⟩
  exact fun h => hn ⟨h.1, h.2.1⟩

theorem difficulty_bounded_full : calcDifficultyPangu lowTarget 20 fullHeader ≤
    calcDifficultyPangu lowTarget 13 fullHeader :=
  (difficulty_bounded (by decide) rfl (by decide) (by decide) (by decide)).1

end XChain.Ethash
