import XChain.Lib.Machine
import XChain.Lib.Text
import XChain.Lib.Word

/-!
# Buying and refunding gas

`TransitionDb` of `core/state_transition.go` and the gas pool of a block (`core/gaspool.go`). The
EVM is a parameter: any function that returns at most the gas it is given, with any balances and any
refund counter. A `*big.Int` is an integer, the remaining gas a machine word.

The rest is given back only if it is less than the gas limit: a system message that uses no gas at
all is left without its purchase.

* **`gas_conserved_iff`**: the sender pays the gas used, the coinbase is paid the same and the pool
  shrinks by it, exactly if some is used.
* **`pool_kept_iff`**: a message that fails after its purchase keeps the gas of the pool, which the
  miner does not put back.
* **`gasUsed_le_limit`**: the pool of the miner is a new one in every call, so the gas limit of the
  block is kept only if the later calls fit under it.
-/

namespace XChain

open GoText Word64 Nat StepMachine List

structure GasParams where
  txGas : ℕ
  txGasContractCreation : ℕ
  txDataZeroGas : ℕ
  txDataNonZeroGas : ℕ
  txGas_pos : 0 < txGas
  txGasContractCreation_pos : 0 < txGasContractCreation

/-- A message; `system` is zero for an ordinary one. -/
structure Message where
  sender : Address
  toAddr : Option Address
  gasPrice : ℤ
  gasLimit : ℤ
  nonce : ℕ
  checkNonce : Bool
  data : Bytes
  system : ℕ

structure World where
  balance : Address → ℤ
  nonce : Address → ℕ

/-- The error by which the EVM says that the value cannot be transferred, and all others. -/
inductive VmError
  | insufficientBalance
  | other
deriving DecidableEq

inductive EvmCall
  | createSystemContract (system : UInt8)
  | create
  | call (recipient : Address)

structure EvmResult where
  state : World
  gasRemaining : ℕ
  refund : ℕ
  vmerr : Option VmError

/-- An EVM: for a message it returns at most the gas it is given. -/
structure Evm where
  run : Message → EvmCall → World → ℕ → EvmResult
  run_gas_le : ∀ msg call state gas, (run msg call state gas).gasRemaining ≤ gas

inductive TransitionError
  | nonceTooHigh
  | nonceTooLow
  | outOfGas
  | insufficientBalanceForGas
  | gasLimitReached
  | insufficientBalance
deriving DecidableEq

structure StateTransition where
  gp : ℤ
  gasRemaining : ℕ
  initialGas : ℤ
  state : World

/-- What `TransitionDb` returns, apart from the returned bytes. -/
structure TransitionResult where
  requiredGas : ℤ
  usedGas : ℤ
  failed : Bool

namespace World

def addBalance (w : World) (a : Address) (amount : ℤ) : World :=
  { w with balance := Function.update w.balance a (w.balance a + amount) }

def incNonce (w : World) (a : Address) : World :=
  { w with nonce := Function.update w.nonce a (add (w.nonce a) 1) }

theorem balance_addBalance (w : World) (a b : Address) (amount : ℤ) :
    (w.addBalance a amount).balance b = w.balance b + if b = a then amount else 0 := by
  by_cases h : b = a
  · subst h
    simp [addBalance]
  · simp [addBalance, h]

end World

namespace StateTransition

/-! ## The code -/

def intrinsicGas (params : GasParams) (data : Bytes) (contractCreation pangu : Bool) : ℕ :=
  let nz := data.countP fun b => b != 0
  (if contractCreation && pangu then params.txGasContractCreation else params.txGas) +
    nz * params.txDataNonZeroGas + (data.length - nz) * params.txDataZeroGas

def gasUsed (st : StateTransition) : ℤ :=
  if (st.gasRemaining : ℤ) < st.initialGas then st.initialGas - st.gasRemaining else 0

def buyGas (msg : Message) (st : StateTransition) : StateTransition × Option TransitionError :=
  if Word64.size ≤ msg.gasLimit.natAbs then (st, some .outOfGas)
  else
    let mgval := msg.gasLimit * msg.gasPrice
    if st.state.balance msg.sender < mgval then (st, some .insufficientBalanceForGas)
    else if st.gp < msg.gasLimit then (st, some .gasLimitReached)
    else
      ({ gp := st.gp - msg.gasLimit
         gasRemaining := add st.gasRemaining (ofInt msg.gasLimit)
         initialGas := msg.gasLimit
         state := st.state.addBalance msg.sender (-mgval) }, none)

def preCheck (msg : Message) (st : StateTransition) : StateTransition × Option TransitionError :=
  if msg.checkNonce = true ∧ st.state.nonce msg.sender < msg.nonce then (st, some .nonceTooHigh)
  else if msg.checkNonce = true ∧ msg.nonce < st.state.nonce msg.sender then (st, some .nonceTooLow)
  else buyGas msg st

def payIntrinsic (params : GasParams) (pangu : Bool) (msg : Message) (st : StateTransition) :
    StateTransition × Option TransitionError :=
  let gas := intrinsicGas params msg.data msg.toAddr.isNone pangu
  if Word64.size ≤ gas then (st, some .outOfGas)
  else if msg.system ≠ 0 then (st, none)
  else if st.gasRemaining < gas then (st, some .outOfGas)
  else ({ st with gasRemaining := st.gasRemaining - gas }, none)

/-- Run the message in the EVM. Creating a system contract leaves the remaining gas alone. -/
def execute (evm : Evm) (msg : Message) (st : StateTransition) : StateTransition × EvmResult :=
  match msg.toAddr with
  | none =>
    if 0 < msg.system then
      let r := evm.run msg (.createSystemContract (UInt8.ofNat msg.system)) st.state 0
      ({ st with state := r.state }, r)
    else
      let r := evm.run msg .create st.state st.gasRemaining
      ({ st with state := r.state, gasRemaining := r.gasRemaining }, r)
  | some recipient =>
    let r := evm.run msg (.call recipient) (st.state.incNonce msg.sender) st.gasRemaining
    ({ st with state := r.state, gasRemaining := r.gasRemaining }, r)

def refundGas (msg : Message) (counter : ℕ) (st : StateTransition) : StateTransition :=
  let remaining := (st.gasRemaining : ℤ) * msg.gasPrice
  let paid :=
    if (st.gasRemaining : ℤ) < st.initialGas then st.state.addBalance msg.sender remaining
    else st.state
  let refund := min (st.gasUsed / 2) counter
  let gasRemaining := add st.gasRemaining (ofInt refund)
  { gp := if (gasRemaining : ℤ) < st.initialGas then st.gp + gasRemaining else st.gp
    gasRemaining := gasRemaining
    initialGas := st.initialGas
    state := paid.addBalance msg.sender (refund * msg.gasPrice) }

def settle (msg : Message) (coinbase : Address) (counter : ℕ) (st : StateTransition) :
    StateTransition :=
  let st := refundGas msg counter st
  { st with state := st.state.addBalance coinbase (st.gasUsed * msg.gasPrice) }

def transitionDb (params : GasParams) (evm : Evm) (pangu : Bool) (coinbase : Address)
    (msg : Message) (gp : ℤ) (state : World) :
    StateTransition × Except TransitionError TransitionResult :=
  match preCheck msg ⟨gp, 0, 0, state⟩ with
  | (st, some e) => (st, .error e)
  | (st, none) =>
    match payIntrinsic params pangu msg st with
    | (st, some e) => (st, .error e)
    | (st, none) =>
      let (st, r) := execute evm msg st
      if r.vmerr = some .insufficientBalance then (st, .error .insufficientBalance)
      else
        let settled := settle msg coinbase r.refund st
        (settled, .ok ⟨st.gasUsed, settled.gasUsed, r.vmerr.isSome⟩)

/-! ## What is given back -/

variable {params : GasParams} {evm : Evm} {pangu : Bool} {coinbase : Address} {msg : Message}

theorem refund_le (st : StateTransition) (counter : ℕ)
    (hst : (st.gasRemaining : ℤ) ≤ st.initialGas) :
    0 ≤ min (st.gasUsed / 2) counter ∧
      2 * min (st.gasUsed / 2) counter ≤ st.initialGas - st.gasRemaining := by
  have hused : st.gasUsed ≤ st.initialGas - st.gasRemaining ∧ 0 ≤ st.gasUsed := by
    unfold gasUsed
    split <;> omega
  omega

variable {st : StateTransition}

/-- **What is given back**: the gas not used, at the price it was bought for. -/
theorem settle_spec (msg : Message) (coinbase : Address) (counter : ℕ)
    (hlt : st.initialGas < Word64.size)
    (hused : (st.gasRemaining : ℤ) < st.initialGas ∨ st.initialGas = 0 ∧ st.gasRemaining = 0) :
    ∃ refund : ℕ,
      st.gasUsed = (settle msg coinbase counter st).gasUsed + refund ∧
      (settle msg coinbase counter st).gp =
        st.gp + st.initialGas - (settle msg coinbase counter st).gasUsed ∧
      ∀ a, (settle msg coinbase counter st).state.balance a = st.state.balance a +
        (if a = msg.sender then
          (st.initialGas - (settle msg coinbase counter st).gasUsed) * msg.gasPrice else 0) +
        (if a = coinbase then (settle msg coinbase counter st).gasUsed * msg.gasPrice else 0) := by
  obtain ⟨hnonneg, hhalf⟩ := refund_le st counter (by omega)
  obtain ⟨refund, hrefund⟩ := Int.eq_ofNat_of_zero_le hnonneg
  have hadd : add st.gasRemaining (ofInt (refund : ℤ)) = st.gasRemaining + refund := by
    have hlow : ofInt (refund : ℤ) = refund := mod_eq_of_lt (by omega)
    rw [hlow]
    exact mod_eq_of_lt (by omega)
  obtain ⟨given, hgiven⟩ : ∃ w, w = if (st.gasRemaining : ℤ) < st.initialGas then
      st.state.addBalance msg.sender (st.gasRemaining * msg.gasPrice) else st.state := ⟨_, rfl⟩
  have hrefunded : refundGas msg counter st =
      { gp := if ((st.gasRemaining + refund : ℕ) : ℤ) < st.initialGas then
          st.gp + ((st.gasRemaining + refund : ℕ) : ℤ) else st.gp
        gasRemaining := st.gasRemaining + refund
        initialGas := st.initialGas
        state := given.addBalance msg.sender (refund * msg.gasPrice) } := by
    simp only [refundGas, hrefund, hadd, hgiven]
  have hused' : (settle msg coinbase counter st).gasUsed =
      st.initialGas - st.gasRemaining - refund := by
    simp only [settle, hrefunded, gasUsed, cast_add]
    split <;> omega
  refine ⟨refund, ?_, ?_, fun a => ?_⟩
  · rw [hused', gasUsed]
    split <;> omega
  · rw [hused']
    simp only [settle, hrefunded, cast_add]
    split <;> omega
  · have hpaid : (settle msg coinbase counter st).state =
        (given.addBalance msg.sender (refund * msg.gasPrice)).addBalance coinbase
          ((settle msg coinbase counter st).gasUsed * msg.gasPrice) := by
      simp only [settle, hrefunded, gasUsed]
    rw [hpaid, hused', World.balance_addBalance, World.balance_addBalance]
    have hbalance : given.balance a =
        st.state.balance a + if a = msg.sender then st.gasRemaining * msg.gasPrice else 0 := by
      rw [hgiven]
      split
      · exact World.balance_addBalance _ _ _ _
      · have h0 : st.gasRemaining = 0 := by omega
        simp [h0]
    rw [hbalance]
    split_ifs <;> ring

/-! ## Whole transitions -/

def bought (msg : Message) (gp : ℤ) (state : World) : StateTransition :=
  ⟨gp - msg.gasLimit, msg.gasLimit.natAbs, msg.gasLimit,
    state.addBalance msg.sender (-(msg.gasLimit * msg.gasPrice))⟩

variable {state : World} {gp : ℤ}

theorem buyGas_ok (h : buyGas msg ⟨gp, 0, 0, state⟩ = (st, none)) :
    msg.gasLimit.natAbs < Word64.size ∧ st = bought msg gp state ∧ msg.gasLimit ≤ gp := by
  simp only [buyGas] at h
  split at h
  case isTrue => cases h
  case isFalse hsize =>
    have hlt : msg.gasLimit.natAbs < Word64.size := Nat.lt_of_not_le hsize
    have hgas : add 0 (ofInt msg.gasLimit) = msg.gasLimit.natAbs := by
      simp only [add, ofInt, low, zero_add, mod_mod]
      exact mod_eq_of_lt hlt
    rw [hgas] at h
    split at h
    · cases h
    · split at h
      · cases h
      · cases h
        exact ⟨hlt, rfl, Int.not_lt.mp ‹_›⟩

theorem preCheck_ok (h : preCheck msg ⟨gp, 0, 0, state⟩ = (st, none)) :
    msg.gasLimit.natAbs < Word64.size ∧ st = bought msg gp state ∧ msg.gasLimit ≤ gp := by
  unfold preCheck at h
  split at h
  · cases h
  · split at h
    · cases h
    · exact buyGas_ok h

variable {st st' : StateTransition} {r : EvmResult}

theorem payIntrinsic_ok
    (h : payIntrinsic params pangu msg st = (st', none)) :
    ∃ gas, st' = { st with gasRemaining := gas } ∧ gas + (if msg.system = 0 then
      intrinsicGas params msg.data msg.toAddr.isNone pangu else 0) = st.gasRemaining := by
  simp only [payIntrinsic] at h
  split at h
  case isTrue => cases h
  case isFalse =>
    split at h
    case isTrue hsystem =>
      cases h
      exact ⟨st.gasRemaining, rfl, by rw [if_neg hsystem, Nat.add_zero]⟩
    case isFalse hsystem =>
      split at h
      case isTrue => cases h
      case isFalse hgas =>
        cases h
        refine ⟨_, rfl, ?_⟩
        rw [if_pos (not_not.mp hsystem), Nat.sub_add_cancel (Nat.not_lt.mp hgas)]

theorem intrinsicGas_pos (params : GasParams) (data : Bytes) (contractCreation pangu : Bool) :
    0 < intrinsicGas params data contractCreation pangu := by
  have h₁ := params.txGas_pos
  have h₂ := params.txGasContractCreation_pos
  unfold intrinsicGas
  simp only
  split <;> omega

/-- The EVM made the one state of the other for the message. -/
def Ran (evm : Evm) (msg : Message) (before after : World) : Prop :=
  ∃ call gas, (evm.run msg call before gas).state = after

/-- The message uses gas: it is ordinary, or a call of which the EVM uses some, or there is no gas
at all. -/
def Charged (evm : Evm) (msg : Message) (gp : ℤ) (state : World) : Prop :=
  0 ≤ msg.gasLimit ∧ (msg.gasLimit = 0 ∨ msg.system = 0 ∨ ∃ recipient,
    msg.toAddr = some recipient ∧ (evm.run msg (.call recipient)
      ((bought msg gp state).state.incNonce msg.sender) msg.gasLimit.natAbs).gasRemaining <
        msg.gasLimit.natAbs)

theorem execute_spec (h : execute evm msg st = (st', r)) :
    ∃ before, before.balance = st.state.balance ∧ Ran evm msg before r.state ∧
      ∃ gas ≤ st.gasRemaining, st' = { st with state := r.state, gasRemaining := gas } := by
  unfold execute at h
  split at h
  · split at h
    · cases h
      exact ⟨st.state, rfl, ⟨_, _, rfl⟩, st.gasRemaining, le_rfl, rfl⟩
    · cases h
      exact ⟨st.state, rfl, ⟨_, _, rfl⟩, _, evm.run_gas_le _ _ _ _, rfl⟩
  · cases h
    exact ⟨st.state.incNonce msg.sender, rfl, ⟨_, _, rfl⟩, _, evm.run_gas_le _ _ _ _, rfl⟩

theorem transitionDb_ok {res : TransitionResult}
    (h : transitionDb params evm pangu coinbase msg gp state = (st, .ok res)) :
    ∃ (gas : ℕ) (st' : StateTransition) (r : EvmResult),
      msg.gasLimit.natAbs < Word64.size ∧
      gas + (if msg.system = 0 then intrinsicGas params msg.data msg.toAddr.isNone pangu else 0) =
        msg.gasLimit.natAbs ∧
      execute evm msg { bought msg gp state with gasRemaining := gas } = (st', r) ∧
      st = settle msg coinbase r.refund st' ∧ res = ⟨st'.gasUsed, st.gasUsed, r.vmerr.isSome⟩ := by
  unfold transitionDb at h
  split at h
  case h_1 => cases h
  case h_2 st₁ hpre =>
    obtain ⟨hsize, rfl, -⟩ := preCheck_ok hpre
    split at h
    case h_1 => cases h
    case h_2 st₂ hpay =>
      obtain ⟨gas, rfl, hgas⟩ := payIntrinsic_ok hpay
      cases hrun : execute evm msg { bought msg gp state with gasRemaining := gas } with
      | mk st' r =>
        rw [hrun] at h
        simp only at h
        split at h
        case isTrue => cases h
        case isFalse =>
          cases h
          exact ⟨gas, st', r, hsize, hgas, hrun, rfl, rfl⟩

/-- A message that uses gas has less than its limit left. -/
theorem charged_iff {gas : ℕ} (hgas : gas + (if msg.system = 0 then intrinsicGas params
      msg.data msg.toAddr.isNone pangu else 0) = msg.gasLimit.natAbs)
    (hrun : execute evm msg { bought msg gp state with gasRemaining := gas } = (st', r)) :
    Charged evm msg gp state ↔ (st'.gasRemaining : ℤ) < msg.gasLimit ∨ msg.gasLimit = 0 := by
  have hpos := intrinsicGas_pos params msg.data msg.toAddr.isNone pangu
  obtain ⟨-, -, -, left, hleft, hst'⟩ := execute_spec hrun
  have hle : st'.gasRemaining ≤ gas := by rw [hst']; exact hleft
  unfold Charged
  by_cases hsystem : msg.system = 0
  · rw [if_pos hsystem] at hgas
    simp only [hsystem, true_or, or_true, and_true]
    omega
  rw [if_neg hsystem, Nat.add_zero] at hgas
  subst hgas
  unfold execute at hrun
  split at hrun
  · -- the creation of a system contract leaves the gas alone
    rename_i hto
    rw [if_pos (Nat.pos_of_ne_zero hsystem)] at hrun
    cases hrun
    simp only [hsystem, hto, reduceCtorEq, false_and, exists_false, or_false]
    omega
  · rename_i recipient hto
    cases hrun
    simp only [hsystem, hto, Option.some.injEq, exists_eq_left', false_or]
    omega

/-- If no gas is used, nothing is given back. -/
theorem settle_idle (msg : Message) (coinbase : Address) (counter : ℕ)
    (hlt : st.gasRemaining < Word64.size) (hidle : ¬ (st.gasRemaining : ℤ) < st.initialGas) :
    (settle msg coinbase counter st).gp = st.gp ∧
      (settle msg coinbase counter st).gasUsed = 0 := by
  have hrefund : min ((0 : ℤ) / 2) counter = 0 := by omega
  have hadd : add st.gasRemaining (ofInt 0) = st.gasRemaining := mod_eq_of_lt hlt
  simp only [settle, refundGas, gasUsed, if_neg hidle, hrefund, hadd, and_self]

theorem sum_balance_eq {before after : Address → ℤ} {sender : Address} {fee : ℤ}
    (h : ∀ a, after a = before a - (if a = sender then fee else 0) +
      if a = coinbase then fee else 0) {accounts : Finset Address} (hsender : sender ∈ accounts)
    (hcoinbase : coinbase ∈ accounts) :
    ∑ a ∈ accounts, after a = ∑ a ∈ accounts, before a := by
  simp only [h, Finset.sum_add_distrib, Finset.sum_sub_distrib, Finset.sum_ite_eq', hsender,
    hcoinbase, if_true]
  ring

/-- What the EVM changes apart, the gas used is paid by the sender to the coinbase, and the pool has
shrunk by it. -/
def Conserved (params : GasParams) (evm : Evm) (pangu : Bool) (coinbase : Address) (msg : Message)
    (gp : ℤ) (state : World) (st : StateTransition) (res : TransitionResult) : Prop :=
  ∃ before after, Ran evm msg before after ∧
    before.balance = (state.addBalance msg.sender (-(msg.gasLimit * msg.gasPrice))).balance ∧
    (∀ a, st.state.balance a = state.balance a + (after.balance a - before.balance a) -
      (if a = msg.sender then res.usedGas * msg.gasPrice else 0) +
      (if a = coinbase then res.usedGas * msg.gasPrice else 0)) ∧
    (∀ accounts : Finset Address, msg.sender ∈ accounts → coinbase ∈ accounts →
      ∑ a ∈ accounts, st.state.balance a =
        ∑ a ∈ accounts, (state.balance a + (after.balance a - before.balance a))) ∧
    st.gp = gp - res.usedGas ∧
    (msg.system = 0 → ∃ refund : ℕ, res.requiredGas = res.usedGas + refund ∧
      (intrinsicGas params msg.data msg.toAddr.isNone pangu : ℤ) ≤ res.usedGas + refund ∧
      res.usedGas + refund ≤ msg.gasLimit)

theorem conserved_of_charged {res : TransitionResult} (hcharged : Charged evm msg gp state)
    (h : transitionDb params evm pangu coinbase msg gp state = (st, .ok res)) :
    Conserved params evm pangu coinbase msg gp state st res := by
  obtain ⟨gas, st', r, hsize, hgas, hrun, hst, rfl⟩ := transitionDb_ok h
  obtain ⟨before, hbefore, hran, gas', hgas', hst'⟩ := execute_spec hrun
  have hpool : st'.gp = gp - msg.gasLimit := by rw [hst']; rfl
  have hinitial : st'.initialGas = msg.gasLimit := by rw [hst']; rfl
  have hstate : st'.state = r.state := by rw [hst']
  have hleft : st'.gasRemaining ≤ gas := by rw [hst']; exact hgas'
  have hused := (charged_iff hgas hrun).mp hcharged
  have hlimit := hcharged.1
  obtain ⟨refund, hrequired, hgp, hbalance⟩ :=
    settle_spec msg coinbase r.refund (show st'.initialGas < _ by omega) (by omega)
  rw [← hst, hinitial, hpool] at hgp
  rw [← hst] at hrequired
  rw [← hst, hinitial, hstate] at hbalance
  have hchange : ∀ a, st.state.balance a =
      state.balance a + (r.state.balance a - before.balance a) -
      (if a = msg.sender then st.gasUsed * msg.gasPrice else 0) +
      (if a = coinbase then st.gasUsed * msg.gasPrice else 0) := by
    intro a
    have hb := congrFun hbefore a
    simp only [bought, World.balance_addBalance] at hb
    rw [hbalance a, hb]
    split_ifs <;> ring
  refine ⟨before, r.state, hran, hbefore, hchange, ?_, ?_, fun hordinary => ?_⟩
  · intro accounts hsender hcoinbase
    exact sum_balance_eq hchange hsender hcoinbase
  · rw [hgp]
    ring
  · rw [if_pos hordinary] at hgas
    have hspent : st.gasUsed + refund = msg.gasLimit - st'.gasRemaining := by
      rw [← hrequired, gasUsed, hinitial]
      split <;> omega
    refine ⟨refund, hrequired, ?_, ?_⟩
    · rw [hspent]
      omega
    · rw [hspent]
      omega

/-- **Gas is paid for exactly once**, if and only if the message uses some. -/
theorem gas_conserved_iff {res : TransitionResult}
    (h : transitionDb params evm pangu coinbase msg gp state = (st, .ok res)) :
    Conserved params evm pangu coinbase msg gp state st res ↔ Charged evm msg gp state := by
  refine ⟨?_, fun hcharged => conserved_of_charged hcharged h⟩
  rintro ⟨-, -, -, -, -, -, hgp, -⟩
  obtain ⟨gas, st', r, hsize, hgas, hrun, rfl, rfl⟩ := transitionDb_ok h
  obtain ⟨-, -, -, left, hleft, hst'⟩ := execute_spec hrun
  refine (charged_iff hgas hrun).mpr (or_iff_not_imp_left.mpr fun hidle => ?_)
  have hle : st'.gasRemaining ≤ gas := by rw [hst']; exact hleft
  have hinitial : st'.initialGas = msg.gasLimit := by rw [hst']; rfl
  have hpool : st'.gp = gp - msg.gasLimit := by rw [hst']; rfl
  obtain ⟨hkept, hnone⟩ := settle_idle msg coinbase r.refund (show st'.gasRemaining < _ by omega)
    (by rwa [hinitial])
  dsimp only at hgp
  omega

def halfEvm : Evm where
  run _ _ state gas := ⟨state, gas / 2, 7, none⟩
  run_gas_le _ _ _ gas := div_le_self gas 2

def smallParams : GasParams := ⟨10, 20, 1, 2, by decide, by decide⟩

def oneAccount (a : Address) : World := ⟨fun b => if b = a then 1000 else 0, fun _ => 0⟩

def addrOf (b : UInt8) : Address := .fill b

def sampleCall : Message := ⟨addrOf 1, some (addrOf 2), 3, 100, 0, true, [0, 5], 0⟩

/-- The call uses 57 gas, of which 7 are refunded. -/
theorem gas_conserved_call :
    ∃ st, transitionDb smallParams halfEvm false (addrOf 9) sampleCall 500
        (oneAccount (addrOf 1)) = (st, .ok ⟨57, 50, false⟩) ∧
      Conserved smallParams halfEvm false (addrOf 9) sampleCall 500 (oneAccount (addrOf 1)) st
        ⟨57, 50, false⟩ :=
  ⟨_, rfl, (gas_conserved_iff rfl).mpr ⟨by decide, .inr (.inl rfl)⟩⟩

def systemCreation : Message := ⟨addrOf 1, none, 3, 100, 0, true, [], 5⟩

/-- The message uses no gas. The sender is 300 coins short that nobody is paid, and the pool is
short of 100 gas. -/
theorem system_gas_lost :
    ∃ st res, transitionDb smallParams halfEvm false (addrOf 9) systemCreation 500
        (oneAccount (addrOf 1)) = (st, .ok res) ∧ res.usedGas = 0 ∧ st.gp = 400 ∧
      st.state.balance (addrOf 1) = 700 ∧ st.state.balance (addrOf 9) = 0 := by
  refine ⟨_, ⟨0, 0, false⟩, rfl, rfl, rfl, ?_, ?_⟩
  · decide +kernel
  · decide +kernel

/-! ## Messages that fail -/

/-- The miner's block: what is left in its pool, its state, and the gas used by what it includes. -/
structure Work where
  gp : ℤ
  state : World
  gasUsed : ℤ

/-- `commitTransaction`: on an error the state is reverted, the pool is not. -/
def commitTransaction (params : GasParams) (evm : Evm) (pangu : Bool) (coinbase : Address)
    (env : Work) (msg : Message) : Option Work :=
  match transitionDb params evm pangu coinbase msg env.gp env.state with
  | (st, .error _) => some { env with gp := st.gp }
  | (st, .ok res) => some ⟨st.gp, st.state, env.gasUsed + res.usedGas⟩

/-- The message buys no gas, or fails before it does, or does not fail. -/
def Spares (params : GasParams) (evm : Evm) (pangu : Bool) (msg : Message) (gp : ℤ)
    (state : World) : Prop :=
  msg.gasLimit = 0 ∨ (preCheck msg ⟨gp, 0, 0, state⟩).2 ≠ none ∨
    let paid := payIntrinsic params pangu msg (bought msg gp state)
    paid.2 = none ∧ (execute evm msg paid.1).2.vmerr ≠ some .insufficientBalance

theorem preCheck_error {e : TransitionError} (h : preCheck msg st = (st', some e)) : st' = st := by
  unfold preCheck buyGas at h
  dsimp only at h
  repeat' split at h
  all_goals cases h
  all_goals rfl

theorem gp_payIntrinsic : (payIntrinsic params pangu msg st).1.gp = st.gp := by
  unfold payIntrinsic
  dsimp only
  split_ifs <;> rfl

theorem gp_execute : (execute evm msg st).1.gp = st.gp := by
  unfold execute
  repeat' split
  all_goals rfl

/-- **A message that fails has its gas taken from the pool** once it was bought. -/
theorem failed_kept_iff (gp : ℤ) :
    (∀ st e, transitionDb params evm pangu coinbase msg gp state = (st, .error e) → st.gp = gp) ↔
      Spares params evm pangu msg gp state := by
  unfold transitionDb Spares
  have hbought : (bought msg gp state).gp = gp ↔ msg.gasLimit = 0 := by
    unfold bought
    dsimp only
    omega
  rcases hpre : preCheck msg ⟨gp, 0, 0, state⟩ with ⟨st, _ | e⟩
  · obtain ⟨-, rfl, -⟩ := preCheck_ok hpre
    have hpaid : (payIntrinsic params pangu msg (bought msg gp state)).1.gp = _ := gp_payIntrinsic
    rcases hpay : payIntrinsic params pangu msg (bought msg gp state) with ⟨st, _ | e⟩
    · rw [hpay] at hpaid
      have hran : (execute evm msg st).1.gp = _ := gp_execute
      simp only [hpay]
      split_ifs with hvm
      · simp [hvm, ← hbought, ← hpaid, ← hran]
      · simp [hvm]
    · simp [hpay, ← hbought, ← hpaid]
  · have hkept := preCheck_error hpre
    simp [hkept]

/-- **The pool of a block.** It is kept exactly by the messages that do not fail after their
purchase; if all of a block do so, what is left is the gas limit less the gas used. -/
theorem pool_kept_iff (params : GasParams) (evm : Evm) (pangu : Bool) (coinbase : Address) :
    (∀ msg gp state, (∀ st e, transitionDb params evm pangu coinbase msg gp state =
        (st, .error e) → st.gp = gp) ↔ Spares params evm pangu msg gp state) ∧
      ∀ limit state txs env,
        Along (commitTransaction params evm pangu coinbase) (fun env msg =>
          Charged evm msg env.gp env.state ∧ Spares params evm pangu msg env.gp env.state)
          ⟨limit, state, 0⟩ txs →
        run (commitTransaction params evm pangu coinbase) ⟨limit, state, 0⟩ txs =
          some env → env.gp = limit - env.gasUsed := by
  refine ⟨fun msg gp state => failed_kept_iff gp, fun limit state txs env hok hrun => ?_⟩
  refine run_invariant_along (I := fun env : Work => env.gp = limit - env.gasUsed)
    (fun env msg env' hi ha hs => ?_) (by simp) hok hrun
  unfold commitTransaction at hs
  split at hs
  case h_1 st e h =>
    cases hs
    exact ((failed_kept_iff _).mpr ha.2 st e h).trans hi
  case h_2 st res h =>
    cases hs
    obtain ⟨-, -, -, -, -, -, hgp, -⟩ := conserved_of_charged ha.1 h
    dsimp only
    omega

/-- Two calls of one sender, of which each uses 50 gas. -/
def twoCalls : List Message := [sampleCall, { sampleCall with nonce := 1 }]

theorem pool_kept_two : ∃ env,
    run (commitTransaction smallParams halfEvm false (addrOf 9)) ⟨500, oneAccount (addrOf 1), 0⟩
      twoCalls = some env ∧ env.gasUsed = 100 ∧ env.gp = 500 - env.gasUsed := by
  have hok : Along (commitTransaction smallParams halfEvm false (addrOf 9)) (fun env msg =>
      Charged halfEvm msg env.gp env.state ∧ Spares smallParams halfEvm false msg env.gp env.state)
      ⟨500, oneAccount (addrOf 1), 0⟩ twoCalls :=
    ⟨⟨⟨by decide, .inr (.inl rfl)⟩, .inr (.inr ⟨rfl, nofun⟩)⟩, fun _ h =>
      ⟨⟨⟨by decide, .inr (.inl rfl)⟩, .inr (.inr (Option.some.inj h ▸ ⟨rfl, nofun⟩))⟩,
        fun _ _ => trivial⟩⟩
  exact ⟨_, rfl, rfl, (pool_kept_iff _ _ _ _).2 500 _ twoCalls _ hok rfl⟩

/-- A call of 5 gas fails for lack of intrinsic gas. One of 500 is then refused by a block with a
limit of 500 that includes nothing. -/
theorem failed_message_takes_gas : ∃ st st',
    transitionDb smallParams halfEvm false (addrOf 9) { sampleCall with gasLimit := 5 } 500
      (oneAccount (addrOf 1)) = (st, .error .outOfGas) ∧ st.gp = 495 ∧
    transitionDb smallParams halfEvm false (addrOf 9)
      { sampleCall with gasLimit := 500, gasPrice := 1 } st.gp (oneAccount (addrOf 1)) =
        (st', .error .gasLimitReached) :=
  ⟨_, _, rfl, rfl, rfl⟩

/-! ## Several calls on one block -/

/-- `commitTransactions`: every call starts from a full pool. -/
def commitTransactions (params : GasParams) (evm : Evm) (pangu : Bool) (coinbase : Address)
    (limit : ℕ) (env : Work) (txs : List Message) : Option Work :=
  run (commitTransaction params evm pangu coinbase) { env with gp := limit } txs

/-- The block is empty, or what the transactions may use fits under its limit. -/
def Within (limit : ℕ) (env : Work) (txs : List Message) : Prop :=
  (∀ msg ∈ txs, 0 ≤ msg.gasLimit) ∧
    (env.gasUsed = 0 ∨ env.gasUsed + (txs.map Message.gasLimit).sum ≤ limit)

theorem settle_gas (msg : Message) (coinbase : Address) (counter : ℕ) (hst : 0 ≤ st.initialGas) :
    0 ≤ (settle msg coinbase counter st).gasUsed ∧
      (settle msg coinbase counter st).gasUsed ≤ st.initialGas ∧
      st.gp ≤ (settle msg coinbase counter st).gp ∧
      (settle msg coinbase counter st).gp + (settle msg coinbase counter st).gasUsed ≤
        st.gp + st.initialGas := by
  simp only [settle, refundGas, gasUsed]
  split_ifs <;> omega

/-- A message is refused, or its gas is bought; then it fails or is settled. -/
theorem transitionDb_cases {out : Except TransitionError TransitionResult} (gp : ℤ)
    (h : transitionDb params evm pangu coinbase msg gp state = (st, out)) :
    (st.gp = gp ∧ ∃ e, out = .error e) ∨ msg.gasLimit ≤ gp ∧
      ((st.gp = gp - msg.gasLimit ∧ ∃ e, out = .error e) ∨
        ∃ st' counter res, st'.gp = gp - msg.gasLimit ∧ st'.initialGas = msg.gasLimit ∧
          st = settle msg coinbase counter st' ∧ out = .ok res ∧ res.usedGas = st.gasUsed) := by
  unfold transitionDb at h
  rcases hpre : preCheck msg ⟨gp, 0, 0, state⟩ with ⟨st₁, _ | e⟩
  · obtain ⟨-, rfl, hle⟩ := preCheck_ok hpre
    refine .inr ⟨hle, ?_⟩
    rw [hpre] at h
    rcases hpay : payIntrinsic params pangu msg (bought msg gp state) with ⟨st₂, _ | e⟩
    · obtain ⟨gas, rfl, -⟩ := payIntrinsic_ok hpay
      rcases hrun : execute evm msg { bought msg gp state with gasRemaining := gas } with ⟨st₃, r⟩
      obtain ⟨-, -, -, gas', -, rfl⟩ := execute_spec hrun
      simp only [hpay, hrun] at h
      split_ifs at h
      · cases h
        exact .inl ⟨rfl, _, rfl⟩
      · cases h
        exact .inr ⟨_, r.refund, _, rfl, rfl, rfl, rfl, rfl⟩
    · have hpaid : (payIntrinsic params pangu msg (bought msg gp state)).1.gp = _ := gp_payIntrinsic
      simp only [hpay] at h hpaid
      cases h
      exact .inl ⟨hpaid, _, rfl⟩
  · rw [hpre] at h
    cases h
    exact .inl ⟨congrArg StateTransition.gp (preCheck_error hpre), _, rfl⟩

variable {env env' : Work} {txs : List Message}

theorem commitTransaction_gas (hgp : 0 ≤ env.gp) (hlimit : 0 ≤ msg.gasLimit)
    (h : commitTransaction params evm pangu coinbase env msg = some env') :
    0 ≤ env'.gp ∧ env'.gasUsed + env'.gp ≤ env.gasUsed + env.gp ∧
      env'.gasUsed ≤ env.gasUsed + msg.gasLimit := by
  unfold commitTransaction at h
  rcases htrans : transitionDb params evm pangu coinbase msg env.gp env.state with ⟨st, out⟩
  rw [htrans] at h
  obtain ⟨hst, e, rfl⟩ | ⟨hle, ⟨hst, e, rfl⟩ | ⟨st', counter, res, hst, hinit, rfl, rfl, hused⟩⟩ :=
    transitionDb_cases _ htrans
  · cases h
    dsimp only
    omega
  · cases h
    dsimp only
    omega
  · cases h
    obtain ⟨hpos, hmax, hrest, hsum⟩ := settle_gas msg coinbase counter (hinit ▸ hlimit)
    dsimp only
    omega

/-- In one call no more is used than the pool holds, and no more than the messages may use. -/
theorem commitAll_gas (hgp : 0 ≤ env.gp) (htxs : ∀ msg ∈ txs, 0 ≤ msg.gasLimit)
    (h : run (commitTransaction params evm pangu coinbase) env txs = some env') :
    0 ≤ env'.gp ∧ env'.gasUsed + env'.gp ≤ env.gasUsed + env.gp ∧
      env'.gasUsed ≤ env.gasUsed + (txs.map Message.gasLimit).sum := by
  induction txs generalizing env with
  | nil =>
    cases h
    simp [hgp]
  | cons msg txs ih =>
    obtain ⟨hmsg, hrest⟩ := forall_mem_cons.mp htxs
    obtain ⟨env₁, hone, hrun⟩ := run_cons_eq_some.mp h
    have hfirst := commitTransaction_gas hgp hmsg hone
    have := ih hfirst.1 hrest hrun
    rw [map_cons, sum_cons]
    omega

/-- **The gas limit of pending work.** -/
theorem gasUsed_le_limit {limit : ℕ} {calls : List (List Message)} (h0 : env.gasUsed = 0)
    (hok : Along (commitTransactions params evm pangu coinbase limit) (Within limit)
      env calls)
    (h : run (commitTransactions params evm pangu coinbase limit) env calls =
      some env') : env'.gasUsed ≤ limit := by
  refine run_invariant_along (I := fun env : Work => env.gasUsed ≤ limit)
    (fun env txs env' hle hwithin hcall => ?_) (h0 ▸ Int.natCast_nonneg limit) hok h
  have hgas := commitAll_gas (Int.natCast_nonneg limit) hwithin.1 hcall
  dsimp only at hgas
  rcases hwithin.2 with hempty | hfits <;> omega

/-- The second call finds 50 of the limit used, and its message fits under the rest. -/
theorem gasUsed_le_limit_two : ∃ env,
    run (commitTransactions smallParams halfEvm false (addrOf 9) 200)
      ⟨0, oneAccount (addrOf 1), 0⟩ (twoCalls.map ([·])) = some env ∧ env.gasUsed = 100 ∧
      env.gasUsed ≤ 200 := by
  have hok : Along (commitTransactions smallParams halfEvm false (addrOf 9) 200)
      (Within 200) ⟨0, oneAccount (addrOf 1), 0⟩ (twoCalls.map ([·])) :=
    ⟨⟨fun _ hmsg => mem_singleton.mp hmsg ▸ by decide, .inl rfl⟩, fun _ h =>
      ⟨⟨fun _ hmsg => mem_singleton.mp hmsg ▸ by decide, .inr (by cases h; decide)⟩,
        fun _ _ => trivial⟩⟩
  exact ⟨_, rfl, rfl, gasUsed_le_limit rfl hok rfl⟩

/-- Three calls with one message each, of which every one uses half of the limit. -/
theorem gasUsed_exceeds_limit : ∃ env,
    run (commitTransactions smallParams halfEvm false (addrOf 9) 100)
      ⟨0, oneAccount (addrOf 1), 0⟩
      [[sampleCall], [{ sampleCall with nonce := 1 }], [{ sampleCall with nonce := 2 }]] =
        some env ∧ 100 < env.gasUsed :=
  ⟨_, rfl, by decide⟩

end StateTransition

end XChain
