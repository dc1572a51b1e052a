import XChain.Core.TxList
import XChain.Lib.Machine

/-!
# The transaction pool

The functions follow `tx_pool.go`. What a call cannot know, the order of its maps, the clock and the
head of the chain, comes from an `Oracle`, which is asked with a counter that the pool carries. The
journal, the feeds, the metrics, the direct calls and the locks are left out.

A panic of the source is a missing result: it occurs only in `reset`, when the old or the new head
is not stored. The virtual nonces of `pendingState` belong to a library outside the repository and
are modelled by what the pool expects of them.
-/

namespace XChain

open GoText GoMap List Word64

/-! ## The set of all transactions -/

structure TxSet where
  list : List Transaction
  nodup : list.Nodup

namespace TxSet

def empty : TxSet := ⟨[], List.nodup_nil⟩

instance : Membership Transaction TxSet := ⟨fun s tx => tx ∈ s.list⟩

instance decidableMem (tx : Transaction) (s : TxSet) : Decidable (tx ∈ s) :=
  inferInstanceAs (Decidable (tx ∈ s.list))

def insert (s : TxSet) (tx : Transaction) : TxSet :=
  if h : tx ∈ s.list then s
  else ⟨tx :: s.list, List.nodup_cons.mpr ⟨h, s.nodup⟩⟩

def erase (s : TxSet) (tx : Transaction) : TxSet :=
  ⟨s.list.filter fun u => decide (u ≠ tx), s.nodup.filter _⟩

variable {s : TxSet} {tx u : Transaction}

theorem mem_def {tx : Transaction} : tx ∈ s ↔ tx ∈ s.list := Iff.rfl

@[simp] theorem mem_insert : u ∈ s.insert tx ↔ u = tx ∨ u ∈ s := by
  unfold insert
  split
  · rename_i h
    exact ⟨.inr, fun hu => hu.elim (fun e => e ▸ h) id⟩
  · exact mem_cons

@[simp] theorem mem_erase : u ∈ s.erase tx ↔ u ∈ s ∧ u ≠ tx := by
  rw [mem_def, erase, mem_filter, decide_eq_true_eq]
  rfl

theorem length_erase_le (s : TxSet) (tx : Transaction) :
    (s.erase tx).list.length ≤ s.list.length := length_filter_le _ _

theorem length_insert_le (s : TxSet) (tx : Transaction) :
    (s.insert tx).list.length ≤ s.list.length + 1 := by
  unfold insert
  split
  · exact Nat.le_succ _
  · exact Nat.le_refl _

end TxSet

/-! ## The pool -/

/-- `TxPoolConfig` without the journal and the choice of what is local. -/
structure TxPoolConfig where
  priceLimit : ℕ
  priceBump : ℕ
  accountSlots : ℕ
  globalSlots : ℕ
  accountQueue : ℕ
  globalQueue : ℕ
  lifetime : ℤ

def TxPoolConfig.sanitize (config : TxPoolConfig) : TxPoolConfig :=
  { config with
    priceLimit := if config.priceLimit < 1 then 1000000000 else config.priceLimit
    priceBump := if config.priceBump < 1 then 10 else config.priceBump }

/-- The protocol parameters that the pool reads; `isPangu` tells whether a block number is past the
fork. -/
structure PoolParams where
  isPangu : ℕ → Bool
  maximumTxSize : ℕ
  maxChainId : ℤ
  enableClassicTx : ℕ
  txGas : ℤ
  txGasContractCreation : ℤ
  txDataZeroGas : ℤ
  txDataNonZeroGas : ℤ

/-- What the pool cannot know beforehand: the orders of its maps, the clock, and the number of the
head block. -/
structure Oracle where
  accounts : ℕ → Ranging Address
  transactions : ℕ → Ranging Transaction
  now : ℕ → ℤ
  headNumber : ℕ → ℕ

/-- The surroundings of a pool; `config` is the configuration that `NewTxPool` is given. -/
structure PoolEnv where
  config : TxPoolConfig
  params : PoolParams
  oracle : Oracle

def PoolEnv.priceBump (env : PoolEnv) : ℕ := env.config.sanitize.priceBump

structure AccountState where
  nonce : Address → ℕ
  balance : Address → ℤ

abbrev TxLists := AList fun _ : Address => TxList

def TxLists.txs (m : TxLists) (a : Address) : List Transaction :=
  (m.lookup a).elim [] TxList.items

/-- `TxPool`. `pendingNonces` are the nonces set in `pendingState`. -/
structure TxPool where
  gasPrice : ℤ
  currentState : AccountState
  pendingNonces : Address → Option ℕ
  currentMaxGas : ℤ
  locals : Finset Address
  pending : TxLists
  queue : TxLists
  beats : Address → Option ℤ
  all : TxSet
  priced : PricedList
  pangu : Bool
  clock : ℕ

inductive TxError
  | knownTransaction
  | oversizedData
  | negativeValue
  | classicTxNotEnabled
  | maximumChainId
  | gasLimit
  | invalidSender
  | underpriced
  | nonceTooLow
  | insufficientFunds
  | intrinsicGas
  | replaceUnderpriced
deriving DecidableEq

namespace TxPool

variable (env : PoolEnv)

def tick (p : TxPool) : TxPool := { p with clock := p.clock + 1 }

def pendingNonce (p : TxPool) (a : Address) : ℕ := (p.pendingNonces a).getD (p.currentState.nonce a)

def setPendingNonce (p : TxPool) (a : Address) (nonce : ℕ) : TxPool :=
  { p with pendingNonces := Function.update p.pendingNonces a (some nonce) }

def lowerNonce (p : TxPool) (a : Address) (nonce : ℕ) : TxPool :=
  if nonce < p.pendingNonce a then p.setPendingNonce a nonce else p

def isLocalTx (p : TxPool) (tx : Transaction) : Bool :=
  tx.sender.any fun a => decide (a ∈ p.locals)

def isPooled (p : TxPool) (tx : Transaction) : Bool := decide (tx ∈ p.all)

def capacity : ℕ := add env.config.globalSlots env.config.globalQueue

def setPending (p : TxPool) (a : Address) (l : TxList) : TxPool :=
  { p with pending := p.pending.insert a l }

def setQueue (p : TxPool) (a : Address) (l : TxList) : TxPool :=
  { p with queue := p.queue.insert a l }

def deletePending (p : TxPool) (a : Address) : TxPool :=
  { p with pending := p.pending.erase a, beats := Function.update p.beats a none }

def deleteQueue (p : TxPool) (a : Address) : TxPool := { p with queue := p.queue.erase a }

/-- `delete(pool.all, hash)` and `pool.priced.Removed()`. -/
def deleteTx (p : TxPool) (tx : Transaction) : TxPool :=
  { p with
    all := p.all.erase tx
    priced := p.priced.removed (env.oracle.transactions p.clock) (p.all.erase tx).list
    clock := p.clock + 1 }

def deleteOld (p : TxPool) (old : Option Transaction) : TxPool := old.elim p (p.deleteTx env)

/-- `pool.all[hash] = tx` and `pool.priced.Put(tx)`. -/
def insertTx (p : TxPool) (tx : Transaction) : TxPool :=
  { p with all := p.all.insert tx, priced := p.priced.put tx }

/-- `enqueueTx`: whether a transaction was replaced; nothing if an older one was better. -/
def enqueueTx (p : TxPool) (tx : Transaction) : Option (Bool × TxPool) :=
  match ((p.queue.lookup tx.addr).getD (TxList.new false)).add tx env.priceBump with
  | none => none
  | some (old, list) =>
    some (old.isSome, ((p.setQueue tx.addr list).deleteOld env old).insertTx tx)

def postpone (p : TxPool) (tx : Transaction) : TxPool :=
  ((p.enqueueTx env tx).map Prod.snd).getD p

def promoteTx (a : Address) (p : TxPool) (tx : Transaction) : TxPool :=
  match ((p.pending.lookup a).getD (TxList.new true)).add tx env.priceBump with
  | none => p.deleteTx env tx
  | some (old, list) =>
    let p := (p.setPending a list).deleteOld env old
    let p := if tx ∈ p.all then p else p.insertTx tx
    { p with
      beats := Function.update p.beats a (some (env.oracle.now p.clock))
      pendingNonces := Function.update p.pendingNonces a (some (add tx.nonce 1))
      clock := p.clock + 1 }

def removeQueued (p : TxPool) (tx : Transaction) : TxPool :=
  match p.queue.lookup tx.addr with
  | none => p
  | some future =>
    let list := ((future.remove (env.oracle.transactions p.clock) tx).map Prod.snd).getD future
    if list.isEmpty then p.deleteQueue tx.addr else p.setQueue tx.addr list

/-- The pending branch of `removeTx`: later ones are postponed, unless the list is empty. -/
def removePending (p : TxPool) (tx : Transaction) (invalids : List Transaction) (list : TxList) :
    TxPool :=
  let p := if list.isEmpty then p.deletePending tx.addr
    else invalids.foldl (postpone env) (p.setPending tx.addr list)
  p.lowerNonce tx.addr tx.nonce

def removeTx (p : TxPool) (tx : Transaction) : TxPool :=
  if tx ∈ p.all then
    let p := p.deleteTx env tx
    match (p.pending.lookup tx.addr).bind fun list =>
        list.remove (env.oracle.transactions p.clock) tx with
    | some (invalids, list) =>
      p.tick.removePending env tx invalids list
    | none => p.removeQueued env tx
  else p

/-! ## Adding transactions -/

def intrinsicGas (data : Bytes) (contractCreation pangu : Bool) : ℤ :=
  let nz := data.countP fun b => b != 0
  (if contractCreation && pangu then env.params.txGasContractCreation else env.params.txGas) +
    nz * env.params.txDataNonZeroGas + (data.length - nz) * env.params.txDataZeroGas

def validateTx (p : TxPool) (tx : Transaction) (isLocal : Bool) : Option TxError :=
  if env.params.maximumTxSize < tx.size then some .oversizedData
  else if tx.value < 0 then some .negativeValue
  else if tx.isClassic = true ∧ env.oracle.headNumber p.clock < env.params.enableClassicTx then
    some .classicTxNotEnabled
  else if env.params.maxChainId ≤ tx.chainId then some .maximumChainId
  else if p.currentMaxGas < tx.gasLimit then some .gasLimit
  else
    match tx.sender with
    | none => some .invalidSender
    | some a =>
      if ¬ (isLocal = true ∨ a ∈ p.locals) ∧ tx.gasPrice < p.gasPrice then some .underpriced
      else if tx.nonce < p.currentState.nonce a then some .nonceTooLow
      else if p.currentState.balance a < tx.cost then some .insufficientFunds
      else if tx.gasLimit < intrinsicGas env tx.data tx.recipient.isNone p.pangu then
        some .intrinsicGas
      else none

/-- The part of `add` after the checks: a replacement in the pending list, or an entry in the
queue. -/
def place (p : TxPool) (tx : Transaction) (isLocal : Bool) : TxPool × Except TxError Bool :=
  match (p.pending.lookup tx.addr).filter fun list => list.overlaps tx with
  | some list =>
    match list.add tx env.priceBump with
    | none => (p, .error .replaceUnderpriced)
    | some (old, list) =>
      (((p.setPending tx.addr list).deleteOld env old).insertTx tx, .ok old.isSome)
  | none =>
    match p.enqueueTx env tx with
    | none => (p, .error .replaceUnderpriced)
    | some (replace, p) =>
      ({ p with locals := if isLocal then insert tx.addr p.locals else p.locals }, .ok replace)

/-- A full pool: a transaction that is not cheaper than all others makes room for itself. -/
def makeRoom (p : TxPool) (tx : Transaction) : Option TxPool × TxPool :=
  let (under, priced) := p.priced.underpriced p.isPooled p.isLocalTx tx
  let p := { p with priced := priced }
  if under then (none, p)
  else
    let count : ℤ := p.all.list.length - toInt64 (sub (capacity env) 1)
    let (drop, priced) := p.priced.discard p.isPooled p.isLocalTx count
    (some (drop.foldl (removeTx env) { p with priced := priced }), p)

/-- `add`: the pool afterwards, and an error or whether a transaction was replaced. -/
def add (p : TxPool) (tx : Transaction) (isLocal : Bool) : TxPool × Except TxError Bool :=
  if tx ∈ p.all then (p, .error .knownTransaction)
  else
    match p.validateTx env tx isLocal with
    | some e => (p, .error e)
    | none =>
      if capacity env ≤ p.all.list.length then
        match p.makeRoom env tx with
        | (none, p) => (p, .error .underpriced)
        | (some p, _) => p.place env tx isLocal
      else p.place env tx isLocal

/-! ## Promotion -/

def takeQueued (p : TxPool) (a : Address) (take : TxList → List Transaction × TxList)
    (act : TxPool → Transaction → TxPool) : TxPool :=
  match p.queue.lookup a with
  | none => p
  | some list => (take list).1.foldl act (p.setQueue a (take list).2)

def takePending (p : TxPool) (a : Address) (take : TxList → List Transaction × TxList)
    (act : TxPool → Transaction → TxPool) : TxPool :=
  match p.pending.lookup a with
  | none => p
  | some list => (take list).1.foldl act (p.setPending a (take list).2)

def deleteEmptyQueue (p : TxPool) (a : Address) : TxPool :=
  if (p.queue.lookup a).any TxList.isEmpty then p.deleteQueue a else p

def deleteEmptyPending (p : TxPool) (a : Address) : TxPool :=
  if (p.pending.lookup a).any TxList.isEmpty then p.deletePending a else p

def unpayable (p : TxPool) (a : Address) (list : TxList) : List Transaction × TxList :=
  let res := list.filter (env.oracle.transactions p.clock) (env.oracle.transactions (p.clock + 1))
    (p.currentState.balance a) p.currentMaxGas
  (res.1, res.2.2)

def forwardQueue (p : TxPool) (a : Address) : TxPool :=
  p.takeQueued a (fun list => list.forward (p.currentState.nonce a)) (deleteTx env)

/-- Queued transactions that are too costly are dropped; a queued list is not strict and loses
nothing else. -/
def filterQueue (p : TxPool) (a : Address) : TxPool :=
  p.tick.takeQueued a (p.unpayable env a) (deleteTx env)

def promoteReady (p : TxPool) (a : Address) : TxPool :=
  p.takeQueued a (fun list => list.ready (p.pendingNonce a)) (promoteTx env a)

def limitQueue (p : TxPool) (a : Address) : TxPool :=
  if a ∈ p.locals then p
  else p.takeQueued a (fun list => list.cap env.config.accountQueue) (deleteTx env)

/-- The loop body of `promoteExecutables` for one account; without a queued list nothing happens. -/
def promoteAccount (p : TxPool) (a : Address) : TxPool :=
  ((((p.forwardQueue env a).filterQueue env a).promoteReady env a).limitQueue env
    a).deleteEmptyQueue a

def count (m : TxLists) : ℕ := (m.keys.map fun a => (m.txs a).length).sum

def dropHighest (p : TxPool) (a : Address) : TxPool :=
  p.takePending a (fun list => list.cap (list.items.length - 1)) fun p tx =>
    (p.deleteTx env tx).lowerNonce a tx.nonce

/-- The offenders lose one transaction each while the pool is over its slots. -/
def dropRounds (offenders : List Address) (reference : Address) (threshold : ℕ) :
    ℕ → TxPool × ℕ → TxPool × ℕ
  | 0, s => s
  | fuel + 1, (p, pending) =>
    if env.config.globalSlots < pending ∧ threshold < (p.pending.txs reference).length then
      dropRounds offenders reference threshold fuel
        (offenders.foldl (dropHighest env) p, pending - offenders.length)
    else (p, pending)

/-- The offenders are equalised one after the other, the largest first; the last result is the list
of those that were. -/
def equalize : List Address → List Address → TxPool × ℕ → TxPool × ℕ × List Address
  | [], offenders, (p, pending) => (p, pending, offenders)
  | a :: spammers, offenders, (p, pending) =>
    if env.config.globalSlots < pending then
      match offenders.getLast? with
      | none => equalize spammers [a] (p, pending)
      | some last =>
        equalize spammers (offenders ++ [a])
          (dropRounds env offenders last (p.pending.txs a).length pending (p, pending))
    else (p, pending, offenders)

def spammers (p : TxPool) : List Address :=
  (((env.oracle.accounts p.clock).visit p.pending.keys).filter fun a =>
    decide (a ∉ p.locals ∧ env.config.accountSlots < (p.pending.txs a).length)).mergeSort fun a b =>
      decide ((p.pending.txs b).length ≤ (p.pending.txs a).length)

def capPending (p : TxPool) : TxPool :=
  if env.config.globalSlots < count p.pending then
    let (p, pending, offenders) := equalize env (p.spammers env) [] (p.tick, count p.pending)
    match offenders.getLast? with
    | none => p
    | some last => (dropRounds env offenders last env.config.accountSlots pending (p, pending)).1
  else p

def beatLe : Option ℤ → Option ℤ → Bool
  | none, _ => true
  | some _, none => false
  | some a, some b => decide (a ≤ b)

/-- The loop that drops queued transactions, from the most recent account on. -/
def dropQueued : List Address → ℕ → TxPool → TxPool
  | [], _, p => p
  | a :: addresses, drop, p =>
    if drop = 0 then p
    else
      let txs := p.queue.txs a
      if txs.length ≤ drop then
        dropQueued addresses (drop - txs.length) (txs.foldl (removeTx env) p)
      else (txs.reverse.take drop).foldl (removeTx env) p

def capQueue (p : TxPool) : TxPool :=
  let queued := count p.queue
  if env.config.globalQueue < queued then
    let remote := ((env.oracle.accounts p.clock).visit p.queue.keys).filter fun a =>
      decide (a ∉ p.locals)
    let addresses := remote.mergeSort fun a b => beatLe (p.beats a) (p.beats b)
    dropQueued env addresses.reverse (queued - env.config.globalQueue) p.tick
  else p

def promoteExecutables (p : TxPool) (accounts : Option (List Address)) : TxPool :=
  let accounts := accounts.getD ((env.oracle.accounts p.clock).visit p.queue.keys)
  let p := accounts.foldl (promoteAccount env) p.tick
  (p.capPending env).capQueue env

/-! ## Demotion -/

/-- The pending transactions that the account cannot pay are dropped; those above the lowest of them
are postponed. -/
def filterPending (p : TxPool) (a : Address) : TxPool :=
  match p.pending.lookup a with
  | none => p
  | some list =>
    let res := list.filter (env.oracle.transactions p.clock)
      (env.oracle.transactions (p.clock + 1)) (p.currentState.balance a) p.currentMaxGas
    res.2.1.foldl (postpone env) (res.1.foldl (deleteTx env) (p.tick.tick.setPending a res.2.2))

def gapped (nonce : ℕ) (list : TxList) : List Transaction × TxList :=
  if (list.txs.get nonce).isNone then list.cap 0 else ([], list)

def forwardPending (p : TxPool) (a : Address) : TxPool :=
  p.takePending a (fun list => list.forward (p.currentState.nonce a)) (deleteTx env)

def postponeGapped (p : TxPool) (a : Address) : TxPool :=
  p.takePending a (gapped (p.currentState.nonce a)) (postpone env)

def demoteAccount (p : TxPool) (a : Address) : TxPool :=
  (((p.forwardPending env a).filterPending env a).postponeGapped env a).deleteEmptyPending a

def demoteUnexecutables (p : TxPool) : TxPool :=
  ((env.oracle.accounts p.clock).visit p.pending.keys).foldl (demoteAccount env) p.tick

/-! ## The operations -/

def addTx (p : TxPool) (tx : Transaction) (isLocal : Bool) : TxPool × Option TxError :=
  match tx.sender with
  | none => (p, some .invalidSender)
  | some a =>
    match p.add env tx isLocal with
    | (p, .error e) => (p, some e)
    | (p, .ok true) => (p, none)
    | (p, .ok false) => (p.promoteExecutables env (some [a]), none)

/-- The loop of `addTxsLocked`: the accounts that got a new transaction. -/
def addAll (isLocal : Bool) : List Transaction → TxPool → List Address → TxPool × List Address
  | [], p, dirty => (p, dirty)
  | tx :: txs, p, dirty =>
    match p.add env tx isLocal with
    | (p, .ok false) => addAll isLocal txs p (if tx.addr ∈ dirty then dirty else dirty ++ [tx.addr])
    | (p, _) => addAll isLocal txs p dirty

/-- `addTxsLocked`, and `addTxs` around it. -/
def addTxs (p : TxPool) (txs : List Transaction) (isLocal : Bool) : TxPool :=
  let (p, dirty) := addAll env isLocal txs p []
  if dirty = [] then p
  else p.tick.promoteExecutables env (some ((env.oracle.accounts p.clock).visit dirty))

def setGasPrice (p : TxPool) (price : ℤ) : TxPool :=
  let (drop, priced) := p.priced.cap p.isPooled p.isLocalTx price
  drop.foldl (removeTx env)
    { p with gasPrice := price, priced := priced }

/-- The time since the last heartbeat of an account; a missing one is as old as can be. -/
def sinceBeat (p : TxPool) (a : Address) : ℤ :=
  (p.beats a).elim 9223372036854775807 fun beat => env.oracle.now p.clock - beat

def evictAccount (p : TxPool) (a : Address) : TxPool :=
  if a ∉ p.locals ∧ env.config.lifetime < p.sinceBeat env a then
    (p.queue.txs a).foldl (removeTx env) p.tick
  else p.tick

def evict (p : TxPool) : TxPool :=
  ((env.oracle.accounts p.clock).visit p.queue.keys).foldl (evictAccount env) p.tick

end TxPool

/-! ## Following the head of the chain -/

structure PoolBlock where
  hash : Hash
  parentHash : Hash
  number : ℕ
  gasLimit : ℤ
  transactions : List Transaction

/-- The chain: a block is stored under its number, and the state of a block may be missing.
`txDifference` is `types.TxDifference`. -/
structure PoolChain where
  getBlock : Hash → ℕ → Option PoolBlock
  stateAt : PoolBlock → Option AccountState
  txDifference : List Transaction → List Transaction → List Transaction
  number_eq : ∀ h n b, getBlock h n = some b → b.number = n
  mem_txDifference : ∀ a b tx, tx ∈ txDifference a b ↔ tx ∈ a ∧ tx ∉ b

namespace TxPool

/-- The parent of a block; the number wraps around at the genesis block. -/
def parentBlock (chain : PoolChain) (b : PoolBlock) : Option PoolBlock :=
  chain.getBlock b.parentHash (sub b.number 1)

/-- Collect the transactions from `b` down to number `n`; nothing if the branch is not rooted. -/
def descend (chain : PoolChain) (n : ℕ) : ℕ → PoolBlock → List Transaction →
    Option (PoolBlock × List Transaction)
  | 0, b, txs => some (b, txs)
  | fuel + 1, b, txs =>
    if n < b.number then
      (parentBlock chain b).bind fun b' => descend chain n fuel b' (txs ++ b.transactions)
    else some (b, txs)

inductive Walk
  | missing
  | unrooted
  | reinject (txs : List Transaction)

def descendBoth (chain : PoolChain) : ℕ → PoolBlock → PoolBlock → List Transaction →
    List Transaction → Walk
  -- past the genesis blocks: only a block stored under the last number leads here
  | 0, _, _, _, _ => .missing
  | fuel + 1, rem, add, discarded, included =>
    if rem.hash = add.hash then .reinject (chain.txDifference discarded included)
    else
      match parentBlock chain rem, parentBlock chain add with
      | some rem', some add' =>
        descendBoth chain fuel rem' add' (discarded ++ rem.transactions)
          (included ++ add.transactions)
      | _, _ => .unrooted

/-- The transactions to reinject when the head moves from `oldHead` to `newHead`. -/
def walk (chain : PoolChain) (oldHead newHead : PoolBlock) : Walk :=
  if oldHead.hash = newHead.parentHash then .reinject []
  else if 64 < max oldHead.number newHead.number - min oldHead.number newHead.number then
    .reinject []
  else
    match chain.getBlock oldHead.hash oldHead.number,
      chain.getBlock newHead.hash newHead.number with
    | some rem, some add =>
      match descend chain add.number (rem.number - add.number) rem [] with
      | none => .unrooted
      | some (rem, discarded) =>
        match descend chain rem.number (add.number - rem.number) add [] with
        | none => .unrooted
        | some (add, included) => descendBoth chain (rem.number + 1) rem add discarded included
    | _, _ => .missing

variable (env : PoolEnv)

def enterState (p : TxPool) (state : AccountState) (maxGas : ℤ) : TxPool :=
  { p with currentState := state, pendingNonces := fun _ => none, currentMaxGas := maxGas }

/-- `reset` updates the pending nonce of every account with a pending list. -/
def restoreNonces (p : TxPool) : TxPool :=
  { p with
    pendingNonces := fun a => match (p.pending.txs a).getLast? with
      | some tx => some (Word64.add tx.nonce 1)
      | none => p.pendingNonces a }

def resetTo (p : TxPool) (state : AccountState) (maxGas : ℤ) (reinject : List Transaction) :
    TxPool :=
  ((((p.enterState state maxGas).addTxs env reinject false).demoteUnexecutables
    env).restoreNonces).promoteExecutables env none

/-- `reset`; nothing if the old or the new head is not stored. -/
def reset (p : TxPool) (chain : PoolChain) (oldHead : Option PoolBlock) (newHead : PoolBlock) :
    Option TxPool :=
  match oldHead.elim (.reinject []) fun oldHead => walk chain oldHead newHead with
  | .missing => none
  | .unrooted => some p
  | .reinject txs =>
    some (match chain.stateAt newHead with
      | none => p
      | some state => p.resetTo env state newHead.gasLimit txs)

/-- A head event of `loop`: past the fork `pangu` is set, and then the pool is reset. -/
def chainHead (p : TxPool) (chain : PoolChain) (oldHead newHead : PoolBlock) : Option TxPool :=
  ({ p with pangu := p.pangu || env.params.isPangu newHead.number } : TxPool).reset env chain
    (some oldHead) newHead

/-- The pool as `NewTxPool` makes it, before its first `reset`. -/
def new : TxPool where
  gasPrice := env.config.sanitize.priceLimit
  currentState := ⟨fun _ => 0, fun _ => 0⟩
  pendingNonces := fun _ => none
  currentMaxGas := 0
  locals := ∅
  pending := ∅
  queue := ∅
  beats := fun _ => none
  all := TxSet.empty
  priced := PricedList.new
  pangu := false
  clock := 0

inductive Op
  | addTx (tx : Transaction) (isLocal : Bool)
  | addTxs (txs : List Transaction) (isLocal : Bool)
  | removeTx (tx : Transaction)
  | setGasPrice (price : ℤ)
  | promoteExecutables (accounts : Option (List Address))
  | demoteUnexecutables
  | reset (chain : PoolChain) (oldHead : Option PoolBlock) (newHead : PoolBlock)
  | chainHead (chain : PoolChain) (oldHead newHead : PoolBlock)
  | evict

def step (p : TxPool) : Op → Option TxPool
  | .addTx tx isLocal => some (p.addTx env tx isLocal).1
  | .addTxs txs isLocal => some (p.addTxs env txs isLocal)
  | .removeTx tx => some (p.removeTx env tx)
  | .setGasPrice price => some (p.setGasPrice env price)
  | .promoteExecutables accounts => some (p.promoteExecutables env accounts)
  | .demoteUnexecutables => some (p.demoteUnexecutables env)
  | .reset chain oldHead newHead => p.reset env chain oldHead newHead
  | .chainHead chain oldHead newHead => p.chainHead env chain oldHead newHead
  | .evict => some (p.evict env)

end TxPool

end XChain
