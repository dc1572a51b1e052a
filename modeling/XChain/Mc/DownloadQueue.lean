import XChain.Lib.Machine
import XChain.Lib.Table
import XChain.Lib.Word

/-!
# The download queue

The body and receipt part of `mc/downloader/queue.go`. `Schedule` takes headers in the order of
their numbers; the body of each, and its receipts up to the pivot of a fast sync, are tasks that
are reserved for a peer and delivered by it. What is fetched for one header is collected in a slot
of `resultCache`, whose first slot is for number `resultOffset`.

The pools and the functions for bodies and receipts are the same up to the kind of the task. Which
task the priority queue gives out first is up to the run (its priorities are `float32`), as is what
a peer is known to lack and which requests have expired.
-/

namespace XChain.DownloadQueue

open StepMachine GoMap GoMap.Table Word64

inductive SyncMode
  | fullSync
  | fastSync
  | lightSync
  deriving DecidableEq, Repr

inductive Kind
  | body
  | receipt
  deriving DecidableEq, Repr

structure Types (Hash Header Tx Receipt : Type) where
  hash : Header → Hash
  number : Header → Option ℕ
  parentHash : Header → Hash
  txHash : Header → Hash
  uncleHash : Header → Hash
  receiptHash : Header → Hash
  zeroHash : Hash
  emptyRootHash : Hash
  emptyUncleHash : Hash
  deriveSha : List Tx → Hash
  deriveReceiptSha : List Receipt → Hash
  calcUncleHash : List Header → Hash
  hash_injective : Function.Injective hash
  deriveSha_nil : deriveSha [] = emptyRootHash
  deriveReceiptSha_nil : deriveReceiptSha [] = emptyRootHash
  calcUncleHash_nil : calcUncleHash [] = emptyUncleHash

inductive Err
  | noFetchesPending
  | staleDelivery
  | invalidChain
  | invalidBody
  | invalidReceipt
  | partialFailure (failure : Err)
  deriving DecidableEq

def fsHeaderForceVerify : ℕ := 24

structure FetchResult (Header Tx Receipt : Type) where
  pending : ℤ
  header : Header
  uncles : List Header
  transactions : List Tx
  receipts : List Receipt
  deriving DecidableEq

/-- The pools for one kind of tasks; a pending request is the list of its headers. -/
structure Tasks (Hash Header Peer : Type) [DecidableEq Hash] [DecidableEq Peer] where
  taskPool : Table Hash Header
  taskQueue : List Header
  pendPool : Table Peer (List Header)
  donePool : Finset Hash

def Tasks.add {Hash Header Peer : Type} [DecidableEq Hash] [DecidableEq Peer]
    (tasks : Tasks Hash Header Peer) (hash : Hash) (header : Header) : Tasks Hash Header Peer :=
  { tasks with
    taskPool := tasks.taskPool.insert hash header
    taskQueue := tasks.taskQueue ++ [header] }

/-- The body and receipt fields of `queue`, all headers that were scheduled, and all results that
were handed out. -/
structure State (Hash Header Tx Receipt Peer : Type) [DecidableEq Hash] [DecidableEq Peer] where
  mode : SyncMode
  fastSyncPivot : ℕ
  headerHead : Hash
  tasks : Kind → Tasks Hash Header Peer
  resultCache : List (Option (FetchResult Header Tx Receipt))
  resultOffset : ℕ
  closed : Bool
  scheduled : List Header
  yielded : List (FetchResult Header Tx Receipt)

variable {Hash Header Tx Receipt Peer : Type} [DecidableEq Hash] [DecidableEq Peer]

namespace Types

variable (T : Types Hash Header Tx Receipt)

def numberU64 (header : Header) : ℕ := low ((T.number header).getD 0)

def isNoop (header : Header) : Kind → Bool
  | .body => T.txHash header = T.emptyRootHash ∧ T.uncleHash header = T.emptyUncleHash
  | .receipt => T.receiptHash header = T.emptyRootHash

end Types

namespace State

variable (T : Types Hash Header Tx Receipt) (s : State Hash Header Tx Receipt Peer)

def newQueue (blockCacheLimit : ℕ) : State Hash Header Tx Receipt Peer where
  mode := .fullSync
  fastSyncPivot := 0
  headerHead := T.zeroHash
  tasks := fun _ => ⟨∅, [], ∅, ∅⟩
  resultCache := List.replicate blockCacheLimit none
  resultOffset := 0
  closed := false
  scheduled := []
  yielded := []

def prepare (offset : ℕ) (mode : SyncMode) (pivot : ℕ) : State Hash Header Tx Receipt Peer :=
  { s with
    resultOffset := if s.resultOffset < offset then offset else s.resultOffset
    fastSyncPivot := pivot
    mode := mode }

def prepared (limit offset : ℕ) (mode : SyncMode) (pivot : ℕ) : State Hash Header Tx Receipt Peer :=
  (newQueue T limit).prepare offset mode pivot

def fetchesReceipts (header : Header) : Bool :=
  s.mode = .fastSync ∧ T.numberU64 header ≤ s.fastSyncPivot

def needs (header : Header) : Kind → Bool
  | .body => true
  | .receipt => s.fetchesReceipts T header

def update (kind : Kind) (f : Tasks Hash Header Peer → Tasks Hash Header Peer) :
    State Hash Header Tx Receipt Peer :=
  { s with tasks := Function.update s.tasks kind (f (s.tasks kind)) }

def push (kind : Kind) (headers : List Header) : State Hash Header Tx Receipt Peer :=
  s.update kind fun tasks => { tasks with taskQueue := tasks.taskQueue ++ headers }

/-- A header is queued for content retrieval: its body, and its receipts in the fast phase of the
fast sync. -/
def insert (header : Header) : State Hash Header Tx Receipt Peer :=
  { s with
    tasks := fun kind =>
      if s.needs T header kind then (s.tasks kind).add (T.hash header) header else s.tasks kind
    headerHead := T.hash header
    scheduled := s.scheduled ++ [header] }

def schedule : List Header → ℕ → List Header → State Hash Header Tx Receipt Peer →
    State Hash Header Tx Receipt Peer × List Header
  | [], _, inserts, s => (s, inserts)
  | header :: headers, first, inserts, s =>
    if T.number header = none ∨ T.numberU64 header ≠ first then (s, inserts)
    else if s.headerHead ≠ T.zeroHash ∧ s.headerHead ≠ T.parentHash header then (s, inserts)
    else if ((s.tasks .body).taskPool.lookup (T.hash header)).isSome then
      schedule headers first inserts s
    else if ((s.tasks .receipt).taskPool.lookup (T.hash header)).isSome then
      schedule headers first inserts s
    else schedule headers (add first 1) (inserts ++ [header]) (s.insert T header)

def index (header : Header) : Option ℕ :=
  let index := subInt64 (toInt64 (T.numberU64 header)) (toInt64 s.resultOffset)
  if (s.resultCache.length : ℤ) ≤ index ∨ index < 0 then none else some index.toNat

def container (header : Header) : FetchResult Header Tx Receipt where
  pending := if s.fetchesReceipts T header then 2 else 1
  header := header
  uncles := []
  transactions := []
  receipts := []

def resultAt (header : Header) (i : ℕ) : FetchResult Header Tx Receipt :=
  (s.resultCache[i]?.join).getD (s.container T header)

def put (i : ℕ) (result : FetchResult Header Tx Receipt) : State Hash Header Tx Receipt Peer :=
  { s with resultCache := s.resultCache.set i (some result) }

def finish (kind : Kind) (header : Header) (i : ℕ) (result : FetchResult Header Tx Receipt) :
    State Hash Header Tx Receipt Peer :=
  (s.update kind fun tasks => { tasks with
    donePool := Insert.insert (T.hash header) tasks.donePool
    taskPool := tasks.taskPool.erase (T.hash header) }).put i
      { result with pending := result.pending - 1 }

end State

structure Loop (Hash Header Tx Receipt Peer : Type) [DecidableEq Hash] [DecidableEq Peer] where
  state : State Hash Header Tx Receipt Peer
  space : ℤ
  proc : ℤ
  send : List Header
  skip : List Header
  progress : Bool

namespace State

variable (T : Types Hash Header Tx Receipt) (s : State Hash Header Tx Receipt Peer)

def reserveTask (kind : Kind) (lacks : Hash → Bool) (l : Loop Hash Header Tx Receipt Peer)
    (header : Header) : Except Err (Loop Hash Header Tx Receipt Peer) :=
  match l.state.index T header with
  | none => .error .invalidChain
  | some i =>
    let result := l.state.resultAt T header i
    let s := l.state.put i result
    .ok (if T.isNoop header kind then
        { l with state := s.finish T kind header i result, space := l.space - 1, progress := true }
      else if lacks (T.hash header) then
        { l with state := s, proc := l.proc + 1, skip := l.skip ++ [header] }
      else
        { l with state := s, proc := l.proc + 1, send := l.send ++ [header] })

def space (kind : Kind) : ℤ :=
  s.resultCache.length - (s.tasks kind).donePool.card -
    ((s.tasks kind).pendPool.entries.map fun request => request.2.length).sum

/-- The loop of `reserveHeaders` over the tasks in the order they are popped. -/
def reserveLoop (kind : Kind) (count : ℕ) (lacks : Hash → Bool) (order : Ranging Header) :
    Loop Hash Header Tx Receipt Peer × List Header × Option Err :=
  drain (fun l => decide (l.proc < l.space ∧ l.send.length < count)) (reserveTask T kind lacks)
    (order.visit (s.tasks kind).taskQueue) ⟨s, s.space kind, 0, [], [], false⟩

/-- `reserveHeaders`; without a slot the headers popped so far are not pushed back. -/
def reserveHeaders (kind : Kind) (peer : Peer) (count : ℕ) (lacks : Hash → Bool)
    (order : Ranging Header) :
    State Hash Header Tx Receipt Peer × Option (List Header) × Bool × Option Err :=
  if (s.tasks kind).taskQueue.isEmpty then (s, none, false, none)
  else if ((s.tasks kind).pendPool.lookup peer).isSome then (s, none, false, none)
  else
    match s.reserveLoop T kind count lacks order with
    | (l, queue, some err) =>
      (l.state.update kind fun tasks => { tasks with taskQueue := queue.tail }, none, false,
        some err)
    | (l, queue, none) =>
      let s := l.state.update kind fun tasks => { tasks with taskQueue := queue ++ l.skip }
      if l.send.isEmpty then (s, none, l.progress, none)
      else (s.update kind fun tasks => { tasks with
        pendPool := tasks.pendPool.insert peer l.send }, some l.send, l.progress, none)

def cancel (kind : Kind) (peer : Peer) : Option (State Hash Header Tx Receipt Peer) :=
  ((s.tasks kind).pendPool.lookup peer).map fun headers =>
    (s.update kind fun tasks => { tasks with
      pendPool := tasks.pendPool.erase peer }).push kind headers

def revoke (peer : Peer) : State Hash Header Tx Receipt Peer :=
  let s := (s.cancel .body peer).getD s
  (s.cancel .receipt peer).getD s

def expire (kind : Kind) (expired : List Peer) : Option (State Hash Header Tx Receipt Peer) :=
  run (fun s => cancel s kind) s expired

/-- `reconstruct` of `DeliverBodies`: `none` for an index out of range, `some none` for a body that
does not match. -/
def reconstructBody (txLists : List (List Tx)) (uncleLists : List (List Header)) (header : Header)
    (i : ℕ) (result : FetchResult Header Tx Receipt) :
    Option (Option (FetchResult Header Tx Receipt)) :=
  txLists[i]?.bind fun transactions =>
    if T.deriveSha transactions ≠ T.txHash header then some none
    else uncleLists[i]?.map fun uncles =>
      if T.calcUncleHash uncles ≠ T.uncleHash header then none
      else some { result with transactions := transactions, uncles := uncles }

def reconstructReceipts (receiptList : List (List Receipt)) (header : Header) (i : ℕ)
    (result : FetchResult Header Tx Receipt) : Option (Option (FetchResult Header Tx Receipt)) :=
  receiptList[i]?.map fun receipts =>
    if T.deriveReceiptSha receipts ≠ T.receiptHash header then none
    else some { result with receipts := receipts }

def mismatch : Kind → Err
  | .body => .invalidBody
  | .receipt => .invalidReceipt

/-- The loop body of `deliver`; `none` if `reconstruct` panics. -/
def deliverTask (kind : Kind) (reconstruct : Header → ℕ → FetchResult Header Tx Receipt →
    Option (Option (FetchResult Header Tx Receipt)))
    (loop : State Hash Header Tx Receipt Peer × ℕ) (header : Header) :
    Except (Option Err) (State Hash Header Tx Receipt Peer × ℕ) :=
  match (loop.1.index T header).bind fun j => loop.1.resultCache[j]?.join.map (j, ·) with
  | none => .error (some .invalidChain)
  | some (j, result) =>
    match reconstruct header loop.2 result with
    | none => .error none
    | some none => .error (some (mismatch kind))
    | some (some result) => .ok (loop.1.finish T kind header j result, loop.2 + 1)

def deliverLoop (kind : Kind) (results : ℕ) (reconstruct : Header → ℕ →
    FetchResult Header Tx Receipt → Option (Option (FetchResult Header Tx Receipt)))
    (headers : List Header) :
    (State Hash Header Tx Receipt Peer × ℕ) × List Header × Option (Option Err) :=
  drain (fun loop => decide (loop.2 < results)) (deliverTask T kind reconstruct) headers (s, 0)

def deliverErr (accepted : ℕ) : Option Err → Option Err
  | none => none
  | some .invalidChain => some .invalidChain
  | some failure => if 0 < accepted then some (.partialFailure failure) else some .staleDelivery

/-- `deliver`: the state, how many were accepted, and the error. -/
def deliver (kind : Kind) (peer : Peer) (results : ℕ) (reconstruct : Header → ℕ →
    FetchResult Header Tx Receipt → Option (Option (FetchResult Header Tx Receipt))) :
    Option (State Hash Header Tx Receipt Peer × ℕ × Option Err) :=
  match (s.tasks kind).pendPool.lookup peer with
  | none => some (s, 0, some .noFetchesPending)
  | some headers =>
    let s := s.update kind fun tasks => { tasks with pendPool := tasks.pendPool.erase peer }
    match s.deliverLoop T kind results reconstruct headers with
    | (_, _, some none) => none
    | ((s, accepted), headers, some (some failure)) =>
      some (s.push kind headers, accepted, deliverErr accepted (some failure))
    | ((s, accepted), headers, none) => some (s.push kind headers, accepted, none)

def deliverBodies (peer : Peer) (txLists : List (List Tx)) (uncleLists : List (List Header)) :
    Option (State Hash Header Tx Receipt Peer × ℕ × Option Err) :=
  s.deliver T .body peer txLists.length (reconstructBody T txLists uncleLists)

def deliverReceipts (peer : Peer) (receiptList : List (List Receipt)) :
    Option (State Hash Header Tx Receipt Peer × ℕ × Option Err) :=
  s.deliver T .receipt peer receiptList.length (reconstructReceipts T receiptList)

def countProcessable : List (Option (FetchResult Header Tx Receipt)) → ℕ → ℕ
  | some result :: rest, i =>
    if 0 < result.pending then i
    else if s.mode = .fastSync ∧ T.numberU64 result.header = s.fastSyncPivot ∧
        ∃ j < fsHeaderForceVerify, (rest[j]?.join).isNone then i
    else countProcessable rest (i + 1)
  | _, i => i

def countProcessableItems : ℕ := s.countProcessable T s.resultCache 0

def yield (results : List (FetchResult Header Tx Receipt)) : State Hash Header Tx Receipt Peer :=
  let hashes := (results.map fun result => T.hash result.header).toFinset
  { s with
    tasks := fun kind => { s.tasks kind with donePool := (s.tasks kind).donePool \ hashes }
    resultCache := s.resultCache.drop results.length ++ List.replicate results.length none
    resultOffset := add s.resultOffset results.length
    yielded := s.yielded ++ results }

/-- `WaitResults`, which blocks until there are results or the queue is closed. -/
def waitResults : Option (State Hash Header Tx Receipt Peer) :=
  let nproc := s.countProcessableItems T
  if nproc = 0 ∧ ¬ s.closed then none
  else some (s.yield T (s.resultCache.take nproc).reduceOption)

end State

inductive Act (Hash Header Tx Receipt Peer : Type)
  | schedule (headers : List Header) (first : ℕ)
  | reserve (kind : Kind) (peer : Peer) (count : ℕ) (lacks : Hash → Bool) (order : Ranging Header)
  | deliverBodies (peer : Peer) (txLists : List (List Tx)) (uncleLists : List (List Header))
  | deliverReceipts (peer : Peer) (receiptList : List (List Receipt))
  | cancel (kind : Kind) (peer : Peer)
  | revoke (peer : Peer)
  | expire (kind : Kind) (expired : List Peer)
  | waitResults
  | close

variable (T : Types Hash Header Tx Receipt)

def call (s : State Hash Header Tx Receipt Peer) :
    Act Hash Header Tx Receipt Peer → Option (State Hash Header Tx Receipt Peer × Option Err)
  | .schedule headers first => some ((s.schedule T headers first []).1, none)
  | .reserve kind peer count lacks order =>
    let r := s.reserveHeaders T kind peer count lacks order
    some (r.1, r.2.2.2)
  | .deliverBodies peer txLists uncleLists =>
    (s.deliverBodies T peer txLists uncleLists).map fun r => (r.1, r.2.2)
  | .deliverReceipts peer receiptList =>
    (s.deliverReceipts T peer receiptList).map fun r => (r.1, r.2.2)
  | .cancel kind peer => (s.cancel kind peer).map (·, none)
  | .revoke peer => some (s.revoke peer, none)
  | .expire kind expired => (s.expire kind expired).map (·, none)
  | .waitResults => (s.waitResults T).map (·, none)
  | .close => some ({ s with closed := true }, none)

def step (s : State Hash Header Tx Receipt Peer) (a : Act Hash Header Tx Receipt Peer) :
    Option (State Hash Header Tx Receipt Peer) :=
  (call T s a).map Prod.fst

/-- The `Schedule` calls continue each other from `first` on, with numbers that are `uint64`s. -/
def continues (first : ℕ) (s : State Hash Header Tx Receipt Peer) :
    Act Hash Header Tx Receipt Peer → Bool
  | .schedule headers want => want = first + s.scheduled.length ∧
    want + (s.schedule T headers want []).2.length < size
  | _ => true

/-- A call continues those before it and does not return `errInvalidChain`. -/
def Admissible (first : ℕ) (s : State Hash Header Tx Receipt Peer)
    (a : Act Hash Header Tx Receipt Peer) : Prop :=
  continues T first s a = true ∧ (call T s a).bind Prod.snd ≠ some .invalidChain

instance (first : ℕ) (s : State Hash Header Tx Receipt Peer)
    (a : Act Hash Header Tx Receipt Peer) : Decidable (Admissible T first s a) :=
  inferInstanceAs (Decidable (_ ∧ _))

end XChain.DownloadQueue
