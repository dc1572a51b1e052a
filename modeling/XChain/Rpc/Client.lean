import XChain.Lib.Machine
import XChain.Lib.Table
import XChain.Lib.Text

/-!
# The RPC client

`rpc/client.go`. A call hands its operation to `dispatch`, which writes the ids of the operation
into the table `respWait` and takes no other operation until the write is done. A goroutine reads
messages from the connection and offers them to `dispatch`. After a failed write the next one opens
a new connection, and `dispatch` starts another read goroutine for it.

What a server sends, when a read or a write fails and how `range` visits a map is up to the run;
numbers from `nextID` repeat after `2 ^ 32`, so the ids of an operation are any such numbers. What
subscriptions do with a notification is left out.
-/

namespace XChain.RpcClient

open GoText (Bytes)

inductive Error
  | clientQuit
  | other (text : Bytes)
deriving DecidableEq

/-- A `jsonrpcMessage`; an id that is not there is empty. -/
structure Message where
  id : Bytes
  method : Bytes
  params : Bytes
  error : Option Error
  result : Bytes
deriving DecidableEq

namespace Message

variable (msg : Message)

def isNotification : Bool := msg.id = [] ∧ msg.method ≠ []

/-- `hasValidID`: neither an object nor an array. -/
def hasValidID : Bool := match msg.id with
  | [] => false
  | b :: _ => b ≠ 123 ∧ b ≠ 91

def isResponse : Bool := msg.hasValidID ∧ msg.method = [] ∧ msg.params = []

end Message

/-- A `requestOp` with its channel; `failed` if it left the table because its write failed. -/
structure RequestOp where
  ids : List Bytes
  sub : Bool
  err : Option Error
  answers : List Message
  received : ℕ
  closed : Bool
  failed : Bool
deriving DecidableEq

def RequestOp.capacity (op : RequestOp) : ℕ := if op.sub then 0 else op.ids.length

/-- What `CallContext`, `BatchCallContext` and `McSubscribe` hand to `dispatch`. -/
inductive Request
  | batch (ids : List UInt32)
  | subscribe (id : UInt32)

def formatID (id : UInt32) : Bytes := GoText.decimal id.toNat

def Request.op : Request → RequestOp
  | .batch ids => ⟨ids.map formatID, false, none, [], 0, false, false⟩
  | .subscribe id => ⟨[formatID id], true, none, [], 0, false, false⟩

/-- Where `dispatch` is; it empties the read channels before it ends. -/
inductive Dispatch
  | select
  | handling (batch : List (Option Message))
  | waiting
  | draining
  | ended
deriving DecidableEq

/-- Where a read goroutine is: in `readMessage`, sending on `readResp`, sending on `readErr`, or
gone. -/
inductive Reader
  | reading
  | offering (batch : List (Option Message))
  | failing (err : Error)
  | gone
deriving DecidableEq

inductive Sender
  | idle
  | writing
  | reconnecting
deriving DecidableEq

/-- A send on a closed channel, a second close, a send that waits, or one of no operation. -/
inductive Fault
  | sendOnClosed
  | closeOfClosed
  | blockedSend
  | nilOp
deriving DecidableEq

structure Client where
  ops : List RequestOp
  respWait : GoMap.Table Bytes ℕ
  subs : GoMap.Table Bytes ℕ
  dispatch : Dispatch
  lastOp : Option ℕ
  lock : Bool
  reading : Bool
  readers : List Reader
  sender : Sender
  sendDone : Option (Option Error)
  writeConn : Bool
  fault : Option Fault

def newClient : Client :=
  ⟨[], ∅, ∅, .select, none, false, true, [.reading], .idle, none, true, none⟩

/-- The order in which the table of operations is closed. -/
abbrev Order := GoMap.Ranging (GoMap.Entry Bytes ℕ)

namespace Client

variable (unmarshal : Bytes → Except Error Bytes) (ranging : Order) (c : Client)

def forward (k : ℕ) (op : RequestOp) (msg : Message) : Client :=
  if op.closed then { c with fault := some .sendOnClosed }
  else if op.answers.length - op.received < op.capacity then
    { c with ops := c.ops.set k { op with answers := op.answers ++ [msg] } }
  else { c with fault := some .blockedSend }

def subscriptionID (msg : Message) : Except Error Bytes :=
  match msg.error with
  | some e => .error e
  | none => unmarshal msg.result

/-- The response to a subscription: `resp` is closed at the end. -/
def subscribed (k : ℕ) (op : RequestOp) (msg : Message) : Client :=
  let id := subscriptionID unmarshal msg
  let err := match id with
    | .error e => some e
    | .ok _ => none
  let subs := match id with
    | .error _ => c.subs
    | .ok id => c.subs.insert id k
  if op.closed then { c with subs := subs, fault := some .closeOfClosed }
  else { c with
    subs := subs
    ops := c.ops.set k { op with err := err, answers := op.answers ++ [msg], closed := true } }

def handleResponse (msg : Message) : Client :=
  match c.respWait.lookup msg.id with
  | none => c
  | some k => match c.ops[k]? with
    | none => c
    | some op =>
      let c := { c with respWait := c.respWait.erase msg.id }
      if op.sub then c.subscribed unmarshal k op msg else c.forward k op msg

/-- The loop of `closeRequestOps` over the table; without a result a closed channel is closed. -/
def closeOps (err : Error) : List (GoMap.Entry Bytes ℕ) → List ℕ → List RequestOp →
    Option (List RequestOp)
  | [], _, ops => some ops
  | ⟨_, k⟩ :: table, didClose, ops =>
    if k ∈ didClose then closeOps err table didClose ops
    else match ops[k]? with
      | none => closeOps err table didClose ops
      | some op =>
        if op.closed then none
        else closeOps err table (k :: didClose)
          (ops.set k { op with err := some err, closed := true })

def closeRequestOps (err : Error) : Client :=
  match closeOps err (ranging.visit c.respWait.entries) [] c.ops with
  | some ops => { c with ops := ops, respWait := ∅, subs := ∅ }
  | none => { c with fault := some .closeOfClosed }

/-- `dispatch` returns: the deferred functions. -/
def quit : Client :=
  let c := c.closeRequestOps ranging .clientQuit
  { c with dispatch := if c.reading then .draining else .ended }

/-- The next message of a batch. A message that is `null` is a nil pointer. -/
def handle : List (Option Message) → Client
  | [] => { c with dispatch := .select }
  | none :: _ => c.quit ranging
  | some msg :: batch =>
    let c := { c with dispatch := .handling batch }
    if msg.isNotification then c
    else if msg.isResponse then c.handleResponse unmarshal msg
    else c

/-- `dispatch` registers an operation and gives the write lock away. -/
def register (op : RequestOp) : Client :=
  { c with
    ops := c.ops ++ [op]
    respWait := op.ids.foldl (fun table id => table.insert id c.ops.length) c.respWait
    lastOp := some c.ops.length
    lock := true
    sender := .writing }

def finish (err : Option Error) : Client := { c with sender := .idle, sendDone := some err }

def sent (err : Option Error) : Client :=
  let lastOp := c.lastOp
  let c := { c with sendDone := none, lock := false, lastOp := none }
  match err, lastOp with
  | none, _ => c
  | some _, none => { c with fault := some .nilOp }
  | some _, some k => match c.ops[k]? with
    | none => c
    | some op => { c with
        ops := c.ops.set k { op with failed := true }
        respWait := op.ids.foldl (fun table id => table.erase id) c.respWait }

def reconnected : Client :=
  let c := { c with sender := .writing, writeConn := true }
  if c.reading then { c with dispatch := .waiting }
  else { c with readers := c.readers ++ [.reading], reading := true }

def readFailed (j : ℕ) (err : Error) : Option Client :=
  let c := { c with readers := c.readers.set j .gone }
  match c.dispatch with
  | .select => some { c.closeRequestOps ranging err with reading := false }
  | .waiting => some { c with
      dispatch := .select
      readers := c.readers ++ [.reading]
      reading := true }
  | .draining => some { c with dispatch := .ended }
  | _ => none

end Client

inductive Act
  | request (r : Request)
  | write (err : Option Error)
  | connect (err : Option Error)
  | reconnected
  | abandon
  | sendDone
  | decode (j : ℕ) (batch : List (Option Message))
  | fail (j : ℕ) (err : Error)
  | readResp (j : ℕ)
  | readErr (j : ℕ) (ranging : Order)
  | handle (ranging : Order)
  | close (ranging : Order)
  | receive (k : ℕ)

open Client in
def step (unmarshal : Bytes → Except Error Bytes) (c : Client) (a : Act) : Option Client :=
  if c.fault ≠ none then none
  else match a with
  | .request r =>
    if c.dispatch = .select ∧ c.lock = false then some (c.register r.op) else none
  | .write err =>
    if c.sender = .writing ∧ c.writeConn ∧ c.sendDone = none then
      some { c.finish err with writeConn := err.isNone }
    else none
  | .connect err =>
    if c.sender = .writing ∧ c.writeConn = false ∧ c.sendDone = none then
      match err with
      | some _ => some (c.finish err)
      | none => some { c with sender := .reconnecting }
    else none
  | .reconnected =>
    if c.dispatch = .select ∧ c.sender = .reconnecting then some c.reconnected else none
  | .abandon =>
    -- `didQuit` is closed
    if c.dispatch = .ended ∧ c.sender = .reconnecting ∧ c.sendDone = none then
      some (c.finish (some .clientQuit))
    else none
  | .sendDone => match c.dispatch, c.sendDone with
    | .select, some err => some (c.sent err)
    | _, _ => none
  | .decode j batch =>
    if c.readers[j]? = some .reading then
      some { c with readers := c.readers.set j (.offering batch) }
    else none
  | .fail j err =>
    if c.readers[j]? = some .reading then
      some { c with readers := c.readers.set j (.failing err) }
    else none
  | .readResp j => match c.dispatch, c.readers[j]? with
    | .select, some (.offering batch) =>
      some { c with dispatch := .handling batch, readers := c.readers.set j .reading }
    | .draining, some (.offering _) => some { c with readers := c.readers.set j .reading }
    | _, _ => none
  | .readErr j ranging => match c.readers[j]? with
    | some (.failing err) => c.readFailed ranging j err
    | _ => none
  | .handle ranging => match c.dispatch with
    | .handling batch => some (c.handle unmarshal ranging batch)
    | _ => none
  | .close ranging => if c.dispatch = .select then some (c.quit ranging) else none
  | .receive k => match c.ops[k]? with
    | some op =>
      if op.sub = false ∧ op.received < op.answers.length then
        some { c with ops := c.ops.set k { op with received := op.received + 1 } }
      else none
    | none => none

end XChain.RpcClient
