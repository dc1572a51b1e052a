import XChain.Lib.Heap
import XChain.Lib.Machine
import XChain.Lib.Table
import XChain.Lib.Word

/-!
# The topic table

`topicTable` of `p2p/discv5/topic.go`: the registrations of nodes for topics, indexed by topic and
by node. A new one evicts the oldest of its topic or of the topic least requested. Topics and nodes
without registrations are removed, if they may be forgotten.

Entries are shared between the indices: an entry is its identity with what never changes, its expiry
is kept apart. Clock, random numbers, the database, the order in which maps are visited and the
answers of `hasMinimumWaitPeriod` are an `Env`. A `Fault` is where the source does not end or
follows a nil pointer.
-/

namespace XChain.Topics

open GoMap Word64

def maxEntries : ℕ := 10000

def maxEntriesPerTopic : ℕ := 50

/-- `fallbackRegistrationExpiry`, in nanoseconds. -/
def fallbackRegistrationExpiry : ℤ := 3600000000000

def gcInterval : ℤ := 60000000000

def regTimeWindow : ℤ := 10

/-- A registration: its identity, and the fields that do not change. -/
structure TopicEntry (T N : Type) where
  id : ℕ
  topic : T
  fifoIdx : ℕ
  node : N
deriving DecidableEq

/-- The registrations for a topic; its wait control loop is left out. No counter of
the table comes to `2 ^ 64`. -/
structure TopicInfo (T N : Type) where
  entries : Table ℕ (TopicEntry T N)
  fifoHead : ℕ
  fifoTail : ℕ

structure NodeInfo (T N : Type) where
  entries : Table T (TopicEntry T N)
  lastIssuedTicket : ℕ
  lastUsedTicket : ℕ
  noRegUntil : ℤ

structure RequestItem (T : Type) where
  topic : T
  priority : ℕ
deriving DecidableEq

structure TopicTable (T N : Type) where
  nodes : Table N (NodeInfo T N)
  topics : Table T (TopicInfo T N)
  globalEntries : ℕ
  requested : Array (RequestItem T)
  requestCnt : ℕ
  lastGarbageCollection : ℤ
  expire : ℕ → ℤ
  nextEntry : ℕ
  clockReads : ℕ
  waitReads : ℕ

/-- The clock, the wait periods, time-outs, counters in the database, and the orders of maps. -/
structure Env (T N : Type) where
  now : ℕ → ℤ
  minWait : ℕ → Bool
  noRegTimeout : ℕ → ℤ
  fetch : ℕ → ℕ × ℕ
  visitNodes : Ranging (Entry N (NodeInfo T N))
  visitTopics : Ranging (Entry T (TopicInfo T N))
  visitEntries : Ranging (Entry T (TopicEntry T N))

/-- A call that does not return, or panics. -/
inductive Fault
  | diverges
  | nilDereference
deriving DecidableEq

section Source

variable {T N : Type} [DecidableEq T] [DecidableEq N] (env : Env T N)

def newTopicTable : TopicTable T N := ⟨∅, ∅, 0, #[], 0, 0, fun _ => 0, 0, 0, 0⟩

def requestLess (a b : RequestItem T) : Bool := decide (a.priority < b.priority)

def requestIndex (requested : Array (RequestItem T)) (topic : T) : ℕ :=
  requested.toList.findIdx fun item => decide (item.topic = topic)

/-- The loop of `getFifoTail`: the first index with an entry, up to the newest one. -/
def fifoTailFrom (entries : Table ℕ (TopicEntry T N)) : ℕ → ℕ → Option (TopicEntry T N)
  | 0, _ => none
  | rounds + 1, i =>
    match entries.lookup i with
    | some e => some e
    | none => fifoTailFrom entries rounds (i + 1)

/-- `getFifoTail`; without an entry the loop does not end. -/
def TopicInfo.getFifoTail (ti : TopicInfo T N) : Option (TopicEntry T N × TopicInfo T N) :=
  (fifoTailFrom ti.entries (ti.fifoHead - ti.fifoTail) ti.fifoTail).map fun e =>
    (e, { ti with fifoTail := e.fifoIdx + 1 })

def getOrNewTopic (topic : T) (s : TopicTable T N) : TopicTable T N :=
  match s.topics.lookup topic with
  | some _ => s
  | none =>
    { s with
      topics := s.topics.insert topic ⟨∅, 0, 0⟩
      requested := GoHeap.push requestLess s.requested ⟨topic, s.requestCnt⟩ }

def checkDeleteTopic (topic : T) (s : TopicTable T N) : TopicTable T N :=
  match s.topics.lookup topic with
  | none => s
  | some ti =>
    if ti.entries.entries.length = 0 then
      if env.minWait s.waitReads then
        { s with
          topics := s.topics.erase topic
          requested := GoHeap.remove requestLess s.requested (requestIndex s.requested topic)
          waitReads := s.waitReads + 1 }
      else { s with waitReads := s.waitReads + 1 }
    else s

def getOrNewNode (node : N) (s : TopicTable T N) : TopicTable T N :=
  match s.nodes.lookup node with
  | some _ => s
  | none =>
    { s with
      nodes := s.nodes.insert node ⟨∅, (env.fetch s.clockReads).1, (env.fetch s.clockReads).2, 0⟩ }

def checkDeleteNode (node : N) (s : TopicTable T N) : TopicTable T N :=
  match s.nodes.lookup node with
  | none => s
  | some n =>
    if n.entries.entries.length = 0 then
      if n.noRegUntil < env.now s.clockReads then
        { s with nodes := s.nodes.erase node, clockReads := s.clockReads + 1 }
      else { s with clockReads := s.clockReads + 1 }
    else s

omit [DecidableEq T] in
def TopicTable.setNode (s : TopicTable T N) (v : N) (n : NodeInfo T N) : TopicTable T N :=
  { s with nodes := s.nodes.insert v n }

omit [DecidableEq N] in
def TopicTable.setTopic (s : TopicTable T N) (topic : T) (ti : TopicInfo T N) : TopicTable T N :=
  { s with topics := s.topics.insert topic ti }

/-- The first half of `deleteEntry`: the entry goes from its node. -/
def unlinkNode (s : TopicTable T N) (e : TopicEntry T N) (n : NodeInfo T N) : TopicTable T N :=
  let n := { n with entries := n.entries.erase e.topic }
  if n.entries.entries.length = 0 then checkDeleteNode env e.node (s.setNode e.node n)
  else s.setNode e.node n

/-- The second half of `deleteEntry`: the entry goes from its topic. -/
def unlinkTopic (s : TopicTable T N) (e : TopicEntry T N) (ti : TopicInfo T N) : TopicTable T N :=
  let ti := { ti with entries := ti.entries.erase e.fifoIdx }
  let s :=
    if ti.entries.entries.length = 0 then checkDeleteTopic env e.topic (s.setTopic e.topic ti)
    else s.setTopic e.topic ti
  { s with globalEntries := sub s.globalEntries 1 }

def deleteEntry (s : TopicTable T N) (e : TopicEntry T N) : Except Fault (TopicTable T N) :=
  match s.nodes.lookup e.node with
  | none => .error .nilDereference
  | some n =>
    match (unlinkNode env s e n).topics.lookup e.topic with
    | none => .error .nilDereference
    | some ti => .ok (unlinkTopic env (unlinkNode env s e n) e ti)

/-- Deletes the oldest entry of a topic: `deleteEntry(te.getFifoTail())`. -/
def evictTail (topic : T) (s : TopicTable T N) : Except Fault (TopicTable T N) :=
  match s.topics.lookup topic with
  | none => .error .nilDereference
  | some ti =>
    match ti.getFifoTail with
    | none => .error .diverges
    | some (e, ti) => deleteEntry env (s.setTopic topic ti) e

/-- The loop of `leastRequested`, in at most `fuel` rounds: drops topics that are not there. -/
def dropRequested (topics : Table T (TopicInfo T N)) :
    ℕ → Array (RequestItem T) → Array (RequestItem T)
  | 0, h => h
  | fuel + 1, h =>
    if h[0]?.any fun item => (topics.lookup item.topic).isNone then
      match GoHeap.pop requestLess h with
      | none => h
      | some (_, h') => dropRequested topics fuel h'
    else h

def evictLeast (s : TopicTable T N) : Except Fault (TopicTable T N) :=
  let s := { s with requested := dropRequested s.topics s.requested.size s.requested }
  match s.requested[0]? with
  | none => .error .nilDereference
  | some item => evictTail env item.topic s

def clearNode (node : N) (s : TopicTable T N) : Except Fault (TopicTable T N) :=
  match s.nodes.lookup node with
  | none => .error .nilDereference
  | some n =>
    (env.visitEntries.visit n.entries.entries).foldlM (fun s e => deleteEntry env s e.2) s

/-- `if len(te.entries) == maxEntriesPerTopic { t.deleteEntry(te.getFifoTail()) }`. -/
def makeRoomInTopic (topic : T) (te : TopicInfo T N) (s : TopicTable T N) :
    Except Fault (TopicTable T N) :=
  if te.entries.entries.length = maxEntriesPerTopic then evictTail env topic s else .ok s

/-- What `addEntry` knows when it tests whether the table is full: the time, the head of the fifo,
and the table. -/
structure Prepared (T N : Type) where
  tm : ℤ
  fifoIdx : ℕ
  table : TopicTable T N

def prepareEntry (node : N) (topic : T) (s : TopicTable T N) : Except Fault (Prepared T N) := do
  let s ← clearNode env node (getOrNewNode env node s)
  let s := getOrNewNode env node s
  let tm := env.now s.clockReads
  let s := getOrNewTopic topic { s with clockReads := s.clockReads + 1 }
  match s.topics.lookup topic with
  | none => .error .nilDereference
  | some te => do
    let s ← makeRoomInTopic env topic te s
    .ok ⟨tm, te.fifoHead, s⟩

/-- The end of `addEntry`. What is written to a topic or a node that was deleted meanwhile is
lost. -/
def insertEntry (node : N) (topic : T) (fifoIdx : ℕ) (tm : ℤ) (s : TopicTable T N) :
    TopicTable T N :=
  let entry : TopicEntry T N := ⟨s.nextEntry, topic, fifoIdx, node⟩
  { s with
    topics := match s.topics.lookup topic with
      | none => s.topics
      | some te => s.topics.insert topic
          { te with fifoHead := te.fifoHead + 1, entries := te.entries.insert fifoIdx entry }
    nodes := match s.nodes.lookup node with
      | none => s.nodes
      | some n => s.nodes.insert node { n with entries := n.entries.insert topic entry }
    globalEntries := add s.globalEntries 1
    expire := Function.update s.expire s.nextEntry (addInt64 tm fallbackRegistrationExpiry)
    nextEntry := s.nextEntry + 1 }

/-- `if t.globalEntries == maxEntries { t.deleteEntry(t.leastRequested()) }`. -/
def makeRoom (s : TopicTable T N) : Except Fault (TopicTable T N) :=
  if s.globalEntries = maxEntries then evictLeast env s else .ok s

def addEntry (node : N) (topic : T) (s : TopicTable T N) : Except Fault (TopicTable T N) := do
  let prepared ← prepareEntry env node topic s
  let s ← makeRoom env prepared.table
  .ok (insertEntry node topic prepared.fifoIdx prepared.tm s)

/-- The inner loop of `collectGarbage`: deletes the entry of a node if it has expired. -/
def expireEntry (tm : ℤ) (s : TopicTable T N) (e : Entry T (TopicEntry T N)) :
    Except Fault (TopicTable T N) :=
  if s.expire e.2.id ≤ tm then deleteEntry env s e.2 else .ok s

def collectNode (tm : ℤ) (s : TopicTable T N) (v : N) : Except Fault (TopicTable T N) :=
  match s.nodes.lookup v with
  | none => .ok s
  | some n => do
    let s ← (env.visitEntries.visit n.entries.entries).foldlM (expireEntry env tm) s
    .ok (checkDeleteNode env v s)

def collectGarbage (s : TopicTable T N) : Except Fault (TopicTable T N) :=
  let tm := env.now s.clockReads
  let s := { s with clockReads := s.clockReads + 1 }
  if subInt64 tm s.lastGarbageCollection < gcInterval then .ok s
  else do
    let s := { s with lastGarbageCollection := tm }
    let s ← ((env.visitNodes.visit s.nodes.entries).map (·.1)).foldlM (collectNode env tm) s
    .ok (((env.visitTopics.visit s.topics.entries).map (·.1)).foldl
      (fun s topic => checkDeleteTopic env topic s) s)

/-- `getEntries`, without the nodes it returns. -/
def getEntries (topic : T) (s : TopicTable T N) : Except Fault (TopicTable T N) := do
  let s ← collectGarbage env s
  match s.topics.lookup topic with
  | none => .ok s
  | some _ =>
    let i := requestIndex s.requested topic
    .ok { s with
          requestCnt := s.requestCnt + 1
          requested := GoHeap.fix requestLess
            (s.requested.setIfInBounds i ⟨topic, s.requestCnt + 1⟩) i }

/-- `getTicket`, without the ticket it returns: the serial number is counted up. -/
def getTicket (node : N) (s : TopicTable T N) : Except Fault (TopicTable T N) := do
  let s ← collectGarbage env s
  let s := getOrNewNode env node { s with clockReads := s.clockReads + 1 }
  match s.nodes.lookup node with
  | none => .error .nilDereference
  | some n =>
    let issued := { n with lastIssuedTicket := (n.lastIssuedTicket + 1) % 2 ^ 32 }
    .ok (s.setNode node issued)

def inWindow (tm : ℤ) (issueTime waitPeriod : ℕ) : Bool :=
  let currTime := ofInt64 (Int.tdiv tm 1000000000)
  let relTime := toInt64 (sub currTime (add issueTime waitPeriod))
  decide (-1 ≤ relTime ∧ relTime ≤ regTimeWindow + 1)

inductive Used (T N : Type)
  | done (s : TopicTable T N)
  | register (s : TopicTable T N)

/-- The end of `useTicket`: an active entry is prolonged. -/
def applyTicket (topic : T) (issueTime waitPeriod : ℕ) (tm : ℤ) (n : NodeInfo T N)
    (s : TopicTable T N) : Used T N :=
  if inWindow tm issueTime waitPeriod then
    match n.entries.lookup topic with
    | none => .register s
    | some e => .done { s with
        expire := Function.update s.expire e.id (addInt64 tm fallbackRegistrationExpiry) }
  else .done s

def judgeTicket (node : N) (serialNo : ℕ) (topic : T) (issueTime waitPeriod : ℕ)
    (n : NodeInfo T N) (s : TopicTable T N) : Used T N :=
  if serialNo < n.lastUsedTicket then .done s
  else
    let tm := env.now s.clockReads
    let s := { s with clockReads := s.clockReads + 1 }
    if n.lastUsedTicket < serialNo ∧ tm < n.noRegUntil then .done s
    else if serialNo = n.lastUsedTicket then applyTicket topic issueTime waitPeriod tm n s
    else
      applyTicket topic issueTime waitPeriod tm n (s.setNode node { n with
        lastUsedTicket := serialNo
        noRegUntil := addInt64 tm (env.noRegTimeout s.clockReads) })

/-- `useTicket` up to the call of `addEntry`. -/
def checkTicket (node : N) (serialNo : ℕ) (topic : T) (issueTime waitPeriod : ℕ)
    (s : TopicTable T N) : Except Fault (Used T N) := do
  let s ← collectGarbage env s
  let s := getOrNewNode env node s
  match s.nodes.lookup node with
  | none => .error .nilDereference
  | some n => .ok (judgeTicket env node serialNo topic issueTime waitPeriod n s)

def useTicket (node : N) (serialNo : ℕ) (topic : T) (issueTime waitPeriod : ℕ)
    (s : TopicTable T N) : Except Fault (TopicTable T N) := do
  match ← checkTicket env node serialNo topic issueTime waitPeriod s with
  | .done s => .ok s
  | .register s => addEntry env node topic s

inductive Call (T N : Type)
  | useTicket (node : N) (serialNo : ℕ) (topic : T) (issueTime waitPeriod : ℕ)
  | getEntries (topic : T)
  | getTicket (node : N)

def call (s : TopicTable T N) : Call T N → Except Fault (TopicTable T N)
  | .useTicket node serialNo topic issueTime waitPeriod =>
    useTicket env node serialNo topic issueTime waitPeriod s
  | .getEntries topic => getEntries env topic s
  | .getTicket node => getTicket env node s

end Source

/-! ## The two views of the entries agree -/

section Spec

variable {T N : Type} [DecidableEq T] [DecidableEq N]

def topicEntry (s : TopicTable T N) (topic : T) (i : ℕ) : Option (TopicEntry T N) :=
  (s.topics.lookup topic).bind fun ti => ti.entries.lookup i

def nodeEntry (s : TopicTable T N) (node : N) (topic : T) : Option (TopicEntry T N) :=
  (s.nodes.lookup node).bind fun n => n.entries.lookup topic

def topicTotal (s : TopicTable T N) : ℕ :=
  Table.total (fun e => e.2.entries.entries.length) s.topics

def nodeTotal (s : TopicTable T N) : ℕ :=
  Table.total (fun e => e.2.entries.entries.length) s.nodes

structure Consistent (s : TopicTable T N) : Prop where
  topics_eq : s.globalEntries = topicTotal s
  nodes_eq : s.globalEntries = nodeTotal s
  le_max : s.globalEntries ≤ maxEntries
  le_perTopic : ∀ topic ti, s.topics.lookup topic = some ti →
    ti.entries.entries.length ≤ maxEntriesPerTopic
  same : ∀ e, (∃ topic i, topicEntry s topic i = some e) ↔
    ∃ node topic, nodeEntry s node topic = some e

end Spec

end XChain.Topics
