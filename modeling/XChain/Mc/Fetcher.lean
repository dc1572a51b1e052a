import XChain.Lib.Machine
import XChain.Lib.Table
import XChain.Lib.Word

/-!
# The block fetcher

`mc/fetcher/fetcher.go`. An announcement waits in `announced`, one of the announcers of a hash is
asked for the header (`fetching`), the header waits for its body (`fetched`), which is asked for
from one of them (`completing`); a complete block goes to the import queue and from there to a
goroutine that imports it.

An announcement is an object that can be in several of these maps at once and whose header is set
later, so the maps hold its index in `store`. What the chain answers, what time it is and what peers
send is up to the run, as is the order in which the priority queue gives out its blocks.
-/

namespace XChain.Fetcher

open GoMap (Table Entry Ranging)

structure Types (Hash Header Tx : Type) where
  hash : Header → Hash
  number : Header → ℕ
  txHash : Header → Hash
  uncleHash : Header → Hash
  deriveSha : List Tx → Hash
  calcUncleHash : List Header → Hash

structure Block (Header Tx : Type) where
  header : Header
  transactions : List Tx
  uncles : List Header

structure Announce (Hash Header Peer : Type) where
  hash : Hash
  number : ℕ
  header : Option Header
  origin : Peer

structure Inject (Header Tx Peer : Type) where
  origin : Peer
  block : Block Header Tx

/-- Where the loop is: before the expired fetches are forgotten, in the import of queued blocks, or
waiting for an event. -/
inductive Phase
  | cleanup
  | importing (height : ℕ)
  | select
deriving DecidableEq

/-- `imports` are the blocks of importing goroutines, `filtered` those a delivery completed. -/
structure State (Hash Header Tx Peer : Type) where
  store : List (Announce Hash Header Peer)
  announces : Peer → ℤ
  announced : Table Hash (List ℕ)
  fetching : Table Hash ℕ
  fetched : Table Hash (List ℕ)
  completing : Table Hash ℕ
  queue : List (Inject Header Tx Peer)
  queues : Peer → ℤ
  queued : Table Hash (Inject Header Tx Peer)
  imports : List (Block Header Tx)
  filtered : List (Hash × Block Header Tx)
  phase : Phase

variable {Hash Header Tx Peer : Type}

def new : State Hash Header Tx Peer :=
  ⟨[], fun _ => 0, ∅, ∅, ∅, ∅, [], fun _ => 0, ∅, [], [], .cleanup⟩

def maxUncleDist : ℕ := 7

def maxQueueDist : ℕ := 32

def hashLimit : ℕ := 256

def blockLimit : ℕ := 64

/-- A number too far from the height of the chain, by its distance as an `int64`. -/
def tooFar (number height : ℕ) : Bool :=
  let dist := Word64.toInt64 (Word64.sub number height)
  dist < -maxUncleDist ∨ dist > maxQueueDist

/-- A body, the blocks that are known then, and the order in which it is compared. -/
abbrev BodyItem (Hash Header Tx : Type) :=
  (List Tx × List Header) × (Hash → Bool) × Ranging (Entry Hash ℕ)

namespace State

section Forget

variable [DecidableEq Hash] [DecidableEq Peer] (s : State Hash Header Tx Peer)

/-- One less for the peer of an announcement; an entry that becomes zero is removed, which reads the
same. -/
def decrement (announces : Peer → ℤ) (id : ℕ) : Peer → ℤ :=
  match s.store[id]? with
  | some a => Function.update announces a.origin (announces a.origin - 1)
  | none => announces

def tracked (hash : Hash) : List ℕ :=
  (s.announced.lookup hash).getD [] ++ (s.fetching.lookup hash).toList ++
    (s.fetched.lookup hash).getD [] ++ (s.completing.lookup hash).toList

def forgetHash (hash : Hash) : State Hash Header Tx Peer :=
  { s with
    announces := (s.tracked hash).foldl s.decrement s.announces
    announced := s.announced.erase hash
    fetching := s.fetching.erase hash
    fetched := s.fetched.erase hash
    completing := s.completing.erase hash }

def forgetBlock (hash : Hash) : State Hash Header Tx Peer :=
  match s.queued.lookup hash with
  | some op => { s with
      queues := Function.update s.queues op.origin (s.queues op.origin - 1)
      queued := s.queued.erase hash }
  | none => s

end Forget

variable [DecidableEq Hash] [DecidableEq Peer] (T : Types Hash Header Tx)
  (s : State Hash Header Tx Peer)

def numberU64 (header : Header) : ℕ := Word64.low (T.number header)

def enqueue (peer : Peer) (block : Block Header Tx) (height : ℕ) : State Hash Header Tx Peer :=
  let hash := T.hash block.header
  let count := s.queues peer + 1
  if count > blockLimit then s.forgetHash hash
  else if tooFar (numberU64 T block.header) height then s.forgetHash hash
  else if (s.queued.lookup hash).isSome then s
  else { s with
    queues := Function.update s.queues peer count
    queued := s.queued.insert hash ⟨peer, block⟩
    queue := s.queue ++ [⟨peer, block⟩] }

def notify (peer : Peer) (hash : Hash) (number height : ℕ) : State Hash Header Tx Peer :=
  let count := s.announces peer + 1
  if count > hashLimit then s
  else if 0 < number ∧ tooFar number height then s
  else if (s.fetching.lookup hash).isSome ∨ (s.completing.lookup hash).isSome then s
  else { s with
    store := s.store ++ [⟨hash, number, none, peer⟩]
    announces := Function.update s.announces peer count
    announced := s.announced.insert hash ((s.announced.lookup hash).getD [] ++ [s.store.length]) }

/-- A hash that a timer visits: which of its announcers is picked, and whether `getBlock` knows
it. -/
structure Visit (Hash : Type) where
  hash : Hash
  pick : ℕ
  known : Bool

def fetch (v : Visit Hash) : Option (State Hash Header Tx Peer) :=
  ((s.announced.lookup v.hash).bind (·[v.pick]?)).map fun id =>
    let s := s.forgetHash v.hash
    if v.known then s else { s with fetching := s.fetching.insert v.hash id }

def complete (v : Visit Hash) : Option (State Hash Header Tx Peer) :=
  ((s.fetched.lookup v.hash).bind (·[v.pick]?)).map fun id =>
    let s := s.forgetHash v.hash
    if v.known then s else { s with completing := s.completing.insert v.hash id }

/-! ## Deliveries -/

/-- A delivered header: whether `getBlock` knows its block, and the height of the chain if it is
enqueued. -/
structure Delivered (Header : Type) where
  header : Header
  known : Bool
  height : ℕ

structure Split (Hash Header Tx Peer : Type) where
  state : State Hash Header Tx Peer
  incomplete : List ℕ
  complete : List (Block Header Tx × ℕ)

def setHeader (id : ℕ) (a : Announce Hash Header Peer) (h : Header) : State Hash Header Tx Peer :=
  { s with store := s.store.set id { a with header := some h } }

/-- A header of a delivery. Those the fetcher has not asked for are returned to the caller. -/
def filterHeader (r : Split Hash Header Tx Peer) (x : Delivered Header) :
    Split Hash Header Tx Peer :=
  let s := r.state
  let hash := T.hash x.header
  match s.fetching.lookup hash with
  | none => r
  | some id =>
    if s.fetched.lookup hash = none ∧ s.completing.lookup hash = none ∧
        (s.queued.lookup hash).isNone then
      match s.store[id]? with
      | none => r
      | some a =>
        -- the header of another number than announced, or of a block that came otherwise
        if numberU64 T x.header ≠ a.number ∨ x.known then { r with state := s.forgetHash hash }
        else
          let s := s.setHeader id a x.header
          if T.txHash x.header = T.deriveSha [] ∧ T.uncleHash x.header = T.calcUncleHash [] then
            { r with
              state := { s with completing := s.completing.insert hash id }
              complete := r.complete ++ [(⟨x.header, [], []⟩, x.height)] }
          else { r with state := s, incomplete := r.incomplete ++ [id] }
    else r

def header (id : ℕ) : Option Header := s.store[id]?.bind Announce.header

def schedule (id : ℕ) : State Hash Header Tx Peer :=
  match s.header id with
  | none => s
  | some h =>
    if (s.completing.lookup (T.hash h)).isSome then s
    else { s with
      fetched := s.fetched.insert (T.hash h) ((s.fetched.lookup (T.hash h)).getD [] ++ [id]) }

def deliver (x : Block Header Tx × ℕ) : State Hash Header Tx Peer :=
  match (s.completing.lookup (T.hash x.1.header)).bind (s.store[·]?) with
  | none => s
  | some a => { s.enqueue T a.origin x.1 x.2 with filtered := s.filtered ++ [(a.hash, x.1)] }

def filterHeaders (headers : List (Delivered Header)) : State Hash Header Tx Peer :=
  let r := headers.foldl (filterHeader T) ⟨s, [], []⟩
  let s := r.incomplete.foldl (schedule T) r.state
  r.complete.foldl (deliver T) s

/-- A body against an entry of `completing`; every entry there has its header. -/
def matchBody (known : Hash → Bool) (body : List Tx × List Header)
    (r : State Hash Header Tx Peer × List (Block Header Tx)) (e : Entry Hash ℕ) :
    State Hash Header Tx Peer × List (Block Header Tx) :=
  match r.1.header e.2 with
  | none => r
  | some h =>
    if (r.1.queued.lookup e.1).isNone ∧ T.deriveSha body.1 = T.txHash h ∧
        T.calcUncleHash body.2 = T.uncleHash h then
      if known e.1 then (r.1.forgetHash e.1, r.2) else (r.1, r.2 ++ [⟨h, body.1, body.2⟩])
    else r

def filterBody (r : State Hash Header Tx Peer × List (Block Header Tx))
    (x : BodyItem Hash Header Tx) : State Hash Header Tx Peer × List (Block Header Tx) :=
  (x.2.2.visit r.1.completing.entries).foldl (matchBody T x.2.1 x.1) r

def filterBodies (bodies : List (BodyItem Hash Header Tx)) (heights : ℕ → ℕ) :
    State Hash Header Tx Peer :=
  let r := bodies.foldl (filterBody T) (s, [])
  (r.2.zipIdx.map fun x => (x.1, heights x.2)).foldl (deliver T) r.1

/-- The next queued block: too high, stale or known, or imported by a goroutine of its own. -/
def pop (height i : ℕ) (known : Bool) : Option (State Hash Header Tx Peer) :=
  s.queue[i]?.map fun op =>
    let number := numberU64 T op.block.header
    let popped := { s with queue := s.queue.eraseIdx i }
    if number > Word64.add height 1 then
      { popped with queue := popped.queue ++ [op], phase := .select }
    else if Word64.add number maxUncleDist < height ∨ known then
      popped.forgetBlock (T.hash op.block.header)
    else { popped with imports := s.imports ++ [op.block] }

def done (j : ℕ) : Option (State Hash Header Tx Peer) :=
  s.imports[j]?.map fun block =>
    ({ s with imports := s.imports.eraseIdx j }.forgetHash (T.hash block.header)).forgetBlock
      (T.hash block.header)

end State

open State

inductive Act (Hash Header Tx Peer : Type)
  | cleanup (expired : List Hash) (height : ℕ)
  | pop (i : ℕ) (known : Bool)
  | wait
  | notify (peer : Peer) (hash : Hash) (number height : ℕ)
  | inject (peer : Peer) (block : Block Header Tx) (height : ℕ)
  | done (j : ℕ)
  | fetchTimer (due : List (Visit Hash))
  | completeTimer (visits : List (Visit Hash))
  | headers (headers : List (Delivered Header))
  | bodies (bodies : List (BodyItem Hash Header Tx)) (heights : ℕ → ℕ)

variable [DecidableEq Hash] [DecidableEq Peer] (T : Types Hash Header Tx)

def event (s : State Hash Header Tx Peer) :
    Act Hash Header Tx Peer → Option (State Hash Header Tx Peer)
  | .notify peer hash number height => some (s.notify peer hash number height)
  | .inject peer block height => some (s.enqueue T peer block height)
  | .done j => s.done T j
  | .fetchTimer due => StepMachine.run State.fetch s due
  | .completeTimer visits =>
    if (visits.map Visit.hash).Perm s.fetched.keys then StepMachine.run State.complete s visits
    else none
  | .headers headers => some (s.filterHeaders T headers)
  | .bodies bodies heights => some (s.filterBodies T bodies heights)
  | _ => none

def step (s : State Hash Header Tx Peer) (a : Act Hash Header Tx Peer) :
    Option (State Hash Header Tx Peer) :=
  match s.phase with
  | .cleanup => match a with
    | .cleanup expired height =>
      if ∀ hash ∈ expired, (s.fetching.lookup hash).isSome then
        some { expired.foldl State.forgetHash s with phase := .importing height }
      else none
    | _ => none
  | .importing height => match a with
    | .pop i known => s.pop T height i known
    | .wait => if s.queue.isEmpty then some { s with phase := .select } else none
    | _ => none
  | .select => (event T s a).map fun t => { t with phase := .cleanup }

end XChain.Fetcher
