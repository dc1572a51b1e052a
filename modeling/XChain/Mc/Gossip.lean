import XChain.Lib.Assoc
import XChain.Lib.Machine
import XChain.Sentinel.Signatures

/-!
# Gossip of signed vault events

Every node passes the signed events it scans or receives to its broadcast loop, which queues an
event for all peers not known to have it, and one loop for each peer sends what is queued. A peer is
known to have an event once it was queued for it, sent to it, or received from it. Dropping from a
full queue, failing sends and the eviction of known hashes are steps of the machine; `Net.Healthy`
leaves them out.

* **`gossip_once_and_complete`**: in healthy runs an event is sent at most once in each direction of
  a connection, and when nothing is left to do every connected node has processed it.
-/

namespace XChain

open StepMachine List Function

def maxKnownVaultEventWishSigs : ℕ := 32768
def maxQueuedVaultEvents : ℕ := 512
def vaultEventChanSize : ℕ := 8192

structure Network (N : Type) where
  peers : N → List N
  nodup : ∀ n, (peers n).Nodup
  symm : ∀ n m, m ∈ peers n → n ∈ peers m

/-! ## The state -/

/-- `vaultEventBroadcastLoop`; `queued` is before the peer is marked as knowing the event. -/
inductive BroadcastPc (N E : Type)
  | idle
  | checking (event : E) (todo found : List N)
  | queueing (event : E) (rest : List N)
  | queued (event : E) (peer : N) (rest : List N)

/-- `broadcastloop` of a peer: waiting, with an event before and after it is marked as known, or
returned after a failed send. -/
inductive SenderPc (E : Type)
  | idle
  | taken (event : E)
  | marked (event : E)
  | returned

/-- The handler of a `VaultEventMsg`: waiting, or with an event received, marked as known for the
sender, and processed. -/
inductive HandlerPc (E : Type)
  | idle
  | received (event : E)
  | marked (event : E)
  | processed (event : E)

/-- `scanned` are not yet published, `met` are all that came. -/
structure Node (N E : Type) where
  scanned : List E
  chan : List E
  broadcast : BroadcastPc N E
  processed : List E
  met : List E

/-- The direction from one node to a peer; `known` are the hashes the peer has. -/
structure Link (E H : Type) where
  known : Finset H
  queue : List E
  sender : SenderPc E
  wire : List E
  handler : HandlerPc E
  sent : List E

structure Net (N E H : Type) where
  node : N → Node N E
  link : N → N → Link E H

/-- The steps of scanners, broadcast loops, senders of `n → m` and handlers at `m`. -/
inductive NetAct (N E H : Type)
  | scan (n : N) (event : E)
  | publish (n : N) (i : ℕ)
  | take (n : N) (ranging : GoMap.Ranging N)
  | check (n : N)
  | checked (n : N)
  | enqueue (n : N)
  | markQueued (n : N)
  | finish (n : N)
  | dequeue (n m : N)
  | markSent (n m : N)
  | transmit (n m : N) (succeeds : Bool)
  | deliver (n m : N)
  | mark (n m : N) (evicted : Finset H)
  | process (n m : N)
  | push (n m : N)

section Machine

variable {N E H : Type} [DecidableEq N] [DecidableEq E] [DecidableEq H]

def Net.initial : Net N E H :=
  ⟨fun _ => ⟨[], [], .idle, [], []⟩, fun _ _ => ⟨∅, [], .idle, [], .idle, []⟩⟩

def Net.setNode (s : Net N E H) (n : N) (x : Node N E) : Net N E H :=
  { s with node := update s.node n x }

def Net.setLink (s : Net N E H) (n m : N) (l : Link E H) : Net N E H :=
  { s with link := update s.link n (update (s.link n) m l) }

variable (G : Network N) (hash : E → H)

def Net.step (s : Net N E H) : NetAct N E H → Option (Net N E H)
  | .scan n e => some (s.setNode n { s.node n with
      scanned := (s.node n).scanned ++ [e]
      processed := (s.node n).processed ++ [e]
      met := (s.node n).met ++ [e] })
  | .publish n i => match (s.node n).scanned[i]? with
    | some e =>
      if (s.node n).chan.length < vaultEventChanSize then
        some (s.setNode n { s.node n with
          scanned := (s.node n).scanned.eraseIdx i
          chan := (s.node n).chan ++ [e] })
      else none
    | none => none
  | .take n ranging => match (s.node n).broadcast, (s.node n).chan with
    | .idle, e :: rest => some (s.setNode n { s.node n with
        chan := rest
        broadcast := .checking e (ranging.visit (G.peers n)) [] })
    | _, _ => none
  | .check n => match (s.node n).broadcast with
    | .checking e (m :: todo) found => some (s.setNode n { s.node n with
        broadcast := .checking e todo
          (if hash e ∈ (s.link n m).known then found else found ++ [m]) })
    | _ => none
  | .checked n => match (s.node n).broadcast with
    | .checking e [] found => some (s.setNode n { s.node n with broadcast := .queueing e found })
    | _ => none
  | .enqueue n => match (s.node n).broadcast with
    | .queueing e (m :: rest) =>
      if (s.link n m).queue.length < maxQueuedVaultEvents then
        some ((s.setLink n m { s.link n m with queue := (s.link n m).queue ++ [e] }).setNode n
          { s.node n with broadcast := .queued e m rest })
      else some (s.setNode n { s.node n with broadcast := .queueing e rest })
    | _ => none
  | .markQueued n => match (s.node n).broadcast with
    | .queued e m rest => some
        ((s.setLink n m { s.link n m with known := insert (hash e) (s.link n m).known }).setNode n
          { s.node n with broadcast := .queueing e rest })
    | _ => none
  | .finish n => match (s.node n).broadcast with
    | .queueing _ [] => some (s.setNode n { s.node n with broadcast := .idle })
    | _ => none
  | .dequeue n m => match (s.link n m).sender, (s.link n m).queue with
    | .idle, e :: rest =>
      some (s.setLink n m { s.link n m with sender := .taken e, queue := rest })
    | _, _ => none
  | .markSent n m => match (s.link n m).sender with
    | .taken e => some (s.setLink n m { s.link n m with
        sender := .marked e
        known := insert (hash e) (s.link n m).known })
    | _ => none
  | .transmit n m succeeds => match (s.link n m).sender with
    | .marked e => some (s.setLink n m (if succeeds then { s.link n m with
          sender := .idle
          wire := (s.link n m).wire ++ [e]
          sent := (s.link n m).sent ++ [e] }
        else { s.link n m with sender := .returned }))
    | _ => none
  | .deliver n m => match (s.link n m).handler, (s.link n m).wire with
    | .idle, e :: rest => some
        ((s.setLink n m { s.link n m with handler := .received e, wire := rest }).setNode m
          { s.node m with met := (s.node m).met ++ [e] })
    | _, _ => none
  | .mark n m evicted => match (s.link n m).handler with
    | .received e =>
      -- at the limit, known hashes are dropped until there is room for one
      if if (s.link m n).known.card < maxKnownVaultEventWishSigs then evicted = ∅
          else ((s.link m n).known \ evicted).card + 1 = maxKnownVaultEventWishSigs then
        let t := s.setLink n m { s.link n m with handler := .marked e }
        some (t.setLink m n
          { t.link m n with known := insert (hash e) ((t.link m n).known \ evicted) })
      else none
    | _ => none
  | .process n m => match (s.link n m).handler with
    | .marked e => some
        ((s.setNode m { s.node m with processed := (s.node m).processed ++ [e] }).setLink n m
          { s.link n m with handler := .processed e })
    | _ => none
  | .push n m => match (s.link n m).handler with
    | .processed e =>
      if (s.node m).chan.length < vaultEventChanSize then
        some ((s.setNode m { s.node m with chan := (s.node m).chan ++ [e] }).setLink n m
          { s.link n m with handler := .idle })
      else none
    | _ => none

/-- No send fails, no queue is full and no known set is at its limit. -/
def Net.Healthy (s : Net N E H) : NetAct N E H → Prop
  | .transmit _ _ succeeds => succeeds = true
  | .enqueue n => match (s.node n).broadcast with
    | .queueing _ (m :: _) => (s.link n m).queue.length < maxQueuedVaultEvents
    | _ => True
  | .mark n m _ => (s.link m n).known.card < maxKnownVaultEventWishSigs
  | _ => True

instance (s : Net N E H) (a : NetAct N E H) : Decidable (s.Healthy a) := by
  unfold Net.Healthy
  split
  · infer_instance
  · split <;> infer_instance
  · infer_instance
  · infer_instance

end Machine

/-! ## What is where -/

section Places

variable {N E H : Type}

def BroadcastPc.event? : BroadcastPc N E → Option E
  | .idle => none
  | .checking e _ _ => some e
  | .queueing e _ => some e
  | .queued e _ _ => some e

/-- The peers the loop has found to be without the event and has not queued it for. -/
def BroadcastPc.targets : BroadcastPc N E → List N
  | .checking _ _ found => found
  | .queueing _ rest => rest
  | .queued _ _ rest => rest
  | .idle => []

def BroadcastPc.pending : BroadcastPc N E → List N
  | .checking _ todo found => todo ++ found
  | .queueing _ rest => rest
  | .queued _ m rest => m :: rest
  | .idle => []

def SenderPc.held : SenderPc E → List E
  | .taken e => [e]
  | .marked e => [e]
  | _ => []

def HandlerPc.unprocessed : HandlerPc E → List E
  | .received e => [e]
  | .marked e => [e]
  | _ => []

def HandlerPc.held : HandlerPc E → List E
  | .idle => []
  | .received e => [e]
  | .marked e => [e]
  | .processed e => [e]

def Link.pipe (l : Link E H) : List E :=
  l.queue ++ l.sender.held ++ l.wire ++ l.handler.unprocessed

def Link.copies [DecidableEq E] (l : Link E H) (e : E) : ℕ :=
  l.queue.count e + l.sender.held.count e + l.sent.count e

/-- Nothing is on its way. -/
structure Net.Quiet (s : Net N E H) : Prop where
  scanned : ∀ n, (s.node n).scanned = []
  chan : ∀ n, (s.node n).chan = []
  broadcast : ∀ n, (s.node n).broadcast.event? = none
  pipe : ∀ n m, (s.link n m).pipe = []
  handler : ∀ n m, (s.link n m).handler.held = []

end Places

open Net Link

open BroadcastPc

/-! ## The invariant -/

section Invariant

variable {N E H : Type} [DecidableEq E]

/-- One direction to peer `m`, with the events processed at its two ends and the broadcast loop at
its beginning. -/
structure LinkSound (hash : E → H) (m : N) (l : Link E H) (near far : List E)
    (b : BroadcastPc N E) : Prop where
  pipe : ∀ e ∈ l.pipe, e ∈ near
  handled : ∀ e, l.handler = .processed e → e ∈ far
  known : ∀ e, hash e ∈ l.known → e ∈ far ∨ e ∈ l.pipe
  queued : ∀ e rest, b = .queued e m rest → e ∈ far ∨ e ∈ l.pipe
  once : ∀ e, l.copies e ≤ 1
  marked : ∀ e, 0 < l.copies e → hash e ∈ l.known ∨ ∃ rest, b = .queued e m rest
  unsent : ∀ e, b.event? = some e → m ∈ b.targets → l.copies e = 0

structure NodeSound (x : Node N E) : Prop where
  scanned : ∀ e ∈ x.scanned, e ∈ x.processed
  chan : ∀ e ∈ x.chan, e ∈ x.processed
  event : ∀ e, x.broadcast.event? = some e → e ∈ x.processed
  nodup : x.broadcast.pending.Nodup

/-- A processed event waits for the broadcast loop, or every peer is known to have it or about to
get it. -/
def Net.Covered (G : Network N) (hash : E → H) (s : Net N E H) (n : N) (x : Node N E) (e : E) :
    Prop :=
  (e ∈ x.scanned ∨ e ∈ x.chan ∨ ∃ k, e ∈ (s.link k n).handler.held) ∨
    ∀ m ∈ G.peers n, hash e ∈ (s.link n m).known ∨
      x.broadcast.event? = some e ∧ m ∈ x.broadcast.pending

structure Net.Sound (G : Network N) (hash : E → H) (s : Net N E H) : Prop where
  node : ∀ n, NodeSound (s.node n)
  link : ∀ n m, LinkSound hash m (s.link n m) (s.node n).processed (s.node m).processed
    (s.node n).broadcast
  covered : ∀ n, ∀ e ∈ (s.node n).processed, s.Covered G hash n (s.node n) e
  met : ∀ n, ∀ e ∈ (s.node n).met, e ∈ (s.node n).processed ∨ ∃ k, e ∈ (s.link k n).handler.held

theorem Net.sound_initial {G : Network N} {hash : E → H} : (initial : Net N E H).Sound G hash where
  node n := ⟨by simp [initial], by simp [initial], by
    simp [initial, event?], by simp [initial, pending]⟩
  link n m := by
    have hpipe : ((initial : Net N E H).link n m).pipe = [] := rfl
    have hcopies : ∀ e, ((initial : Net N E H).link n m).copies e = 0 := fun _ => rfl
    refine ⟨by simp [hpipe], ?_, by simp [initial], ?_, by simp [hcopies],
      by simp [hcopies], by simp [hcopies]⟩
    · exact fun e he => by cases he
    · exact fun e rest he => by cases he
  covered n := by simp [initial]
  met n := by simp [initial]

/-! ## Changes of one direction -/

variable {hash : E → H} {m : N} {l l' : Link E H} {near near' far far' : List E}
  {b b' : BroadcastPc N E}

variable (h : LinkSound hash m l near far b)
include h

theorem LinkSound.mono (hn : ∀ e ∈ near, e ∈ near') (hf : ∀ e ∈ far, e ∈ far') :
    LinkSound hash m l near' far' b where
  __ := h
  pipe e he := hn e (h.pipe e he)
  handled e he := hf e (h.handled e he)
  known e he := (h.known e he).imp_left (hf e)
  queued e rest he := (h.queued e rest he).imp_left (hf e)

theorem LinkSound.move (hto : ∀ e ∈ l'.pipe, e ∈ l.pipe)
    (hfrom : ∀ e ∈ l.pipe, e ∈ far ∨ e ∈ l'.pipe) (hcopies : ∀ e, l'.copies e = l.copies e)
    (hsub : l.known ⊆ l'.known)
    (hknown : ∀ e, hash e ∈ l'.known → hash e ∈ l.known ∨ e ∈ far ∨ e ∈ l.pipe)
    (hhandled : ∀ e, l'.handler = .processed e → e ∈ far) : LinkSound hash m l' near far b where
  pipe e he := h.pipe e (hto e he)
  handled := hhandled
  known e he := by
    rcases hknown e he with h1 | h1 | h1
    · exact (h.known e h1).elim .inl (hfrom e)
    · exact .inl h1
    · exact hfrom e h1
  queued e rest he := (h.queued e rest he).elim .inl (hfrom e)
  once e := by
    rw [hcopies]
    exact h.once e
  marked e he := by
    rw [hcopies] at he
    exact (h.marked e he).imp_left fun hk => hsub hk
  unsent e he hm := by
    rw [hcopies]
    exact h.unsent e he hm

theorem LinkSound.broadcast (hqueued : ∀ e rest, b' = .queued e m rest → e ∈ far ∨ e ∈ l.pipe)
    (hmarked : ∀ e rest, b = .queued e m rest → hash e ∈ l.known)
    (hunsent : ∀ e, b'.event? = some e → m ∈ b'.targets → l.copies e = 0) :
    LinkSound hash m l near far b' where
  __ := h
  queued := hqueued
  marked e he := by
    rcases h.marked e he with hk | ⟨rest, hb⟩
    · exact .inl hk
    · exact .inl (hmarked e rest hb)
  unsent := hunsent

omit h

omit [DecidableEq E] in
theorem Link.mem_pipe_enqueue {e x : E} :
    x ∈ ({ l with queue := l.queue ++ [e] } : Link E H).pipe ↔ x ∈ l.pipe ∨ x = e := by
  simp only [pipe, mem_append, mem_singleton]
  tauto

theorem Link.copies_enqueue {e x : E} : ({ l with queue := l.queue ++ [e] } : Link E H).copies x =
    l.copies x + if x = e then 1 else 0 := by
  simp only [copies, count_append, count_singleton, beq_iff_eq]
  by_cases hx : x = e
  · subst hx
    omega
  · simp only [hx, Ne.symm hx, if_false]
    omega

theorem LinkSound.enqueue {e : E} {rest : List N} (h : LinkSound hash m l near far b)
    (hmem : e ∈ near) (hzero : l.copies e = 0) (hb : ∀ x r, b ≠ .queued x m r)
    (hrest : m ∉ rest) :
    LinkSound hash m { l with queue := l.queue ++ [e] } near far (.queued e m rest) where
  pipe x hx := by
    rcases mem_pipe_enqueue.mp hx with hx | rfl
    · exact h.pipe x hx
    · exact hmem
  handled := h.handled
  known x hx := (h.known x hx).imp_right fun hp => mem_pipe_enqueue.mpr (.inl hp)
  queued x r hx := by
    cases hx
    exact .inr (mem_pipe_enqueue.mpr (.inr rfl))
  once x := by
    rw [copies_enqueue]
    split_ifs with hx
    · rw [hx, hzero]
    · exact h.once x
  marked x hx := by
    rw [copies_enqueue] at hx
    by_cases hxe : x = e
    · exact .inr ⟨rest, by rw [hxe]⟩
    · rw [if_neg hxe] at hx
      exact (h.marked x hx).imp_right fun ⟨r, hr⟩ => absurd hr (hb x r)
  unsent x _ hm := absurd hm hrest

end Invariant

/-! ## Changes of the network -/

section Changes

variable {N E H : Type} {G : Network N} {hash : E → H} {s : Net N E H} {n m : N}
  {x : Node N E} {l : Link E H}

theorem Net.Covered.mono {t : Net N E H} {x y : Node N E} {e : E} (h : s.Covered G hash n x e)
    (hscanned : e ∈ x.scanned → e ∈ y.scanned ∨ e ∈ y.chan) (hchan : e ∈ x.chan → e ∈ y.chan)
    (hheld : ∀ k, e ∈ (s.link k n).handler.held → e ∈ (t.link k n).handler.held ∨ e ∈ y.chan)
    (hpeer : ∀ j, hash e ∈ (s.link n j).known ∨
        x.broadcast.event? = some e ∧ j ∈ x.broadcast.pending →
      hash e ∈ (t.link n j).known ∨ y.broadcast.event? = some e ∧ j ∈ y.broadcast.pending) :
    t.Covered G hash n y e := by
  rcases h with (h | h | ⟨k, h⟩) | h
  · exact .inl ((hscanned h).imp_right .inl)
  · exact .inl (.inr (.inl (hchan h)))
  · exact .inl (.inr ((hheld k h).symm.imp_right fun h => ⟨k, h⟩))
  · exact .inr fun j hj => hpeer j (h j hj)

variable [DecidableEq N]

theorem Net.setNode_node (x : Node N E) (k : N) :
    (s.setNode n x).node k = if k = n then x else s.node k := by
  simp [setNode, update_apply]

theorem Net.setLink_link (l : Link E H) (k j : N) :
    (s.setLink n m l).link k j = if k = n ∧ j = m then l else s.link k j := by
  simp only [setLink, update_apply]
  by_cases hk : k = n
  · subst hk
    by_cases hj : j = m <;> simp [hj]
  · simp [hk]

theorem Net.setNode_self : s.setNode n (s.node n) = s := by
  simp [setNode]

theorem Net.setLink_self : s.setLink n m (s.link n m) = s := by
  simp [setLink]

variable [DecidableEq E] (hs : s.Sound G hash)
include hs

theorem Net.Sound.setBoth (hx : NodeSound x)
    (hproc : ∀ e ∈ (s.node n).processed, e ∈ x.processed)
    (hlink : LinkSound hash m l x.processed (s.node m).processed x.broadcast) (hother : ∀ j, j ≠ m →
      LinkSound hash j (s.link n j) x.processed (s.node j).processed x.broadcast)
    (hknown : (s.link n m).known ⊆ l.known) (hheld : ∀ e ∈ (s.link n m).handler.held, e ∈
      l.handler.held ∨ e ∈ (s.node m).chan ∧ x = s.node n)
    (hcov : ∀ e ∈ x.processed, s.Covered G hash n x e)
    (hmet : ∀ e ∈ x.met, e ∈ x.processed ∨ ∃ k, e ∈ (s.link k n).handler.held) :
    ((s.setLink n m l).setNode n x).Sound G hash := by
  set t := (s.setLink n m l).setNode n x with ht
  have hnode : ∀ k, t.node k = if k = n then x else s.node k := setNode_node x
  have hlinks : ∀ k j, t.link k j = if k = n ∧ j = m then l else s.link k j := setLink_link l
  have hgrow : ∀ k, ∀ e ∈ (s.node k).processed, e ∈ (t.node k).processed := by
    intro k e he
    rw [hnode]
    split_ifs with hk
    · subst hk
      exact hproc e he
    · exact he
  have hkeep : ∀ k j, ∀ e ∈ (s.link k j).handler.held,
      e ∈ (t.link k j).handler.held ∨ e ∈ (t.node j).chan := by
    intro k j e he
    rw [hlinks, hnode]
    by_cases hkj : k = n ∧ j = m
    · obtain ⟨rfl, rfl⟩ := hkj
      rw [if_pos ⟨rfl, rfl⟩]
      refine (hheld e he).imp_right fun h => ?_
      split_ifs with hj
      · rw [h.2, ← hj]
        exact h.1
      · exact h.1
    · rw [if_neg hkj]
      exact .inl he
  have hcovered : ∀ k, ∀ e, s.Covered G hash k (t.node k) e → t.Covered G hash k (t.node k) e := by
    intro k e h
    refine h.mono .inl (fun h => h) (fun j => hkeep j k e) fun j h => h.imp_left fun hk => ?_
    rw [hlinks]
    split_ifs with hkj
    · obtain ⟨rfl, rfl⟩ := hkj
      exact hknown hk
    · exact hk
  have hnodes : ∀ k, NodeSound (t.node k) := by
    intro k
    rw [hnode]
    split_ifs
    · exact hx
    · exact hs.node k
  refine ⟨hnodes, fun k j => ?_, fun k e he => hcovered k e ?_, fun k e he => ?_⟩
  · by_cases hk : k = n
    · subst hk
      have hxk : t.node k = x := by rw [hnode, if_pos rfl]
      rw [hxk, hlinks]
      by_cases hj : j = m
      · subst hj
        rw [if_pos ⟨rfl, rfl⟩]
        exact hlink.mono (fun e he => he) (hgrow j)
      · rw [if_neg fun h => hj h.2]
        exact (hother j hj).mono (fun e he => he) (hgrow j)
    · have hsk : t.node k = s.node k := by rw [hnode, if_neg hk]
      rw [hsk, hlinks, if_neg fun h => hk h.1]
      exact (hs.link k j).mono (fun e he => he) (hgrow j)
  · rw [hnode] at he ⊢
    split_ifs at he ⊢ with hk
    · subst hk
      exact hcov e he
    · exact hs.covered k e he
  · have hcase : e ∈ (t.node k).processed ∨ ∃ j, e ∈ (s.link j k).handler.held := by
      rw [hnode] at he ⊢
      split_ifs at he ⊢ with hk
      · subst hk
        exact hmet e he
      · exact hs.met k e he
    rcases hcase with h | ⟨j, h⟩
    · exact .inl h
    · rcases hkeep j k e h with h | h
      · exact .inr ⟨j, h⟩
      · exact .inl ((hnodes k).chan e h)

theorem Net.Sound.setLink
    (hl : LinkSound hash m l (s.node n).processed (s.node m).processed (s.node n).broadcast)
    (hknown : (s.link n m).known ⊆ l.known)
    (hheld : ∀ e ∈ (s.link n m).handler.held, e ∈ l.handler.held ∨ e ∈ (s.node m).chan) :
    (s.setLink n m l).Sound G hash := by
  have h := hs.setBoth (hs.node n) (fun e he => he) hl (fun j _ => hs.link n j) hknown
    (fun e he => (hheld e he).imp_right fun h => ⟨h, rfl⟩) (hs.covered n) (hs.met n)
  have hself : (s.setLink n m l).setNode n (s.node n) = s.setLink n m l := setNode_self
  rwa [hself] at h

theorem Net.Sound.setNode (hx : NodeSound x)
    (hproc : ∀ e ∈ (s.node n).processed, e ∈ x.processed)
    (hlink : ∀ j, LinkSound hash j (s.link n j) x.processed (s.node j).processed x.broadcast)
    (hcov : ∀ e ∈ x.processed, s.Covered G hash n x e)
    (hmet : ∀ e ∈ x.met, e ∈ x.processed ∨ ∃ k, e ∈ (s.link k n).handler.held) :
    (s.setNode n x).Sound G hash := by
  have h := hs.setBoth (m := n) hx hproc (hlink n) (fun j _ => hlink j) subset_rfl
    (fun e he => .inl he) hcov hmet
  rwa [setLink_self] at h

theorem Net.Sound.setBroadcast {b b' : BroadcastPc N E}
    (hb : (s.node n).broadcast = b) (hevent : ∀ e, b'.event? = some e → b.event? = some e)
    (hnodup : b'.pending.Nodup) (hnot : ∀ e j rest, b' ≠ .queued e j rest)
    (hmarked : ∀ e j rest, b = .queued e j rest → hash e ∈ (s.link n j).known)
    (hunsent : ∀ e j, b'.event? = some e → j ∈ b'.targets → (s.link n j).copies e = 0)
    (hpending : ∀ e j, b.event? = some e → j ∈ b.pending →
      hash e ∈ (s.link n j).known ∨ b'.event? = some e ∧ j ∈ b'.pending) :
    (s.setNode n { s.node n with broadcast := b' }).Sound G hash := by
  subst hb
  have hn := hs.node n
  refine hs.setNode ⟨hn.scanned, hn.chan, fun e he => hn.event e (hevent e he), hnodup⟩
    (fun e he => he) (fun j => ?_) (fun e he => ?_) (hs.met n)
  · exact (hs.link n j).broadcast (fun e rest h => absurd h (hnot e j rest))
      (fun e rest => hmarked e j rest) fun e => hunsent e j
  · refine (hs.covered n e he).mono .inl (fun h => h) (fun j h => .inl h) fun j h => ?_
    rcases h with hk | ⟨h1, h2⟩
    · exact .inl hk
    · exact hpending e j h1 h2

/-- Events move within a direction. -/
theorem Net.Sound.moveLink
    (hpipe : ∀ e, e ∈ l.pipe ↔ e ∈ (s.link n m).pipe)
    (hcopies : ∀ e, l.copies e = (s.link n m).copies e) (hknown : l.known = (s.link n m).known)
    (hhandled : ∀ e, l.handler = .processed e → e ∈ (s.node m).processed)
    (hheld : ∀ e ∈ (s.link n m).handler.held, e ∈ l.handler.held ∨ e ∈ (s.node m).chan) :
    (s.setLink n m l).Sound G hash :=
  hs.setLink ((hs.link n m).move (fun e he => (hpipe e).mp he)
    (fun e he => .inr ((hpipe e).mpr he)) hcopies hknown.ge (fun _ he => .inl (hknown ▸ he))
    hhandled) hknown.ge hheld

end Changes

open HandlerPc

/-! ## The steps -/

section Steps

variable {N E H : Type} [DecidableEq N] [DecidableEq E] {G : Network N} {hash : E → H}
  {s : Net N E H} {n m : N} {e : E} {rest : List E}

variable (hs : s.Sound G hash)
include hs

namespace Net.Sound

theorem scan :
    (s.setNode n { s.node n with
      scanned := (s.node n).scanned ++ [e]
      processed := (s.node n).processed ++ [e]
      met := (s.node n).met ++ [e] }).Sound G hash := by
  have hn := hs.node n
  have hmono : ∀ x ∈ (s.node n).processed, x ∈ (s.node n).processed ++ [e] :=
    fun x hx => mem_append_left _ hx
  refine hs.setNode ⟨fun x hx => ?_, fun x hx => hmono x (hn.chan x hx),
    fun x hx => hmono x (hn.event x hx), hn.nodup⟩ hmono
    (fun j => (hs.link n j).mono hmono fun x hx => hx) (fun x hx => ?_) fun x hx => ?_
  · exact (mem_append.mp hx).elim (fun h => hmono x (hn.scanned x h))
      fun h => mem_append_right _ h
  · rcases mem_append.mp hx with hx | hx
    · exact (hs.covered n x hx).mono (fun h => .inl (mem_append_left _ h)) (fun h => h)
        (fun k h => .inl h) fun j h => h
    · exact .inl (.inl (mem_append_right _ hx))
  · rcases mem_append.mp hx with hx | hx
    · exact (hs.met n x hx).imp_left (hmono x)
    · exact .inl (mem_append_right _ hx)

theorem publish {i : ℕ} (hi : (s.node n).scanned[i]? = some e) :
    (s.setNode n { s.node n with
      scanned := (s.node n).scanned.eraseIdx i
      chan := (s.node n).chan ++ [e] }).Sound G hash := by
  have hn := hs.node n
  obtain ⟨hlt, hget⟩ := List.getElem?_eq_some_iff.mp hi
  have hperm := getElem_cons_eraseIdx_perm hlt
  rw [hget] at hperm
  refine hs.setNode ⟨fun x hx => hn.scanned x (mem_of_mem_eraseIdx hx), fun x hx => ?_,
    hn.event, hn.nodup⟩ (fun x hx => hx) (hs.link n) (fun x hx => ?_) (hs.met n)
  · rcases mem_append.mp hx with hx | hx
    · exact hn.chan x hx
    · rw [mem_singleton.mp hx]
      exact hn.scanned e (mem_of_getElem? hi)
  · refine (hs.covered n x hx).mono (fun h => ?_) (fun h => mem_append_left _ h)
      (fun k h => .inl h) fun j h => h
    rcases mem_cons.mp (hperm.mem_iff.mpr h) with rfl | h
    · exact .inr (mem_append_right _ (mem_singleton_self _))
    · exact .inl h

theorem take {peers : List N} (hpeers : peers.Perm (G.peers n))
    (hb : (s.node n).broadcast = .idle) (hc : (s.node n).chan = e :: rest) :
    (s.setNode n { s.node n with chan := rest, broadcast := .checking e peers [] }).Sound G
      hash := by
  have hn := hs.node n
  have hmem : e ∈ (s.node n).processed := hn.chan e (by rw [hc]; exact mem_cons_self)
  refine hs.setNode ⟨hn.scanned, fun x hx => ?_, fun x hx => ?_, ?_⟩ (fun x hx => hx)
    (fun j => ?_) (fun x hx => ?_) (hs.met n)
  · exact hn.chan x (by rw [hc]; exact mem_cons_of_mem _ hx)
  · cases hx
    exact hmem
  · simpa [pending] using hpeers.nodup_iff.mpr (G.nodup n)
  · refine (hs.link n j).broadcast (fun x r h => by cases h) (fun x r h => ?_) fun x _ h => ?_
    · rw [hb] at h
      cases h
    · cases h
  · -- the event taken is now pending for all peers, the others are where they were
    have hall : x = e → ∀ j ∈ G.peers n, hash x ∈ (s.link n j).known ∨
        (checking e peers []).event? = some x ∧ j ∈ (checking e peers []).pending := by
      rintro rfl j hj
      exact .inr ⟨rfl, mem_append_left _ (hpeers.mem_iff.mpr hj)⟩
    rcases hs.covered n x hx with (h | h | h) | h
    · exact .inl (.inl h)
    · rw [hc] at h
      rcases mem_cons.mp h with h | h
      · exact .inr (hall h)
      · exact .inl (.inr (.inl h))
    · exact .inl (.inr (.inr h))
    · refine .inr fun j hj => (h j hj).imp_right fun h => ?_
      rw [hb] at h
      cases h.1

theorem check {todo found : List N} [DecidableEq H]
    (hb : (s.node n).broadcast = .checking e (m :: todo) found) :
    (s.setNode n { s.node n with
      broadcast := .checking e todo
        (if hash e ∈ (s.link n m).known then found else found ++ [m]) }).Sound G hash := by
  have hnodup := (hs.node n).nodup
  have hunsent := fun j => (hs.link n j).unsent
  have hmarked := (hs.link n m).marked e
  simp only [hb] at hnodup hunsent hmarked
  split_ifs with hk
  · refine hs.setBroadcast hb (fun x h => h) (nodup_cons.mp hnodup).2 nofun nofun
      (fun x j => hunsent j x) fun x j h1 h2 => ?_
    · cases h1
      rcases mem_cons.mp h2 with rfl | h2
      · exact .inl hk
      · exact .inr ⟨rfl, h2⟩
  · refine hs.setBroadcast hb (fun x h => h) ?_ nofun nofun (fun x j h1 h2 => ?_)
      fun x j h1 h2 => ?_
    · rw [pending, ← append_assoc]
      exact (perm_append_singleton m _).nodup_iff.mpr hnodup
    · cases h1
      rcases mem_append.mp h2 with h2 | h2
      · exact hunsent j e rfl h2
      · rw [mem_singleton.mp h2]
        by_contra hne
        rcases hmarked (Nat.pos_of_ne_zero hne) with h | ⟨r, h⟩
        · exact hk h
        · cases h
    · cases h1
      refine .inr ⟨rfl, ?_⟩
      rw [pending, ← append_assoc]
      exact (perm_append_singleton m _).mem_iff.mpr h2

theorem checked {found : List N} (hb : (s.node n).broadcast = .checking e [] found) :
    (s.setNode n { s.node n with broadcast := .queueing e found }).Sound G hash := by
  have hnodup := (hs.node n).nodup
  have hunsent := fun j => (hs.link n j).unsent
  simp only [hb] at hnodup hunsent
  exact hs.setBroadcast hb (fun x h => h) hnodup nofun nofun (fun x j => hunsent j x)
    fun x j h1 h2 => .inr ⟨h1, h2⟩

theorem finish (hb : (s.node n).broadcast = .queueing e []) :
    (s.setNode n { s.node n with broadcast := .idle }).Sound G hash :=
  hs.setBroadcast hb nofun nodup_nil nofun nofun nofun nofun

theorem enqueue {rest : List N} (hb : (s.node n).broadcast = .queueing e (m :: rest)) :
    ((s.setLink n m { s.link n m with queue := (s.link n m).queue ++ [e] }).setNode n
      { s.node n with broadcast := .queued e m rest }).Sound G hash := by
  have hn := hs.node n
  have hevent := hn.event e
  have hnodup := hn.nodup
  have hunsent := (hs.link n m).unsent e
  simp only [hb] at hevent hnodup hunsent
  have hmem : e ∈ (s.node n).processed := hevent rfl
  have hlink := (hs.link n m).enqueue hmem (hunsent rfl mem_cons_self)
    (fun x r h => by rw [hb] at h; cases h) (nodup_cons.mp hnodup).1
  refine hs.setBoth ⟨hn.scanned, hn.chan, fun x h => ?_, hnodup⟩ (fun x hx => hx) hlink
    (fun j hj => ?_) subset_rfl (fun x hx => .inl hx) (fun x hx => ?_) (hs.met n)
  · cases h
    exact hmem
  · refine (hs.link n j).broadcast (fun x r h => ?_) (fun x r h => ?_) fun x h1 h2 => ?_
    · cases h
      exact absurd rfl hj
    · rw [hb] at h
      cases h
    · exact (hs.link n j).unsent x (by rw [hb]; exact h1) (by rw [hb]; exact mem_cons_of_mem _ h2)
  · refine (hs.covered n x hx).mono .inl (fun h => h) (fun j h => .inl h) fun j h => ?_
    rw [hb] at h
    exact h

theorem addKnown [DecidableEq H] (hinj : Injective hash)
    (he : e ∈ (s.node m).processed ∨ e ∈ (s.link n m).pipe) :
    (s.setLink n m
      { s.link n m with known := insert (hash e) (s.link n m).known }).Sound G hash := by
  refine hs.setLink ((hs.link n m).move (fun x hx => hx) (fun x hx => .inr hx) (fun x => rfl)
    (Finset.subset_insert _ _) (fun x hx => ?_) (hs.link n m).handled) (Finset.subset_insert _ _)
    fun x hx => .inl hx
  rcases Finset.mem_insert.mp hx with h | h
  · cases hinj h
    exact .inr he
  · exact .inl h

theorem markQueued [DecidableEq H] {rest : List N} (hinj : Injective hash)
    (hb : (s.node n).broadcast = .queued e m rest) :
    ((s.setLink n m { s.link n m with known := insert (hash e) (s.link n m).known }).setNode n
      { s.node n with broadcast := .queueing e rest }).Sound G hash := by
  have hfirst := hs.addKnown hinj ((hs.link n m).queued e rest hb)
  set t := s.setLink n m { s.link n m with known := insert (hash e) (s.link n m).known } with ht
  have hbt : (t.node n).broadcast = .queued e m rest := hb
  have hself : hash e ∈ (t.link n m).known := by
    rw [ht, setLink_link, if_pos ⟨rfl, rfl⟩]
    exact Finset.mem_insert_self _ _
  have hnodup := (hfirst.node n).nodup
  have hunsent := fun j => (hfirst.link n j).unsent
  simp only [hbt] at hnodup hunsent
  refine hfirst.setBroadcast hbt (fun x h => h) (nodup_cons.mp hnodup).2 nofun
    (fun x j r h => ?_) (fun x j => hunsent j x) fun x j h1 h2 => ?_
  · cases h
    exact hself
  · cases h1
    rcases mem_cons.mp h2 with rfl | h2
    · exact .inl hself
    · exact .inr ⟨rfl, h2⟩

theorem dequeue (hidle : (s.link n m).sender = .idle)
    (hq : (s.link n m).queue = e :: rest) :
    (s.setLink n m { s.link n m with sender := .taken e, queue := rest }).Sound G hash := by
  refine hs.moveLink (fun x => ?_) (fun x => ?_) rfl (hs.link n m).handled fun x hx => .inl hx
  · simp only [pipe, SenderPc.held, hidle, hq, mem_append, mem_cons, not_mem_nil]
    tauto
  · simp only [copies, SenderPc.held, hidle, hq, count_cons, count_nil]
    omega

theorem markSent [DecidableEq H] (hinj : Injective hash)
    (ht : (s.link n m).sender = .taken e) :
    (s.setLink n m { s.link n m with
      sender := .marked e
      known := insert (hash e) (s.link n m).known }).Sound G hash := by
  have hpipe : ({ s.link n m with
      sender := .marked e
      known := insert (hash e) (s.link n m).known } : Link E H).pipe = (s.link n m).pipe := by
    simp only [pipe, SenderPc.held, ht]
  refine hs.setLink ((hs.link n m).move (fun x hx => hpipe ▸ hx) (fun x hx => .inr (hpipe ▸ hx))
    (fun x => by simp only [copies, SenderPc.held, ht]) (Finset.subset_insert _ _)
    (fun x hx => ?_) (hs.link n m).handled) (Finset.subset_insert _ _) fun x hx => .inl hx
  rcases Finset.mem_insert.mp hx with h | h
  · cases hinj h
    exact .inr (.inr (by simp [pipe, SenderPc.held, ht]))
  · exact .inl h

theorem transmit (ht : (s.link n m).sender = .marked e) :
    (s.setLink n m { s.link n m with
      sender := .idle
      wire := (s.link n m).wire ++ [e]
      sent := (s.link n m).sent ++ [e] }).Sound G hash := by
  refine hs.moveLink (fun x => ?_) (fun x => ?_) rfl (hs.link n m).handled fun x hx => .inl hx
  · simp only [pipe, SenderPc.held, ht, mem_append, mem_cons, not_mem_nil]
    tauto
  · simp only [copies, SenderPc.held, ht, count_append, count_nil]
    omega

theorem deliver (hidle : (s.link n m).handler = .idle)
    (hw : (s.link n m).wire = e :: rest) :
    ((s.setLink n m { s.link n m with handler := .received e, wire := rest }).setNode m
      { s.node m with met := (s.node m).met ++ [e] }).Sound G hash := by
  have hfirst : (s.setLink n m
      { s.link n m with handler := .received e, wire := rest }).Sound G hash := by
    refine hs.moveLink (fun x => ?_) (fun x => rfl) rfl nofun fun x hx => ?_
    · simp only [pipe, unprocessed, hidle, hw, mem_append, mem_cons, not_mem_nil]
      tauto
    · rw [hidle] at hx
      cases hx
  have hm := hfirst.node m
  refine hfirst.setNode { hm with } (fun x hx => hx)
    (hfirst.link m) (hfirst.covered m) fun x hx => ?_
  rcases mem_append.mp hx with hx | hx
  · exact hfirst.met m x hx
  · refine .inr ⟨n, ?_⟩
    rw [setLink_link, if_pos ⟨rfl, rfl⟩]
    exact hx

theorem received (hh : (s.link n m).handler = .received e) :
    (s.setLink n m { s.link n m with handler := .marked e }).Sound G hash := by
  refine hs.moveLink (fun x => ?_) (fun x => rfl) rfl nofun fun x hx => .inl ?_
  · simp only [pipe, unprocessed, hh]
  · rw [hh] at hx
    exact hx

theorem process (hh : (s.link n m).handler = .marked e) :
    ((s.setNode m { s.node m with processed := (s.node m).processed ++ [e] }).setLink n m
      { s.link n m with handler := .processed e }).Sound G hash := by
  have hm := hs.node m
  have hmono : ∀ x ∈ (s.node m).processed, x ∈ (s.node m).processed ++ [e] :=
    fun x hx => mem_append_left _ hx
  have hheld : e ∈ (s.link n m).handler.held := by simp [hh, held]
  have hfirst : (s.setNode m
      { s.node m with processed := (s.node m).processed ++ [e] }).Sound G hash := by
    refine hs.setNode ⟨fun x hx => hmono x (hm.scanned x hx), fun x hx => hmono x (hm.chan x hx),
      fun x hx => hmono x (hm.event x hx), hm.nodup⟩ hmono
      (fun j => (hs.link m j).mono hmono fun x hx => hx) (fun x hx => ?_)
      fun x hx => (hs.met m x hx).imp_left (hmono x)
    rcases mem_append.mp hx with hx | hx
    · exact hs.covered m x hx
    · rw [mem_singleton.mp hx]
      exact .inl (.inr (.inr ⟨n, hheld⟩))
  have hfar : e ∈ ((s.setNode m
      { s.node m with processed := (s.node m).processed ++ [e] }).node m).processed := by
    rw [Net.setNode_node, if_pos rfl]
    exact mem_append_right _ (mem_singleton_self e)
  refine hfirst.setLink ((hfirst.link n m).move (fun x hx => ?_) (fun x hx => ?_) (fun x => rfl)
    subset_rfl (fun x hx => .inl hx) fun x hx => ?_) subset_rfl fun x hx => .inl ?_
  · simp only [pipe, unprocessed, mem_append, not_mem_nil, or_false] at hx
    simp only [Net.setNode, pipe, mem_append]
    exact .inl hx
  · simp only [Net.setNode, pipe, unprocessed, hh, mem_append, mem_singleton] at hx
    rcases hx with hx | rfl
    · refine .inr ?_
      simp only [pipe, mem_append]
      exact .inl hx
    · exact .inl hfar
  · cases hx
    exact hfar
  · change x ∈ (s.link n m).handler.held at hx
    rw [hh] at hx
    exact hx

theorem push (hh : (s.link n m).handler = .processed e) :
    ((s.setNode m { s.node m with chan := (s.node m).chan ++ [e] }).setLink n m
      { s.link n m with handler := .idle }).Sound G hash := by
  have hm := hs.node m
  have hfirst : (s.setNode m { s.node m with chan := (s.node m).chan ++ [e] }).Sound G hash := by
    refine hs.setNode { hm with chan := fun x hx => ?_ } (fun x hx => hx)
      (hs.link m) (fun x hx => ?_) (hs.met m)
    · rcases mem_append.mp hx with hx | hx
      · exact hm.chan x hx
      · rw [mem_singleton.mp hx]
        exact (hs.link n m).handled e hh
    · exact (hs.covered m x hx).mono .inl (fun h => mem_append_left _ h)
        (fun k h => .inl h) fun j h => h
  refine hfirst.moveLink (fun x => ?_) (fun x => rfl) rfl nofun fun x hx => .inr ?_
  · simp only [Net.setNode, pipe, unprocessed, hh]
  · change x ∈ (s.link n m).handler.held at hx
    rw [hh] at hx
    rw [setNode_node, if_pos rfl]
    exact mem_append_right _ hx

omit hs

/-- **A healthy step keeps the invariant.** -/
theorem step [DecidableEq H] {t : Net N E H} {a : NetAct N E H}
    (hinj : Injective hash) (hs : s.Sound G hash) (hok : s.Healthy a)
    (h : Net.step G hash s a = some t) : t.Sound G hash := by
  cases a with simp only [Net.step] at h
  | scan n e =>
    cases h
    exact hs.scan
  | publish n i =>
    split at h
    · rename_i e hi
      split_ifs at h
      cases h
      exact hs.publish hi
    · cases h
  | take n ranging =>
    split at h <;> cases h
    rename_i e rest hb hc
    exact hs.take (ranging.visit_perm _) hb hc
  | check n =>
    split at h <;> cases h
    rename_i e m todo found hb
    exact hs.check hb
  | checked n =>
    split at h <;> cases h
    rename_i e found hb
    exact hs.checked hb
  | enqueue n =>
    split at h
    · rename_i e m rest hb
      simp only [Net.Healthy, hb] at hok
      rw [if_pos hok] at h
      cases h
      exact hs.enqueue hb
    · cases h
  | markQueued n =>
    split at h <;> cases h
    rename_i e m rest hb
    exact hs.markQueued hinj hb
  | finish n =>
    split at h <;> cases h
    rename_i e hb
    exact hs.finish hb
  | dequeue n m =>
    split at h <;> cases h
    rename_i e rest hidle hq
    exact hs.dequeue hidle hq
  | markSent n m =>
    split at h <;> cases h
    rename_i e ht
    exact hs.markSent hinj ht
  | transmit n m succeeds =>
    cases hok
    split at h <;> cases h
    rename_i e ht
    exact hs.transmit ht
  | deliver n m =>
    split at h <;> cases h
    rename_i e rest hidle hw
    exact hs.deliver hidle hw
  | mark n m evicted =>
    split at h
    · rename_i e hh
      rw [Net.Healthy] at hok
      split_ifs at h with hev
      cases h
      subst hev
      rw [Finset.sdiff_empty]
      have hmem : e ∈ (s.node n).processed := (hs.link n m).pipe e (by simp [pipe, hh, unprocessed])
      exact (hs.received hh).addKnown hinj (.inl hmem)
    · cases h
  | process n m =>
    split at h <;> cases h
    rename_i e hh
    exact hs.process hh
  | push n m =>
    split at h
    · rename_i e hh
      split_ifs at h
      cases h
      exact hs.push hh
    · cases h

end Net.Sound

end Steps

/-! ## Whole runs -/

section Runs

variable {N E H : Type} [DecidableEq E] {G : Network N} {hash : E → H} {s : Net N E H} {n m : N}
  {e : E}

theorem Net.Sound.sent_le_one (hs : s.Sound G hash) : (s.link n m).sent.count e ≤ 1 := by
  have := (hs.link n m).once e
  unfold copies at this
  omega

theorem Net.Sound.processed_peer (hs : s.Sound G hash) (hq : s.Quiet)
    (he : e ∈ (s.node n).processed) (hm : m ∈ G.peers n) : e ∈ (s.node m).processed := by
  rcases hs.covered n e he with (h | h | ⟨k, h⟩) | h
  · rw [hq.scanned] at h
    cases h
  · rw [hq.chan] at h
    cases h
  · rw [hq.handler] at h
    cases h
  · rcases h m hm with h | ⟨h, -⟩
    · refine ((hs.link n m).known e h).resolve_right fun h => ?_
      rw [hq.pipe] at h
      cases h
    · rw [hq.broadcast] at h
      cases h

theorem Net.Sound.processed_path (hs : s.Sound G hash) (hq : s.Quiet)
    (he : e ∈ (s.node n).processed)
    (hpath : Relation.ReflTransGen (fun a b => b ∈ G.peers a) n m) : e ∈ (s.node m).processed := by
  induction hpath with
  | refl => exact he
  | tail _ hstep ih => exact hs.processed_peer hq ih hstep

end Runs

/-- **Gossip**: at most once in each direction, and everywhere when nothing is left to do. -/
theorem gossip_once_and_complete {N E H : Type} [DecidableEq N] [DecidableEq E] [DecidableEq H]
    (G : Network N) (hash : E → H) (hinj : Injective hash) (as : List (NetAct N E H))
    (s : Net N E H) (hok : Along (Net.step G hash) Net.Healthy Net.initial as)
    (hrun : run (Net.step G hash) Net.initial as = some s) :
    (∀ n m e, (s.link n m).sent.count e ≤ 1) ∧
      (s.Quiet → ∀ n m e, e ∈ (s.node n).met →
        Relation.ReflTransGen (fun a b => b ∈ G.peers a) n m → e ∈ (s.node m).processed) := by
  have hs : s.Sound G hash :=
    run_invariant_along (fun _ _ _ => Net.Sound.step hinj) sound_initial hok hrun
  refine ⟨fun n m e => hs.sent_le_one, fun hq n m e he hpath => ?_⟩
  have hn : e ∈ (s.node n).processed := by
    refine (hs.met n e he).resolve_right fun ⟨k, h⟩ => ?_
    rw [hq.handler] at h
    cases h
  exact hs.processed_path hq hn hpath

def pairNetwork : Network (Fin 2) where
  peers n := [1 - n]
  nodup n := nodup_singleton _
  symm := by decide

def pairRun (e : VaultEventWithSig) : List (NetAct (Fin 2) VaultEventWithSig VaultEventWithSig) :=
  [.scan 0 e, .publish 0 0, .take 0 .listed, .check 0, .checked 0, .enqueue 0, .markQueued 0,
    .finish 0, .dequeue 0 1, .markSent 0 1, .transmit 0 1 true, .deliver 0 1, .mark 0 1 ∅,
    .process 0 1, .push 0 1, .take 1 .listed, .check 1, .checked 1, .finish 1]

/-- The second node has processed the event, and nothing was sent back. -/
theorem gossip_pair : ∃ s, run (Net.step pairNetwork id) Net.initial
      (pairRun ⟨sampleEvent 0, [1]⟩) = some s ∧
    (s.link 0 1).sent.count ⟨sampleEvent 0, [1]⟩ ≤ 1 ∧
    ⟨sampleEvent 0, [1]⟩ ∈ (s.node 1).processed := by
  refine exists_run (by decide +kernel) fun hs => ?_
  have h := gossip_once_and_complete pairNetwork id injective_id
    (pairRun ⟨sampleEvent 0, [1]⟩) _ (by decide +kernel) hs
  refine ⟨h.1 0 1 _, h.2 ?_ 0 1 _ (by decide +kernel) (.single (by decide))⟩
  exact ⟨by decide +kernel, by decide +kernel, by decide +kernel, by decide +kernel,
    by decide +kernel⟩

end XChain
