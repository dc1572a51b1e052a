import XChain.Lib.Blocks
import XChain.Lib.Machine
import XChain.Lib.Table
import XChain.Lib.Word

/-!
# Filling a header skeleton

The header part of `mc/downloader/queue.go`. A skeleton has every 192nd header of a chain. The
headers up to each of them are a segment, which is reserved for a peer, delivered by it, and copied
into `headerResults`; segments that are complete from the start on are sent to the processor.

Which task the priority queue gives out first is up to the run, as is which requests have expired.

* **`skeleton_exact`**: what was sent and what is left are the headers from the first number on.
-/

namespace XChain.Skeleton

open List Option Blocks StepMachine GoMap GoMap.Table AList Word64

structure Types (Hash Header : Type) where
  hash : Header → Hash
  number : Header → ℕ
  parentHash : Header → Hash

def maxHeaderFetch : ℕ := 192

/-- The header fields of `queue`. `sent` is what went to `headerProcCh` for the skeleton. -/
structure State (Header Peer : Type) where
  taskPool : Table ℕ Header
  taskQueue : List ℕ
  peerMiss : Peer → List ℕ
  pendPool : Table Peer ℕ
  results : Option (List (Option Header))
  proced : ℕ
  offset : ℕ
  contCh : ℕ
  sent : List (List (Option Header))

variable {Hash Header Peer : Type}

def Types.numberU64 (T : Types Hash Header) (header : Header) : ℕ := low (T.number header)

section

variable [DecidableEq Hash] [DecidableEq Peer]

namespace State

variable (T : Types Hash Header) (s : State Header Peer)

def index (first i : ℕ) : ℕ := add first (low (i * maxHeaderFetch))

/-- `ScheduleSkeleton`, which panics if another skeleton is being filled. -/
def scheduleSkeleton (first : ℕ) (skeleton : List Header) : Option (State Header Peer) :=
  if s.results.isSome then none
  else some {
    taskPool := skeleton.zipIdx.foldl (fun pool x => pool.insert (index first x.2) x.1) ∅
    taskQueue := (range skeleton.length).map (index first)
    peerMiss := fun _ => []
    pendPool := s.pendPool
    results := some (replicate (skeleton.length * maxHeaderFetch) none)
    proced := 0
    offset := first
    contCh := 0
    sent := [] }

def retrieveHeaders : (List (Option Header) × ℕ) × State Header Peer :=
  ((s.results.getD [], s.proced), { s with results := none, proced := 0 })

/-- The loop of `ReserveHeaders`: what is sent, what was skipped and what is left in the queue. -/
def reserveLoop (miss : List ℕ) : List ℕ → List ℕ → ℕ × List ℕ × List ℕ
  | [], skip => (0, skip, [])
  | first :: rest, skip =>
    if first ∈ miss then reserveLoop miss rest (skip ++ [first])
    else if first = 0 then reserveLoop miss rest skip
    else (first, skip, rest)

/-- `ReserveHeaders`, the queue giving out its tasks in the order of `order`. -/
def reserveHeaders (peer : Peer) (order : Ranging ℕ) : State Header Peer :=
  if (s.pendPool.lookup peer).isSome then s
  else
    let r := reserveLoop (s.peerMiss peer) (order.visit s.taskQueue) []
    let s := { s with taskQueue := r.2.2 ++ r.2.1 }
    if r.1 = 0 then s else { s with pendPool := s.pendPool.insert peer r.1 }

def cancel (peer : Peer) : Option (State Header Peer) :=
  (s.pendPool.lookup peer).map fun first => { s with
    taskQueue := if first > 0 then s.taskQueue ++ [first] else s.taskQueue
    pendPool := s.pendPool.erase peer }

def expire (expired : List Peer) : Option (State Header Peer) := run cancel s expired

/-- The check of a delivery behind its first header: numbers from `want` on, each header the parent
of the next. -/
def checkChain : ℕ → List Header → Bool
  | want, parent :: header :: headers =>
    T.numberU64 header = want ∧ T.hash parent = T.parentHash header ∧
      checkChain (add want 1) (header :: headers)
  | _, _ => true

def accepted (first : ℕ) (target : Hash) (headers : List Header) : Bool :=
  headers.length = maxHeaderFetch ∧ headers.head?.map T.numberU64 = some first ∧
    headers.getLast?.map T.hash = some target ∧ checkChain T (add first 1) headers

def readyLoop (results : List (Option Header)) (proced : ℕ) : ℕ → ℕ → ℕ
  | 0, ready => ready
  | fuel + 1, ready =>
    match results[proced + ready]? with
    | some (some _) => readyLoop results proced fuel (ready + maxHeaderFetch)
    | _ => ready

/-- The segments that are ready are sent if `headerProcCh` has room. -/
def sendReady (results : List (Option Header)) (room : Bool) : State Header Peer :=
  let ready := readyLoop results s.proced results.length 0
  if 0 < ready ∧ room then { s with
    sent := s.sent ++ [(results.drop s.proced).take ready]
    proced := s.proced + ready }
  else s

/-- `headerContCh <- false` when no task is left; the channel has one place. -/
def signal : Option (State Header Peer) :=
  if s.taskPool.entries.isEmpty then
    if s.contCh = 0 then some { s with contCh := 1 } else none
  else some s

def deliverHeaders (peer : Peer) (headers : List Header) (room : Bool) :
    Option (State Header Peer) :=
  match s.pendPool.lookup peer with
  | none => some s
  | some first => do
    let s := { s with pendPool := s.pendPool.erase peer }
    let skeletonHeader ← s.taskPool.lookup first
    let results ← s.results
    if accepted T first (T.hash skeletonHeader) headers then
      let results := Blocks.overwrite results (sub first s.offset) (headers.map some)
      let s := { s with results := some results, taskPool := s.taskPool.erase first }
      signal (s.sendReady results room)
    else
      return { s with
        peerMiss := Function.update s.peerMiss peer (first :: s.peerMiss peer)
        taskQueue := s.taskQueue ++ [first] }

end State

open State

inductive Act (Header Peer : Type)
  | reserve (peer : Peer) (order : Ranging ℕ)
  | deliver (peer : Peer) (headers : List Header) (room : Bool)
  | cancel (peer : Peer)
  | expire (expired : List Peer)

def step (T : Types Hash Header) (s : State Header Peer) :
    Act Header Peer → Option (State Header Peer)
  | .reserve peer order => some (s.reserveHeaders peer order)
  | .deliver peer headers room => s.deliverHeaders T peer headers room
  | .cancel peer => s.cancel peer
  | .expire expired => s.expire expired

end

open State

/-! ## Segments -/

variable {T : Types Hash Header} {s t : State Header Peer} {first : ℕ} {skeleton : List Header}
  {headers : List Header} {skeletonHeader : Header}

variable (T) in
/-- Consecutive numbers, each header the parent of the next, the last one that of the skeleton. -/
structure Segment (start : ℕ) (skeletonHeader : Header) (headers : List Header) : Prop where
  numbers : headers.map T.numberU64 = range' start maxHeaderFetch
  linked : headers.IsChain fun parent header => T.hash parent = T.parentHash header
  last : headers.getLast?.map T.hash = some (T.hash skeletonHeader)

theorem Segment.length {start : ℕ} (h : Segment T start skeletonHeader headers) :
    headers.length = maxHeaderFetch := by
  have := congrArg List.length h.numbers
  rwa [length_map, length_range'] at this

theorem checkChain_eq_true [DecidableEq Hash] : ∀ {headers : List Header} {parent : Header}
    {want : ℕ},
    want + headers.length ≤ size → checkChain T want (parent :: headers) = true →
      headers.map T.numberU64 = range' want headers.length ∧
        (parent :: headers).IsChain fun parent header => T.hash parent = T.parentHash header
  | [], _, _, _, _ => ⟨rfl, .singleton _⟩
  | header :: headers, parent, want, hsize, h => by
    obtain ⟨hnumber, hparent, hrest⟩ := of_decide_eq_true h
    rw [length_cons] at hsize
    cases headers with
    | nil => exact ⟨by simp [hnumber], .cons_cons hparent (.singleton _)⟩
    | cons next headers =>
      have hadd : add want 1 = want + 1 := by
        rw [length_cons] at hsize
        exact Nat.mod_eq_of_lt (by omega)
      rw [hadd] at hrest
      obtain ⟨hnumbers, hlinked⟩ := checkChain_eq_true (by omega) hrest
      refine ⟨?_, .cons_cons hparent hlinked⟩
      rw [map_cons, hnumber, hnumbers]
      rfl

theorem segment_of_accepted [DecidableEq Hash] {start : ℕ}
    (hsize : start + maxHeaderFetch ≤ size)
    (h : accepted T start (T.hash skeletonHeader) headers = true) :
    Segment T start skeletonHeader headers := by
  obtain ⟨hlen, hfirst, hlast, hchain⟩ := of_decide_eq_true h
  obtain ⟨header, rest, rfl⟩ := exists_cons_of_length_pos (hlen ▸ (by decide : 0 < maxHeaderFetch))
  have hnumber : T.numberU64 header = start := some.inj hfirst
  have hadd : add start 1 = start + 1 := by
    unfold maxHeaderFetch at hsize
    exact Nat.mod_eq_of_lt (by omega)
  rw [hadd] at hchain
  rw [length_cons] at hlen
  obtain ⟨hnumbers, hlinked⟩ := checkChain_eq_true (by omega) hchain
  refine ⟨?_, hlinked, hlast⟩
  rw [map_cons, hnumber, hnumbers, ← hlen, range'_succ]

/-! ## The segments of a skeleton -/

def start (first i : ℕ) : ℕ := first + maxHeaderFetch * i

def starts (first n : ℕ) : List ℕ := (range n).map (start first)

theorem start_injective (first : ℕ) : Function.Injective (start first) := by
  intro i j h
  unfold start maxHeaderFetch at h
  omega

theorem mem_starts {n p : ℕ} : p ∈ starts first n ↔ ∃ i < n, start first i = p := by
  simp [starts]

theorem index_eq {i n : ℕ} (hsize : start first n ≤ size) (hi : i < n) :
    index first i = start first i := by
  unfold start maxHeaderFetch at *
  have : i * 192 < size := by omega
  unfold index add
  rw [maxHeaderFetch, low_of_lt this, Nat.mod_eq_of_lt (by omega)]
  omega

def State.outstanding (s : State Header Peer) : List ℕ :=
    s.taskQueue ++ s.pendPool.entries.map (·.2)

/-- While a skeleton is filled, `slots` being the segments that were accepted. -/
structure Filling (T : Types Hash Header) (first : ℕ) (skeleton : List Header)
    (s : State Header Peer) (slots : List (Option (List Header))) : Prop where
  results : s.results = some (Blocks.flat maxHeaderFetch slots)
  offset : s.offset = first
  length : slots.length = skeleton.length
  segments : ∀ i headers, slots[i]? = some (some headers) →
    ∃ skeletonHeader, skeleton[i]? = some skeletonHeader ∧
      Segment T (start first i) skeletonHeader headers
  tasks : ∀ i, slots[i]? = some none → s.taskPool.lookup (start first i) = skeleton[i]?
  split : (s.outstanding ++ Blocks.filled maxHeaderFetch first slots).Perm
    (starts first skeleton.length)
  sent : ∃ groups : List (List (List Header)), s.sent = groups.map (·.flatten.map some) ∧
    groups.flatten.map some <+: slots ∧ s.proced = maxHeaderFetch * groups.flatten.length

variable {slots : List (Option (List Header))}

variable (h : Filling T first skeleton s slots)
include h

theorem Filling.whole : Blocks.Whole maxHeaderFetch slots := by
  intro headers hmem
  obtain ⟨i, hi⟩ := mem_iff_getElem?.mp hmem
  obtain ⟨_, -, hseg⟩ := h.segments i headers hi
  exact hseg.length

theorem Filling.exists_slot {p : ℕ} (hp : p ∈ s.outstanding) :
    ∃ i, start first i = p ∧ slots[i]? = some none := by
  obtain ⟨i, hi, rfl⟩ := mem_starts.mp (h.split.mem_iff.mp (mem_append_left _ hp))
  refine ⟨i, rfl, ?_⟩
  rw [← h.length] at hi
  cases hslot : slots[i] with
  | none => rw [getElem?_eq_getElem hi, hslot]
  | some headers =>
    have hfilled : start first i ∈ filled maxHeaderFetch first slots :=
      mem_filled.mpr ⟨i, headers, by rw [getElem?_eq_getElem hi, hslot], rfl⟩
    have hnodup : (starts first skeleton.length).Nodup := nodup_range.map (start_injective first)
    exact absurd rfl ((nodup_append.mp (h.split.nodup_iff.mpr hnodup)).2.2 _ hp _ hfilled)

theorem Filling.of_moved (hmoved : t.outstanding.Perm s.outstanding)
    (hresults : t.results = s.results) (hoffset : t.offset = s.offset)
    (hpool : t.taskPool = s.taskPool) (hsent : t.sent = s.sent) (hproced : t.proced = s.proced) :
    Filling T first skeleton t slots := by
  refine ⟨hresults.trans h.results, hoffset.trans h.offset, h.length, h.segments, ?_,
    (hmoved.append_right _).trans h.split, ?_⟩
  · rw [hpool]
    exact h.tasks
  · rw [hsent, hproced]
    exact h.sent

omit h

theorem Filling.schedule (hsize : start first skeleton.length ≤ size)
    (hpend : s.pendPool = ∅) (ht : s.scheduleSkeleton first skeleton = some t) :
    Filling T first skeleton t (replicate skeleton.length none) := by
  obtain ⟨-, ht⟩ := ite_none_left_eq_some.mp ht
  cases ht
  have hindex : ∀ i < skeleton.length, index first i = start first i :=
    fun i hi => index_eq hsize hi
  refine ⟨?_, rfl, length_replicate .., fun i hs hi => ?_, fun i hi => ?_, ?_, ?_⟩
  · rw [flat_replicate]
  · rw [getElem?_replicate] at hi
    split_ifs at hi
    cases hi
  · rw [getElem?_replicate] at hi
    split_ifs at hi with hlt
    have hinj : ∀ i j, i < j → j < skeleton.length → index first (0 + i) ≠ index first (0 + j) := by
      intro i j hij hj heq
      rw [Nat.zero_add, Nat.zero_add, hindex i (by omega), hindex j hj] at heq
      exact hij.ne (start_injective first heq)
    have hlookup := lookup_foldl_zipIdx (index first) (∅ : Table ℕ Header) hinj
      (getElem?_eq_getElem hlt)
    rw [Nat.zero_add, hindex i hlt] at hlookup
    rw [getElem?_eq_getElem hlt]
    exact hlookup
  · rw [filled_replicate, append_nil, outstanding, hpend]
    refine .of_eq ((append_nil _).trans ?_)
    exact map_congr_left fun i hi => hindex i (mem_range.mp hi)
  · exact ⟨[], rfl, nil_prefix, rfl⟩

theorem readyLoop_eq (hwhole : Blocks.Whole maxHeaderFetch slots) (i : ℕ) : ∀ (fuel k : ℕ),
    slots.length ≤ i + k + fuel →
      readyLoop (flat maxHeaderFetch slots) (maxHeaderFetch * i) fuel (maxHeaderFetch * k) =
        maxHeaderFetch * (k + ((slots.drop (i + k)).takeWhile isSome).length)
  | 0, k, hfuel => by
    rw [drop_eq_nil_of_le (by omega)]
    rfl
  | fuel + 1, k, hfuel => by
    have hpos : maxHeaderFetch * i + maxHeaderFetch * k = maxHeaderFetch * (i + k) :=
      (Nat.mul_add ..).symm
    rw [readyLoop, hpos]
    cases hslot : slots[i + k]? with
    | none =>
      have hlen := getElem?_eq_none_iff.mp hslot
      rw [getElem?_eq_none, drop_eq_nil_of_le hlen]
      · rfl
      · rw [length_flat hwhole]
        exact Nat.mul_le_mul_left _ hlen
    | some slot =>
      obtain ⟨e, he, hsome⟩ := getElem?_flat (by decide) hwhole hslot
      obtain ⟨hlt, rfl⟩ := List.getElem?_eq_some_iff.mp hslot
      rw [he, drop_eq_getElem_cons hlt, takeWhile_cons, ← hsome]
      cases e with
      | none => rfl
      | some header =>
        have ih := readyLoop_eq hwhole i fuel (k + 1) (by omega)
        dsimp only [isSome_some]
        rw [← Nat.mul_succ, ih, if_pos rfl, length_cons, Nat.add_assoc i k 1]
        congr 1
        omega

include h

theorem Filling.sendReady (room : Bool) :
    Filling T first skeleton (s.sendReady (flat maxHeaderFetch slots) room) slots := by
  obtain ⟨groups, hsent, ⟨rest, hslots⟩, hproced⟩ := h.sent
  set g := groups.flatten.length with hg
  have hwhole := h.whole
  have hrest : slots.drop g = rest := by
    rw [← hslots, drop_left' (by rw [length_map])]
  obtain ⟨segs, hsegs⟩ := exists_map_some (all_eq_true.mp (all_takeWhile (l := rest)))
  have hlen : segs.length = (rest.takeWhile isSome).length := by rw [hsegs, length_map]
  have hfront : rest.takeWhile isSome <+: rest := takeWhile_prefix _
  have hready : readyLoop (flat maxHeaderFetch slots) s.proced
      (flat maxHeaderFetch slots).length 0 = maxHeaderFetch * segs.length := by
    have hfuel : slots.length ≤ g + 0 + (flat maxHeaderFetch slots).length := by
      rw [length_flat hwhole]
      exact Nat.le_add_left_of_le (Nat.le_mul_of_pos_left _ (by decide))
    have := readyLoop_eq hwhole g _ 0 hfuel
    rwa [Nat.mul_zero, Nat.zero_add, Nat.add_zero, hrest, ← hlen, ← hproced] at this
  have hbatch : ((flat maxHeaderFetch slots).drop s.proced).take
      (maxHeaderFetch * segs.length) = segs.flatten.map some := by
    rw [hproced, drop_flat g hwhole, take_flat _ (hwhole.drop g), hrest, hlen,
      ← prefix_iff_eq_take.mp hfront, hsegs, flat_map_some]
  unfold State.sendReady
  dsimp only
  rw [hready]
  split_ifs
  · refine ⟨h.results, h.offset, h.length, h.segments, h.tasks, h.split, groups ++ [segs], ?_, ?_,
      ?_⟩
    · rw [hsent, hbatch, map_append]
      rfl
    · rw [flatten_append, map_append, flatten_singleton, ← hsegs, ← hslots]
      exact (prefix_append_right_inj _).mpr hfront
    · rw [flatten_append, length_append, flatten_singleton, hproced, Nat.mul_add]
  · exact h

theorem Filling.signal (ht : s.signal = some t) :
    Filling T first skeleton t slots := by
  unfold State.signal at ht
  split_ifs at ht
  · cases ht
    exact h.of_moved (.refl _) rfl rfl rfl rfl rfl
  · cases ht
    exact h

/-- The batches that were sent, followed by `filled[proced:]` of `RetrieveHeaders`. -/
def State.listed (s : State Header Peer) : List (Option Header) :=
  s.sent.flatten ++ s.retrieveHeaders.1.1.drop s.retrieveHeaders.1.2

theorem Filling.listed :
    s.listed = flat maxHeaderFetch slots := by
  obtain ⟨groups, hsent, ⟨rest, hslots⟩, hproced⟩ := h.sent
  have hflatten : s.sent.flatten = flat maxHeaderFetch (groups.flatten.map some) := by
    rw [hsent, flat_map_some, List.flatten_flatten, List.map_flatten, List.map_map]
    rfl
  unfold State.listed State.retrieveHeaders
  rw [h.results, getD_some, hproced, drop_flat _ h.whole, hflatten, ← hslots,
    drop_left' (length_map ..), flat_append]

theorem Filling.numbers {k : ℕ} {header : Header}
    (hk : s.listed[k]? = some (some header)) : T.numberU64 header = first + k := by
  rw [h.listed] at hk
  obtain ⟨i, j, headers, rfl, hslot, hheader⟩ := exists_of_getElem?_flat h.whole hk
  obtain ⟨_, -, hsegment⟩ := h.segments i headers hslot
  have hnumber : (headers.map T.numberU64)[j]? = some (T.numberU64 header) := by
    rw [getElem?_map, hheader]
    rfl
  rw [hsegment.numbers] at hnumber
  obtain ⟨hj, hnumber⟩ := List.getElem?_eq_some_iff.mp hnumber
  rw [← hnumber, getElem_range', start]
  omega

theorem Filling.complete (hfull : none ∉ slots) :
    s.listed.map (Option.map T.numberU64) =
      (range' first (maxHeaderFetch * skeleton.length)).map some := by
  obtain ⟨segments, rfl⟩ := exists_map_some fun slot (hslot : slot ∈ slots) =>
    isSome_iff_ne_none.mpr fun hnone => hfull (hnone ▸ hslot)
  have hlen : s.listed.length = maxHeaderFetch * skeleton.length := by
    rw [h.listed, length_flat h.whole, h.length]
  refine ext_getElem (by simp [hlen]) fun k hk hk' => ?_
  rw [length_map] at hk
  obtain ⟨header, hheader⟩ : ∃ header, s.listed[k] = some header := by
    have hmem : s.listed[k] ∈ segments.flatten.map some := by
      rw [← flat_map_some maxHeaderFetch, ← h.listed]
      exact getElem_mem hk
    obtain ⟨header, -, heq⟩ := mem_map.mp hmem
    exact ⟨header, heq.symm⟩
  have hnumber := h.numbers (List.getElem?_eq_some_iff.mpr ⟨hk, hheader⟩)
  simp [hheader, hnumber]

omit h

variable [DecidableEq Peer] {peer : Peer}

theorem outstanding_perm {p : ℕ} (h : s.pendPool.lookup peer = some p) :
    s.outstanding.Perm (p :: (s.taskQueue ++ (s.pendPool.erase peer).entries.map (·.2))) :=
  (((entries_perm_erase h).map _).append_left s.taskQueue).trans perm_middle

theorem Filling.cancel (hfirst : 1 ≤ first) (h : Filling T first skeleton s slots)
    (ht : s.cancel peer = some t) : Filling T first skeleton t slots := by
  obtain ⟨p, hp, rfl⟩ := map_eq_some_iff.mp ht
  have hperm := outstanding_perm hp
  have hpos : p > 0 := by
    obtain ⟨i, rfl, -⟩ := h.exists_slot (hperm.mem_iff.mpr mem_cons_self)
    unfold start
    omega
  refine h.of_moved ?_ rfl rfl rfl rfl rfl
  rw [if_pos hpos]
  refine Perm.trans ?_ hperm.symm
  unfold outstanding
  rw [append_assoc]
  exact perm_middle

def sentTask (send : ℕ) : List ℕ := if send = 0 then [] else [send]

theorem reserveLoop_perm (miss : List ℕ) : ∀ (tasks skip : List ℕ), (∀ p ∈ tasks, p ≠ 0) →
    (sentTask (reserveLoop miss tasks skip).1 ++ ((reserveLoop miss tasks skip).2.2 ++
      (reserveLoop miss tasks skip).2.1)).Perm (tasks ++ skip)
  | [], skip, _ => .refl _
  | p :: tasks, skip, hne => by
    obtain ⟨hp, htasks⟩ := forall_mem_cons.mp hne
    unfold reserveLoop
    split_ifs with hmiss
    · refine (reserveLoop_perm miss tasks (skip ++ [p]) htasks).trans ?_
      rw [← append_assoc]
      exact perm_append_singleton p (tasks ++ skip)
    · rw [sentTask, if_neg hp]
      exact .refl _

theorem Filling.reserveHeaders (hfirst : 1 ≤ first) (h : Filling T first skeleton s slots)
    (peer : Peer) (order : Ranging ℕ) :
    Filling T first skeleton (s.reserveHeaders peer order) slots := by
  have hne : ∀ p ∈ order.visit s.taskQueue, p ≠ 0 := by
    intro p hp
    have hmem : p ∈ s.outstanding := mem_append_left _ ((order.visit_perm _).mem_iff.mp hp)
    obtain ⟨i, rfl, -⟩ := h.exists_slot hmem
    unfold start
    omega
  have hperm := reserveLoop_perm (s.peerMiss peer) _ [] hne
  rw [append_nil] at hperm
  replace hperm := hperm.trans (order.visit_perm s.taskQueue)
  unfold State.reserveHeaders
  generalize reserveLoop (s.peerMiss peer) (order.visit s.taskQueue) [] = r at hperm ⊢
  by_cases hpend : (s.pendPool.lookup peer).isSome = true
  · rw [if_pos hpend]
    exact h
  · rw [if_neg hpend]
    unfold sentTask at hperm
    by_cases hsend : r.1 = 0
    · rw [if_pos hsend] at hperm ⊢
      exact h.of_moved (hperm.append_right _) rfl rfl rfl rfl rfl
    · rw [if_neg hsend] at hperm ⊢
      refine h.of_moved ?_ rfl rfl rfl rfl rfl
      have hnone : s.pendPool.lookup peer = none := by simpa using hpend
      unfold outstanding
      rw [entries_insert_of_notMem (lookup_eq_none.mp hnone), map_cons]
      exact perm_middle.trans (hperm.append_right _)

/-! ## Deliveries -/

variable [DecidableEq Hash]

theorem Filling.deliverHeaders {room : Bool} (hsize : start first skeleton.length ≤ size)
    (h : Filling T first skeleton s slots) (ht : s.deliverHeaders T peer headers room = some t) :
    ∃ slots', Filling T first skeleton t slots' := by
  unfold State.deliverHeaders at ht
  cases hp : s.pendPool.lookup peer with
  | none =>
    rw [hp] at ht
    cases ht
    exact ⟨slots, h⟩
  | some p =>
    rw [hp] at ht
    obtain ⟨skeletonHeader, hpool, ht⟩ := bind_eq_some_iff.mp ht
    obtain ⟨results, hresults, ht⟩ := bind_eq_some_iff.mp ht
    have hperm := outstanding_perm hp
    obtain ⟨i, rfl, hslot⟩ := h.exists_slot (hperm.mem_iff.mpr mem_cons_self)
    split_ifs at ht with haccepted
    · have hi : i < slots.length := (List.getElem?_eq_some_iff.mp hslot).1
      have hbound : start first i + maxHeaderFetch ≤ size := by
        rw [h.length] at hi
        unfold start maxHeaderFetch at hsize ⊢
        omega
      have hsegment := segment_of_accepted hbound haccepted
      -- the segment goes to the slot of its number
      have hpos : sub (start first i) s.offset = maxHeaderFetch * i := by
        rw [h.offset, start, sub_of_le (Nat.le_add_right _ _)]
        · exact Nat.add_sub_cancel_left ..
        · unfold start at hbound
          unfold maxHeaderFetch at hbound ⊢
          omega
      have hflat : results = flat maxHeaderFetch slots :=
        some.inj (hresults.symm.trans h.results)
      have hfilled := filled_set maxHeaderFetch headers first i hslot
      rw [hflat, hpos, overwrite_flat h.whole hsegment.length hi] at ht
      have htask : skeleton[i]? = some skeletonHeader := (h.tasks i hslot).symm.trans hpool
      have hset : Filling T first skeleton { s with
          pendPool := s.pendPool.erase peer
          results := some (flat maxHeaderFetch (slots.set i (some headers)))
          taskPool := s.taskPool.erase (start first i) } (slots.set i (some headers)) := by
        refine ⟨rfl, h.offset, (length_set ..).trans h.length, fun j hs hj => ?_,
          fun j hj => ?_, ?_, ?_⟩
        · by_cases hij : i = j
          · subst hij
            rw [getElem?_set_self hi] at hj
            cases hj
            exact ⟨skeletonHeader, htask, hsegment⟩
          · rw [getElem?_set_ne hij] at hj
            exact h.segments j hs hj
        · have hij : i ≠ j := by
            rintro rfl
            rw [getElem?_set_self hi] at hj
            cases hj
          rw [getElem?_set_ne hij] at hj
          exact (lookup_erase_ne fun heq => hij (start_injective first heq).symm).trans
            (h.tasks j hj)
        · refine (hfilled.append_left _).trans (perm_middle.trans ?_)
          exact (hperm.symm.append_right _).trans h.split
        · obtain ⟨groups, hsent, ⟨rest, hslots⟩, hproced⟩ := h.sent
          -- what was sent is filled, so the slot is behind it
          have hbehind : (groups.flatten.map some).length ≤ i := by
            by_contra hlt
            rw [← hslots, getElem?_append_left (by omega), getElem?_map] at hslot
            obtain ⟨_, -, hnone⟩ := map_eq_some_iff.mp hslot
            cases hnone
          refine ⟨groups, hsent, ?_, hproced⟩
          rw [← hslots, set_append_right _ _ hbehind]
          exact prefix_append _ _
      exact ⟨_, (hset.sendReady room).signal ht⟩
    · cases ht
      refine ⟨slots, h.of_moved ?_ rfl rfl rfl rfl rfl⟩
      refine Perm.trans ?_ hperm.symm
      unfold outstanding
      rw [append_assoc]
      exact perm_middle

/-! ## Runs -/

theorem Filling.step {a : Act Header Peer} (hfirst : 1 ≤ first)
    (hsize : start first skeleton.length ≤ size) (h : Filling T first skeleton s slots)
    (ht : step T s a = some t) : ∃ slots', Filling T first skeleton t slots' := by
  cases a with
  | reserve peer order =>
    cases ht
    exact ⟨slots, h.reserveHeaders hfirst peer order⟩
  | deliver peer headers room => exact h.deliverHeaders hsize ht
  | cancel peer => exact ⟨slots, h.cancel hfirst ht⟩
  | expire expired =>
    refine ⟨slots, ?_⟩
    exact run_invariant (fun _ _ _ hi hs => Filling.cancel hfirst hi hs) h ht

/-- **A skeleton is filled exactly**, whatever peers deliver. -/
theorem skeleton_exact {s₀ s₁ : State Header Peer} {as : List (Act Header Peer)}
    (hfirst : 1 ≤ first) (hsize : first + maxHeaderFetch * skeleton.length ≤ size)
    (hpend : s₀.pendPool = ∅) (hschedule : s₀.scheduleSkeleton first skeleton = some s₁)
    (hrun : run (step T) s₁ as = some s) :
    ∃ slots : List (Option (List Header)), slots.length = skeleton.length ∧
      s.retrieveHeaders.1.1 = Blocks.flat maxHeaderFetch slots ∧
      (∃ groups : List (List (List Header)), s.sent = groups.map (·.flatten.map some) ∧
        groups.flatten.map some <+: slots) ∧
      (∀ k header, s.listed[k]? = some (some header) → T.numberU64 header = first + k) ∧
      (∀ i headers, slots[i]? = some (some headers) → ∃ skeletonHeader,
        skeleton[i]? = some skeletonHeader ∧ Segment T (start first i) skeletonHeader headers) ∧
      (s.taskQueue ++ s.pendPool.entries.map (·.2) ++
        Blocks.filled maxHeaderFetch first slots).Perm (starts first skeleton.length) ∧
      (s.taskPool = ∅ → none ∉ slots) ∧
      (none ∉ slots → s.listed.map (Option.map T.numberU64) =
        (List.range' first (maxHeaderFetch * skeleton.length)).map some) := by
  have hinv : ∃ slots, Filling T first skeleton s slots :=
    run_invariant (I := fun s => ∃ slots, Filling T first skeleton s slots)
      (fun _ _ _ ⟨_, hi⟩ hs => hi.step hfirst hsize hs) ⟨_, Filling.schedule hsize hpend hschedule⟩
      hrun
  obtain ⟨slots, h⟩ := hinv
  obtain ⟨groups, hsent, hslots, -⟩ := h.sent
  refine ⟨slots, h.length, ?_, ⟨groups, hsent, hslots⟩, fun k header hk => h.numbers hk, h.segments,
    h.split, fun hempty hnone => ?_, h.complete⟩
  · unfold retrieveHeaders
    rw [h.results]
    rfl
  · obtain ⟨i, hi⟩ := mem_iff_getElem?.mp hnone
    have hlt : i < skeleton.length := h.length ▸ (List.getElem?_eq_some_iff.mp hi).1
    have htask := h.tasks i hi
    rw [hempty, getElem?_eq_getElem hlt] at htask
    cases htask

def numberTypes : Types ℕ ℕ where
  hash := id
  number := id
  parentHash := Nat.pred

def idle : State ℕ ℕ where
  taskPool := ∅
  taskQueue := []
  peerMiss := fun _ => []
  pendPool := ∅
  results := none
  proced := 0
  offset := 0
  contCh := 0
  sent := []

/-- A skeleton of two headers is filled from its end on, after a delivery that does not fit. -/
theorem skeleton_exact_two : ∃ s₁ s, idle.scheduleSkeleton 1 [192, 384] = some s₁ ∧
    run (step numberTypes) s₁ [.reserve 0 ⟨reverse, reverse_perm⟩, .reserve 1 .listed,
      .deliver 1 (range' 2 192) true, .deliver 0 (range' 193 192) true,
      .reserve 2 .listed, .deliver 2 (range' 1 192) true] = some s ∧
    s.sent = [(range' 1 384).map some] ∧
    ∃ slots : List (Option (List ℕ)), slots.length = 2 ∧
      s.retrieveHeaders.1.1 = Blocks.flat maxHeaderFetch slots ∧
      (∃ groups : List (List (List ℕ)), s.sent = groups.map (·.flatten.map some) ∧
        groups.flatten.map some <+: slots) ∧
      (∀ k header, s.listed[k]? = some (some header) → numberTypes.numberU64 header = 1 + k) ∧
      (∀ i headers, slots[i]? = some (some headers) → ∃ skeletonHeader,
        [192, 384][i]? = some skeletonHeader ∧
          Segment numberTypes (start 1 i) skeletonHeader headers) ∧
      (s.taskQueue ++ s.pendPool.entries.map (·.2) ++
        Blocks.filled maxHeaderFetch 1 slots).Perm (starts 1 2) ∧
      (s.taskPool = ∅ → none ∉ slots) ∧
      (none ∉ slots → s.listed.map (Option.map numberTypes.numberU64) =
        (List.range' 1 (maxHeaderFetch * 2)).map some) := by
  have hsize : 1 + maxHeaderFetch * [192, 384].length ≤ size := by decide
  have hpend : idle.pendPool = ∅ := rfl
  refine ⟨_, exists_and_left.mpr ⟨rfl, exists_run (by decide +kernel) fun hrun => ?_⟩⟩
  exact ⟨by decide +kernel, skeleton_exact le_rfl hsize hpend rfl hrun⟩

end XChain.Skeleton
