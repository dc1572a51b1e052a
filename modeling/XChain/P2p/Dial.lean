import XChain.Lib.Heap
import XChain.Lib.Machine
import XChain.Lib.Table

/-!
# The dial scheduler

`dialstate` of `p2p/dial.go`. A node is not dialed again while its dial is in progress or in the
dial history, a heap ordered by expiry.

* **`dials_safe`**: what is not dialed, the budget of dynamic dials, and the lookups.
-/

namespace XChain.Dial

open GoMap List Option Table GoHeap Bool StepMachine

/-- `dialHistoryExpiration`, in nanoseconds. -/
def dialHistoryExpiration : ℤ := 30000000000

/-- `fallbackInterval`, in nanoseconds. -/
def fallbackInterval : ℤ := 20000000000

def dynDialedConn : ℕ := 1

def staticDialedConn : ℕ := 2

def isDyn (flags : ℕ) : Bool := decide (flags &&& dynDialedConn ≠ 0)

structure Node (I A : Type) where
  id : I
  ip : A
deriving DecidableEq

/-- A dial of a node; when its address was resolved is left out. -/
structure DialTask (I A : Type) where
  flags : ℕ
  dest : Node I A
deriving DecidableEq

inductive Task (I A : Type)
  | dial (t : DialTask I A)
  | discover
  | waitExpire (duration : ℤ)
deriving DecidableEq

structure PastDial (I : Type) where
  id : I
  exp : ℤ
deriving DecidableEq

/-- What does not change: the limit, the local node, and the networks that may be dialed. -/
structure Config (I A : Type) where
  maxDynDials : ℤ
  self : I
  netrestrict : Option (A → Bool)

/-- `dialstate`. A `start` of 0 is the zero time. -/
structure DialState (I A : Type) where
  lookupRunning : Bool
  dialing : Table I ℕ
  lookupBuf : List (Node I A)
  static : Table I (DialTask I A)
  hist : Array (PastDial I)
  start : ℤ
  bootnodes : List (Node I A)

inductive DialError
  | alreadyDialing
  | alreadyConnected
  | isSelf
  | notWhitelisted
  | recentlyDialed
deriving DecidableEq

/-! ## The dial history -/

section History

variable {I : Type} [DecidableEq I]

def histLess (a b : PastDial I) : Bool := decide (a.exp < b.exp)

def histAdd (h : Array (PastDial I)) (id : I) (exp : ℤ) : Array (PastDial I) :=
  GoHeap.push histLess h ⟨id, exp⟩

def histContains (h : Array (PastDial I)) (id : I) : Bool :=
  h.toList.any fun e => decide (e.id = id)

def expire (now : ℤ) : ℕ → Array (PastDial I) → Array (PastDial I)
  | 0, h => h
  | fuel + 1, h =>
    if h[0]?.any fun e => decide (e.exp < now) then
      match GoHeap.pop histLess h with
      | none => h
      | some (_, h') => expire now fuel h'
    else h

end History

section Source

variable {I A : Type} [DecidableEq I] (cfg : Config I A)

def newDialState (static bootnodes : List (Node I A)) : DialState I A where
  lookupRunning := false
  dialing := ∅
  lookupBuf := []
  static := static.foldl (fun t n => t.insert n.id ⟨staticDialedConn, n⟩) ∅
  hist := #[]
  start := 0
  bootnodes := bootnodes

def addStatic (s : DialState I A) (n : Node I A) : DialState I A :=
  { s with static := s.static.insert n.id ⟨staticDialedConn, n⟩ }

def removeStatic (s : DialState I A) (n : Node I A) : DialState I A :=
  { s with static := s.static.erase n.id }

variable (peers : Table I ℕ)

/-- `checkDial`; `none` is no error. -/
def checkDial (s : DialState I A) (n : Node I A) : Option DialError :=
  if (s.dialing.lookup n.id).isSome then some .alreadyDialing
  else if (peers.lookup n.id).isSome then some .alreadyConnected
  else if n.id = cfg.self then some .isSelf
  else if cfg.netrestrict.any fun contains => !contains n.ip then some .notWhitelisted
  else if histContains s.hist n.id then some .recentlyDialed
  else none

/-- The state, the new tasks and the dynamic dials that are still needed. -/
structure Plan (I A : Type) where
  state : DialState I A
  tasks : List (Task I A)
  need : ℤ

def Plan.start (p : Plan I A) (t : DialTask I A) : Plan I A :=
  { p with
    state := { p.state with dialing := p.state.dialing.insert t.dest.id t.flags }
    tasks := p.tasks ++ [.dial t] }

def Plan.addDyn (p : Plan I A) (n : Node I A) : Plan I A :=
  match checkDial cfg peers p.state n with
  | some _ => p
  | none => { p.start ⟨dynDialedConn, n⟩ with need := p.need - 1 }

def needDynDials (s : DialState I A) : ℤ :=
  cfg.maxDynDials - (peers.entries.countP fun e => isDyn e.2) -
    (s.dialing.entries.countP fun e => isDyn e.2)

def dialStatic (p : Plan I A) (e : Entry I (DialTask I A)) : Plan I A :=
  match checkDial cfg peers p.state e.2.dest with
  | some .notWhitelisted | some .isSelf =>
    { p with state := { p.state with static := p.state.static.erase e.2.dest.id } }
  | some _ => p
  | none =>
    { p with
      state := { p.state with dialing := p.state.dialing.insert e.1 e.2.flags }
      tasks := p.tasks ++ [.dial e.2] }

/-- A bootnode if there are no peers; it moves to the end of the list. -/
def dialBootnode (now : ℤ) (p : Plan I A) : Plan I A :=
  match p.state.bootnodes with
  | [] => p
  | bootnode :: bootnodes =>
    if peers.entries.isEmpty ∧ 0 < p.need ∧ fallbackInterval < now - p.state.start then
      Plan.addDyn cfg peers
        { p with state := { p.state with bootnodes := bootnodes ++ [bootnode] } } bootnode
    else p

/-- Random nodes for half of the dials; `random` is what the table gave. -/
def dialRandom (random : List (Node I A)) (p : Plan I A) : Plan I A :=
  (random.take (p.need / 2).toNat).foldl (Plan.addDyn cfg peers) p

/-- Results of lookups while dials are needed, with those that are left. -/
def dialLookup : List (Node I A) → Plan I A → Plan I A × List (Node I A)
  | [], p => (p, [])
  | n :: buf, p => if 0 < p.need then dialLookup buf (p.addDyn cfg peers n) else (p, n :: buf)

/-- The loop over the lookup results; those tried are removed. -/
def consumeLookup (p : Plan I A) : Plan I A :=
  let r := dialLookup cfg peers p.state.lookupBuf p
  { r.1 with state := { r.1.state with lookupBuf := r.2 } }

def launchLookup (p : Plan I A) : Plan I A :=
  if (p.state.lookupBuf.length : ℤ) < p.need ∧ p.state.lookupRunning = false then
    { p with state := { p.state with lookupRunning := true }, tasks := p.tasks ++ [.discover] }
  else p

def waitExpire (nRunning : ℕ) (now : ℤ) (p : Plan I A) : Plan I A :=
  match p.state.hist[0]? with
  | some e =>
    if nRunning = 0 ∧ p.tasks = [] then { p with tasks := p.tasks ++ [.waitExpire (e.exp - now)] }
    else p
  | none => p

/-- `newTasks`; `order` is the order in which the static nodes are visited. -/
def newTasks (order : Ranging (Entry I (DialTask I A))) (random : List (Node I A)) (nRunning : ℕ)
    (now : ℤ) (s : DialState I A) : DialState I A × List (Task I A) :=
  let s := if s.start = 0 then { s with start := now } else s
  let need := needDynDials cfg peers s
  let s := { s with hist := expire now s.hist.size s.hist }
  let p := (order.visit s.static.entries).foldl (dialStatic cfg peers) ⟨s, [], need⟩
  let p := dialBootnode cfg peers now p
  let p := dialRandom cfg peers random p
  let p := consumeLookup cfg peers p
  let p := waitExpire nRunning now (launchLookup p)
  (p.state, p.tasks)

/-- `taskDone`; `results` are those of a lookup. -/
def taskDone (s : DialState I A) (t : Task I A) (results : List (Node I A)) (now : ℤ) :
    DialState I A :=
  match t with
  | .dial t =>
    { s with
      hist := histAdd s.hist t.dest.id (now + dialHistoryExpiration)
      dialing := s.dialing.erase t.dest.id }
  | .discover => { s with lookupRunning := false, lookupBuf := s.lookupBuf ++ results }
  | .waitExpire _ => s

end Source

/-! ## The scheduler in its server -/

section System

variable {I A : Type} [DecidableEq I]

/-- The scheduler, the tasks that were returned and are not done, the dials that finished with their
times, and the clock. -/
structure World (I A : Type) where
  state : DialState I A
  running : List (Task I A)
  finished : List (I × ℤ)
  clock : ℤ

inductive Call (I A : Type)
  | newTasks (order : Ranging (Entry I (DialTask I A))) (peers : Table I ℕ)
      (random : List (Node I A)) (nRunning : ℕ) (now : ℤ)
  | taskDone (i : ℕ) (results : List (Node I A)) (now : ℤ)
  | addStatic (n : Node I A)
  | removeStatic (n : Node I A)

/-- The dials that finished, with the one of a task that is done. -/
def Task.finish (t : Task I A) (now : ℤ) (finished : List (I × ℤ)) : List (I × ℤ) :=
  match t with
  | .dial t => (t.dest.id, now) :: finished
  | _ => finished

/-- One call. The clock does not go back, and a task is done once. -/
def step (cfg : Config I A) (w : World I A) : Call I A → Option (World I A)
  | .newTasks order peers random nRunning now =>
    if w.clock ≤ now then
      let r := newTasks cfg peers order random nRunning now w.state
      some { w with state := r.1, running := w.running ++ r.2, clock := now }
    else none
  | .taskDone i results now =>
    if w.clock ≤ now then
      w.running[i]?.map fun t =>
        { state := taskDone w.state t results now
          running := w.running.eraseIdx i
          finished := t.finish now w.finished
          clock := now }
    else none
  | .addStatic n => some { w with state := addStatic w.state n }
  | .removeStatic n => some { w with state := removeStatic w.state n }

def init (static bootnodes : List (Node I A)) (clock : ℤ) : World I A :=
  ⟨newDialState static bootnodes, [], [], clock⟩

def dialEntries (tasks : List (Task I A)) : List (Entry I ℕ) :=
  tasks.filterMap fun t => match t with
    | .dial t => some ⟨t.dest.id, t.flags⟩
    | _ => none

def dynDials (tasks : List (Task I A)) : ℕ := (dialEntries tasks).countP fun e => isDyn e.2

def lookups (tasks : List (Task I A)) : ℕ :=
  tasks.countP fun t => match t with
    | .discover => true
    | _ => false

structure Safe (cfg : Config I A) (w : World I A) (peers : Table I ℕ) (now : ℤ)
    (tasks : List (Task I A)) : Prop where
  not_dialing : ((dialEntries (w.running ++ tasks)).map (·.1)).Nodup
  not_connected : ∀ t, .dial t ∈ tasks → peers.lookup t.dest.id = none
  not_self : ∀ t, .dial t ∈ tasks → t.dest.id ≠ cfg.self
  whitelisted : ∀ t, .dial t ∈ tasks → ∀ contains, cfg.netrestrict = some contains →
    contains t.dest.ip = true
  not_recent : ∀ t, .dial t ∈ tasks → ∀ time, (t.dest.id, time) ∈ w.finished →
    dialHistoryExpiration ≤ now - time
  budget : (dynDials tasks : ℤ) ≤ max 0
    (cfg.maxDynDials - (peers.entries.countP fun e => isDyn e.2) - dynDials w.running)
  one_lookup : lookups (w.running ++ tasks) ≤ 1

end System

/-! ## The history keeps what has not expired -/

section HistoryFacts

variable {I : Type} {e : PastDial I}

theorem mem_expire {now : ℤ} (hexp : now ≤ e.exp) :
    ∀ {fuel : ℕ} {h : Array (PastDial I)}, e ∈ h.toList → e ∈ (expire now fuel h).toList
  | 0, _, he => he
  | fuel + 1, h, he => by
    unfold expire
    by_cases hroot : (h[0]?.any fun e => decide (e.exp < now)) = true
    · rw [if_pos hroot]
      cases hpop : pop histLess h with
      | none => exact he
      | some popped =>
        obtain ⟨x, h'⟩ := popped
        -- what is popped is the root, which has expired
        rw [pop_root histLess hpop, any_some, decide_eq_true_eq] at hroot
        have hmem := (pop_perm histLess hpop).mem_iff.mp he
        rcases mem_cons.mp hmem with rfl | hmem
        · exact absurd hroot (Int.not_lt.mpr hexp)
        · exact mem_expire hexp hmem
    · rw [if_neg hroot]
      exact he

theorem mem_histAdd {h : Array (PastDial I)} {id : I} {exp : ℤ} :
    e ∈ (histAdd h id exp).toList ↔ e = ⟨id, exp⟩ ∨ e ∈ h.toList := by
  rw [histAdd, (push_perm histLess h _).mem_iff, mem_cons]

end HistoryFacts

/-! ## Collecting tasks -/

section Collect

variable {I A : Type}

theorem dialEntries_append (ts us : List (Task I A)) :
    dialEntries (ts ++ us) = dialEntries ts ++ dialEntries us := filterMap_append

theorem dialEntries_singleton (t : DialTask I A) :
    dialEntries [.dial t] = [⟨t.dest.id, t.flags⟩] := rfl

theorem dynDials_append (ts us : List (Task I A)) :
    dynDials (ts ++ us) = dynDials ts + dynDials us := by
  rw [dynDials, dialEntries_append, countP_append]
  rfl

variable [DecidableEq I] {cfg : Config I A} {peers : Table I ℕ} {s : DialState I A}

variable (cfg peers) in
structure Dialable (hist : Array (PastDial I)) (n : Node I A) : Prop where
  not_connected : peers.lookup n.id = none
  not_self : n.id ≠ cfg.self
  whitelisted : ∀ contains, cfg.netrestrict = some contains → contains n.ip = true
  not_recent : ∀ e ∈ hist.toList, e.id ≠ n.id

theorem checkDial_eq_none {n : Node I A} (h : checkDial cfg peers s n = none) :
    s.dialing.lookup n.id = none ∧ Dialable cfg peers s.hist n := by
  unfold checkDial at h
  split_ifs at h with hdialing hpeer hself hnet hrecent
  refine ⟨not_isSome_iff_eq_none.mp hdialing, not_isSome_iff_eq_none.mp hpeer, hself,
    fun contains hcontains => ?_, fun e he hid => ?_⟩
  · rw [hcontains, any_some, not_eq_true'] at hnet
    exact not_eq_false _ ▸ hnet
  · exact hrecent (any_eq_true.mpr ⟨e, he, decide_eq_true hid⟩)

variable (cfg peers) in
/-- The map of dials has those outstanding and those just added, which may be dialed. -/
structure PlanInv (running : List (Task I A)) (hist : Array (PastDial I)) (need : ℤ)
    (p : Plan I A) : Prop where
  entries : p.state.dialing.entries.Perm (dialEntries (running ++ p.tasks))
  hist_eq : p.state.hist = hist
  dialable : ∀ t, .dial t ∈ p.tasks → Dialable cfg peers hist t.dest
  used : (dynDials p.tasks : ℤ) + p.need = need
  nonneg : dynDials p.tasks = 0 ∨ 0 ≤ p.need
  static : ∀ id t, p.state.static.lookup id = some t → t.dest.id = id ∧ t.flags = staticDialedConn
  lookup : lookups (running ++ p.tasks) = p.state.lookupRunning.toNat

variable {running : List (Task I A)} {hist : Array (PastDial I)} {need : ℤ} {p : Plan I A}

variable (h : PlanInv cfg peers running hist need p)
include h

theorem PlanInv.start {t : DialTask I A} {used : ℤ}
    (hcheck : checkDial cfg peers p.state t.dest = none) (hused : used = (isDyn t.flags).toNat)
    (hneed : used = 0 ∨ 0 < p.need) :
    PlanInv cfg peers running hist need { p.start t with need := p.need - used } := by
  obtain ⟨hfree, hdialable⟩ := checkDial_eq_none hcheck
  have hcount : dynDials (p.tasks ++ [.dial t]) = dynDials p.tasks + (isDyn t.flags).toNat := by
    rw [dynDials_append, dynDials, dynDials, dialEntries_singleton, countP_singleton]
    cases isDyn t.flags <;> rfl
  refine ⟨?_, h.hist_eq, fun u hu => ?_, ?_, ?_, h.static, ?_⟩
  · show (p.state.dialing.insert t.dest.id t.flags).entries.Perm _
    rw [AList.entries_insert_of_notMem (AList.lookup_eq_none.mp hfree)]
    show Perm _ (dialEntries (running ++ (p.tasks ++ [.dial t])))
    rw [← append_assoc, dialEntries_append]
    exact (h.entries.cons _).trans (perm_append_singleton _ _).symm
  · rcases mem_append.mp hu with hu | hu
    · exact h.dialable u hu
    · obtain rfl : u = t := by simpa using hu
      exact h.hist_eq ▸ hdialable
  · show (dynDials (p.tasks ++ [.dial t]) : ℤ) + (p.need - used) = need
    have := h.used
    omega
  · show dynDials (p.tasks ++ [.dial t]) = 0 ∨ 0 ≤ p.need - used
    have := h.nonneg
    have := toNat_le (isDyn t.flags)
    omega
  · show lookups (running ++ (p.tasks ++ [.dial t])) = _
    rw [← append_assoc, lookups, countP_append]
    exact h.lookup

theorem PlanInv.addDyn (n : Node I A)
    (hneed : 0 < p.need) : PlanInv cfg peers running hist need (p.addDyn cfg peers n) := by
  unfold Plan.addDyn
  cases hcheck : checkDial cfg peers p.state n with
  | some e => exact h
  | none =>
    exact h.start hcheck (show (1 : ℤ) = (isDyn dynDialedConn).toNat by decide) (.inr hneed)

omit h in
theorem need_addDyn (p : Plan I A) (n : Node I A) : p.need - 1 ≤ (p.addDyn cfg peers n).need := by
  unfold Plan.addDyn
  split
  · exact Int.sub_le_self _ Int.one_nonneg
  · exact Int.le_refl _

theorem PlanInv.congr
    (hdialing : s.dialing = p.state.dialing) (hhist : s.hist = p.state.hist)
    (hstatic : ∀ id t, s.static.lookup id = some t → p.state.static.lookup id = some t)
    (hlookup : s.lookupRunning = p.state.lookupRunning) :
    PlanInv cfg peers running hist need { p with state := s } where
  __ := h
  entries := hdialing ▸ h.entries
  hist_eq := hhist.trans h.hist_eq
  static id t ht := h.static id t (hstatic id t ht)
  lookup := hlookup ▸ h.lookup

theorem PlanInv.dialStatic
    {e : Entry I (DialTask I A)} (hkey : e.2.dest.id = e.1)
    (hflags : e.2.flags = staticDialedConn) :
    PlanInv cfg peers running hist need (dialStatic cfg peers p e) := by
  have herase : PlanInv cfg peers running hist need
      { p with state := { p.state with static := p.state.static.erase e.2.dest.id } } :=
    h.congr rfl rfl (fun id t ht => (lookup_erase_eq_some.mp ht).2) rfl
  unfold Dial.dialStatic
  cases hcheck : checkDial cfg peers p.state e.2.dest with
  | some err => cases err <;> first | exact h | exact herase
  | none =>
    have hused : (0 : ℤ) = (isDyn e.2.flags).toNat := by
      rw [hflags]
      decide
    have hstart := h.start hcheck hused (.inl rfl)
    rw [Int.sub_zero] at hstart
    rw [← hkey]
    exact hstart

omit h in
theorem PlanInv.dialStatics : ∀ {visited : List (Entry I (DialTask I A))} {p : Plan I A},
    (∀ e ∈ visited, e.2.dest.id = e.1 ∧ e.2.flags = staticDialedConn) →
    PlanInv cfg peers running hist need p →
    PlanInv cfg peers running hist need (visited.foldl (Dial.dialStatic cfg peers) p)
  | [], _, _, h => h
  | _ :: _, _, hvisit, h => by
    obtain ⟨⟨hkey, hflags⟩, hrest⟩ := forall_mem_cons.mp hvisit
    rw [foldl_cons]
    exact PlanInv.dialStatics hrest (h.dialStatic hkey hflags)

theorem PlanInv.dialBootnode (now : ℤ) :
    PlanInv cfg peers running hist need (dialBootnode cfg peers now p) := by
  unfold Dial.dialBootnode
  split
  · exact h
  · split_ifs with hcond
    · refine PlanInv.addDyn ?_ _ hcond.2.1
      exact h.congr rfl rfl (fun _ _ ht => ht) rfl
    · exact h

omit h in
theorem PlanInv.foldl_addDyn : ∀ {nodes : List (Node I A)} {p : Plan I A},
    PlanInv cfg peers running hist need p → (nodes.length : ℤ) ≤ p.need →
      PlanInv cfg peers running hist need (nodes.foldl (Plan.addDyn cfg peers) p)
  | [], _, h, _ => h
  | n :: nodes, p, h, hlength => by
    rw [length_cons] at hlength
    have hneed : p.need - 1 ≤ (p.addDyn cfg peers n).need := need_addDyn p n
    rw [foldl_cons]
    exact PlanInv.foldl_addDyn (h.addDyn n (by omega)) (by omega)

theorem PlanInv.dialRandom
    (random : List (Node I A)) :
    PlanInv cfg peers running hist need (dialRandom cfg peers random p) := by
  unfold Dial.dialRandom
  by_cases hneed : 0 ≤ p.need
  · refine h.foldl_addDyn ?_
    rw [length_take]
    omega
  · rw [show (p.need / 2).toNat = 0 by omega, take_zero]
    exact h

omit h in
theorem PlanInv.dialLookup : ∀ {buf : List (Node I A)} {p : Plan I A},
    PlanInv cfg peers running hist need p →
      PlanInv cfg peers running hist need (dialLookup cfg peers buf p).1
  | [], _, h => h
  | n :: buf, p, h => by
    unfold Dial.dialLookup
    split_ifs with hneed
    · exact PlanInv.dialLookup (h.addDyn n hneed)
    · exact h

theorem PlanInv.consumeLookup : PlanInv cfg peers running hist need (consumeLookup cfg peers p) :=
  PlanInv.congr h.dialLookup rfl rfl (fun _ _ ht => ht) rfl

theorem PlanInv.addOther {t : Task I A} {flag : Bool}
    (hdial : dialEntries [t] = [])
    (hlookup : lookups [t] + p.state.lookupRunning.toNat = flag.toNat) :
    PlanInv cfg peers running hist need
      { p with state := { p.state with lookupRunning := flag }, tasks := p.tasks ++ [t] } where
  __ := h
  entries := by
    show Perm _ (dialEntries (running ++ (p.tasks ++ [t])))
    rw [← append_assoc, dialEntries_append, hdial, append_nil]
    exact h.entries
  dialable u hu := by
    rcases mem_append.mp hu with hu | hu
    · exact h.dialable u hu
    · rw [← mem_singleton.mp hu] at hdial
      cases hdial
  used := by
    show (dynDials (p.tasks ++ [t]) : ℤ) + p.need = need
    rw [dynDials_append, dynDials, dynDials, hdial]
    exact h.used
  nonneg := by
    show dynDials (p.tasks ++ [t]) = 0 ∨ 0 ≤ p.need
    rw [dynDials_append, dynDials, dynDials, hdial]
    exact h.nonneg
  lookup := by
    show lookups (running ++ (p.tasks ++ [t])) = flag.toNat
    rw [← append_assoc, lookups, countP_append, ← hlookup, ← h.lookup]
    exact Nat.add_comm _ _

theorem PlanInv.launchLookup : PlanInv cfg peers running hist need (launchLookup p) := by
  unfold Dial.launchLookup
  split_ifs with hcond
  · refine h.addOther rfl ?_
    rw [hcond.2]
    rfl
  · exact h

theorem PlanInv.waitExpire (nRunning : ℕ) (now : ℤ) :
    PlanInv cfg peers running hist need (waitExpire nRunning now p) := by
  unfold Dial.waitExpire
  split
  · split_ifs
    · exact h.addOther rfl (Nat.zero_add _)
    · exact h
  · exact h

end Collect

/-! ## Every sequence of calls -/

section Runs

variable {I A : Type} [DecidableEq I] {cfg : Config I A}

/-- The map has the outstanding dials, the history those that finished until they expire. -/
structure Inv (w : World I A) : Prop where
  entries : w.state.dialing.entries.Perm (dialEntries w.running)
  static : ∀ id t, w.state.static.lookup id = some t → t.dest.id = id ∧ t.flags = staticDialedConn
  lookup : lookups w.running = w.state.lookupRunning.toNat
  hist : ∀ id time, (id, time) ∈ w.finished →
    ⟨id, time + dialHistoryExpiration⟩ ∈ w.state.hist.toList ∨
      time + dialHistoryExpiration < w.clock

variable {w : World I A} {now : ℤ}

variable (cfg) in
theorem Inv.newTasks (h : Inv w) (peers : Table I ℕ) (order : Ranging (Entry I (DialTask I A)))
    (random : List (Node I A)) (nRunning : ℕ) (now : ℤ) :
    ∃ p, Dial.newTasks cfg peers order random nRunning now w.state = (p.state, p.tasks) ∧
      PlanInv cfg peers w.running (expire now w.state.hist.size w.state.hist)
        (needDynDials cfg peers w.state) p := by
  refine ⟨_, rfl, ?_⟩
  refine PlanInv.waitExpire (PlanInv.launchLookup (PlanInv.consumeLookup
    (PlanInv.dialRandom (PlanInv.dialBootnode ?_ now) random))) nRunning now
  -- setting the start time changes nothing that matters
  have hstarted : ∃ start, (if w.state.start = 0 then { w.state with start := now } else w.state) =
      { w.state with start := start } := by
    split
    · exact ⟨now, rfl⟩
    · exact ⟨w.state.start, rfl⟩
  obtain ⟨start, hstart⟩ := hstarted
  rw [hstart]
  have hvisit : ∀ e ∈ order.visit w.state.static.entries,
      e.2.dest.id = e.1 ∧ e.2.flags = staticDialedConn := fun e he =>
    h.static e.1 e.2 (mem_entries.mp ((order.visit_perm _).mem_iff.mp he))
  refine PlanInv.dialStatics hvisit ?_
  exact
    { entries := by
        rw [append_nil]
        exact h.entries
      hist_eq := rfl
      dialable := nofun
      used := Int.zero_add _
      nonneg := .inl rfl
      static := h.static
      lookup := by
        rw [append_nil]
        exact h.lookup }

theorem Inv.hist_expire (h : Inv w) (hnow : w.clock ≤ now) {id : I} {time : ℤ}
    (hfinished : (id, time) ∈ w.finished) :
    ⟨id, time + dialHistoryExpiration⟩ ∈ (expire now w.state.hist.size w.state.hist).toList ∨
      time + dialHistoryExpiration < now := by
  by_cases hexp : time + dialHistoryExpiration < now
  · exact .inr hexp
  · rcases h.hist id time hfinished with hmem | hlt
    · exact .inl (mem_expire (Int.not_lt.mp hexp) hmem)
    · exact .inr (by omega)

theorem Inv.safe (h : Inv w) {peers : Table I ℕ} (hnow : w.clock ≤ now)
    (order : Ranging (Entry I (DialTask I A))) (random : List (Node I A)) (nRunning : ℕ) :
    Safe cfg w peers now (Dial.newTasks cfg peers order random nRunning now w.state).2 := by
  obtain ⟨p, hp, hplan⟩ := h.newTasks cfg peers order random nRunning now
  rw [hp]
  refine ⟨?_, fun t ht => (hplan.dialable t ht).not_connected,
    fun t ht => (hplan.dialable t ht).not_self, fun t ht => (hplan.dialable t ht).whitelisted,
    fun t ht time hfinished => ?_, ?_, ?_⟩
  · exact (hplan.entries.map _).nodup_iff.mp p.state.dialing.nodupKeys
  · rcases h.hist_expire hnow hfinished with hmem | hlt
    · exact absurd rfl ((hplan.dialable t ht).not_recent _ hmem)
    · omega
  · have hused := hplan.used
    have hrunning : w.state.dialing.entries.countP (fun e => isDyn e.2) = dynDials w.running :=
      h.entries.countP_eq _
    unfold needDynDials at hused
    have := hplan.nonneg
    dsimp only
    omega
  · rw [hplan.lookup]
    exact toNat_le _

theorem static_insert {t : Table I (DialTask I A)}
    (h : ∀ id u, t.lookup id = some u → u.dest.id = id ∧ u.flags = staticDialedConn)
    (n : Node I A) (id : I) (u : DialTask I A)
    (hu : (t.insert n.id ⟨staticDialedConn, n⟩).lookup id = some u) :
    u.dest.id = id ∧ u.flags = staticDialedConn := by
  rcases lookup_insert_eq_some.mp hu with ⟨rfl, rfl⟩ | ⟨-, hu⟩
  · exact ⟨rfl, rfl⟩
  · exact h id u hu

theorem inv_init (static bootnodes : List (Node I A)) (clock : ℤ) :
    Inv (init static bootnodes clock) where
  entries := .refl _
  static := by
    have hfold : ∀ (nodes : List (Node I A)) (t : Table I (DialTask I A)),
        (∀ id u, t.lookup id = some u → u.dest.id = id ∧ u.flags = staticDialedConn) →
        ∀ id u, (nodes.foldl (fun t n => t.insert n.id ⟨staticDialedConn, n⟩) t).lookup id =
          some u → u.dest.id = id ∧ u.flags = staticDialedConn := by
      intro nodes
      induction nodes with
      | nil => exact fun t ht => ht
      | cons n nodes ih =>
        exact fun t ht => ih _ (static_insert ht n)
    refine hfold static ∅ fun id u hu => ?_
    cases hu
  lookup := rfl
  hist id time hfinished := absurd hfinished not_mem_nil

theorem Inv.taskDone (h : Inv w) {i : ℕ} {t : Task I A} (hi : w.running[i]? = some t)
    (results : List (Node I A)) (hnow : w.clock ≤ now) :
    Inv ⟨taskDone w.state t results now, w.running.eraseIdx i, t.finish now w.finished, now⟩ := by
  have hperm : w.running.Perm (t :: w.running.eraseIdx i) := by
    obtain ⟨hlt, rfl⟩ := List.getElem?_eq_some_iff.mp hi
    exact (getElem_cons_eraseIdx_perm hlt).symm
  have hentries := h.entries.trans (hperm.filterMap _)
  have hlookup := h.lookup.symm.trans (hperm.countP_eq _)
  have hhist : ∀ id time, (id, time) ∈ w.finished →
      ⟨id, time + dialHistoryExpiration⟩ ∈ w.state.hist.toList ∨
        time + dialHistoryExpiration < now :=
    fun id time hmem => (h.hist id time hmem).imp_right fun hlt => Int.lt_of_lt_of_le hlt hnow
  cases t with
  | dial t =>
    refine ⟨?_, h.static, ?_, fun id time hmem => ?_⟩
    · have hmem : (⟨t.dest.id, t.flags⟩ : Entry I ℕ) ∈ w.state.dialing.entries :=
        hentries.mem_iff.mpr mem_cons_self
      exact ((entries_perm_erase (mem_entries.mp hmem)).symm.trans hentries).cons_inv
    · exact hlookup.symm
    · rw [Dial.taskDone, mem_histAdd]
      rcases mem_cons.mp hmem with heq | hmem
      · cases heq
        exact .inl (.inl rfl)
      · exact (hhist id time hmem).imp_left .inr
  | discover =>
    refine ⟨hentries, h.static, ?_, hhist⟩
    rw [countP_cons_of_pos rfl] at hlookup
    have := toNat_le w.state.lookupRunning
    show lookups (w.running.eraseIdx i) = 0
    unfold lookups
    omega
  | waitExpire duration =>
    refine ⟨hentries, h.static, ?_, hhist⟩
    exact hlookup.symm

theorem inv_step (h : Inv w) {call : Call I A} {w' : World I A}
    (hstep : step cfg w call = some w') : Inv w' := by
  cases call with
  | newTasks order peers random nRunning now =>
    obtain ⟨hnow, rfl⟩ := of_guard hstep
    obtain ⟨p, hp, hplan⟩ := h.newTasks cfg peers order random nRunning now
    rw [hp]
    refine { hplan with hist := fun id time hfinished => ?_ }
    rw [hplan.hist_eq]
    exact h.hist_expire hnow hfinished
  | taskDone i results now =>
    obtain ⟨hnow, hstep⟩ := ite_none_right_eq_some.mp hstep
    obtain ⟨t, hi, rfl⟩ := map_eq_some_iff.mp hstep
    exact h.taskDone hi results hnow
  | addStatic n =>
    cases hstep
    exact { h with static := static_insert h.static n }
  | removeStatic n =>
    cases hstep
    exact { h with static := fun id t ht => h.static id t (lookup_erase_eq_some.mp ht).2 }

/-- **The scheduler dials safely**, with a clock that does not go back. -/
theorem dials_safe {static bootnodes : List (Node I A)} {clock : ℤ} {calls : List (Call I A)}
    (hrun : StepMachine.run (step cfg) (init static bootnodes clock) calls = some w)
    {peers : Table I ℕ} {now : ℤ} (hnow : w.clock ≤ now)
    (order : Ranging (Entry I (DialTask I A))) (random : List (Node I A)) (nRunning : ℕ) :
    Safe cfg w peers now (newTasks cfg peers order random nRunning now w.state).2 := by
  have hinv := run_invariant (fun _ _ _ h hstep => inv_step h hstep)
    (inv_init static bootnodes clock) hrun
  exact hinv.safe hnow order random nRunning

def sampleCalls : List (Call ℕ ℕ) :=
  [.newTasks .listed ∅ [] 0 1, .taskDone 0 [] 2, .taskDone 0 [⟨8, 8⟩, ⟨5, 5⟩] 3]

def sampleConfig : Config ℕ ℕ := ⟨4, 5, none⟩

theorem dials_safe_sample : ∃ w : World ℕ ℕ,
    StepMachine.run (step sampleConfig) (init [⟨7, 7⟩] [] 0) sampleCalls = some w ∧
      w.finished = [(7, 2)] ∧
      (newTasks sampleConfig ∅ .listed [⟨7, 7⟩] 0 4 w.state).2 =
        [.dial ⟨dynDialedConn, ⟨8, 8⟩⟩, .discover] ∧
      Safe sampleConfig w ∅ 4 (newTasks sampleConfig ∅ .listed [⟨7, 7⟩] 0 4 w.state).2 := by
  refine exists_run (by decide +kernel) fun hrun => ⟨by decide +kernel, by decide +kernel, ?_⟩
  exact dials_safe hrun (by decide +kernel) .listed _ _

end Runs

end XChain.Dial
