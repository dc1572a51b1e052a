import XChain.Lib.Machine
import XChain.Lib.WaitFor

/-!
# The filter service

`EventSystem` of `mc/filters/filter_system.go` and the polling filters of `mc/filters/api.go`. One
loop installs and uninstalls subscriptions and sends events to them over unbuffered channels. Each
filter has a goroutine that takes what is sent and appends it to the filter under `filtersMu`.
Another loop unsubscribes filters that were not polled for a while, without giving `filtersMu` back;
if the first loop sends to another filter whose goroutine waits for it, the three wait for each
other.

* **`no_deadlock`**: then no set of processes waits for each other.
-/

namespace XChain.FilterSystem

open Option Function StepMachine Bool Nat

/-! ## Processes -/

inductive FilterType
  | logs
  | pendingLogs
  | minedAndPendingLogs
  | pendingTransactions
  | blocks
deriving DecidableEq

/-- The subscriptions of a type are in the index under a key, two for one type. -/
def FilterType.isUnder : FilterType → FilterType → Bool
  | .minedAndPendingLogs, key => key == .logs || key == .pendingLogs
  | typ, key => typ == key

/-- `matched` are the subscriptions with matching logs, in light mode once for each header. -/
inductive Event
  | logs (matched : ℕ → Bool)
  | removedLogs (matched : ℕ → Bool)
  | pendingLogs (matched : ℕ → Bool)
  | tx
  | chain (light : List (ℕ → Bool))

/-- The loops of `broadcast` over the index: the key and the subscriptions that are sent to. -/
def Event.loops : Event → List (FilterType × (ℕ → Bool))
  | .logs matched => [(.logs, matched)]
  | .removedLogs matched => [(.logs, matched)]
  | .pendingLogs matched => [(.pendingLogs, matched)]
  | .tx => [(.pendingTransactions, fun _ => true)]
  | .chain light => (.blocks, fun _ => true) :: light.map fun matched => (.logs, matched)

inductive Proc
  | eventLoop
  | timeoutLoop
  | forwarder (id : ℕ)
  | call (n : ℕ)
deriving DecidableEq

/-- The event loop: in its `select`, in `broadcast` with the subscriptions still to be sent to, or
stopped. -/
inductive EventLoop
  | select
  | broadcast (id : ℕ) (rest : List ℕ)
  | stopped
deriving DecidableEq

inductive Forwarder
  | unborn
  | select
  | append
  | appending
  | delete
  | deleting
  | done
deriving DecidableEq

/-- `timeoutLoop`: with `filtersMu` when it goes over the filters. -/
inductive TimeoutLoop
  | ticker
  | lock
  | range (rest : List ℕ)
  | unsubscribe (id : ℕ) (rest : List ℕ)
deriving DecidableEq

/-- `NewFilter` and the like, `UninstallFilter`, `GetFilterChanges` and `GetFilterLogs`. -/
inductive Call
  | idle
  | install (id : ℕ)
  | insert (id : ℕ)
  | inserting (id : ℕ)
  | uninstall (id : ℕ)
  | uninstalling (id : ℕ)
  | unsubscribe (id : ℕ)
  | get (id : ℕ) (changes : Bool)
  | getting (id : ℕ) (changes : Bool)
deriving DecidableEq

structure State where
  typ : ℕ → Option FilterType
  index : List ℕ
  errClosed : ℕ → Bool
  filters : List ℕ
  expired : ℕ → Bool
  filtersMu : Option Proc
  eventLoop : EventLoop
  timeoutLoop : TimeoutLoop
  forwarder : ℕ → Forwarder
  call : ℕ → Call

def init : State where
  typ _ := none
  index := []
  errClosed _ := false
  filters := []
  expired _ := false
  filtersMu := none
  eventLoop := .select
  timeoutLoop := .ticker
  forwarder _ := .unborn
  call _ := .idle

inductive Action
  | newFilter (n id : ℕ) (typ : FilterType)
  | uninstallFilter (n id : ℕ)
  | getFilter (n id : ℕ) (changes : Bool)
  | install (n : ℕ)
  | lock (p : Proc)
  | unlock (p : Proc)
  | tick
  /-- `timeoutLoop` takes `filtersMu` and goes over the filters in some order. -/
  | lockRange (order : List ℕ)
  | next
  | unlockRange
  /-- A process that unsubscribes and the event loop meet on `uninstall`, or on a channel of the
  subscription. -/
  | uninstall (p : Proc)
  | drain (p : Proc)
  /-- An event arrives; the subscriptions in the order in which they are sent to. -/
  | event (ev : Event) (orders : List (List ℕ))
  | send
  | err (id : ℕ)
  | expire (id : ℕ)
  | stop

namespace State

variable (s : State)

def receivers (loop : FilterType × (ℕ → Bool)) : List ℕ :=
  s.index.filter fun id => (s.typ id).any (·.isUnder loop.1) && loop.2 id

def broadcastTo : List ℕ → EventLoop
  | [] => .select
  | id :: rest => .broadcast id rest

def unsubscribing : Proc → Option ℕ
  | .timeoutLoop =>
    match s.timeoutLoop with
    | .unsubscribe id _ => some id
    | _ => none
  | .call n =>
    match s.call n with
    | .unsubscribe id => some id
    | _ => none
  | _ => none

def unsubscribed : Proc → State
  | .timeoutLoop =>
    match s.timeoutLoop with
    | .unsubscribe id rest =>
      { s with filters := s.filters.erase id, timeoutLoop := .range rest }
    | _ => s
  | .call n => { s with call := update s.call n .idle }
  | _ => s

def locked : Proc → Option State
  | .forwarder id =>
    match s.forwarder id with
    | .append => some { s with forwarder := update s.forwarder id .appending }
    | .delete => some { s with forwarder := update s.forwarder id .deleting }
    | _ => none
  | .call n =>
    match s.call n with
    | .insert id => some { s with call := update s.call n (.inserting id) }
    | .uninstall id => some { s with call := update s.call n (.uninstalling id) }
    | .get id changes => some { s with call := update s.call n (.getting id changes) }
    | _ => none
  | _ => none

/-- What a process does with `filtersMu`, and where it is after giving it back. -/
def unlocked : Proc → Option State
  | .forwarder id =>
    match s.forwarder id with
    | .appending => some { s with forwarder := update s.forwarder id .select }
    | .deleting => some { s with
        filters := s.filters.erase id
        forwarder := update s.forwarder id .done }
    | _ => none
  | .call n =>
    match s.call n with
    | .inserting id => some { s with
        filters := id :: s.filters
        forwarder := update s.forwarder id .select
        call := update s.call n .idle }
    | .uninstalling id =>
      if id ∈ s.filters then some { s with
        filters := s.filters.erase id
        call := update s.call n (.unsubscribe id) }
      else some { s with call := update s.call n .idle }
    | .getting id changes =>
      if changes = true ∧ id ∈ s.filters then some { s with
        expired := update s.expired id false
        call := update s.call n .idle }
      else some { s with call := update s.call n .idle }
    | _ => none
  | _ => none

end State

def step (s : State) : Action → Option State
  | .newFilter n id typ =>
    if s.call n = .idle ∧ s.typ id = none then some { s with
      typ := update s.typ id (some typ)
      call := update s.call n (.install id) }
    else none
  | .uninstallFilter n id =>
    if s.call n = .idle then some { s with call := update s.call n (.uninstall id) }
    else none
  | .getFilter n id changes =>
    if s.call n = .idle then some { s with call := update s.call n (.get id changes) }
    else none
  | .install n =>
    match s.call n, s.eventLoop with
    | .install id, .select => some { s with
        index := s.index ++ [id]
        call := update s.call n (.insert id) }
    | _, _ => none
  | .lock p => if s.filtersMu = none then
      (s.locked p).map fun t => { t with filtersMu := some p } else none
  | .unlock p => if s.filtersMu = some p then
      (s.unlocked p).map fun t => { t with filtersMu := none } else none
  | .tick => if s.timeoutLoop = .ticker then some { s with timeoutLoop := .lock } else none
  | .lockRange order =>
    if s.timeoutLoop = .lock ∧ s.filtersMu = none ∧ order.Perm s.filters then some { s with
      timeoutLoop := .range order
      filtersMu := some .timeoutLoop }
    else none
  | .next =>
    match s.timeoutLoop with
    | .range (id :: rest) =>
      if s.expired id = true then some { s with
        expired := update s.expired id false
        timeoutLoop := .unsubscribe id rest }
      else some { s with timeoutLoop := .range rest }
    | _ => none
  | .unlockRange => if s.timeoutLoop = .range [] then some { s with
      timeoutLoop := .ticker
      filtersMu := none }
    else none
  | .uninstall p =>
    match s.unsubscribing p, s.eventLoop with
    | some id, .select => some (State.unsubscribed { s with
        index := s.index.erase id
        errClosed := update s.errClosed id true } p)
    | _, _ => none
  | .drain p =>
    match s.eventLoop with
    | .broadcast id rest =>
      if s.unsubscribing p = some id then some { s with eventLoop := State.broadcastTo rest }
      else none
    | _ => none
  | .event ev orders =>
    if s.eventLoop = .select ∧
        List.Forall₂ (fun loop order => order.Perm (s.receivers loop)) ev.loops orders then
      some { s with eventLoop := State.broadcastTo orders.flatten }
    else none
  | .send =>
    match s.eventLoop with
    | .broadcast id rest =>
      if s.forwarder id = .select then some { s with
        eventLoop := State.broadcastTo rest
        forwarder := update s.forwarder id .append }
      else none
    | _ => none
  | .err id =>
    if s.forwarder id = .select ∧ s.errClosed id = true then
      some { s with forwarder := update s.forwarder id .delete }
    else none
  | .expire id => some { s with expired := update s.expired id true }
  | .stop => if s.eventLoop = .select then some { s with eventLoop := .stopped } else none

/-! ## Waiting -/

def Forwarder.wantsLock : Forwarder → Bool
  | .append | .delete => true
  | _ => false

def Forwarder.holds : Forwarder → Bool
  | .appending | .deleting => true
  | _ => false

def Call.wantsLock : Call → Bool
  | .insert _ | .uninstall _ | .get _ _ => true
  | _ => false

def Call.holds : Call → Bool
  | .inserting _ | .uninstalling _ | .getting _ _ => true
  | _ => false

def TimeoutLoop.holds : TimeoutLoop → Bool
  | .range _ | .unsubscribe _ _ => true
  | _ => false

def EventLoop.targets : EventLoop → List ℕ
  | .broadcast id rest => id :: rest
  | _ => []

def State.wantsLock (s : State) : Proc → Bool
  | .eventLoop => false
  | .timeoutLoop => s.timeoutLoop == .lock
  | .forwarder id => (s.forwarder id).wantsLock
  | .call n => (s.call n).wantsLock

def State.holds (s : State) : Proc → Bool
  | .eventLoop => false
  | .timeoutLoop => s.timeoutLoop.holds
  | .forwarder id => (s.forwarder id).holds
  | .call n => (s.call n).holds

/-- A process cannot go on before another one does. -/
inductive WaitsFor (s : State) : Proc → Proc → Prop
  | lock {p q : Proc} (hp : s.wantsLock p = true) (hq : s.filtersMu = some q) : WaitsFor s p q
  /-- The event loop sends to a filter whose goroutine is busy, and nobody unsubscribes it. -/
  | forwarder {id : ℕ} {rest : List ℕ} (hloop : s.eventLoop = .broadcast id rest)
      (hf : s.forwarder id ≠ .select) (hdrain : ∀ p, s.unsubscribing p ≠ some id) :
      WaitsFor s .eventLoop (.forwarder id)
  /-- The event loop sends to a filter whose goroutine is not started yet. -/
  | starter {id n : ℕ} {rest : List ℕ} (hloop : s.eventLoop = .broadcast id rest)
      (hf : s.forwarder id ≠ .select) (hdrain : ∀ p, s.unsubscribing p ≠ some id)
      (hcall : s.call n = .insert id ∨ s.call n = .inserting id) : WaitsFor s .eventLoop (.call n)
  /-- It offers a subscription to the event loop, which sends to another one. -/
  | unsubscribe {p : Proc} {id : ℕ} (hp : s.unsubscribing p = some id)
      (hloop : s.eventLoop ≠ .select) (hother : ∀ rest, s.eventLoop ≠ .broadcast id rest) :
      WaitsFor s p .eventLoop
  | install {n id : ℕ} (hcall : s.call n = .install id) (hloop : s.eventLoop ≠ .select) :
      WaitsFor s (.call n) .eventLoop
  | receive {id : ℕ} (hf : s.forwarder id = .select) (herr : s.errClosed id = false)
      (hloop : ∀ rest, s.eventLoop ≠ .broadcast id rest) : WaitsFor s (.forwarder id) .eventLoop

def State.expiring (s : State) : Option ℕ :=
  match s.timeoutLoop with
  | .unsubscribe id _ => some id
  | _ => none

def State.nextExpired (s : State) : Option ℕ :=
  match s.timeoutLoop with
  | .range (id :: _) => if s.expired id then some id else none
  | _ => none

/-- While `timeoutLoop` unsubscribes a filter, the event loop sends to this one only. -/
def Calm (s : State) : Action → Prop
  | .next => ∀ id ∈ s.nextExpired, ∀ j ∈ s.eventLoop.targets, j = id
  | .event _ orders => ∀ id ∈ s.expiring, ∀ j ∈ orders.flatten, j = id
  | _ => True

instance (s : State) (a : Action) : Decidable (Calm s a) :=
  match a with
  | .next => inferInstanceAs (Decidable (∀ id ∈ s.nextExpired, ∀ j ∈ s.eventLoop.targets, j = id))
  | .event _ orders => inferInstanceAs (Decidable (∀ id ∈ s.expiring, ∀ j ∈ orders.flatten, j = id))
  | .newFilter .. | .uninstallFilter .. | .getFilter .. | .install _ | .lock _ | .unlock _ | .tick
  | .lockRange _ | .unlockRange | .uninstall _ | .drain _ | .send | .err _ | .expire _ | .stop =>
    .isTrue trivial

/-- One process has `filtersMu`, and a filter that expires is alone. -/
structure Free (s : State) : Prop where
  holds_iff : ∀ p, s.holds p = true ↔ s.filtersMu = some p
  alone : ∀ id rest, s.timeoutLoop = .unsubscribe id rest → ∀ j ∈ s.eventLoop.targets, j = id

open State

section Waiting

variable {s t : State} {p : Proc}

theorem init_free : Free init where
  holds_iff p := by cases p <;> simp [holds, init, Forwarder.holds, Call.holds, TimeoutLoop.holds]
  alone _ _ h := by cases h

theorem wantsLock_of_holds (h : s.holds p = true) : s.wantsLock p = false := by
  cases p with
  | eventLoop => rfl
  | timeoutLoop =>
    change (s.timeoutLoop == .lock) = false
    change s.timeoutLoop.holds = true at h
    cases hp : s.timeoutLoop <;> simp_all [TimeoutLoop.holds]
  | forwarder id =>
    change (s.forwarder id).wantsLock = false
    change (s.forwarder id).holds = true at h
    cases hp : s.forwarder id <;> simp_all [Forwarder.holds, Forwarder.wantsLock]
  | call n =>
    change (s.call n).wantsLock = false
    change (s.call n).holds = true at h
    cases hp : s.call n <;> simp_all [Call.holds, Call.wantsLock]

theorem unsubscribing_cases {id : ℕ} (h : s.unsubscribing p = some id) :
    (p = .timeoutLoop ∧ ∃ rest, s.timeoutLoop = .unsubscribe id rest) ∨
      ∃ n, p = .call n ∧ s.call n = .unsubscribe id := by
  unfold unsubscribing at h
  split at h
  · split at h
    · rename_i rest heq
      cases h
      exact .inl ⟨rfl, rest, heq⟩
    · cases h
  · rename_i n
    split at h
    · rename_i heq
      cases h
      exact .inr ⟨n, rfl, heq⟩
    · cases h
  · cases h

theorem Free.not_waitsFor (h : Free s) (hrun : s.eventLoop ≠ .stopped) {p q : Proc}
    (hp : s.filtersMu = some p) : ¬ WaitsFor s p q := by
  have hholds := (h.holds_iff p).mpr hp
  intro hwait
  cases hwait with
  | lock hwants _ =>
    rw [wantsLock_of_holds hholds] at hwants
    cases hwants
  | forwarder | starter => cases hholds
  | @unsubscribe _ id hunsub hloop hother =>
    rcases unsubscribing_cases hunsub with ⟨rfl, rest, htimeout⟩ | ⟨n, rfl, hcall⟩
    · -- the event loop sends to this filter or is in its `select`
      have halone := h.alone id rest htimeout
      cases hev : s.eventLoop with
      | select => exact hloop hev
      | stopped => exact hrun hev
      | broadcast j targets =>
        rw [hev] at halone
        cases halone j List.mem_cons_self
        exact hother targets hev
    · change (s.call n).holds = true at hholds
      rw [hcall] at hholds
      cases hholds
  | @install n id hcall _ =>
    change (s.call n).holds = true at hholds
    rw [hcall] at hholds
    cases hholds
  | @receive id hf _ _ =>
    change (s.forwarder id).holds = true at hholds
    rw [hf] at hholds
    cases hholds

/-- Processes that wait for `filtersMu` come first, then the event loop, then those that wait for
it. -/
def rank (s : State) (p : Proc) : ℕ :=
  if s.wantsLock p = true then 1 else if p = .eventLoop then 2 else 3

theorem rank_eventLoop (s : State) : rank s .eventLoop = 2 := rfl

theorem rank_of_ne (hwants : s.wantsLock p = false) (hp : p ≠ .eventLoop) : rank s p = 3 := by
  rw [rank, hwants, if_neg Bool.false_ne_true, if_neg hp]

theorem Free.rank_lt (h : Free s) (hrun : s.eventLoop ≠ .stopped) {p q r : Proc}
    (hpq : WaitsFor s p q) (hqr : WaitsFor s q r) : rank s q < rank s p := by
  cases hpq with
  | lock _ hq => exact absurd hqr (h.not_waitsFor hrun hq)
  | forwarder _ hf _ =>
    cases hqr with
    | lock hwants _ =>
      rw [rank_eventLoop, rank, if_pos hwants]
      exact lt_succ_self 1
    | unsubscribe hunsub _ _ => cases hunsub
    | receive hselect _ _ => exact absurd hselect hf
  | @starter _ n _ _ _ _ hcall =>
    cases hqr with
    | lock hwants _ =>
      rw [rank_eventLoop, rank, if_pos hwants]
      exact lt_succ_self 1
    | unsubscribe hunsub _ _ =>
      rcases unsubscribing_cases hunsub with ⟨hp, -⟩ | ⟨m, hp, hunsub⟩
      · cases hp
      · cases hp
        rcases hcall with hcall | hcall <;> rw [hcall] at hunsub <;> cases hunsub
    | install hinstall _ =>
      rcases hcall with hcall | hcall <;> rw [hcall] at hinstall <;> cases hinstall
  | unsubscribe hunsub _ _ =>
    have hwants : s.wantsLock p = false := by
      rcases unsubscribing_cases hunsub with ⟨rfl, rest, heq⟩ | ⟨n, rfl, heq⟩
      · change (s.timeoutLoop == .lock) = false
        rw [heq]
        rfl
      · change (s.call n).wantsLock = false
        rw [heq]
        rfl
    have hne : p ≠ .eventLoop := by
      rintro rfl
      cases hunsub
    rw [rank_eventLoop, rank_of_ne hwants hne]
    exact lt_succ_self 2
  | @install n id hcall _ =>
    have hwants : s.wantsLock (.call n) = false := by
      change (s.call n).wantsLock = false
      rw [hcall]
      rfl
    rw [rank_eventLoop, rank_of_ne hwants (by simp)]
    exact lt_succ_self 2
  | @receive id hf _ _ =>
    have hwants : s.wantsLock (.forwarder id) = false := by
      change (s.forwarder id).wantsLock = false
      rw [hf]
      rfl
    rw [rank_eventLoop, rank_of_ne hwants (by simp)]
    exact lt_succ_self 2

end Waiting

/-! ## Steps -/

section Steps

variable {s t : State} {p : Proc} {a : Action}

theorem holds_updateForwarder (s : State) (id : ℕ) (f : Forwarder) (q : Proc) :
    { s with forwarder := update s.forwarder id f }.holds q =
      if q = .forwarder id then f.holds else s.holds q := by
  cases q with
  | forwarder k =>
    change (update s.forwarder id f k).holds = _
    by_cases hk : k = id
    · subst hk
      rw [update_self, if_pos rfl]
    · rw [update_of_ne hk, if_neg (by simpa using hk)]
      rfl
  | eventLoop | timeoutLoop | call n => rfl

theorem holds_updateCall (s : State) (n : ℕ) (c : Call) (q : Proc) :
    { s with call := update s.call n c }.holds q =
      if q = .call n then c.holds else s.holds q := by
  cases q with
  | call k =>
    change (update s.call n c k).holds = _
    by_cases hk : k = n
    · subst hk
      rw [update_self, if_pos rfl]
    · rw [update_of_ne hk, if_neg (by simpa using hk)]
      rfl
  | eventLoop | timeoutLoop | forwarder id => rfl

variable (hmu : ∀ p, s.holds p = true ↔ s.filtersMu = some p)
include hmu

theorem holds_iff_updateForwarder {id : ℕ} {f : Forwarder}
    (hf : f.holds = (s.forwarder id).holds) (p : Proc) :
    { s with forwarder := update s.forwarder id f }.holds p = true ↔ s.filtersMu = some p := by
  rw [← hmu p, holds_updateForwarder]
  split
  · rename_i hp
    rw [hf, hp]
    rfl
  · rfl

theorem holds_iff_updateCall {n : ℕ} {c : Call} (hc : c.holds = (s.call n).holds) (p : Proc) :
    { s with call := update s.call n c }.holds p = true ↔ s.filtersMu = some p := by
  rw [← hmu p, holds_updateCall]
  split
  · rename_i hp
    rw [hc, hp]
    rfl
  · rfl

theorem holds_iff_timeoutLoop {l : TimeoutLoop} (hl : l.holds = s.timeoutLoop.holds) (p : Proc) :
    { s with timeoutLoop := l }.holds p = true ↔ s.filtersMu = some p := by
  rw [← hmu p]
  cases p with
  | timeoutLoop => exact iff_of_eq (congrArg (· = true) hl)
  | eventLoop | forwarder id | call n => rfl

omit hmu

theorem locked_holds (h : ∀ q, s.holds q = false) (ht : s.locked p = some t) (q : Proc) :
    t.holds q = true ↔ p = q := by
  have hif : (if q = p then true else s.holds q) = true ↔ p = q := by
    rw [h q]
    split
    · rename_i heq
      simp [heq]
    · rename_i hne
      simp [Ne.symm hne]
  unfold locked at ht
  split at ht
  · rename_i id
    split at ht <;> cases ht <;> rw [holds_updateForwarder] <;> exact hif
  · rename_i n
    split at ht <;> cases ht <;> rw [holds_updateCall] <;> exact hif
  · cases ht

theorem unlocked_holds (h : ∀ q, s.holds q = true → q = p) (ht : s.unlocked p = some t) (q : Proc) :
    t.holds q = false := by
  have hif : (if q = p then false else s.holds q) = false := by
    split
    · rfl
    · rename_i hne
      exact eq_false_iff.mpr fun hq => hne (h q hq)
  have hcall : ∀ n c, p = .call n → c.holds = false →
      holds { s with call := update s.call n c } q = false := by
    intro n c hp hc
    rw [holds_updateCall, hc, ← hp]
    exact hif
  unfold unlocked at ht
  split at ht
  · rename_i id
    have hforwarder : ∀ f : Forwarder, f.holds = false →
        holds { s with forwarder := update s.forwarder id f } q = false := by
      intro f hf
      rw [holds_updateForwarder, hf]
      exact hif
    split at ht
    · cases ht
      exact hforwarder _ rfl
    · cases ht
      exact hforwarder _ rfl
    · cases ht
  · rename_i n
    split at ht
    · rename_i id _
      cases ht
      -- the goroutine of the new filter starts
      have hstart := holds_updateForwarder { s with call := update s.call n .idle } id .select q
      rw [hcall n .idle rfl rfl, show Forwarder.select.holds = false from rfl, ite_self] at hstart
      exact hstart
    · split at ht <;> cases ht <;> exact hcall n _ rfl rfl
    · split at ht <;> cases ht <;> exact hcall n _ rfl rfl
    · cases ht
  · cases ht

theorem locked_loops (ht : s.locked p = some t) :
    t.eventLoop = s.eventLoop ∧ t.timeoutLoop = s.timeoutLoop := by
  unfold locked at ht
  split at ht
  · split at ht <;> cases ht <;> exact ⟨rfl, rfl⟩
  · split at ht <;> cases ht <;> exact ⟨rfl, rfl⟩
  · cases ht

theorem unlocked_loops (ht : s.unlocked p = some t) :
    t.eventLoop = s.eventLoop ∧ t.timeoutLoop = s.timeoutLoop := by
  unfold unlocked at ht
  split at ht
  · split at ht <;> cases ht <;> exact ⟨rfl, rfl⟩
  · split at ht
    · cases ht
      exact ⟨rfl, rfl⟩
    · split at ht <;> cases ht <;> exact ⟨rfl, rfl⟩
    · split at ht <;> cases ht <;> exact ⟨rfl, rfl⟩
    · cases ht
  · cases ht

/-- **One process has `filtersMu`.** -/
theorem step_holds_iff (h : ∀ p, s.holds p = true ↔ s.filtersMu = some p) (ht : step s a = some t)
    (p : Proc) : t.holds p = true ↔ t.filtersMu = some p := by
  have hnone : s.filtersMu = none → ∀ q, s.holds q = false := by
    intro hmu q
    rw [eq_false_iff, Ne, h q, hmu]
    exact some_ne_none q ∘ Eq.symm
  cases a with simp only [step] at ht
  | newFilter n id typ =>
    obtain ⟨hok, rfl⟩ := of_guard ht
    exact holds_iff_updateCall h (by rw [hok.1]; rfl) p
  | uninstallFilter n id | getFilter n id changes =>
    obtain ⟨hok, rfl⟩ := of_guard ht
    exact holds_iff_updateCall h (by rw [hok]; rfl) p
  | install n =>
    split at ht
    · rename_i hcall _
      cases ht
      exact holds_iff_updateCall h (by rw [hcall]; rfl) p
    · cases ht
  | lock q =>
    obtain ⟨hmu, ht⟩ := ite_none_right_eq_some.mp ht
    obtain ⟨u, hu, rfl⟩ := map_eq_some_iff.mp ht
    exact (locked_holds (hnone hmu) hu p).trans (by simp)
  | unlock q =>
    obtain ⟨hmu, ht⟩ := ite_none_right_eq_some.mp ht
    obtain ⟨u, hu, rfl⟩ := map_eq_some_iff.mp ht
    have honly : ∀ r, s.holds r = true → r = q := by
      intro r hr
      rw [h r, hmu] at hr
      exact (some.inj hr).symm
    have hp := unlocked_holds honly hu p
    exact iff_of_false (ne_true_of_eq_false hp) (by simp)
  | tick =>
    obtain ⟨hticker, rfl⟩ := of_guard ht
    exact holds_iff_timeoutLoop h (by rw [hticker]; rfl) p
  | lockRange order =>
    obtain ⟨hok, rfl⟩ := of_guard ht
    have hp := hnone hok.2.1 p
    cases p with
    | timeoutLoop => exact iff_of_true rfl rfl
    | eventLoop => exact iff_of_false false_ne_true (by simp)
    | forwarder id | call n => exact iff_of_false (ne_true_of_eq_false hp) (by simp)
  | next =>
    split at ht
    · rename_i hrange
      have hholds : s.timeoutLoop.holds = true := by rw [hrange]; rfl
      split at ht <;> cases ht <;>
        exact holds_iff_timeoutLoop h (by rw [hholds]; rfl) p
    · cases ht
  | unlockRange =>
    obtain ⟨hrange, rfl⟩ := of_guard ht
    have hmu : s.filtersMu = some .timeoutLoop := by
      rw [← h]
      change s.timeoutLoop.holds = true
      rw [hrange]
      rfl
    have hp := h p
    rw [hmu] at hp
    cases p with
    | timeoutLoop | eventLoop => exact iff_of_false false_ne_true (by simp)
    | forwarder id | call n => exact hp.trans (by simp)
  | uninstall q =>
    split at ht
    · rename_i id hunsub _
      cases ht
      rcases unsubscribing_cases hunsub with ⟨rfl, rest, htimeout⟩ | ⟨n, rfl, hcall⟩
      · simp only [unsubscribed, htimeout]
        exact holds_iff_timeoutLoop h (by rw [htimeout]; rfl) p
      · exact holds_iff_updateCall h (by rw [hcall]; rfl) p
    · cases ht
  | drain q =>
    split at ht
    · split at ht
      · cases ht
        exact h p
      · cases ht
    · cases ht
  | event ev orders | stop =>
    obtain ⟨-, rfl⟩ := of_guard ht
    exact h p
  | send =>
    split at ht
    · obtain ⟨hf, rfl⟩ := of_guard ht
      exact holds_iff_updateForwarder h (by rw [hf]; rfl) p
    · cases ht
  | err id =>
    obtain ⟨hok, rfl⟩ := of_guard ht
    exact holds_iff_updateForwarder h (by rw [hok.1]; rfl) p
  | expire id =>
    cases ht
    exact h p

variable (h : ∀ id rest, s.timeoutLoop = .unsubscribe id rest → ∀ j ∈ s.eventLoop.targets, j = id)
include h

theorem alone_of_subset (htimeout : t.timeoutLoop = s.timeoutLoop)
    (htargets : ∀ j ∈ t.eventLoop.targets, j ∈ s.eventLoop.targets) :
    ∀ id rest, t.timeoutLoop = .unsubscribe id rest → ∀ j ∈ t.eventLoop.targets, j = id := by
  intro id rest ht j hj
  rw [htimeout] at ht
  exact h id rest ht j (htargets j hj)

omit h in
theorem targets_broadcastTo (rest : List ℕ) : (broadcastTo rest).targets = rest := by
  cases rest <;> rfl

/-- **While a filter expires, the event loop sends to this one only.** -/
theorem step_alone (hcalm : Calm s a) (ht : step s a = some t) :
    ∀ id rest, t.timeoutLoop = .unsubscribe id rest → ∀ j ∈ t.eventLoop.targets, j = id := by
  cases a with simp only [step] at ht
  | newFilter n id typ | uninstallFilter n id | getFilter n id changes | install n | err id =>
    split at ht <;> cases ht
    exact h
  | lock p =>
    obtain ⟨-, ht⟩ := ite_none_right_eq_some.mp ht
    obtain ⟨u, hu, rfl⟩ := map_eq_some_iff.mp ht
    obtain ⟨hev, htimeout⟩ := locked_loops hu
    exact alone_of_subset h htimeout fun j hj => hev ▸ hj
  | unlock p =>
    obtain ⟨-, ht⟩ := ite_none_right_eq_some.mp ht
    obtain ⟨u, hu, rfl⟩ := map_eq_some_iff.mp ht
    obtain ⟨hev, htimeout⟩ := unlocked_loops hu
    exact alone_of_subset h htimeout fun j hj => hev ▸ hj
  | tick | lockRange order | unlockRange =>
    split at ht <;> cases ht
    exact fun _ _ hl => by cases hl
  | next =>
    split at ht
    · rename_i hrange
      split at ht
      · rename_i hexpired
        cases ht
        intro id rest hl
        cases hl
        refine hcalm _ ?_
        rw [nextExpired, hrange]
        exact if_pos hexpired
      · cases ht
        exact fun _ _ hl => by cases hl
    · cases ht
  | uninstall p =>
    split at ht
    · rename_i id hunsub _
      cases ht
      rcases unsubscribing_cases hunsub with ⟨rfl, rest, htimeout⟩ | ⟨n, rfl, -⟩
      · simp only [unsubscribed, htimeout]
        exact fun _ _ hl => by cases hl
      · exact h
    · cases ht
  | drain p | send =>
    split at ht
    · rename_i id rest hev
      split at ht <;> cases ht
      refine alone_of_subset h rfl fun j hj => ?_
      rw [targets_broadcastTo] at hj
      rw [hev]
      exact List.mem_cons_of_mem _ hj
    · cases ht
  | event ev orders =>
    split at ht <;> cases ht
    intro id rest hl j hj
    rw [targets_broadcastTo] at hj
    refine hcalm id ?_ j hj
    rw [expiring, show s.timeoutLoop = .unsubscribe id rest from hl]
    rfl
  | expire id =>
    cases ht
    exact h
  | stop =>
    split at ht <;> cases ht
    exact nofun

omit h

theorem Free.step (h : Free s) (hcalm : Calm s a) (ht : step s a = some t) : Free t where
  holds_iff := step_holds_iff h.holds_iff ht
  alone := step_alone h.alone hcalm ht

end Steps

/-- **The filter service does not deadlock.** -/
theorem no_deadlock {s : State} {as : List Action} (hrun : run step init as = some s)
    (hcalm : Along step Calm init as) (hloop : s.eventLoop ≠ .stopped) (D : Set Proc) :
    ¬ WaitFor.Deadlocked (WaitsFor s) D := by
  have hfree : Free s :=
    run_invariant_along (fun _ _ _ h hok ht => h.step hok ht) init_free hcalm hrun
  exact WaitFor.not_deadlocked_of_rank (fun hpq hqr => hfree.rank_lt hloop hpq hqr) D

def createFilter (n id : ℕ) (typ : FilterType) : List Action :=
  [.newFilter n id typ, .install n, .lock (.call n), .unlock (.call n)]

def calmRun : List Action :=
  createFilter 0 0 .pendingTransactions ++ createFilter 1 1 .blocks ++
    [.expire 0, .tick, .lockRange [0, 1], .next, .event .tx [[0]], .drain .timeoutLoop,
      .uninstall .timeoutLoop, .next, .unlockRange, .err 0, .lock (.forwarder 0),
      .event (.chain []) [[1]], .send]

theorem no_deadlock_calm : ∃ s, run step init calmRun = some s ∧
    s.forwarder 1 = .append ∧ ∀ D, ¬ WaitFor.Deadlocked (WaitsFor s) D := by
  refine exists_run (by decide +kernel) fun hrun => ⟨by decide +kernel, ?_⟩
  exact no_deadlock hrun (by decide +kernel) (by decide +kernel)

/-! ## The deadlock -/

/-- The event loop sends to `j`, whose goroutine waits for `filtersMu`; `timeoutLoop` has it and
offers `i` to the event loop. -/
structure Stuck (i j : ℕ) (s : State) : Prop where
  ne : i ≠ j
  eventLoop : ∃ rest, s.eventLoop = .broadcast j rest
  forwarder : s.forwarder j = .append
  timeoutLoop : ∃ rest, s.timeoutLoop = .unsubscribe i rest
  filtersMu : s.filtersMu = some .timeoutLoop
  call : ∀ n, s.call n ≠ .unsubscribe j

section Stuck

variable {s t : State} {i j : ℕ}

variable (h : Stuck i j s)
include h

theorem Stuck.unsubscribing_ne (p : Proc) : s.unsubscribing p ≠ some j := by
  intro hp
  obtain ⟨rest, htimeout⟩ := h.timeoutLoop
  rcases unsubscribing_cases hp with ⟨-, rest', htimeout'⟩ | ⟨n, -, hcall⟩
  · rw [htimeout] at htimeout'
    cases htimeout'
    exact h.ne rfl
  · exact h.call n hcall

theorem Stuck.deadlocked :
    WaitFor.Deadlocked (WaitsFor s) {.eventLoop, .forwarder j, .timeoutLoop} := by
  obtain ⟨targets, hloop⟩ := h.eventLoop
  obtain ⟨rest, htimeout⟩ := h.timeoutLoop
  have hunsub : s.unsubscribing .timeoutLoop = some i := by rw [unsubscribing, htimeout]
  refine ⟨⟨.eventLoop, by simp⟩, ?_⟩
  rintro p (rfl | rfl | rfl)
  · refine ⟨.forwarder j, by simp, .forwarder hloop ?_ h.unsubscribing_ne⟩
    rw [h.forwarder]
    exact Forwarder.noConfusion
  · refine ⟨.timeoutLoop, by simp, .lock ?_ h.filtersMu⟩
    change (s.forwarder j).wantsLock = true
    rw [h.forwarder]
    rfl
  · refine ⟨.eventLoop, by simp, .unsubscribe hunsub ?_ fun rest' hev => ?_⟩
    · rw [hloop]
      exact EventLoop.noConfusion
    · rw [hloop] at hev
      cases hev
      exact h.ne rfl

theorem Stuck.update_call {n : ℕ} {c : Call} (hc : c ≠ .unsubscribe j) :
    ∀ k, update s.call n c k ≠ .unsubscribe j :=
  (forall_update_iff s.call fun _ c => c ≠ .unsubscribe j).mpr ⟨hc, fun k _ => h.call k⟩

/-- **The deadlock stays**, whatever the other processes do. -/
theorem Stuck.step {a : Action} (ht : step s a = some t) : Stuck i j t := by
  obtain ⟨targets, hloop⟩ := h.eventLoop
  obtain ⟨rest, htimeout⟩ := h.timeoutLoop
  have hmu := h.filtersMu
  cases a with
  | newFilter n id typ | uninstallFilter n id | getFilter n id changes =>
    simp only [FilterSystem.step] at ht
    split at ht <;> cases ht
    exact { h with call := h.update_call Call.noConfusion }
  | install n | uninstall p | event ev orders | stop => simp [FilterSystem.step, hloop] at ht
  | lock p => simp [FilterSystem.step, hmu] at ht
  | unlock p =>
    obtain ⟨heq, ht⟩ := ite_none_right_eq_some.mp ht
    rw [hmu] at heq
    cases heq
    cases ht
  | tick | lockRange order | next | unlockRange => simp [FilterSystem.step, htimeout] at ht
  | drain p =>
    simp only [FilterSystem.step, hloop] at ht
    exact absurd (ite_none_right_eq_some.mp ht).1 (h.unsubscribing_ne p)
  | send => simp [FilterSystem.step, hloop, h.forwarder] at ht
  | err id =>
    obtain ⟨hok, rfl⟩ := of_guard ht
    have hne : j ≠ id := by
      rintro rfl
      rw [h.forwarder] at hok
      cases hok.1
    exact { h with forwarder := (update_of_ne hne ..).trans h.forwarder }
  | expire id =>
    cases ht
    exact { h with }

end Stuck

def stuckRun : List Action :=
  createFilter 0 0 .pendingTransactions ++ createFilter 0 1 .pendingTransactions ++
    [.expire 0, .tick, .lockRange [0, 1], .next, .event .tx [[1, 0]], .send, .drain .timeoutLoop,
      .event .tx [[1, 0]]]

theorem stuckRun_stuck : ∃ s, run step init stuckRun = some s ∧ Stuck 0 1 s := by
  refine ⟨_, rfl, by decide, ⟨[0], rfl⟩, rfl, ⟨[1], rfl⟩, rfl, ?_⟩
  intro n
  cases n with
  | zero | succ n => exact Call.noConfusion

/-- **Two filters of which one expires**: three processes wait for each other forever. -/
theorem filters_deadlock : ∃ s, run step init stuckRun = some s ∧
    ∀ as t, run step s as = some t → t.eventLoop ≠ .stopped ∧
      WaitFor.Deadlocked (WaitsFor t) {.eventLoop, .forwarder 1, .timeoutLoop} := by
  obtain ⟨s, hrun, hstuck⟩ := stuckRun_stuck
  refine ⟨s, hrun, fun as t ht => ?_⟩
  have hlater : Stuck 0 1 t := run_invariant (fun _ _ _ h hs => h.step hs) hstuck ht
  obtain ⟨rest, hloop⟩ := hlater.eventLoop
  refine ⟨?_, hlater.deadlocked⟩
  rw [hloop]
  exact EventLoop.noConfusion

end XChain.FilterSystem
