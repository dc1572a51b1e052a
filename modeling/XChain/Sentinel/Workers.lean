import XChain.Sentinel.Announce
import XChain.Sentinel.Signatures
import XChain.Sentinel.Throttle

/-!
# The workers of a context and the announcements

The workers read their own configuration channel, also in the middle of their work: there they put a
newer version back for the outer loop to find. `ScanVaultEvents` and `QueueVaultEventsBatch` send
batches to the next stage, and `PendingVaultEventsBatch` sends the committed ones to both, which
never unsubscribe from them. Remote answers decide how a body goes on.

* **`announcing_never_blocks`**: no reachable state is blocked.
-/

namespace XChain

open StepMachine Option Function

/-- The workers of one context; `CommitTokenMints` runs once for each token mapping. -/
inductive WorkerId
  | scan
  | queue
  | pending
  | mint (i : ℕ)
deriving DecidableEq

def WorkerId.periodic : WorkerId → Bool
  | .scan => true
  | .mint _ => true
  | _ => false

inductive BodyPc
  | select
  | scanning
  | minting
  | awaitingSigs (b : VaultEventsBatch)
  | committing (b : VaultEventsBatch)
  | puttingBack (version : ℕ) (b : Option VaultEventsBatch)
  | sending (b : VaultEventsBatch)
  | notifying (b : VaultEventsBatch) (rest : List WorkerId)
deriving DecidableEq

def BodyPc.polls : BodyPc → Bool
  | .scanning => true
  | .minting => true
  | .committing _ => true
  | _ => false

def BodyPc.batch? : BodyPc → Option VaultEventsBatch
  | .committing b => some b
  | _ => none

structure Workers where
  announce : Announce WorkerId
  now : ℤ
  lastCall : WorkerId → ℤ
  body : WorkerId → BodyPc
  queueChan : List VaultEventsBatch
  pendingChan : List VaultEventsBatch
  committedChan : WorkerId → List VaultEventsBatch

inductive WorkersAct
  | announce (a : AnnounceAct WorkerId)
  | pass (d : ℕ)
  | tick (w : WorkerId)
  | poll (w : WorkerId)
  | stop (w : WorkerId) (confirmed : Bool)
  | found (b : VaultEventsBatch)
  | putBack (w : WorkerId)
  | sendBatch (w : WorkerId)
  | queueTake
  | queueDecide (complete : Bool)
  | pendingTake (myTurn : Bool)
  | notify (w : WorkerId)
  | committedTake (w : WorkerId)

def Workers.initial : Workers :=
  ⟨Announce.initial, 0, fun _ => initialLastCall 0, fun _ => .select, [], [], fun _ => []⟩

def Workers.toSelect (s : Workers) (w : WorkerId) : Workers :=
  { s with
    body := update s.body w .select
    lastCall := if w.periodic then update s.lastCall w s.now else s.lastCall }

def Workers.committedSubscribers (s : Workers) : List WorkerId :=
  [.scan, .queue].filter fun w => decide (s.announce.phase w ≠ .absent)

/-- `PendingVaultEventsBatch` goes on sending a committed batch to the workers in `rest`. -/
def Workers.notifyRest (s : Workers) (b : VaultEventsBatch) (rest : List WorkerId) : Workers :=
  { s with
    body := update s.body .pending (if rest = [] then .select else .notifying b rest) }

/-- The end of a body. A batch whose confirmation returned no error is announced as committed. -/
def Workers.finish (s : Workers) (w : WorkerId) : Option VaultEventsBatch → Workers
  | some b => s.notifyRest b s.committedSubscribers
  | none => s.toSelect w

/-- A body at `p` receives the version `v` of its own channel, `vs` stay there. -/
def Workers.pollTo (s : Workers) (w : WorkerId) (p : BodyPc) (v : ℕ) (vs : List ℕ) : Workers :=
  { s with
    announce := { s.announce with chan := update s.announce.chan w vs }
    body := update s.body w
      (if s.announce.version w < v then .puttingBack v p.batch? else p) }

/-- The work of a tick that is not left out. `ScanVaultEvents` looks for a newer version first. -/
def Workers.work (s : Workers) (w : WorkerId) : Option Workers :=
  match w with
  | .scan => match s.announce.chan .scan with
    | [] => some { s with body := update s.body .scan .scanning }
    | _ :: _ => (s.announce.step (.receive .scan)).map fun x =>
        { s with
          announce := x
          body := update s.body .scan
            (if x.phase .scan = .looping then .scanning else .select) }
  | .mint i => some { s with body := update s.body (.mint i) .minting }
  | _ => none

section Machine

variable (skips : ℤ → ℤ → Bool)

/-- One step; `skips` is the throttle of the ticks. -/
def Workers.step (s : Workers) (a : WorkersAct) : Option Workers :=
  if s.announce.crashed then none
  else match a with
    | .announce (.start w v) => (s.announce.step (.start w v)).map fun x =>
        { s with announce := x, lastCall := update s.lastCall w (initialLastCall s.now) }
    | .announce (.receive w) =>
      if s.body w = .select then
        (s.announce.step (.receive w)).map fun x => { s with announce := x }
      else none
    | .announce a => (s.announce.step a).map fun x => { s with announce := x }
    | .pass d => some { s with now := s.now + d }
    | .tick w =>
      if w.periodic ∧ s.announce.phase w = .looping ∧ s.body w = .select then
        if skips (s.lastCall w) s.now then some s else s.work w
      else none
    | .poll w => match s.announce.chan w with
      | v :: vs => if (s.body w).polls then some (s.pollTo w (s.body w) v vs) else none
      | [] => none
    | .stop w confirmed =>
      if (s.body w).polls then some (s.finish w (if confirmed then (s.body w).batch? else none))
      else none
    | .found b =>
      if s.body .scan = .scanning then
        some { s with body := update s.body .scan (.sending b) }
      else none
    | .putBack w => match s.body w with
      | .puttingBack v b =>
        -- `confirmVaultEvents` returns nil here, so its batch counts as committed
        if (s.announce.chan w).length < newConfigChanSize then
          some ({ s with announce := { s.announce with
            chan := update s.announce.chan w (s.announce.chan w ++ [v]) } }.finish w b)
        else none
      | _ => none
    | .sendBatch .scan => match s.body .scan with
      | .sending b =>
        if s.queueChan.length < vaultEventsBatchQueueSize then
          some ({ s with queueChan := s.queueChan ++ [b] }.toSelect .scan)
        else none
      | _ => none
    | .sendBatch .queue => match s.body .queue with
      | .sending b =>
        if s.pendingChan.length < vaultEventsBatchPendingSize then
          some ({ s with pendingChan := s.pendingChan ++ [b] }.toSelect .queue)
        else none
      | _ => none
    | .sendBatch _ => none
    | .queueTake => match s.queueChan with
      | b :: bs =>
        if s.announce.phase .queue = .looping ∧ s.body .queue = .select then
          some { s with queueChan := bs, body := update s.body .queue (.awaitingSigs b) }
        else none
      | [] => none
    | .queueDecide complete => match s.body .queue with
      | .awaitingSigs b => some { s with
          body := update s.body .queue
            (if b.batch = [] ∨ complete = true then .sending b else .select) }
      | _ => none
    | .pendingTake myTurn => match s.pendingChan with
      | b :: bs =>
        if s.announce.phase .pending = .looping ∧ s.body .pending = .select then
          some { s with
            pendingChan := bs
            body := update s.body .pending (if myTurn then .committing b else .select) }
        else none
      | [] => none
    | .notify w => match s.body .pending with
      | .notifying b rest =>
        if w ∈ rest ∧ (s.committedChan w).length < committedVaultEventsBatchChanSize then
          some ({ s with
            committedChan := update s.committedChan w (s.committedChan w ++ [b]) }.notifyRest b
              (rest.erase w))
        else none
      | _ => none
    | .committedTake w => match s.committedChan w with
      | _ :: bs =>
        if s.announce.phase w = .looping ∧ s.body w = .select then
          some { s with committedChan := update s.committedChan w bs }
        else none
      | [] => none

end Machine

/-! ## Blocked announcements -/

def Workers.full (s : Workers) (w : WorkerId) : Prop :=
  newConfigChanSize ≤ (s.announce.chan w).length

instance (s : Workers) (w : WorkerId) : Decidable (s.full w) := Nat.decLe _ _

/-- Worker `w` waits to send a batch to a full channel that worker `reader` reads. -/
inductive Workers.SendsTo (s : Workers) : (w reader : WorkerId) → Prop
  | queue {b} (hb : s.body .scan = .sending b)
      (hf : vaultEventsBatchQueueSize ≤ s.queueChan.length) : SendsTo s .scan .queue
  | pending {b} (hb : s.body .queue = .sending b)
      (hf : vaultEventsBatchPendingSize ≤ s.pendingChan.length) : SendsTo s .queue .pending
  | committed {b rest w} (hb : s.body .pending = .notifying b rest) (hw : w ∈ rest)
      (hf : committedVaultEventsBatchChanSize ≤ (s.committedChan w).length) : SendsTo s .pending w

/-- It waits to put a version back, or to send to a worker that has returned or is in `S`. -/
def Workers.Waits (s : Workers) (S : Set WorkerId) (w : WorkerId) : Prop :=
  (∃ v b, s.body w = .puttingBack v b ∧ s.full w) ∨
    ∃ reader, s.SendsTo w reader ∧ ((s.announce.phase reader).left = true ∨ reader ∈ S)

/-- It belongs to a set of workers that all wait for workers of the set. -/
def Workers.Stuck (s : Workers) (w : WorkerId) : Prop :=
  ∃ S : Set WorkerId, w ∈ S ∧ ∀ u ∈ S, s.Waits S u

/-- `Send` waits for room in the channel of a worker that is stuck. -/
def Workers.Blocked (s : Workers) : Prop :=
  ∃ value w, s.announce.feed.send = .blocked value ∧ w ∈ s.announce.feed.active ∧ s.full w ∧
    s.Stuck w

/-! ## No body is entered -/

/-- All workers are at their `select`, nothing is in the batch channels, and every last call is an
hour old. -/
structure Workers.Idle (s : Workers) : Prop where
  body : ∀ w, s.body w = .select
  queueChan : s.queueChan = []
  pendingChan : s.pendingChan = []
  committedChan : ∀ w, s.committedChan w = []
  lastCall : ∀ w, s.lastCall w ≤ initialLastCall s.now

open Workers

section Idle

variable {s t : Workers} {a : WorkersAct}

theorem Workers.Idle.skips (hs : s.Idle) (w : WorkerId) :
    tickSkips vaultCheckInterval (s.lastCall w) s.now = true :=
  tickSkips_of_le (by decide) (hs.lastCall w)

theorem Workers.Idle.announce (hs : s.Idle) (x : Announce WorkerId) :
    Workers.Idle { s with announce := x } :=
  { hs with }

theorem Workers.Idle.start (hs : s.Idle) (x : Announce WorkerId) (w : WorkerId) :
    Workers.Idle { s with
      announce := x
      lastCall := update s.lastCall w (initialLastCall s.now) } := by
  refine { hs with lastCall := fun v => ?_ }
  by_cases hv : v = w
  · subst hv
    simp
  · simpa [update_of_ne hv] using hs.lastCall v

/-- **The throttle leaves every tick out**, so the bodies are never entered. -/
theorem Workers.idle_step (hs : s.Idle)
    (h : step (tickSkips vaultCheckInterval) s a = some t) : t.Idle := by
  unfold step at h
  split at h
  · cases h
  cases a with
  | announce a =>
    cases a with
    | start w v =>
      obtain ⟨x, -, rfl⟩ := map_eq_some_iff.mp h
      exact hs.start x w
    | receive w =>
      simp only [hs.body, if_true] at h
      obtain ⟨x, -, rfl⟩ := map_eq_some_iff.mp h
      exact hs.announce x
    | close w | unsubscribe w | removeLocked w | removeBlocked w | send v | merge | attempt
    | choose i =>
      obtain ⟨x, -, rfl⟩ := map_eq_some_iff.mp h
      exact hs.announce x
  | pass d =>
    cases h
    refine { hs with lastCall := fun w => ?_ }
    refine (hs.lastCall w).trans ?_
    simp only [initialLastCall]
    omega
  | tick w =>
    simp only [hs.skips, if_true] at h
    split_ifs at h
    cases h
    exact hs
  | poll w =>
    simp only [hs.body, BodyPc.polls] at h
    split at h <;> simp at h
  | stop w confirmed => simp [hs.body, BodyPc.polls] at h
  | found b | putBack w | queueDecide complete | notify w => simp [hs.body] at h
  | sendBatch w => cases w <;> simp [hs.body] at h
  | queueTake => simp [hs.queueChan] at h
  | pendingTake myTurn => simp [hs.pendingChan] at h
  | committedTake w => simp [hs.committedChan] at h

theorem Workers.idle_initial : initial.Idle :=
  ⟨fun _ => rfl, rfl, rfl, fun _ => rfl, fun _ => le_rfl⟩

theorem Workers.Idle.not_sendsTo (hs : s.Idle) (w reader : WorkerId) : ¬ s.SendsTo w reader := by
  intro h
  cases h with
  | queue hb | pending hb | committed hb => simp [hs.body] at hb

theorem Workers.Idle.not_stuck (hs : s.Idle) (w : WorkerId) : ¬ s.Stuck w := by
  rintro ⟨S, hw, hS⟩
  rcases hS w hw with ⟨v, b, hb, -⟩ | ⟨reader, hto, -⟩
  · simp [hs.body] at hb
  · exact hs.not_sendsTo w reader hto

end Idle

/-- **Announcing never blocks** on a worker that itself waits to send. -/
theorem announcing_never_blocks (as : List WorkersAct) (s : Workers)
    (hrun : run (Workers.step (tickSkips vaultCheckInterval)) Workers.initial as = some s) :
    ¬ s.Blocked := by
  have hidle : s.Idle := run_invariant (fun _ _ _ => idle_step) idle_initial hrun
  rintro ⟨value, w, -, -, -, hstuck⟩
  exact hidle.not_stuck w hstuck

def announceTwo (version : ℕ) : List WorkersAct :=
  [.announce (.send version), .announce .merge, .announce .attempt, .announce .attempt,
    .announce .attempt]

def tickRun : List WorkersAct :=
  [.announce (.start .scan 1), .announce (.start (.mint 0) 1), .pass 5000000000, .tick .scan,
    .tick (.mint 0)] ++ announceTwo 1 ++ [.announce (.receive .scan), .pass 5000000000,
    .tick .scan] ++ announceTwo 2 ++ [.announce (.receive .scan)]

/-- The run is one of the machine, and it does not block. -/
theorem announcing_never_blocks_ticking : ∃ s,
    run (Workers.step (tickSkips vaultCheckInterval)) Workers.initial tickRun = some s ∧
      ¬ s.Blocked :=
  exists_run (by decide +kernel) fun hrun => announcing_never_blocks tickRun _ hrun

/-! ## What the throttle hides -/

/-- One announcement to a single subscriber, whether it has room or not. -/
def announceOne : List WorkersAct :=
  [.announce (.send 2), .announce .merge, .announce .attempt, .announce .attempt]

/-- An eleventh announcement uses the room, and the scan waits to put its version back. -/
def refillRun : List WorkersAct :=
  (List.replicate 11 announceOne).flatten ++
    [.poll .scan, .announce (.choose 0), .announce .attempt] ++ announceOne

/-- A scan of version 1 in its body, since the first tick. -/
def scanningStart : Workers :=
  { Workers.initial with
    announce := { (Announce.initial : Announce WorkerId) with
      feed := Feed.empty.subscribe .scan
      phase := update (fun _ => .absent) .scan .looping
      version := update (fun _ => 0) .scan 1 }
    now := 5000000000
    lastCall := update (fun _ => initialLastCall 0) .scan (initialLastCall 0)
    body := update (fun _ => .select) .scan .scanning }

section Guards

variable (skips skips' : ℤ → ℤ → Bool)

def WorkersAct.isTick : WorkersAct → Bool
  | .tick _ => true
  | _ => false

theorem Workers.step_of_not_tick (s : Workers) {a : WorkersAct} (h : a.isTick = false) :
    step skips s a = step skips' s a := by
  cases a with
  | tick w => cases h
  | announce a => cases a <;> rfl
  | pass d | poll w | stop w confirmed | found b | putBack w | queueTake | queueDecide complete
  | pendingTake myTurn | notify w | committedTake w => rfl
  | sendBatch w => cases w <;> rfl

theorem Workers.run_of_not_tick : ∀ (as : List WorkersAct) (s : Workers),
    (∀ a ∈ as, a.isTick = false) → run (step skips) s as = run (step skips') s as
  | [], _, _ => rfl
  | a :: as, s, h => by
    rw [run_cons, run_cons, step_of_not_tick skips skips' s (h a List.mem_cons_self)]
    exact congrArg _ (funext fun t =>
      run_of_not_tick as t fun b hb => h b (List.mem_cons_of_mem _ hb))

theorem Workers.step_tick_of_not_skips {s : Workers} {w : WorkerId}
    (hcrash : s.announce.crashed = false) (hperiodic : w.periodic = true)
    (hphase : s.announce.phase w = .looping) (hbody : s.body w = .select)
    (hskips : skips (s.lastCall w) s.now = false) :
    step skips s (.tick w) = s.work w := by
  simp [step, hcrash, hperiodic, hphase, hbody, hskips]

variable (h : skips (initialLastCall 0) 5000000000 = false)
include h

theorem run_first_tick :
    run (step skips) initial
      [.announce (.start .scan 1), .pass 5000000000, .tick .scan] = some scanningStart := by
  refine run_cons_eq_some.mpr ⟨_, rfl, run_cons_eq_some.mpr ⟨_, rfl, ?_⟩⟩
  refine run_cons_eq_some.mpr ⟨scanningStart, ?_, rfl⟩
  exact (step_tick_of_not_skips skips rfl rfl rfl rfl h).trans rfl

/-- **Only the throttle keeps `Send` from blocking.** -/
theorem blocked_of_first_tick : ∃ as s, run (step skips) initial as = some s ∧ s.Blocked := by
  obtain ⟨s, hrun, hsend, hactive, hfull, hbody⟩ : ∃ s,
      run (step fun _ _ => false) scanningStart refillRun = some s ∧
      s.announce.feed.send = .blocked 2 ∧ WorkerId.scan ∈ s.announce.feed.active ∧
      s.full .scan ∧ s.body .scan = .puttingBack 2 none :=
    exists_run (by decide +kernel) fun _ => by decide +kernel
  rw [run_of_not_tick _ skips refillRun scanningStart (by decide)] at hrun
  refine ⟨[.announce (.start .scan 1), .pass 5000000000, .tick .scan] ++ refillRun, s, ?_, ?_⟩
  · rw [run_append, run_first_tick skips h, bind_some, hrun]
  · refine ⟨2, .scan, hsend, hactive, hfull, {.scan}, rfl, ?_⟩
    rintro u rfl
    exact .inl ⟨2, none, hbody, hfull⟩

end Guards

end XChain
