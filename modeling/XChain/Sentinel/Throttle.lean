import Mathlib

/-!
# The throttle of the periodic loops

`ScanVaultEvents`, `CommitTokenMints`, `RejectTokenMints` and `VaultScanStatus` do their work on the
ticks of a ticker, guarded by the time of the last run:

    if time.Now().After(lastCall.Add(interval)) { continue }

The guard leaves out the ticks *after* the interval, and `lastCall` starts an hour in the past.
Times are in nanoseconds.

* **`throttle_exact_iff`**: work is done exactly on the first tick and on those later than the last
  run by more than the interval only if there is no tick at all.
-/

namespace XChain

open List

def second : ℤ := 1000000000

/-- `VaultCheckInterval * time.Second`. -/
def vaultCheckInterval : ℤ := 5 * second

/-- `VaultScanStatusInterval * time.Second`. -/
def vaultScanStatusInterval : ℤ := 60 * second

/-- `lastCall` before the first run, for a loop entered at `start`. -/
def initialLastCall (start : ℤ) : ℤ := start - 3600 * second

/-- `now.After(lastCall.Add(interval))`: the tick is left out. -/
def tickSkips (interval lastCall now : ℤ) : Bool := decide (lastCall + interval < now)

/-! ## The four loops -/

/-- A loop: the end of its last run, whether it has returned, and its ticks, each with the time its
work ended if it did the work. -/
structure LoopState where
  lastCall : ℤ
  returned : Bool
  ticks : List (ℤ × Option ℤ)

/-- A version, or a tick at `now` whose work ends at `finish`; `queued` versions meanwhile. -/
inductive LoopEvent
  | config (version : ℕ)
  | tick (now finish : ℤ) (queued : Option ℕ)

def throttledTick (interval : ℤ) (s : LoopState) (now finish : ℤ) : LoopState :=
  if tickSkips interval s.lastCall now then { s with ticks := s.ticks ++ [(now, none)] }
  else { s with lastCall := finish, ticks := s.ticks ++ [(now, some finish)] }

def commitTokenMintsTick : LoopState → ℤ → ℤ → LoopState := throttledTick vaultCheckInterval

def rejectTokenMintsTick : LoopState → ℤ → ℤ → LoopState := throttledTick vaultCheckInterval

def vaultScanStatusTick : LoopState → ℤ → ℤ → LoopState := throttledTick vaultScanStatusInterval

/-- A tick of `ScanVaultEvents`, which looks for a newer configuration once more. -/
def scanVaultEventsTick (configVersion : ℕ) (s : LoopState) (now finish : ℤ)
    (queued : Option ℕ) : LoopState :=
  if tickSkips vaultCheckInterval s.lastCall now then { s with ticks := s.ticks ++ [(now, none)] }
  else if queued.any fun v => decide (configVersion < v) then { s with returned := true }
  else { s with lastCall := finish, ticks := s.ticks ++ [(now, some finish)] }

inductive PeriodicLoop
  | scanVaultEvents
  | commitTokenMints
  | rejectTokenMints
  | vaultScanStatus

def PeriodicLoop.interval : PeriodicLoop → ℤ
  | .vaultScanStatus => vaultScanStatusInterval
  | _ => vaultCheckInterval

def PeriodicLoop.tick (k : PeriodicLoop) (configVersion : ℕ) (s : LoopState) (now finish : ℤ)
    (queued : Option ℕ) : LoopState :=
  match k with
  | .scanVaultEvents => scanVaultEventsTick configVersion s now finish queued
  | .commitTokenMints => commitTokenMintsTick s now finish
  | .rejectTokenMints => rejectTokenMintsTick s now finish
  | .vaultScanStatus => vaultScanStatusTick s now finish

section Loops

variable (k : PeriodicLoop) (configVersion : ℕ)

def PeriodicLoop.handle (s : LoopState) (e : LoopEvent) : LoopState :=
  if s.returned then s
  else match e with
    | .config v => if configVersion < v then { s with returned := true } else s
    | .tick now finish queued => k.tick configVersion s now finish queued

def PeriodicLoop.run (start : ℤ) (es : List LoopEvent) : LoopState :=
  es.foldl (k.handle configVersion) ⟨initialLastCall start, false, []⟩

end Loops

def tickTimes : List LoopEvent → List ℤ
  | [] => []
  | .config _ :: es => tickTimes es
  | .tick now _ _ :: es => now :: tickTimes es

/-- No version newer than `configVersion` has been announced. -/
def LoopEvent.NotNewer (configVersion : ℕ) : LoopEvent → Prop
  | .config v => v ≤ configVersion
  | .tick _ _ queued => ∀ v ∈ queued, v ≤ configVersion

/-- Work is done exactly on the first tick and on the ticks later than the end of the previous run
by more than the interval. -/
def Throttled (interval : ℤ) : Bool → Option ℤ → List (ℤ × Option ℤ) → Prop
  | _, _, [] => True
  | first, previous, (now, finish) :: rest =>
    (finish.isSome = true ↔ first = true ∨ ∃ e ∈ previous, e + interval < now) ∧
      Throttled interval false (finish <|> previous) rest

/-! ## No tick does its work -/

theorem tickSkips_of_le {interval lastCall now : ℤ} (hint : interval < 3600 * second)
    (h : lastCall ≤ initialLastCall now) : tickSkips interval lastCall now = true := by
  refine decide_eq_true ?_
  unfold initialLastCall at h
  linarith

open PeriodicLoop

section Skips

variable {k : PeriodicLoop} {configVersion : ℕ} {start : ℤ}

theorem PeriodicLoop.interval_lt (k : PeriodicLoop) : k.interval < 3600 * second := by
  cases k <;> decide

theorem PeriodicLoop.tick_skips {s : LoopState} {now finish : ℤ} {queued : Option ℕ}
    (h : tickSkips k.interval s.lastCall now = true) :
    k.tick configVersion s now finish queued = { s with ticks := s.ticks ++ [(now, none)] } := by
  cases k with
  | scanVaultEvents | commitTokenMints | rejectTokenMints | vaultScanStatus => exact if_pos h

theorem PeriodicLoop.handle_skips {ticks : List (ℤ × Option ℤ)} {e : LoopEvent}
    (hnew : e.NotNewer configVersion) (htime : ∀ t ∈ tickTimes [e], start ≤ t) :
    k.handle configVersion ⟨initialLastCall start, false, ticks⟩ e =
      ⟨initialLastCall start, false, ticks ++ (tickTimes [e]).map fun t => (t, none)⟩ := by
  cases e with
  | config v =>
    have hv : ¬ configVersion < v := not_lt.mpr hnew
    simp [handle, hv, tickTimes]
  | tick now finish queued =>
    have hnow : start ≤ now := htime now mem_cons_self
    have hlast : initialLastCall start ≤ initialLastCall now := sub_le_sub_right hnow _
    exact tick_skips (tickSkips_of_le k.interval_lt hlast)

theorem PeriodicLoop.foldl_skips :
    ∀ (es : List LoopEvent) (ticks : List (ℤ × Option ℤ)),
      (∀ e ∈ es, e.NotNewer configVersion) → (∀ t ∈ tickTimes es, start ≤ t) →
      es.foldl (k.handle configVersion) ⟨initialLastCall start, false, ticks⟩ =
        ⟨initialLastCall start, false, ticks ++ (tickTimes es).map fun t => (t, none)⟩
  | [], ticks, _, _ => by simp [tickTimes]
  | e :: es, ticks, hnew, htime => by
    have hcons : tickTimes (e :: es) = tickTimes [e] ++ tickTimes es := by
      cases e <;> rfl
    rw [hcons] at htime ⊢
    rw [foldl_cons, handle_skips (hnew e mem_cons_self)
      fun t ht => htime t (mem_append_left _ ht)]
    rw [foldl_skips es _ (fun e he => hnew e (mem_cons_of_mem _ he))
      fun t ht => htime t (mem_append_right _ ht)]
    simp

end Skips

/-- **The throttle suppresses all work.** -/
theorem throttle_exact_iff (k : PeriodicLoop) (configVersion : ℕ) (start : ℤ)
    (es : List LoopEvent) (hnew : ∀ e ∈ es, e.NotNewer configVersion)
    (htime : ∀ t ∈ tickTimes es, start ≤ t) :
    Throttled k.interval true none (k.run configVersion start es).ticks ↔ tickTimes es = [] := by
  have hticks : (k.run configVersion start es).ticks = (tickTimes es).map fun t => (t, none) := by
    rw [run, foldl_skips es [] hnew htime, nil_append]
  rw [hticks]
  cases tickTimes es with
  | nil | cons t ts => simp [Throttled]

/-- Two ticks, five and eleven seconds after the start: no work is done on either. -/
theorem throttle_two_ticks : ¬ Throttled vaultCheckInterval true none
    (PeriodicLoop.scanVaultEvents.run 1 0
      [.tick (5 * second) (6 * second) none, .tick (11 * second) (12 * second) none]).ticks := by
  have h := throttle_exact_iff .scanVaultEvents 1 0
    [.tick (5 * second) (6 * second) none, .tick (11 * second) (12 * second) none]
    (by simp [LoopEvent.NotNewer]) (by simp [tickTimes, second])
  exact fun ht => absurd (h.mp ht) (cons_ne_nil _ _)

/-- The first tick is not handled as it should be. -/
theorem throttle_first_tick_skipped :
    ¬ ∀ (k : PeriodicLoop) (configVersion : ℕ) (start : ℤ) (es : List LoopEvent),
      (∀ e ∈ es, e.NotNewer configVersion) → (∀ t ∈ tickTimes es, start ≤ t) →
      (tickTimes es).Pairwise (· < ·) →
      Throttled k.interval true none (k.run configVersion start es).ticks := by
  intro h
  have ht := h .commitTokenMints 1 0 [.tick (5 * second) (6 * second) none]
    (by simp [LoopEvent.NotNewer]) (by simp [tickTimes, second]) (by simp [tickTimes])
  exact absurd (ht.1.mpr (.inl rfl)) (by decide)

end XChain
