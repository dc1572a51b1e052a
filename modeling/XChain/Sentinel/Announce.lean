import XChain.Event.Feed
import XChain.Sentinel.Handover

/-!
# Announcing versions to workers that leave

When a worker receives a version newer than its own it returns and runs its deferred calls, the last
one first: it closes the channel and then unsubscribes it. A `Send` that finds the closed channel
among its cases panics.

* **`announce_never_crashes`**: there is no panic if no channel is closed while a `Send` has it to
  serve and no `Send` starts while the feed holds a closed channel.
-/

namespace XChain

open StepMachine Option Function Feed

inductive WorkerPhase
  | absent
  | looping
  | leaving
  | unsubscribing
  | removing
  | gone
deriving DecidableEq

def WorkerPhase.closed : WorkerPhase → Bool
  | .unsubscribing => true
  | .removing => true
  | .gone => true
  | _ => false

/-- The worker has subscribed and has not closed its channel. -/
def WorkerPhase.subscribed : WorkerPhase → Bool
  | .looping => true
  | .leaving => true
  | _ => false

def WorkerPhase.left : WorkerPhase → Bool
  | .absent => false
  | .looping => false
  | _ => true

/-- The feed and the workers, each with the version of its context and its buffered channel. -/
structure Announce (W : Type) where
  feed : Feed W ℕ
  phase : W → WorkerPhase
  version : W → ℕ
  chan : W → List ℕ
  crashed : Bool

inductive AnnounceAct (W : Type)
  | start (w : W) (version : ℕ)
  | receive (w : W)
  | close (w : W)
  | unsubscribe (w : W)
  | removeLocked (w : W)
  | removeBlocked (w : W)
  | send (version : ℕ)
  | merge
  | attempt
  | choose (i : ℕ)

def SendPc.value? {V : Type} : SendPc V → Option V
  | .idle => none
  | .locked value => some value
  | .trying value _ => some value
  | .blocked value => some value

section Machine

variable {W : Type} [DecidableEq W]

def Announce.initial : Announce W := ⟨Feed.empty, fun _ => .absent, fun _ => 0, fun _ => [], false⟩

/-- Send the value to worker `w` and go on with feed `g`; a closed channel crashes the node. -/
def Announce.sendTo (s : Announce W) (w : W) (g : Feed W ℕ) : Announce W :=
  if (s.phase w).closed then { s with crashed := true }
  else { s with
    feed := g
    chan := update s.chan w (s.chan w ++ s.feed.send.value?.toList) }

/-- The channel of `w` has room, or is closed, so that an attempt to send does not wait. -/
def Announce.ready (s : Announce W) (w : W) : Bool :=
  (s.phase w).closed || decide ((s.chan w).length < newConfigChanSize)

def Announce.step (s : Announce W) (a : AnnounceAct W) : Option (Announce W) :=
  if s.crashed then none
  else match a with
    | .start w v =>
      if s.phase w = .absent then some { s with
        feed := s.feed.subscribe w
        phase := update s.phase w .looping
        version := update s.version w v }
      else none
    | .receive w => match s.phase w, s.chan w with
      | .looping, v :: vs => some { s with
          phase := update s.phase w (if s.version w < v then .leaving else .looping)
          chan := update s.chan w vs }
      | _, _ => none
    | .close w =>
      if s.phase w = .leaving then
        some { s with phase := update s.phase w .unsubscribing }
      else none
    | .unsubscribe w =>
      if s.phase w = .unsubscribing then match s.feed.removeInbox w with
        | some g => some { s with feed := g, phase := update s.phase w .gone }
        | none => some { s with phase := update s.phase w .removing }
      else none
    | .removeLocked w =>
      if s.phase w = .removing then (s.feed.removeLocked w).map fun g =>
        { s with feed := g, phase := update s.phase w .gone }
      else none
    | .removeBlocked w =>
      if s.phase w = .removing then (s.feed.removeBlocked w).map fun g =>
        { s with feed := g, phase := update s.phase w .gone }
      else none
    | .send v => (s.feed.lock v).map fun g => { s with feed := g }
    | .merge => s.feed.merge.map fun g => { s with feed := g }
    | .attempt => match s.feed.current with
      | some w =>
        if s.ready w then (s.feed.attempt true).map fun g => s.sendTo w g
        else (s.feed.attempt false).map fun g => { s with feed := g }
      | none => (s.feed.attempt false).map fun g => { s with feed := g }
    | .choose i => match s.feed.active[i]? with
      | some w => if s.ready w then (s.feed.choose i).map fun g => s.sendTo w g else none
      | none => none

/-- No channel is closed while a `Send` has it to serve, and no `Send` starts while the feed holds a
closed channel. -/
def Announce.Orderly (s : Announce W) : AnnounceAct W → Prop
  | .close w => w ∉ s.feed.toServe
  | .send _ => ∀ w, (s.phase w).closed = true → ¬ s.feed.Knows w
  | _ => True

instance [Fintype W] (s : Announce W) (a : AnnounceAct W) : Decidable (s.Orderly a) := by
  unfold Announce.Orderly
  split <;> infer_instance

def Announce.Staying (s : Announce W) : AnnounceAct W → Prop
  | .receive w => ∀ v ∈ (s.chan w).head?, v ≤ s.version w
  | _ => True

end Machine

/-! ## What a step can do -/

/-- What a step does to a `Send`, to closed channels and to workers, and when it crashes. -/
structure StepSpec {W : Type} (s : Announce W) (a : AnnounceAct W) (t : Announce W) : Prop where
  toServe : ∀ w ∈ t.feed.toServe, w ∈ s.feed.toServe ∨ (t.phase w).closed = false ∨
    (∃ v, a = .send v) ∧ s.feed.Knows w
  closed : ∀ w, (t.phase w).closed = true → (s.phase w).closed = true ∨ a = .close w
  knows : ∀ w, (t.phase w).subscribed = true →
    ((s.phase w).subscribed = true → s.feed.Knows w) → t.feed.Knows w
  left : ∀ w, (t.phase w).left = true → (s.phase w).left = true ∨
    a = .receive w ∧ ∃ v ∈ (s.chan w).head?, s.version w < v
  crashed : t.crashed = true → ∃ w ∈ s.feed.toServe, (s.phase w).closed = true

theorem WorkerPhase.left_of_closed {p : WorkerPhase} (h : p.closed = true) : p.left = true := by
  cases p <;> first | rfl | cases h

open Announce WorkerPhase

section Spec

variable {W : Type} {s : Announce W} {a : AnnounceAct W} {g : Feed W ℕ} {chan : W → List ℕ}

variable (hcrash : s.crashed = false)
include hcrash

theorem StepSpec.of_feed
    (htoServe : ∀ w ∈ g.toServe, w ∈ s.feed.toServe ∨ (∃ v, a = .send v) ∧ s.feed.Knows w)
    (hknows : ∀ w, s.feed.Knows w → g.Knows w) :
    StepSpec s a { s with feed := g, chan := chan } where
  toServe w hw := (htoServe w hw).imp_right .inr
  closed w hw := .inl hw
  knows w hw hs := hknows w (hs hw)
  left w hw := .inl hw
  crashed h := absurd h (by simp [hcrash])

variable [DecidableEq W] {w : W}

theorem StepSpec.of_phase {p : WorkerPhase}
    (htoServe : ∀ x ∈ g.toServe, x ∈ s.feed.toServe)
    (hknows : ∀ x, x ≠ w ∨ p.subscribed = true → s.feed.Knows x → g.Knows x)
    (hsub : p.subscribed = true → (s.phase w).subscribed = true)
    (hclosed : p.closed = true → (s.phase w).closed = true ∨ a = .close w) (hleft : p.left = true →
      (s.phase w).left = true ∨ a = .receive w ∧ ∃ v ∈ (s.chan w).head?, s.version w < v) :
    StepSpec s a { s with feed := g, phase := update s.phase w p, chan := chan } where
  toServe x hx := .inl (htoServe x hx)
  closed x hx := by
    by_cases hxw : x = w
    · subst hxw
      simp only [update_self] at hx
      exact hclosed hx
    · simp only [update_of_ne hxw] at hx
      exact .inl hx
  knows x hx hs := by
    by_cases hxw : x = w
    · subst hxw
      simp only [update_self] at hx
      exact hknows x (.inr hx) (hs (hsub hx))
    · simp only [update_of_ne hxw] at hx
      exact hknows x (.inl hxw) (hs hx)
  left x hx := by
    by_cases hxw : x = w
    · subst hxw
      simp only [update_self] at hx
      exact hleft hx
    · simp only [update_of_ne hxw] at hx
      exact .inl hx
  crashed h := absurd h (by simp [hcrash])

theorem StepSpec.removed (hclosed : (s.phase w).closed = true)
    (hg : (∀ x ∈ g.toServe, x ∈ s.feed.toServe) ∧ ∀ x, x ≠ w → s.feed.Knows x → g.Knows x) :
    StepSpec s a { s with feed := g, phase := update s.phase w .gone } :=
  .of_phase hcrash hg.1 (fun x hx => hg.2 x (hx.resolve_right fun h => by cases h))
    (fun h => by cases h) (fun _ => .inl hclosed)
    fun _ => .inl (left_of_closed hclosed)

theorem StepSpec.sendTo (hw : w ∈ s.feed.toServe)
    (hg : (∀ x ∈ g.toServe, x ∈ s.feed.toServe) ∧ ∀ x, g.Knows x ↔ s.feed.Knows x) :
    StepSpec s a (s.sendTo w g) := by
  unfold Announce.sendTo
  split_ifs with hclosed
  · exact ⟨fun x hx => .inl hx, fun x hx => .inl hx, fun x hx hs => hs hx, fun x hx => .inl hx,
      fun _ => ⟨w, hw, hclosed⟩⟩
  · exact .of_feed hcrash (fun x hx => .inl (hg.1 x hx)) fun x => (hg.2 x).mpr

theorem StepSpec.start {v : ℕ} (hw : s.phase w = .absent) :
    StepSpec s (.start w v) { s with
      feed := s.feed.subscribe w
      phase := update s.phase w .looping
      version := update s.version w v } where
  toServe x hx := by
    rcases toServe_subscribe hx with h | rfl
    · exact .inl h
    · exact .inr (.inl (by simp [WorkerPhase.closed]))
  closed x hx := by
    by_cases hxw : x = w
    · subst hxw
      simp [WorkerPhase.closed] at hx
    · simp only [update_of_ne hxw] at hx
      exact .inl hx
  knows x hx hs := by
    refine knows_subscribe.mpr ?_
    by_cases hxw : x = w
    · exact .inr hxw
    · simp only [update_of_ne hxw] at hx
      exact .inl (hs hx)
  left x hx := by
    by_cases hxw : x = w
    · subst hxw
      simp [WorkerPhase.left] at hx
    · simp only [update_of_ne hxw] at hx
      exact .inl hx
  crashed h := absurd h (by simp [hcrash])

omit hcrash

/-- **Every step meets its specification.** -/
theorem Announce.step_spec {t : Announce W} (h : s.step a = some t) : StepSpec s a t := by
  unfold step at h
  split_ifs at h with hc
  have hcrash : s.crashed = false := by simpa using hc
  cases a with
  | start w v =>
    simp only at h
    split_ifs at h with hw
    cases h
    exact .start hcrash hw
  | receive w =>
    simp only at h
    split at h
    · rename_i v vs hw hv
      cases h
      refine .of_phase hcrash (fun x hx => hx) (fun x _ hx => hx) ?_ ?_ ?_
      · exact fun _ => by rw [hw]; rfl
      · split_ifs <;> exact fun h => by cases h
      · split_ifs with hnew
        · exact fun _ => .inr ⟨rfl, v, by rw [hv]; rfl, hnew⟩
        · exact fun h => by cases h
    · cases h
  | close w =>
    simp only at h
    split_ifs at h with hw
    cases h
    exact .of_phase hcrash (fun x hx => hx) (fun x _ hx => hx) (fun h => by cases h)
      (fun _ => .inr rfl) fun _ => .inl (by rw [hw]; rfl)
  | unsubscribe w =>
    simp only at h
    split_ifs at h with hw
    have hclosed : (s.phase w).closed = true := by rw [hw]; rfl
    split at h <;> cases h
    · rename_i g hg
      exact .removed hcrash hclosed (removeInbox_spec hg)
    · exact .of_phase hcrash (fun x hx => hx) (fun x _ hx => hx) (fun h => by cases h)
        (fun _ => .inl hclosed) fun _ => .inl (left_of_closed hclosed)
  | removeLocked w =>
    simp only at h
    split_ifs at h with hw
    obtain ⟨g, hg, rfl⟩ := map_eq_some_iff.mp h
    exact .removed hcrash (by rw [hw]; rfl) (removeLocked_spec hg)
  | removeBlocked w =>
    simp only at h
    split_ifs at h with hw
    obtain ⟨g, hg, rfl⟩ := map_eq_some_iff.mp h
    exact .removed hcrash (by rw [hw]; rfl) (removeBlocked_spec hg)
  | send v =>
    obtain ⟨g, hg, rfl⟩ := map_eq_some_iff.mp h
    cases lock_eq_some hg
    refine .of_feed hcrash (fun x hx => .inr ⟨⟨v, rfl⟩, ?_⟩) fun x hx => hx
    have hknown : ({ s.feed with send := .locked v } : Feed W ℕ).Knows x := mem_toServe_knows hx
    exact hknown
  | merge =>
    obtain ⟨g, hg, rfl⟩ := map_eq_some_iff.mp h
    refine .of_feed hcrash (fun x hx => .inl ?_) fun x => (knows_merge hg).mpr
    rw [← toServe_merge hg]
    exact hx
  | attempt =>
    simp only at h
    split at h
    · rename_i w hw
      split_ifs at h
      · obtain ⟨g, hg, rfl⟩ := map_eq_some_iff.mp h
        exact .sendTo hcrash (current_mem hw) (attempt_spec hg)
      · obtain ⟨g, hg, rfl⟩ := map_eq_some_iff.mp h
        obtain ⟨h1, h2⟩ := attempt_spec hg
        exact .of_feed hcrash (fun x hx => .inl (h1 x hx)) fun x => (h2 x).mpr
    · obtain ⟨g, hg, rfl⟩ := map_eq_some_iff.mp h
      obtain ⟨h1, h2⟩ := attempt_spec hg
      exact .of_feed hcrash (fun x hx => .inl (h1 x hx)) fun x => (h2 x).mpr
  | choose i =>
    simp only at h
    split at h
    · rename_i w hw
      split_ifs at h
      obtain ⟨g, hg, rfl⟩ := map_eq_some_iff.mp h
      exact .sendTo hcrash (mem_toServe_of_choose hg hw) (choose_spec hg)
    · cases h

end Spec

/-! ## Runs -/

section Runs

variable {W : Type} [DecidableEq W] {s t : Announce W} {a : AnnounceAct W}

def Announce.Safe (s : Announce W) : Prop :=
  s.crashed = false ∧ ∀ w, (s.phase w).closed = true → w ∉ s.feed.toServe

theorem Announce.Safe.step (hs : s.Safe) (hok : s.Orderly a) (h : s.step a = some t) : t.Safe := by
  have spec := step_spec h
  refine ⟨?_, fun w hw hserve => ?_⟩
  · by_contra hcrash
    obtain ⟨w, hw, hclosed⟩ := spec.crashed (by simpa using hcrash)
    exact hs.2 w hclosed hw
  · rcases spec.closed w hw with hclosed | rfl
    · rcases spec.toServe w hserve with h1 | h1 | ⟨⟨v, rfl⟩, h1⟩
      · exact hs.2 w hclosed h1
      · rw [hw] at h1
        cases h1
      · exact hok w hclosed h1
    · rcases spec.toServe w hserve with h1 | h1 | ⟨⟨v, hv⟩, -⟩
      · exact hok h1
      · rw [hw] at h1
        cases h1
      · cases hv

theorem Announce.knows_step (hs : ∀ w, (s.phase w).subscribed = true → s.feed.Knows w)
    (h : s.step a = some t) : ∀ w, (t.phase w).subscribed = true → t.feed.Knows w :=
  fun w hw => (step_spec h).knows w hw (hs w)

theorem Announce.stays_step (hs : ∀ w, (s.phase w).left = false) (hok : s.Staying a)
    (h : s.step a = some t) : ∀ w, (t.phase w).left = false := by
  intro w
  by_contra hleft
  rcases (step_spec h).left w (by simpa using hleft) with h1 | ⟨rfl, v, hv, hlt⟩
  · rw [hs w] at h1
    cases h1
  · exact absurd (hok v hv) (Nat.not_le.mpr hlt)

end Runs

/-- **Announcing a version never crashes** if no `Send` has a closed channel to serve. -/
theorem announce_never_crashes {W : Type} [DecidableEq W] (as : List (AnnounceAct W))
    (s : Announce W) (hrun : run Announce.step Announce.initial as = some s) :
    (Along Announce.step Announce.Orderly Announce.initial as →
      s.crashed = false ∧ ∀ w, (s.phase w).closed = true → w ∉ s.feed.toServe) ∧
    (Along Announce.step Announce.Staying Announce.initial as →
      ∀ w, (s.phase w).closed = true → ¬ s.feed.Knows w) ∧
    ∀ w t, s.step (.close w) = some t → (t.phase w).closed = true ∧ t.feed.Knows w := by
  refine ⟨fun hok => ?_, fun hok w hw => ?_, fun w t ht => ?_⟩
  · have hinit : (initial : Announce W).Safe := ⟨rfl, fun w hw => by cases hw⟩
    exact run_invariant_along (fun _ _ _ => Announce.Safe.step) hinit hok hrun
  · have hstay := run_invariant_along (fun _ _ _ => stays_step) (fun _ => rfl) hok hrun w
    rw [left_of_closed hw] at hstay
    cases hstay
  · have hknows := run_invariant (fun _ _ _ => knows_step) (fun w hw => by cases hw) hrun w
    unfold step at ht
    split_ifs at ht with hc
    simp only at ht
    split_ifs at ht with hw
    cases ht
    refine ⟨by simp [closed], hknows ?_⟩
    rw [hw]
    rfl

def leaveRun : List (AnnounceAct (Fin 1)) :=
  [.start 0 1, .send 2, .merge, .attempt, .attempt, .receive 0, .close 0]

/-- The worker that returns between two announcements is removed in time. -/
theorem announce_never_crashes_between : ∃ s,
    run Announce.step (Announce.initial : Announce (Fin 1))
      (leaveRun ++ [.unsubscribe 0, .removeLocked 0, .send 3, .merge, .attempt]) = some s ∧
    s.crashed = false := by
  exact ⟨_, rfl, ((announce_never_crashes (leaveRun ++
    [.unsubscribe 0, .removeLocked 0, .send 3, .merge, .attempt]) _ rfl).1 (by decide)).1⟩

/-- The next announcement starts between the two deferred calls and sends on the closed channel. -/
theorem announce_crashes : ¬ ∀ (as : List (AnnounceAct (Fin 1))) (s : Announce (Fin 1)),
    run Announce.step Announce.initial as = some s →
      s.crashed = false ∧ ∀ w, (s.phase w).closed = true → ¬ s.feed.Knows w := by
  intro h
  have hs := (h (leaveRun ++ [.send 3, .merge, .attempt]) _ rfl).1
  exact absurd hs (by decide)

end XChain
