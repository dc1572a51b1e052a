import XChain.Lib.Machine

/-!
# Handing over to a new configuration

`ReloadConfigLoop` stores a new version and its configuration and announces the version.
`startWatchersAndForwarders` compares the stored version with its own, takes it over, and only then
compares it with the version it received; if they differ it starts nothing.

* **`handover_complete`**: if the check always finds the stored version equal to the received one
  and ReloadConfigLoop leaves both alone until the workers are started, then no version is taken
  over without its workers.
-/

namespace XChain

open StepMachine List

inductive EventType
  | deposit
  | burn
deriving DecidableEq

/-- The capacity of a `newConfigChan`. -/
def newConfigChanSize : ℕ := 10

/-- Where `ReloadConfigLoop` is; who has the version while it is in `Send`. -/
inductive ReloadPc
  | idle
  | fetched (version : ℕ)
  | stored (version : ℕ)
  | announcing (version : ℕ) (told delivered : Bool)
deriving DecidableEq

/-- Where `startWatchersAndForwarders` is; `newVersion` is the one received. -/
inductive StarterPc (Pair : Type)
  | select
  | draining (i newVersion : ℕ)
  | checking (newVersion : ℕ)
  | advancing (newVersion : ℕ)
  | verifying (newVersion : ℕ)
  | launching (todo : List (Pair × EventType))
deriving DecidableEq

/-- `started` lists the contexts with workers, `told` the versions the workers have received. -/
structure Handover (Pair : Type) where
  configVersion : ℕ
  vaultsConfig : List Pair
  reload : ReloadPc
  newConfigChan : List ℕ
  currentConfigVersion : ℕ
  starter : StarterPc Pair
  started : List (Pair × EventType × ℕ)
  told : List ℕ
deriving DecidableEq

/-- A step of `ReloadConfigLoop` (`fetch` to `deliver`) or of the starter. -/
inductive HandoverAct
  | fetch (version : ℕ)
  | update
  | setVersion
  | tell
  | deliver
  | receive
  | drain
  | check
  | advance
  | verify
  | launch
deriving DecidableEq

def contexts {Pair : Type} (vaults : List Pair) : List (Pair × EventType) :=
  vaults.flatMap fun p => [(p, .deposit), (p, .burn)]

def ReloadPc.afterSend (version : ℕ) (told delivered : Bool) : ReloadPc :=
  if told && delivered then .idle else .announcing version told delivered

section Machine

variable {Pair : Type} (xconfig : ℕ → List Pair)

def Handover.initial : Handover Pair := ⟨0, [], .idle, [], 0, .select, [], []⟩

def Handover.step (s : Handover Pair) : HandoverAct → Option (Handover Pair)
  | .fetch v => match s.reload with
    | .idle => some { s with reload := .fetched v }
    | _ => none
  | .update => match s.reload with
    | .fetched v =>
      if s.configVersion < v then
        some { s with vaultsConfig := xconfig v, reload := .stored v }
      else some { s with reload := .announcing v false false }
    | _ => none
  | .setVersion => match s.reload with
    | .stored v => some { s with configVersion := v, reload := .announcing v false false }
    | _ => none
  | .tell => match s.reload with
    | .announcing v false delivered => some { s with
        reload := .afterSend v true delivered
        told := s.told ++ [v] }
    | _ => none
  | .deliver => match s.reload with
    | .announcing v told false =>
      if s.newConfigChan.length < newConfigChanSize then
        some { s with reload := .afterSend v told true, newConfigChan := s.newConfigChan ++ [v] }
      else none
    | _ => none
  | .receive => match s.starter, s.newConfigChan with
    | .select, v :: vs => some { s with starter := .draining 0 v, newConfigChan := vs }
    | _, _ => none
  | .drain => match s.starter with
    | .draining i newVersion =>
      -- the bound of the loop is the length of the channel at this moment
      if i < s.newConfigChan.length then match s.newConfigChan with
        | v :: vs => some { s with starter := .draining (i + 1) v, newConfigChan := vs }
        | [] => none
      else some { s with starter := .checking newVersion }
    | _ => none
  | .check => match s.starter with
    | .checking newVersion => some { s with
        starter := if s.configVersion ≤ s.currentConfigVersion then .select
          else .advancing newVersion }
    | _ => none
  | .advance => match s.starter with
    | .advancing newVersion => some { s with
        currentConfigVersion := s.configVersion
        starter := .verifying newVersion }
    | _ => none
  | .verify => match s.starter with
    | .verifying newVersion => some { s with
        starter := if newVersion ≠ s.configVersion then .select
          else .launching (contexts s.vaultsConfig) }
    | _ => none
  | .launch => match s.starter with
    | .launching (c :: todo) => some { s with
        started := s.started ++ [(c.1, c.2, s.configVersion)]
        starter := .launching todo }
    | .launching [] => some { s with starter := .select }
    | _ => none

/-! ## Complete hand-overs -/

def Handover.Started (s : Handover Pair) (v : ℕ) : Prop :=
  ∀ c ∈ contexts (xconfig v), (c.1, c.2, v) ∈ s.started

/-- The starter holds a version whose workers it started, and the bridge is not stranded. -/
structure Handover.Complete (s : Handover Pair) : Prop where
  started : s.starter = .select → s.currentConfigVersion = 0 ∨
    s.Started xconfig s.currentConfigVersion
  notStranded : ¬ (s.starter = .select ∧ 0 < s.currentConfigVersion ∧
    s.currentConfigVersion = s.configVersion ∧ s.currentConfigVersion ∈ s.told ∧
    xconfig s.currentConfigVersion ≠ [] ∧ ∀ c ∈ s.started, c.2.2 ≠ s.currentConfigVersion)

def StarterPc.busy : StarterPc Pair → Bool
  | .advancing _ => true
  | .verifying _ => true
  | .launching _ => true
  | _ => false

def ReloadPc.midStore : ReloadPc → Bool
  | .stored _ => true
  | _ => false

def ReloadPc.newer (configVersion : ℕ) : ReloadPc → Bool
  | .fetched v => decide (configVersion < v)
  | _ => false

/-- A check that finds a newer version finds the one received, completely stored; and nothing is
stored while the starter is busy. -/
def Handover.Settled (s : Handover Pair) : HandoverAct → Prop
  | .update => s.starter.busy = true → s.reload.newer s.configVersion = false
  | .check => match s.starter with
    | .checking newVersion => s.currentConfigVersion < s.configVersion →
        newVersion = s.configVersion ∧ s.reload.midStore = false
    | _ => True
  | _ => True

instance (s : Handover Pair) (a : HandoverAct) : Decidable (s.Settled a) := by
  unfold Handover.Settled
  split
  · infer_instance
  · split <;> infer_instance
  · infer_instance

/-! ## The invariant -/

def Handover.StarterSound (s : Handover Pair) : Prop :=
  match s.starter with
  | .advancing newVersion => newVersion = s.configVersion ∧ 0 < s.configVersion
  | .verifying newVersion => newVersion = s.configVersion ∧ 0 < s.configVersion ∧
      s.currentConfigVersion = s.configVersion
  | .launching todo => s.currentConfigVersion = s.configVersion ∧
      ∀ c ∈ contexts (xconfig s.currentConfigVersion),
        (c.1, c.2, s.currentConfigVersion) ∈ s.started ∨ c ∈ todo
  | _ => s.currentConfigVersion = 0 ∨ s.Started xconfig s.currentConfigVersion

structure Handover.Sound (s : Handover Pair) : Prop where
  storing : ∀ v, s.reload = .stored v → s.vaultsConfig = xconfig v
  config : s.reload.midStore = false → 0 < s.configVersion →
    s.vaultsConfig = xconfig s.configVersion
  busy : s.starter.busy = true → s.reload.midStore = false
  starter : s.StarterSound xconfig

end Machine

section Steps

variable {Pair : Type} {xconfig : ℕ → List Pair} {s t : Handover Pair}

@[simp] theorem ReloadPc.midStore_afterSend (v : ℕ) (told delivered : Bool) :
    (ReloadPc.afterSend v told delivered).midStore = false := by
  unfold ReloadPc.afterSend
  split_ifs <;> rfl

theorem Handover.Sound.reload {r : ReloadPc} {chan told : List ℕ} (hs : s.Sound xconfig)
    (hold : s.reload.midStore = false) (hnew : r.midStore = false) :
    Handover.Sound xconfig { s with reload := r, newConfigChan := chan, told := told } where
  storing v hv := by
    have hr : r = .stored v := hv
    rw [hr] at hnew
    cases hnew
  config _ := hs.config hold
  busy _ := hnew
  starter := hs.starter

variable (hs : s.Sound xconfig)
include hs

namespace Handover.Sound

theorem store {v : ℕ} (hidle : s.starter.busy = false) :
    Handover.Sound xconfig { s with vaultsConfig := xconfig v, reload := .stored v } where
  storing w hw := by
    cases hw
    rfl
  config h := by cases h
  busy h := by
    rw [hidle] at h
    cases h
  starter := hs.starter

theorem setVersion {v : ℕ} (hr : s.reload = .stored v) :
    Handover.Sound xconfig { s with configVersion := v, reload := .announcing v false false } where
  storing w hw := by cases hw
  config _ _ := hs.storing v hr
  busy _ := rfl
  starter := by
    have hidle : s.starter.busy ≠ true := fun hb => by
      have := hs.busy hb
      rw [hr] at this
      cases this
    have hst := hs.starter
    unfold Handover.StarterSound at hst ⊢
    cases hpc : s.starter with
    | advancing n | verifying n | launching todo => exact absurd (by rw [hpc]; rfl) hidle
    | select | draining i n | checking n => rw [hpc] at hst; exact hst

theorem check {n : ℕ} (hpc : s.starter = .checking n) (hok : s.Settled .check) :
    Handover.Sound xconfig { s with
      starter := if s.configVersion ≤ s.currentConfigVersion then .select else .advancing n } := by
  have hst := hs.starter
  simp only [Handover.StarterSound, hpc] at hst
  simp only [Handover.Settled, hpc] at hok
  split_ifs with hle
  · exact ⟨hs.storing, hs.config, fun h => (by cases h), hst⟩
  · obtain ⟨hn, hmid⟩ := hok (by omega)
    have hpos : 0 < s.configVersion := by omega
    exact ⟨hs.storing, hs.config, fun _ => hmid, hn, hpos⟩

theorem verify {n : ℕ} (hpc : s.starter = .verifying n) :
    Handover.Sound xconfig { s with
      starter := if n ≠ s.configVersion then .select
        else .launching (contexts s.vaultsConfig) } := by
  have hst := hs.starter
  simp only [Handover.StarterSound, hpc] at hst
  obtain ⟨hn, hpos, hcur⟩ := hst
  have hmid := hs.busy (by rw [hpc]; rfl)
  rw [if_neg (not_not.mpr hn)]
  refine ⟨hs.storing, hs.config, fun _ => hmid, hcur, fun c hc => .inr ?_⟩
  rw [hs.config hmid hpos, ← hcur]
  exact hc

theorem launch {c : Pair × EventType} {todo : List (Pair × EventType)}
    (hpc : s.starter = .launching (c :: todo)) :
    Handover.Sound xconfig { s with
      started := s.started ++ [(c.1, c.2, s.configVersion)]
      starter := .launching todo } := by
  have hst := hs.starter
  simp only [Handover.StarterSound, hpc] at hst
  obtain ⟨hcur, hall⟩ := hst
  refine ⟨hs.storing, hs.config, fun _ => hs.busy (by rw [hpc]; rfl), hcur, fun d hd => ?_⟩
  rcases hall d hd with hin | hin
  · exact .inl (mem_append_left _ hin)
  · rcases mem_cons.mp hin with rfl | hin
    · refine .inl (mem_append_right _ ?_)
      rw [hcur]
      exact mem_singleton_self _
    · exact .inr hin

theorem idle {p : StarterPc Pair} {chan : List ℕ}
    (hst : s.currentConfigVersion = 0 ∨ s.Started xconfig s.currentConfigVersion)
    (hp : p = .select ∨ (∃ i n, p = .draining i n) ∨ ∃ n, p = .checking n) :
    Handover.Sound xconfig { s with starter := p, newConfigChan := chan } := by
  obtain rfl | ⟨i, n, rfl⟩ | ⟨n, rfl⟩ := hp <;>
    exact ⟨hs.storing, hs.config, fun h => (by cases h), hst⟩

end Handover.Sound

omit hs

/-- **A settled step keeps the invariant.** -/
theorem Handover.Sound.step {a : HandoverAct} (hs : s.Sound xconfig) (hok : s.Settled a)
    (h : Handover.step xconfig s a = some t) : t.Sound xconfig := by
  have hst := hs.starter
  cases a with simp only [Handover.step] at h
  | fetch v =>
    split at h <;> cases h
    rename_i hr
    exact hs.reload (by rw [hr]; rfl) rfl
  | update =>
    split at h
    · rename_i v hr
      split_ifs at h with hv <;> cases h
      · refine hs.store ?_
        by_contra hb
        have := hok (by simpa using hb)
        rw [hr, ReloadPc.newer, decide_eq_false_iff_not] at this
        exact this hv
      · exact hs.reload (by rw [hr]; rfl) rfl
    · cases h
  | setVersion =>
    split at h <;> cases h
    rename_i v hr
    exact hs.setVersion hr
  | tell =>
    split at h <;> cases h
    rename_i v delivered hr
    exact hs.reload (by rw [hr]; rfl) (by simp)
  | deliver =>
    split at h
    · rename_i v told hr
      split_ifs at h
      cases h
      exact hs.reload (by rw [hr]; rfl) (by simp)
    · cases h
  | receive =>
    split at h <;> cases h
    rename_i v vs hpc hchan
    simp only [Handover.StarterSound, hpc] at hst
    exact hs.idle hst (.inr (.inl ⟨0, v, rfl⟩))
  | drain =>
    split at h
    · rename_i i n hpc
      simp only [Handover.StarterSound, hpc] at hst
      split_ifs at h
      · split at h <;> cases h
        exact hs.idle hst (.inr (.inl ⟨_, _, rfl⟩))
      · cases h
        exact hs.idle hst (.inr (.inr ⟨n, rfl⟩))
    · cases h
  | check =>
    split at h <;> cases h
    rename_i n hpc
    exact hs.check hpc hok
  | advance =>
    split at h <;> cases h
    rename_i n hpc
    simp only [Handover.StarterSound, hpc] at hst
    exact ⟨hs.storing, hs.config, fun _ => hs.busy (by rw [hpc]; rfl), hst.1, hst.2, rfl⟩
  | verify =>
    split at h <;> cases h
    rename_i n hpc
    exact hs.verify hpc
  | launch =>
    split at h <;> cases h
    · rename_i c todo hpc
      exact hs.launch hpc
    · rename_i hpc
      simp only [Handover.StarterSound, hpc] at hst
      exact hs.idle (.inr fun c hc => (hst.2 c hc).resolve_right not_mem_nil) (.inl rfl)

theorem Handover.sound_initial : (Handover.initial : Handover Pair).Sound xconfig where
  storing v h := by cases h
  config _ h := absurd h (Nat.lt_irrefl 0)
  busy h := by cases h
  starter := .inl rfl

theorem mem_contexts_of_mem {p : Pair} {vaults : List Pair} (h : p ∈ vaults) :
    (p, .deposit) ∈ contexts vaults :=
  mem_flatMap.mpr ⟨p, h, mem_cons_self⟩

theorem Handover.Sound.complete (hs : s.Sound xconfig) : s.Complete xconfig := by
  have hstart : s.starter = .select → s.currentConfigVersion = 0 ∨
      s.Started xconfig s.currentConfigVersion := by
    intro hpc
    have hst := hs.starter
    simp only [Handover.StarterSound, hpc] at hst
    exact hst
  refine ⟨hstart, ?_⟩
  rintro ⟨hpc, hpos, -, -, hne, hnone⟩
  rcases hstart hpc with hzero | hall
  · omega
  · obtain ⟨p, hp⟩ := exists_mem_of_ne_nil _ hne
    exact hnone _ (hall _ (mem_contexts_of_mem hp)) rfl

end Steps

/-- **Complete hand-overs**, if nothing is stored between a check and the start. -/
theorem handover_complete {Pair : Type} (xconfig : ℕ → List Pair) (as : List HandoverAct)
    (s : Handover Pair) (hok : Along (Handover.step xconfig) Handover.Settled Handover.initial as)
    (hrun : run (Handover.step xconfig) Handover.initial as = some s) : s.Complete xconfig :=
  (run_invariant_along (fun _ _ _ => Handover.Sound.step) Handover.sound_initial hok hrun).complete

def storeVersion (v : ℕ) : List HandoverAct := [.fetch v, .update, .setVersion]

def takeOver : List HandoverAct :=
  [.tell, .deliver, .receive, .drain, .check, .advance, .verify, .launch, .launch, .launch]

/-- Two versions, one after the other. -/
theorem handover_complete_twice : ∃ s, run (Handover.step fun v => [v]) Handover.initial
      (storeVersion 1 ++ takeOver ++ storeVersion 2 ++ takeOver) = some s ∧
    s.currentConfigVersion = 2 ∧ s.Complete fun v => [v] :=
  ⟨_, rfl, rfl, handover_complete (fun v => [v])
    (storeVersion 1 ++ takeOver ++ storeVersion 2 ++ takeOver) _ (by decide) rfl⟩

/-- The starter takes over version `2` without starting its workers. -/
theorem handover_stranded : ¬ ∀ (xconfig : ℕ → List ℕ) (as : List HandoverAct) (s : Handover ℕ),
    run (Handover.step xconfig) Handover.initial as = some s → s.Complete xconfig := by
  intro h
  have hc := h (fun v => [v])
    (storeVersion 1 ++ [.tell, .deliver] ++ storeVersion 2 ++
      [.receive, .drain, .check, .advance, .verify, .tell, .deliver, .receive, .drain, .check])
    _ rfl
  exact hc.notStranded (by decide)

end XChain
