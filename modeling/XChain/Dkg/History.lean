import XChain.Dkg.Config
import XChain.Lib.Machine

/-!
# Config versions and group keys over whole runs

Two machines run on the state of the DKG service. The first ticks `RunVssStateMachine`, with any
answers of the contract; the second calls `UpdateVSSConfig` and `setVssConfig` in any order.

* **`seen_config_processed`**: a version marked as seen has a key, a reveal or is out of date,
  as long as the version does not change within a tick and no wait gives up;
* **`key_history_consistent`**: the current key and the earlier ones are the keys that were active,
  newest first, and a signature is checked against exactly those.
-/

namespace XChain.Vss

open Sharing GoText GoMap StepMachine List Function Word64 DKG

/-! ## Ticks of the state machine -/

/-- One tick: the version that is read first, the answers during `UpdateVSSConfig` and the answer of
`isVSSConfigReady`. -/
structure Tick where
  vssConfigVersion : ℕ
  answers : Answers
  ready : Bool

/-- Both reads give one version, and the wait does not end with too few nodes. -/
def Tick.Steady (x : Tick) : Prop :=
  x.answers.vssConfigVersion = x.vssConfigVersion ∧
    ∀ r ∈ x.answers.waitRounds, r.timedOut = true →
      Word64.toInt64 r.vssThreshold ≤ r.nodeUptoDateCount x.answers.activeNodeList

theorem waitForUploads_ne_false {active : List Address} :
    ∀ {rounds : List WaitRound},
      (∀ r ∈ rounds, r.timedOut = true → toInt64 r.vssThreshold ≤ r.nodeUptoDateCount active) →
      waitForUploads active rounds ≠ some false
  | [], _ => nofun
  | r :: rs, h => by
    unfold waitForUploads
    split
    · exact nofun
    · split
      · rename_i hout
        simpa using h r mem_cons_self hout
      · exact waitForUploads_ne_false fun r' hr' => h r' (mem_cons_of_mem _ hr')

section Seen

variable {F P : Type}

/-- What has become of version `v`: a key is stored, a reveal was sent, or a version at least as
high is in use. -/
def Processed (s : DKG F P) (v : ℤ) : Prop :=
  (s.vssSettings v).isSome ∨ (∃ addr, (v, addr) ∈ s.reveals) ∨ v ≤ s.currentConfigVersion

variable {s : DKG F P}

theorem Processed.vote {v : ℤ} (h : Processed s v) (a : Answers) (poly : List P)
    (share : F) : Processed (s.vote a poly share) v := by
  rcases h with h | h | h
  · refine .inl ?_
    by_cases hv : v = a.version
    · rw [hv]
      simp [DKG.vote]
    · simpa [DKG.vote, update_of_ne hv] using h
  · exact .inr (.inl h)
  · exact .inr (.inr h)

theorem Processed.reveal {v : ℤ} (h : Processed s v) (a : Answers)
    (notVerify : List (Address × PriShare F)) : Processed (s.reveal a notVerify) v := by
  rcases h with h | ⟨addr, h⟩ | h
  · exact .inl h
  · exact .inr (.inl ⟨addr, mem_append_left _ h⟩)
  · exact .inr (.inr h)

theorem Processed.setVssConfig {v : ℤ} (h : Processed s v) (w : ℤ) :
    Processed (setVssConfig s w) v := by
  obtain heq | ⟨bls, -, hlt, heq⟩ := setVssConfig_cases s w
  · rwa [heq]
  · rw [heq]
    rcases h with h | h | h
    · exact .inl h
    · exact .inr (.inl h)
    · exact .inr (.inr (h.trans hlt.le))

variable [Field F] [AddCommGroup P] [Module F P] [DecidableEq P] {K : Crypto F P} {me : Self}
  {r : ConfigResult}

def tick (K : Crypto F P) (me : Self) (s : DKG F P) (x : Tick) : Option (DKG F P) :=
  runVssStateMachine K me s x.vssConfigVersion x.answers x.ready

theorem updateVSSConfig_processed {a : Answers} {s s' : DKG F P}
    (h : updateVSSConfig K me s a = some (r, s')) :
    s'.vssSeenConfigs = s.vssSeenConfigs ∧ ∀ v, Processed s v → Processed s' v := by
  obtain ⟨-, rfl⟩ | ⟨-, rfl, -⟩ | ⟨-, notVerify, -, rfl⟩ | ⟨-, -, poly, share, -, rfl⟩ :=
    updateVSSConfig_cases h
  · exact ⟨rfl, fun _ => id⟩
  · exact ⟨rfl, fun _ => id⟩
  · exact ⟨rfl, fun _ hv => hv.reveal a notVerify⟩
  · exact ⟨rfl, fun _ hv => hv.vote a poly share⟩

theorem processed_of_ne_recheck {a : Answers} {s s' : DKG F P}
    (h : updateVSSConfig K me s a = some (r, s')) (hr : r ≠ .vssConfigRecheck)
    (hwait : waitForUploads a.activeNodeList a.waitRounds ≠ some false) :
    Processed s' a.version := by
  obtain ⟨rfl, -⟩ | ⟨-, rfl, hle | hfalse⟩ | ⟨-, notVerify, hne, rfl⟩ |
    ⟨-, -, poly, share, -, rfl⟩ :=
    updateVSSConfig_cases h
  · exact absurd rfl hr
  · exact .inr (.inr hle)
  · exact absurd hfalse hwait
  · obtain ⟨x, hx⟩ := exists_mem_of_ne_nil notVerify hne
    exact .inr (.inl ⟨x.1, mem_append_right _ (mem_map.mpr ⟨x, hx, rfl⟩)⟩)
  · exact .inl (by simp [vote])

theorem tick_processed {s t : DKG F P} {x : Tick}
    (hs : ∀ v, s.vssSeenConfigs v = true → Processed s v) (hx : x.Steady)
    (h : tick K me s x = some t) : ∀ v, t.vssSeenConfigs v = true → Processed t v := by
  obtain ⟨r, s', hup, ⟨-, rfl⟩ | ⟨hr, rfl⟩⟩ | rfl | rfl := runVssStateMachine_cases h
  · obtain ⟨hseen, hkeep⟩ := updateVSSConfig_processed hup
    intro v hv
    exact hkeep v (hs v (hseen ▸ hv))
  · obtain ⟨hseen, hkeep⟩ := updateVSSConfig_processed hup
    intro v hv
    change Processed s' v
    by_cases hvx : v = toInt64 x.vssConfigVersion
    · rw [hvx, ← hx.1]
      exact processed_of_ne_recheck hup hr (waitForUploads_ne_false hx.2)
    · simp only [markSeen, update_of_ne hvx, hseen] at hv
      exact hkeep v (hs v hv)
  · intro v hv
    refine (hs v ?_).setVssConfig _
    obtain heq | ⟨_, _, _, heq⟩ := setVssConfig_cases s (toInt64 x.vssConfigVersion) <;>
      rw [heq] at hv <;> exact hv
  · exact hs

/-- **Seen versions are processed** if no wait gives up and a tick reads one version. -/
theorem seen_config_processed (K : Crypto F P) (me : Self) {xs : List Tick}
    (hrun : run (tick K me) (DKG.new F P) xs = some s) (hsteady : ∀ x ∈ xs, x.Steady) (v : ℤ)
    (hv : s.vssSeenConfigs v = true) :
    (s.vssSettings v).isSome ∨ (∃ addr, (v, addr) ∈ s.reveals) ∨ v ≤ s.currentConfigVersion :=
  run_invariant_along (I := fun s : DKG F P => ∀ v, s.vssSeenConfigs v = true → Processed s v)
    (fun _ _ _ hs hx h => tick_processed hs hx h) (fun _ h => absurd h Bool.false_ne_true)
    (along_of_forall _ hsteady) hrun v hv

end Seen

/-! ## A version that is written off -/

def smallCrypto : Crypto (ZMod 3) (ZMod 3) where
  base := 1
  recoverPubPoly := fun _ _ _ => some []
  unmarshalPublicShares := fun _ _ => []
  unmarshalPrivateShares := fun _ _ _ _ => []
  gunzip := id

def someNode : Self := ⟨.fill 7, []⟩

def soleAnswers (v upload : ℕ) : Answers where
  vssConfigVersion := v
  activeNodeList := [someNode.vssid]
  listErr := false
  waitRounds := [⟨1, 1, fun _ => upload, true⟩]
  vssThreshold := 1
  vssNodeIndex := 0
  vssNodeCount := 1
  nodesPubkey := fun _ => []
  lastConfigUploadBefore := fun _ => upload
  lastConfigUploadAfter := fun _ => upload
  publicShares := [fun _ => [0, 0]]
  privateShares := [fun _ => [0, 0]]
  pubRange := Ranging.listed
  priRange := Ranging.listed

def writtenOff (s : DKG (ZMod 3) (ZMod 3)) (v : ℤ) : Bool :=
  s.vssSeenConfigs v && (s.vssSettings v).isNone && s.reveals.isEmpty &&
    decide (s.currentConfigVersion < v)

/-- **A version is written off** when the wait gives up or the version changes within a tick. -/
theorem seen_config_written_off :
    (∃ s, run (tick smallCrypto someNode) (DKG.new (ZMod 3) (ZMod 3))
        [⟨1, soleAnswers 1 0, false⟩] = some s ∧ writtenOff s 1 = true) ∧
      ∃ s, run (tick smallCrypto someNode) (DKG.new (ZMod 3) (ZMod 3))
        [⟨1, soleAnswers 2 1, false⟩] = some s ∧ writtenOff s 1 = true :=
  ⟨exists_run (by decide +kernel) fun _ => by decide +kernel,
    exists_run (by decide +kernel) fun _ => by decide +kernel⟩

/-- The run in which the node has uploaded in time: the version is seen and its key is stored. -/
theorem seen_config_processed_sole :
    ∃ s, run (tick smallCrypto someNode) (DKG.new (ZMod 3) (ZMod 3))
        [⟨1, soleAnswers 1 1, false⟩] = some s ∧ s.vssSeenConfigs 1 = true ∧
      ((s.vssSettings 1).isSome ∨ (∃ addr, (1, addr) ∈ s.reveals) ∨
        1 ≤ s.currentConfigVersion) := by
  refine exists_run (by decide +kernel) fun hs => ⟨by decide +kernel, ?_⟩
  refine seen_config_processed smallCrypto someNode hs ?_ 1 (by decide +kernel)
  intro x hx
  rw [mem_singleton.mp hx]
  exact ⟨rfl, by decide⟩

/-! ## The history of keys -/

inductive KeyCall
  | update (answers : Answers)
  | set (vssConfigVersion : ℤ)

section Keys

variable {F P : Type}

structure KeysAre (h : List (BLS F P)) (s : DKG F P) : Prop where
  bls_eq : s.bls = h.head?
  prevbls_eq : s.prevbls = h.tail.take maximumBLSHistorySize
  nodup : (h.map BLS.id).Nodup
  stored : ∀ b ∈ h, ∃ w ≤ s.currentConfigVersion, s.vssSettings w = some b
  current : ∀ b, s.bls = some b → s.vssSettings s.currentConfigVersion = some b
  created : ∀ w b, s.vssSettings w = some b → b.id < s.created
  distinct : ∀ w w' b b', s.vssSettings w = some b → s.vssSettings w' = some b' →
    b.id = b'.id → w = w'

theorem head_append_take (h : List (BLS F P)) (n : ℕ) :
    h.head?.toList ++ h.tail.take n = h.take (n + 1) := by
  cases h <;> simp

theorem pushBLS_eq (h : List (BLS F P)) :
    pushBLS h.head? (h.tail.take maximumBLSHistorySize) = h.take maximumBLSHistorySize := by
  unfold pushBLS
  rw [head_append_take]
  simp only [length_take]
  split
  · rw [dropLast_eq_take, take_take, length_take]
    congr 1
    omega
  · rw [take_of_length_le (by omega), take_of_length_le (by omega)]

variable {h : List (BLS F P)} {s : DKG F P}

theorem KeysAre.vote (hs : KeysAre h s) {a : Answers}
    (hlt : s.currentConfigVersion < a.version) (poly : List P) (share : F) :
    KeysAre h (s.vote a poly share) := by
  have hold : ∀ w b, (s.vote a poly share).vssSettings w = some b →
      w = a.version ∧ b.id = s.created ∨ w ≠ a.version ∧ s.vssSettings w = some b := by
    intro w b hw
    by_cases hwa : w = a.version
    · subst hwa
      simp only [DKG.vote, update_self, Option.some.injEq] at hw
      exact .inl ⟨rfl, hw ▸ rfl⟩
    · simp only [DKG.vote, update_of_ne hwa] at hw
      exact .inr ⟨hwa, hw⟩
  have hkeep : ∀ w b, w ≤ s.currentConfigVersion → s.vssSettings w = some b →
      (s.vote a poly share).vssSettings w = some b := by
    intro w b hw hb
    simpa only [DKG.vote, update_of_ne (hw.trans_lt hlt).ne] using hb
  refine ⟨hs.bls_eq, hs.prevbls_eq, hs.nodup, ?_, ?_, ?_, ?_⟩
  · intro b hb
    obtain ⟨w, hw, hwb⟩ := hs.stored b hb
    exact ⟨w, hw, hkeep w b hw hwb⟩
  · intro b hb
    exact hkeep _ b le_rfl (hs.current b hb)
  · intro w b hw
    change b.id < s.created + 1
    rcases hold w b hw with ⟨-, hid⟩ | ⟨-, hw⟩
    · omega
    · exact Nat.lt_succ_of_lt (hs.created w b hw)
  · intro w w' b b' hw hw' hid
    -- the new object has a number that no stored object has
    rcases hold w b hw with ⟨rfl, hb⟩ | ⟨-, hw⟩ <;> rcases hold w' b' hw' with ⟨rfl, hb'⟩ | ⟨-, hw'⟩
    · rfl
    · exact absurd (hs.created w' b' hw') (by omega)
    · exact absurd (hs.created w b hw) (by omega)
    · exact hs.distinct w w' b b' hw hw' hid

theorem KeysAre.id_notMem (hs : KeysAre h s) {v : ℤ}
    {b : BLS F P} (hb : s.vssSettings v = some b) (hlt : s.currentConfigVersion < v) :
    b.id ∉ h.map BLS.id := by
  intro hmem
  obtain ⟨b', hb', hid⟩ := mem_map.mp hmem
  obtain ⟨w, hw, hwb⟩ := hs.stored b' hb'
  exact absurd (hs.distinct v w b b' hb hwb hid.symm) (by omega)

theorem KeysAre.setVssConfig (hs : KeysAre h s) (v : ℤ) :
    KeysAre (if (setVssConfig s v).bls.map BLS.id = s.bls.map BLS.id then h
      else (setVssConfig s v).bls.toList ++ h) (setVssConfig s v) := by
  obtain heq | ⟨b, hb, hlt, heq⟩ := setVssConfig_cases s v
  · rw [heq, if_pos rfl]
    exact hs
  · have hnew := hs.id_notMem hb hlt
    have hne : ¬ (some b).map BLS.id = s.bls.map BLS.id := by
      intro hid
      obtain ⟨b', hb', hid'⟩ := Option.map_eq_some_iff.mp hid.symm
      rw [hs.bls_eq] at hb'
      exact hnew (mem_map.mpr ⟨b', mem_of_mem_head? hb', hid'⟩)
    rw [heq]
    simp only [if_neg hne, Option.toList_some, singleton_append]
    refine ⟨rfl, ?_, nodup_cons.mpr ⟨hnew, hs.nodup⟩, ?_, ?_, hs.created, hs.distinct⟩
    · rw [hs.bls_eq, hs.prevbls_eq, pushBLS_eq, tail_cons]
    · intro b' hb'
      rcases mem_cons.mp hb' with rfl | hb'
      · exact ⟨v, le_rfl, hb⟩
      · obtain ⟨w, hw, hwb⟩ := hs.stored b' hb'
        exact ⟨w, hw.trans hlt.le, hwb⟩
    · intro b' hb'
      cases hb'
      exact hb

theorem keysAre_new : KeysAre [] (new F P) where
  bls_eq := rfl
  prevbls_eq := rfl
  nodup := nodup_nil
  stored := nofun
  current := nofun
  created := nofun
  distinct := fun _ _ _ _ h => absurd h.symm (Option.some_ne_none _)

theorem validateBLSSig_eq_any [AddCommGroup P] (hs : KeysAre h s)
    (verify : P → Bytes → Bytes → Bool) (toSign blsSig : Bytes) {blockNumber : ℤ}
    (hready : s.isVSSReady = true) (hblock : minBLSBlockNumber ≤ blockNumber) :
    validateBLSSig verify s toSign blsSig false blockNumber =
      (h.take (maximumBLSHistorySize + 1)).any fun bls =>
        verify (commit bls.groupPublicPoly) toSign blsSig := by
  have henabled : s.vssEnabled = true := (Bool.and_eq_true_iff.mp hready).1
  have hskip : s.shouldSkipVSS blockNumber = false := by
    simp [shouldSkipVSS, henabled, hblock]
  rw [← head_append_take, ← hs.bls_eq, ← hs.prevbls_eq]
  simp [validateBLSSig, hskip, hready]

variable [Field F] [AddCommGroup P] [Module F P] [DecidableEq P] {K : Crypto F P} {me : Self}

def keyStep (K : Crypto F P) (me : Self) (s : DKG F P) : KeyCall → Option (DKG F P)
  | .update a => (updateVSSConfig K me s a).map Prod.snd
  | .set v => some (setVssConfig s v)

/-- The key objects that have been current in a run, newest first, after those of `h`. -/
def activeKeys (K : Crypto F P) (me : Self) :
    DKG F P → List KeyCall → List (BLS F P) → List (BLS F P)
  | _, [], h => h
  | s, x :: xs, h =>
    match keyStep K me s x with
    | none => h
    | some t =>
      activeKeys K me t xs (if t.bls.map BLS.id = s.bls.map BLS.id then h else t.bls.toList ++ h)

theorem keyStep_keysAre {s t : DKG F P} {x : KeyCall} (hs : KeysAre h s)
    (hstep : keyStep K me s x = some t) :
    KeysAre (if t.bls.map BLS.id = s.bls.map BLS.id then h else t.bls.toList ++ h) t ∧
      s.currentConfigVersion ≤ t.currentConfigVersion := by
  cases x with
  | update a =>
    obtain ⟨⟨r, t⟩, hup, rfl⟩ := Option.map_eq_some_iff.mp hstep
    obtain ⟨-, rfl⟩ | ⟨-, rfl, -⟩ | ⟨-, notVerify, -, rfl⟩ | ⟨-, hlt, poly, share, -, rfl⟩ :=
      updateVSSConfig_cases hup
    · rw [if_pos rfl]
      exact ⟨hs, le_rfl⟩
    · rw [if_pos rfl]
      exact ⟨hs, le_rfl⟩
    · refine ⟨?_, le_rfl⟩
      rw [if_pos (by rfl)]
      exact { hs with }
    · refine ⟨?_, le_rfl⟩
      rw [if_pos (by rfl)]
      exact hs.vote hlt poly share
  | set v =>
    cases hstep
    refine ⟨hs.setVssConfig v, ?_⟩
    obtain heq | ⟨_, _, hlt, heq⟩ := setVssConfig_cases s v
    · rw [heq]
    · rw [heq]
      exact hlt.le

theorem run_keysAre :
    ∀ {xs : List KeyCall} {h : List (BLS F P)} {s t : DKG F P}, KeysAre h s →
      run (keyStep K me) s xs = some t → KeysAre (activeKeys K me s xs h) t
  | [], h, s, t, hs, hrun => by
    cases hrun
    exact hs
  | x :: xs, h, s, t, hs, hrun => by
    obtain ⟨u, hsu, hut⟩ := run_cons_eq_some.mp hrun
    rw [activeKeys, hsu]
    exact run_keysAre (keyStep_keysAre hs hsu).1 hut

theorem run_currentConfigVersion_le {s t : DKG F P} {xs : List KeyCall} (hs : KeysAre h s)
    (hrun : run (keyStep K me) s xs = some t) :
    s.currentConfigVersion ≤ t.currentConfigVersion := by
  refine (run_invariant (I := fun u : DKG F P =>
    (∃ h, KeysAre h u) ∧ s.currentConfigVersion ≤ u.currentConfigVersion) ?_ ⟨⟨h, hs⟩, le_rfl⟩
    hrun).2
  rintro u x t ⟨⟨h, hu⟩, hle⟩ hstep
  have hnext := keyStep_keysAre hu hstep
  exact ⟨⟨_, hnext.1⟩, hle.trans hnext.2⟩

/-- **The history of keys is consistent.** -/
theorem key_history_consistent (K : Crypto F P) (me : Self) {xs : List KeyCall}
    (hrun : run (keyStep K me) (DKG.new F P) xs = some s) :
    (∀ ys t, run (keyStep K me) s ys = some t → s.currentConfigVersion ≤ t.currentConfigVersion) ∧
      (s.bls = none ∨ s.bls = s.vssSettings s.currentConfigVersion) ∧
      s.prevbls.length ≤ maximumBLSHistorySize ∧
      s.bls = (activeKeys K me (DKG.new F P) xs []).head? ∧
      s.prevbls = (activeKeys K me (DKG.new F P) xs []).tail.take maximumBLSHistorySize ∧
      ((activeKeys K me (DKG.new F P) xs []).map BLS.id).Nodup ∧
      ∀ (verify : P → Bytes → Bytes → Bool) (toSign blsSig : Bytes) (blockNumber : ℤ),
        s.isVSSReady = true → minBLSBlockNumber ≤ blockNumber →
        (validateBLSSig verify s toSign blsSig false blockNumber = true ↔
          ∃ bls ∈ (activeKeys K me (DKG.new F P) xs []).take (maximumBLSHistorySize + 1),
            verify (commit bls.groupPublicPoly) toSign blsSig = true) := by
  have hs : KeysAre (activeKeys K me (new F P) xs []) s := run_keysAre keysAre_new hrun
  refine ⟨fun ys t ht => run_currentConfigVersion_le hs ht, ?_, ?_, hs.bls_eq, hs.prevbls_eq,
    hs.nodup, ?_⟩
  · rcases hbls : s.bls with _ | b
    · exact .inl rfl
    · exact .inr (hs.current b hbls).symm
  · rw [hs.prevbls_eq, length_take]
    exact min_le_left _ _
  · intro verify toSign blsSig blockNumber hready hblock
    rw [validateBLSSig_eq_any hs verify toSign blsSig hready hblock, any_eq_true]

end Keys

/-- Two versions are voted for and switched to in turn: the first key is then the only
earlier one. -/
theorem key_history_consistent_two :
    ∃ s, run (keyStep smallCrypto someNode) (DKG.new (ZMod 3) (ZMod 3))
        [.update (soleAnswers 1 1), .set 1, .update (soleAnswers 2 1), .set 2] = some s ∧
      s.prevbls.map BLS.id = [0] ∧ (s.bls.map BLS.id) = some 1 ∧
      (s.bls = none ∨ s.bls = s.vssSettings s.currentConfigVersion) :=
  exists_run (by decide +kernel) fun hs => ⟨by decide +kernel, by decide +kernel,
    (key_history_consistent smallCrypto someNode hs).2.1⟩

end XChain.Vss
