import XChain.Lib.Slots
import XChain.Rpc.Client

/-!
# Reconnecting while a message is read

When `dispatch` takes a new connection while the read goroutine of the old one is running, it closes
the old connection and waits for the error of that goroutine, and for nothing else. A read goroutine
that has a message waits for `dispatch` to take it.

* **`never_stuck`**: in a run without such steps they never do;
* **`reconnect_deadlocks`**: a run that does.
-/

namespace XChain.RpcClient

open StepMachine Slots List Option Bool

variable (unmarshal : GoText.Bytes → Except Error GoText.Bytes)
  (ranging : Order) {a : Act} {j : ℕ} {c d : Client} {r : Reader}

def Reader.offers : Reader → Bool
  | .offering _ => true
  | _ => false

def Reader.live (r : Reader) : Bool := r ≠ .gone

/-- **Deadlock.** `dispatch` waits for `readErr` and the only live read goroutine for `readResp`. -/
def Client.Stuck (c : Client) : Prop :=
  c.dispatch = .waiting ∧ ∃ (j : ℕ) (batch : List (Option Message)),
    c.readers[j]? = some (.offering batch) ∧ ∀ i, i ≠ j → ∀ r, c.readers[i]? = some r → r = .gone

/-- No message is offered when `dispatch` takes a new connection or waits for the old one. -/
def Calm (c : Client) : Act → Prop
  | .reconnected => c.reading = true → ∀ r ∈ c.readers, r.offers = false
  | .decode _ _ => c.dispatch ≠ .waiting
  | _ => True

instance (c : Client) (a : Act) : Decidable (Calm c a) := by
  unfold Calm
  split <;> infer_instance

/-! ## The loops -/

/-- The part of the client that the table of operations has nothing to do with. -/
structure Loops where
  dispatch : Dispatch
  reading : Bool
  readers : List Reader

variable {l : Loops}

def Client.loops (c : Client) : Loops := ⟨c.dispatch, c.reading, c.readers⟩

namespace Client

variable (c : Client)

theorem loops_lost (err : Error) :
    ({ c.closeRequestOps ranging err with reading := false } : Client).loops =
      ⟨c.dispatch, false, c.readers⟩ := by
  unfold closeRequestOps
  split <;> rfl

theorem loops_handleResponse (msg : Message) : (c.handleResponse unmarshal msg).loops = c.loops :=
    by
  unfold handleResponse forward subscribed
  repeat' split
  all_goals rfl

theorem loops_sent (err : Option Error) : (c.sent err).loops = c.loops := by
  unfold sent
  dsimp only
  repeat' split
  all_goals rfl

theorem loops_quit : (c.quit ranging).loops =
    ⟨if c.reading then .draining else .ended, c.reading, c.readers⟩ := by
  unfold quit closeRequestOps
  split <;> rfl

end Client

inductive LoopStep (l : Loops) : Act → Loops → Prop
  | stay (a : Act) : LoopStep l a l
  | replace (h : l.dispatch = .select) (hr : l.reading = true) :
      LoopStep l .reconnected { l with dispatch := .waiting }
  | restart (h : l.dispatch = .select) (hr : l.reading = false) :
      LoopStep l .reconnected { l with readers := l.readers ++ [.reading], reading := true }
  | decode (j : ℕ) (batch : List (Option Message)) (h : l.readers[j]? = some .reading) :
      LoopStep l (.decode j batch) { l with readers := l.readers.set j (.offering batch) }
  | fail (j : ℕ) (err : Error) (h : l.readers[j]? = some .reading) :
      LoopStep l (.fail j err) { l with readers := l.readers.set j (.failing err) }
  | take (j : ℕ) (batch : List (Option Message)) (h : l.readers[j]? = some (.offering batch))
      (hd : l.dispatch = .select) :
      LoopStep l (.readResp j)
        { l with dispatch := .handling batch, readers := l.readers.set j .reading }
  | discard (j : ℕ) (batch : List (Option Message)) (h : l.readers[j]? = some (.offering batch))
      (hd : l.dispatch = .draining) :
      LoopStep l (.readResp j) { l with readers := l.readers.set j .reading }
  | lost (j : ℕ) (err : Error) {order : Order} (h : l.readers[j]? = some (.failing err))
      (hd : l.dispatch = .select) :
      LoopStep l (.readErr j order) { l with readers := l.readers.set j .gone, reading := false }
  | replaced (j : ℕ) (err : Error) {order : Order} (h : l.readers[j]? = some (.failing err))
      (hd : l.dispatch = .waiting) :
      LoopStep l (.readErr j order) ⟨.select, true, l.readers.set j .gone ++ [.reading]⟩
  | drained (j : ℕ) (err : Error) {order : Order} (h : l.readers[j]? = some (.failing err))
      (hd : l.dispatch = .draining) :
      LoopStep l (.readErr j order) { l with readers := l.readers.set j .gone, dispatch := .ended }
  | next (batch rest : List (Option Message)) {order : Order}
      (h : l.dispatch = .handling batch) (d : Dispatch) (hd : d = .select ∨ d = .handling rest) :
      LoopStep l (.handle order) { l with dispatch := d }
  | quit (a : Act) (h : l.dispatch = .select ∨ ∃ batch, l.dispatch = .handling batch) :
      LoopStep l a { l with dispatch := if l.reading then .draining else .ended }

open Client

theorem loopStep_of_step (h : step unmarshal c a = some d) :
    LoopStep c.loops a d.loops := by
  obtain ⟨-, h⟩ := ite_none_left_eq_some.mp h
  cases a with
  | request r | write err | abandon =>
    obtain ⟨-, rfl⟩ := of_guard h
    exact .stay _
  | connect err =>
    obtain ⟨-, h⟩ := ite_none_right_eq_some.mp h
    cases err <;> cases h <;> exact .stay _
  | reconnected =>
    obtain ⟨⟨hd, -⟩, rfl⟩ := of_guard h
    unfold reconnected
    dsimp only
    split
    · exact .replace hd (by assumption)
    · rename_i hr
      exact .restart hd (eq_false_iff.mpr hr)
  | sendDone =>
    dsimp only at h
    split at h
    · cases h
      rw [loops_sent]
      exact .stay _
    · cases h
  | decode j batch =>
    obtain ⟨hj, rfl⟩ := of_guard h
    exact .decode j batch hj
  | fail j err =>
    obtain ⟨hj, rfl⟩ := of_guard h
    exact .fail j err hj
  | readResp j =>
    dsimp only at h
    split at h
    · rename_i batch hd hj
      cases h
      exact .take j batch hj hd
    · rename_i batch hd hj
      cases h
      exact .discard j batch hj hd
    · cases h
  | readErr j ranging =>
    dsimp only at h
    split at h
    · rename_i err hj
      unfold readFailed at h
      dsimp only at h
      split at h
      · rename_i hd
        cases h
        rw [loops_lost]
        exact .lost j err hj hd
      · rename_i hd
        cases h
        exact .replaced j err hj hd
      · rename_i hd
        cases h
        exact .drained j err hj hd
      · cases h
    · cases h
  | handle ranging =>
    dsimp only at h
    split at h
    · rename_i batch hd
      cases h
      match batch with
      | [] => exact .next [] [] hd .select (.inl rfl)
      | none :: rest =>
        rw [handle, loops_quit]
        exact .quit _ (.inr ⟨_, hd⟩)
      | some msg :: rest =>
        have hnext : LoopStep c.loops (.handle ranging) _ :=
          .next _ rest hd (.handling rest) (.inr rfl)
        unfold handle
        dsimp only
        split_ifs
        · exact hnext
        · rw [loops_handleResponse]
          exact hnext
        · exact hnext
    · cases h
  | close ranging =>
    obtain ⟨hd, rfl⟩ := of_guard h
    rw [loops_quit]
    exact .quit _ (.inl hd)
  | receive k =>
    dsimp only at h
    split at h
    · obtain ⟨-, rfl⟩ := of_guard h
      exact .stay _
    · cases h

/-! ## The live read goroutine -/

/-- There is one live read goroutine while `reading` is set, except that the last one is gone when
`dispatch` has ended. -/
structure Loops.Live (l : Loops) : Prop where
  running : l.dispatch ≠ .ended → l.readers.countP Reader.live = l.reading.toNat
  ended : l.dispatch = .ended → l.readers.countP Reader.live = 0
  waiting : l.dispatch = .waiting ∨ l.dispatch = .draining → l.reading = true

open Reader

theorem live_set {r q : Reader} (hl : l.Live) (hj : l.readers[j]? = some r) (hr : r.live = q.live) :
    ({ l with readers := l.readers.set j q } : Loops).Live := by
  have hcount : (l.readers.set j q).countP live = l.readers.countP live := by
    have := countP_set live q hj
    rw [hr] at this
    exact Nat.add_right_cancel this
  exact ⟨fun hd => hcount.trans (hl.running hd), fun hd => hcount.trans (hl.ended hd), hl.waiting⟩

theorem Loops.Live.of_dispatch {d : Dispatch} (hl : l.Live) (hne : l.dispatch ≠ .ended)
    (hended : d = .ended → l.reading = false)
    (hwaiting : d = .waiting ∨ d = .draining → l.reading = true) :
    ({ l with dispatch := d } : Loops).Live := by
  refine ⟨fun _ => hl.running hne, fun hd => ?_, hwaiting⟩
  have := hl.running hne
  rwa [hended hd] at this

theorem live_loopStep {l m : Loops} (hl : l.Live) (h : LoopStep l a m) : m.Live := by
  -- the read goroutine whose error is taken is gone, and no other is live
  have hgone : ∀ {j : ℕ} {err : Error}, l.readers[j]? = some (.failing err) →
      (l.readers.set j .gone).countP live + 1 = l.readers.countP live :=
    fun hj => countP_set live .gone hj
  cases h with
  | stay => exact hl
  | replace hd hr =>
    exact hl.of_dispatch (ne_of_eq_of_ne hd nofun) Dispatch.noConfusion fun _ => hr
  | restart hd hr =>
    have hcount := hl.running (ne_of_eq_of_ne hd nofun)
    rw [hr] at hcount
    refine ⟨fun _ => ?_, fun he => (nomatch hd.symm.trans he), fun _ => rfl⟩
    rw [countP_append, hcount]
    rfl
  | decode j batch hj | fail j err hj | discard j batch hj hd => exact live_set hl hj rfl
  | take j batch hj hd =>
    refine Loops.Live.of_dispatch (live_set hl hj (q := .reading) rfl) ?_ Dispatch.noConfusion ?_
    · exact fun he => nomatch hd.symm.trans he
    · rintro (hw | hw) <;> cases hw
  | lost j err hj hd =>
    have hcount := hl.running (ne_of_eq_of_ne hd nofun)
    have := hgone hj
    refine ⟨fun _ => ?_, fun he => (nomatch hd.symm.trans he), ?_⟩
    · have := toNat_le l.reading
      change (l.readers.set j .gone).countP live = 0
      omega
    · rintro (hw | hw) <;> exact nomatch hd.symm.trans hw
  | replaced j err hj hd =>
    have hcount := hl.running (ne_of_eq_of_ne hd nofun)
    have := hgone hj
    rw [hl.waiting (.inl hd), toNat_true] at hcount
    refine ⟨fun _ => ?_, Dispatch.noConfusion, fun _ => rfl⟩
    rw [countP_append]
    change _ + 1 = 1
    omega
  | drained j err hj hd =>
    have hcount := hl.running (ne_of_eq_of_ne hd nofun)
    have := hgone hj
    rw [hl.waiting (.inr hd), toNat_true] at hcount
    refine ⟨fun he => absurd rfl he, fun _ => ?_, ?_⟩
    · change (l.readers.set j .gone).countP live = 0
      omega
    · rintro (hw | hw) <;> cases hw
  | next batch rest hd d hnext =>
    refine hl.of_dispatch (ne_of_eq_of_ne hd nofun) ?_ ?_
    · rintro rfl
      rcases hnext with hd | hd <;> cases hd
    · rintro (rfl | rfl) <;> rcases hnext with hd | hd <;> cases hd
  | quit _ hd =>
    refine hl.of_dispatch ?_ ?_ ?_
    · rcases hd with hd | ⟨batch, hd⟩ <;> rw [hd] <;> exact Dispatch.noConfusion
    · intro he
      split at he
      · cases he
      · rename_i hr
        exact eq_false_iff.mpr hr
    · intro hw
      split at hw
      · assumption
      · rcases hw with hw | hw <;> cases hw

theorem Loops.Live.others_gone (hl : l.Live) (hj : l.readers[j]? = some r) (hr : r.live = true) :
    ∀ i, i ≠ j → ∀ q, l.readers[i]? = some q → q = .gone := by
  have hle : l.readers.countP live ≤ 1 := by
    by_cases he : l.dispatch = .ended
    · rw [hl.ended he]
      exact Nat.zero_le _
    · rw [hl.running he]
      exact toNat_le _
  have hcount := countP_set live .gone hj
  rw [hr] at hcount
  have hzero : (l.readers.set j .gone).countP live = 0 := by
    change _ + 1 = _ + 0 at hcount
    omega
  intro i hij q hi
  rw [← getElem?_set_ne hij.symm] at hi
  have := countP_eq_zero.mp hzero q (mem_of_getElem? hi)
  simpa [live] using this

/-! ## Two loops that wait for each other -/

/-- A read goroutine does not offer a message while `dispatch` waits for its error. -/
def Loops.Quiet (l : Loops) : Prop := l.dispatch = .waiting → ∀ r ∈ l.readers, r.offers = false

theorem quiet_set (hl : l.Quiet) (hr : r.offers = false) :
    ({ l with readers := l.readers.set j r } : Loops).Quiet := by
  intro hw x hx
  rcases mem_or_eq_of_mem_set hx with hx | rfl
  · exact hl hw x hx
  · exact hr

theorem quiet_loopStep {c : Client} {m : Loops} (hl : c.loops.Quiet) (hcalm : Calm c a)
    (h : LoopStep c.loops a m) : m.Quiet := by
  cases h with
  | stay => exact hl
  | replace hd hr => exact fun _ => hcalm hr
  | restart hd hr | lost j err hj hd => exact fun hw => nomatch hd.symm.trans hw
  | decode j batch hj => exact fun hw => absurd hw hcalm
  | fail j err hj | discard j batch hj hd => exact quiet_set hl rfl
  | take j batch hj hd | replaced j err hj hd | drained j err hj hd => exact Dispatch.noConfusion
  | next batch rest hd d hnext =>
    intro hw
    rcases hnext with rfl | rfl <;> cases hw
  | quit _ hd =>
    intro hw
    split at hw <;> cases hw

theorem stuck_of_not_calm (hl : c.loops.Live) (hcalm : ¬ Calm c a)
    (h : step unmarshal c a = some d) : d.Stuck := by
  obtain ⟨-, h⟩ := ite_none_left_eq_some.mp h
  cases a with
  | reconnected =>
    obtain ⟨⟨hd, -⟩, rfl⟩ := of_guard h
    obtain ⟨hr, hoffer⟩ : c.reading = true ∧ ∃ r ∈ c.readers, r.offers = true := by
      simpa [Calm] using hcalm
    obtain ⟨r, hmem, hoffers⟩ := hoffer
    obtain ⟨j, hj⟩ := getElem?_of_mem hmem
    obtain ⟨batch, rfl⟩ : ∃ batch, r = .offering batch := by
      cases r <;> first | exact ⟨_, rfl⟩ | cases hoffers
    unfold reconnected
    rw [if_pos hr]
    exact ⟨rfl, j, batch, hj, hl.others_gone hj rfl⟩
  | decode j batch =>
    obtain ⟨hj, rfl⟩ := of_guard h
    have hlt : j < c.readers.length := (List.getElem?_eq_some_iff.mp hj).1
    refine ⟨not_not.mp hcalm, j, batch, getElem?_set_self hlt, fun i hij q hi => ?_⟩
    rw [getElem?_set_ne hij.symm] at hi
    exact hl.others_gone hj rfl i hij q hi
  | _ => exact absurd trivial hcalm

/-- **The loops do not wait for each other.** -/
theorem never_stuck {as : List Act} {c : Client} (h : run (step unmarshal) newClient as = some c) :
    Along (step unmarshal) Calm newClient as ↔
      ∀ bs cs d, as = bs ++ cs → run (step unmarshal) newClient bs = some d → ¬ d.Stuck := by
  constructor
  · rintro hcalm bs cs d rfl hd ⟨hw, j, batch, hj, -⟩
    have hquiet : d.loops.Quiet := by
      refine run_invariant_along (I := fun c => c.loops.Quiet) ?_ ?_ hcalm.of_append hd
      · intro s a t hs ha hst
        exact quiet_loopStep hs ha (loopStep_of_step unmarshal hst)
      · exact Dispatch.noConfusion
    exact Bool.noConfusion (hquiet hw _ (mem_of_getElem? hj))
  · refine along_of_no_bad (I := fun c => c.loops.Live) ?_ ?_ ⟨fun _ => rfl, ?_, ?_⟩ h
    · exact fun s a t hs _ hst => live_loopStep hs (loopStep_of_step unmarshal hst)
    · exact fun s a t hs hok hst => stuck_of_not_calm unmarshal hs hok hst
    · exact Dispatch.noConfusion
    · rintro (hw | hw) <;> cases hw

def failedRun : List Act :=
  [.request (.batch [1]), .write (some (.other [])), .sendDone, .request (.batch [2]),
    .connect none, .fail 0 (.other []), .reconnected, .readErr 0 .listed, .write none, .sendDone]

theorem never_stuck_failed : ∃ c : Client,
    run (step .ok) newClient failedRun = some c ∧ c.readers = [.gone, .reading] ∧
      ∀ bs cs d, failedRun = bs ++ cs → run (step .ok) newClient bs = some d → ¬ d.Stuck :=
  exists_run (by decide +kernel) fun hrun =>
    ⟨by decide +kernel, (never_stuck _ hrun).mp (by decide +kernel)⟩

def crossedRun : List Act :=
  [.request (.batch [1]), .write (some (.other [])), .sendDone, .request (.batch [2]),
    .connect none, .decode 0 [], .reconnected]

/-- **A reconnect can deadlock.** -/
theorem reconnect_deadlocks : ∃ c : Client,
    run (step .ok) newClient crossedRun = some c ∧ c.Stuck := by
  obtain ⟨c, hrun, hd, hreaders⟩ : ∃ c : Client, run (step .ok) newClient crossedRun =
      some c ∧ c.dispatch = .waiting ∧ c.readers = [.offering []] :=
    exists_run (by decide +kernel) fun _ => by decide +kernel
  refine ⟨c, hrun, hd, 0, [], by rw [hreaders]; rfl, ?_⟩
  intro i hi r hr
  rw [hreaders, getElem?_singleton, if_neg hi] at hr
  cases hr

end XChain.RpcClient
