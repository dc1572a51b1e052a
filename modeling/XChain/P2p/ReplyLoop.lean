import XChain.Lib.LinkedList
import XChain.Lib.Machine

/-!
# Waiting for replies

`udp.loop` of `p2p/discover/udp.go`: the entries that wait for replies, in the order in which they
came. In three places entries are removed from the list that is walked. An entry is a pointer
(`ref`); `called` records the callbacks of the last reply, `results` what was sent to whom.

* **`served_iff`**: when all rounds are served;
* **`replies_lost`**: two entries for one reply, and two entries when the clock jumps.
-/

namespace XChain.Udp

open GoList List StepMachine Udp

def respTimeout : ℤ := 500000000

def ntpFailureThreshold : ℕ := 32

/-- `ntpWarningCooldown`, in nanoseconds. -/
def ntpWarningCooldown : ℤ := 600000000000

section Source

variable {ID : Type} [DecidableEq ID]

structure Pending (ID : Type) where
  ref : ℕ
  sender : ID
  ptype : UInt8
  deadline : ℤ
deriving DecidableEq

inductive Result
  | done
  | errTimeout
  | errClockWarp
  | errClosed
deriving DecidableEq

/-- The variables of the loop. `timer` is the entry the timer is armed for. -/
structure Loop (ID : Type) where
  plist : List (Pending ID)
  nextTimeout : Option ℕ
  timer : Option ℕ
  contTimeouts : ℕ
  ntpWarnTime : ℤ
  driftChecks : ℕ
  called : List ℕ
  results : List (ℕ × Result)
  nextRef : ℕ
  closed : Bool

def newLoop : Loop ID := ⟨[], none, none, 0, 0, 0, [], [], 0, false⟩

def Loop.send (s : Loop ID) (p : Pending ID) (r : Result) : Loop ID :=
  { s with results := s.results ++ [(p.ref, r)] }

def resetBody (now : ℤ) (s : Loop ID) (p : Pending ID) : Loop ID × Visit :=
  let s := { s with nextTimeout := some p.ref }
  if p.deadline - now < 2 * respTimeout then ({ s with timer := some p.ref }, .leave)
  else (s.send p .errClockWarp, .remove)

def resetTimeout (now : ℤ) (s : Loop ID) : Loop ID :=
  match s.plist with
  | [] => s
  | p :: _ =>
    if s.nextTimeout = some p.ref then s
    else
      let (plist, s, left) := loop (resetBody now) s.plist s
      if left then { s with plist := plist }
      else { s with plist := plist, nextTimeout := none, timer := none }

def matching (sender : ID) (ptype : UInt8) (p : Pending ID) : Bool :=
  decide (p.sender = sender ∧ p.ptype = ptype)

def replyBody (sender : ID) (ptype : UInt8) (answers : ℕ → Bool) (s : Loop ID) (p : Pending ID) :
    Loop ID × Visit :=
  if matching sender ptype p then
    let s := { s with called := s.called ++ [p.ref], contTimeouts := 0 }
    if answers p.ref then (s.send p .done, .remove) else (s, .keep)
  else (s, .keep)

def tickBody (now : ℤ) (s : Loop ID) (p : Pending ID) : Loop ID × Visit :=
  if p.deadline ≤ now then
    ({ s.send p .errTimeout with contTimeouts := s.contTimeouts + 1 }, .remove)
  else (s, .keep)

def checkDrift (clock : ℤ) (s : Loop ID) : Loop ID :=
  if ntpFailureThreshold < s.contTimeouts then
    if ntpWarningCooldown ≤ clock - s.ntpWarnTime then
      { s with ntpWarnTime := clock, driftChecks := s.driftChecks + 1, contTimeouts := 0 }
    else { s with contTimeouts := 0 }
  else s

inductive Event (ID : Type)
  | closing
  | pending (sender : ID) (ptype : UInt8) (now : ℤ)
  | reply (sender : ID) (ptype : UInt8) (answers : ℕ → Bool)
  | tick (now clock : ℤ)

def handle (s : Loop ID) : Event ID → Loop ID
  | .closing =>
    { s with results := s.results ++ s.plist.map fun p => (p.ref, .errClosed), closed := true }
  | .pending sender ptype now =>
    { s with
      plist := s.plist ++ [⟨s.nextRef, sender, ptype, now + respTimeout⟩]
      nextRef := s.nextRef + 1 }
  | .reply sender ptype answers =>
    let (plist, s, _) := loop (replyBody sender ptype answers) s.plist { s with called := [] }
    { s with plist := plist }
  | .tick now clock =>
    let s := { s with nextTimeout := none, timer := none }
    let (plist, s, _) := loop (tickBody now) s.plist s
    checkDrift clock { s with plist := plist }

/-- An event, and the clock when the timer is reset after it. -/
structure Round (ID : Type) where
  event : Event ID
  now : ℤ

def step (s : Loop ID) (r : Round ID) : Option (Loop ID) :=
  if s.closed then none
  else
    let s := handle s r.event
    some (if s.closed then s else resetTimeout r.now s)

end Source

/-! ## Replies reach all that wait -/

section Spec

variable {ID : Type} [DecidableEq ID]

def waiting (sender : ID) (ptype : UInt8) (s : Loop ID) : List ℕ :=
  (s.plist.filter (matching sender ptype)).map Pending.ref

/-- A reply goes to all entries that wait for it, and the timer is armed when the loop waits. -/
structure Served (s : Loop ID) (r : Round ID) (t : Loop ID) : Prop where
  passed : ∀ sender ptype answers, r.event = .reply sender ptype answers →
    t.called = waiting sender ptype s
  once : (t.results.map Prod.fst).Nodup
  armed : t.closed = false → t.plist ≠ [] → ∃ p ∈ t.plist, t.timer = some p.ref

/-- No reply completes an entry that has another one for the same reply after it. -/
def ReplyOk (s : Loop ID) : Event ID → Prop
  | .reply sender ptype answers => s.plist.Pairwise fun p q =>
    matching sender ptype p = true → answers p.ref = true → matching sender ptype q = false
  | _ => True

/-- No entry is removed for its deadline while there are others. -/
def ResetOk (now : ℤ) (s : Loop ID) : Prop :=
  ∀ p q rest, s.plist = p :: q :: rest →
    s.nextTimeout = some p.ref ∨ p.deadline - now < 2 * respTimeout

def RoundOk (s : Loop ID) (r : Round ID) : Prop :=
  s.closed = false → ReplyOk s r.event ∧
    ((handle s r.event).closed = false → ResetOk r.now (handle s r.event))

end Spec

/-! ## Rounds -/

section Rounds

variable {ID : Type} {s t : Loop ID}

/-- No entry of the list had a result, and the timer is armed for the entry of the loop. -/
structure Inv (s : Loop ID) : Prop where
  nodup : (s.plist.map Pending.ref ++ s.results.map Prod.fst).Nodup
  lt : ∀ i ∈ s.plist.map Pending.ref ++ s.results.map Prod.fst, i < s.nextRef
  timer : ∀ i, s.nextTimeout = some i → s.timer = some i

theorem inv_newLoop : Inv (newLoop : Loop ID) := ⟨nodup_nil, nofun, nofun⟩

theorem Inv.results (h : Inv s) : (s.results.map Prod.fst).Nodup := h.nodup.of_append_right

theorem Inv.plist (h : Inv s) : s.plist.Nodup := h.nodup.of_append_left.of_map _

theorem Inv.of_perm (h : Inv s)
    (hperm : (t.plist.map Pending.ref ++ t.results.map Prod.fst).Perm
      (s.plist.map Pending.ref ++ s.results.map Prod.fst))
    (hnext : t.nextRef = s.nextRef) (htimer : ∀ i, t.nextTimeout = some i → t.timer = some i) :
    Inv t :=
  ⟨hperm.nodup_iff.mpr h.nodup, fun i hi => hnext ▸ h.lt i (hperm.mem_iff.mp hi), htimer⟩

theorem results_send (s : Loop ID) (p : Pending ID) (r : Result) :
    ((s.send p r).results.map Prod.fst).Perm (p.ref :: s.results.map Prod.fst) := by
  unfold Loop.send
  rw [map_append]
  exact perm_append_singleton _ _

variable [DecidableEq ID]

/-! ### The timer -/

theorem resetTimeout_cons (now : ℤ) {p : Pending ID} {rest : List (Pending ID)}
    (hplist : s.plist = p :: rest) (hnodup : s.plist.Nodup) :
    resetTimeout now s =
      if s.nextTimeout = some p.ref then s
      else if p.deadline - now < 2 * respTimeout then
        { s with nextTimeout := some p.ref, timer := some p.ref }
      else { s.send p .errClockWarp with plist := rest, nextTimeout := none, timer := none } := by
  unfold resetTimeout
  rw [loop_eq_walk _ hnodup, hplist]
  rw [walk, resetBody]
  by_cases hnear : p.deadline - now < 2 * respTimeout
  · rw [if_pos hnear, if_pos hnear]
    dsimp only
    rw [if_pos rfl, ← hplist]
  · rw [if_neg hnear, if_neg hnear]
    rfl

theorem Inv.resetTimeout (h : Inv s) (now : ℤ) : Inv (resetTimeout now s) := by
  cases hplist : s.plist with
  | nil =>
    unfold Udp.resetTimeout
    rw [hplist]
    exact h
  | cons p rest =>
    rw [resetTimeout_cons now hplist h.plist]
    split_ifs
    · exact h
    · exact ⟨h.nodup, h.lt, fun i hi => hi⟩
    · refine h.of_perm ?_ rfl nofun
      rw [hplist]
      exact ((results_send s p .errClockWarp).append_left _).trans perm_middle

theorem resetTimeout_kept (h : Inv s) (now : ℤ) :
    (resetTimeout now s).called = s.called ∧ (resetTimeout now s).closed = s.closed := by
  cases hplist : s.plist with
  | nil =>
    unfold resetTimeout
    rw [hplist]
    exact ⟨rfl, rfl⟩
  | cons p rest =>
    rw [resetTimeout_cons now hplist h.plist]
    split_ifs <;> exact ⟨rfl, rfl⟩

theorem armed_iff (h : Inv s) (now : ℤ) :
    ((resetTimeout now s).plist ≠ [] →
      ∃ p ∈ (resetTimeout now s).plist, (resetTimeout now s).timer = some p.ref) ↔
      ResetOk now s := by
  cases hplist : s.plist with
  | nil =>
    have hsame : resetTimeout now s = s := by
      unfold resetTimeout
      rw [hplist]
    rw [hsame]
    refine ⟨fun _ p q rest hcons => ?_, fun _ hne => absurd hplist hne⟩
    cases hplist.symm.trans hcons
  | cons p rest =>
    have hfront : p ∈ s.plist := hplist ▸ mem_cons_self
    unfold ResetOk
    rw [resetTimeout_cons now hplist h.plist, hplist]
    split_ifs with hnext hnear
    · refine ⟨fun _ p' q rest' hcons => ?_, fun _ _ => ⟨p, hfront, h.timer _ hnext⟩⟩
      cases hcons
      exact .inl hnext
    · refine ⟨fun _ p' q rest' hcons => ?_, fun _ _ => ⟨p, mem_cons_self, rfl⟩⟩
      cases hcons
      exact .inr hnear
    · -- the first entry is removed, and the timer stopped
      constructor
      · intro harmed p' q rest' hcons
        cases hcons
        obtain ⟨-, -, hnone⟩ := harmed (cons_ne_nil q rest')
        cases hnone
      · intro hok hne
        cases rest with
        | nil => exact absurd rfl hne
        | cons q rest =>
          exact absurd (hok p q rest rfl) (not_or.mpr ⟨hnext, hnear⟩)

/-! ### Replies -/

def heard (sender : ID) (ptype : UInt8) (answers : ℕ → Bool) : List (Pending ID) → List ℕ
  | [] => []
  | p :: l =>
    if matching sender ptype p then
      p.ref :: if answers p.ref then [] else heard sender ptype answers l
    else heard sender ptype answers l

theorem walk_called (sender : ID) (ptype : UInt8) (answers : ℕ → Bool) :
    ∀ (l : List (Pending ID)) (s : Loop ID),
      (walk (replyBody sender ptype answers) l s).2.1.called =
        s.called ++ heard sender ptype answers l
  | [], s => (append_nil _).symm
  | p :: l, s => by
    rw [walk, heard, replyBody]
    by_cases hp : matching sender ptype p = true
    · rw [if_pos hp, if_pos hp]
      by_cases ha : answers p.ref = true
      · rw [if_pos ha, if_pos ha]
        rfl
      · rw [if_neg ha, if_neg ha]
        rw [walk_called sender ptype answers l, append_assoc]
        rfl
    · rw [if_neg hp, if_neg hp]
      exact walk_called sender ptype answers l s

theorem heard_eq_iff (sender : ID) (ptype : UInt8) (answers : ℕ → Bool) :
    ∀ l : List (Pending ID), heard sender ptype answers l =
        (l.filter (matching sender ptype)).map Pending.ref ↔
      l.Pairwise fun p q => matching sender ptype p = true → answers p.ref = true →
        matching sender ptype q = false
  | [] => ⟨fun _ => Pairwise.nil, fun _ => rfl⟩
  | p :: l => by
    have ih := heard_eq_iff sender ptype answers l
    rw [heard, pairwise_cons]
    by_cases hp : matching sender ptype p = true
    · rw [if_pos hp, filter_cons_of_pos hp, map_cons, cons.injEq]
      by_cases ha : answers p.ref = true
      · rw [if_pos ha]
        constructor
        · rintro ⟨-, hnil⟩
          have hnone := filter_eq_nil_iff.mp (map_eq_nil_iff.mp hnil.symm)
          have hfalse : ∀ q ∈ l, matching sender ptype q = false := fun q hq =>
            Bool.eq_false_iff.mpr (hnone q hq)
          exact ⟨fun q hq _ _ => hfalse q hq,
            pairwise_of_forall_mem_list fun q _ r hr _ _ => hfalse r hr⟩
        · rintro ⟨hfirst, -⟩
          refine ⟨rfl, (map_eq_nil_iff.mpr (filter_eq_nil_iff.mpr fun q hq => ?_)).symm⟩
          exact Bool.eq_false_iff.mp (hfirst q hq hp ha)
      · rw [if_neg ha, ih]
        exact ⟨fun h => ⟨fun _ _ _ hdone => absurd hdone ha, h.2⟩, fun h => ⟨rfl, h.2⟩⟩
    · rw [if_neg hp, filter_cons_of_neg hp, ih]
      exact ⟨fun h => ⟨fun _ _ hfirst => absurd hfirst hp, h⟩, fun h => h.2⟩

/-! ### Events -/

omit [DecidableEq ID] in
theorem Inv.walk (h : Inv s) (body : Loop ID → Pending ID → Loop ID × Visit)
    (hremove : ∀ s p, (body s p).2 = .remove →
      ((body s p).1.results.map Prod.fst).Perm (p.ref :: s.results.map Prod.fst))
    (hkeep : ∀ s p, (body s p).2 ≠ .remove → (body s p).1.results = s.results)
    (hframe : ∀ s p, (body s p).1.nextRef = s.nextRef ∧
      (body s p).1.nextTimeout = s.nextTimeout ∧ (body s p).1.timer = s.timer) :
    Inv { (GoList.walk body s.plist s).2.1 with plist := (GoList.walk body s.plist s).1 } := by
  have hout := walk_perm body Pending.ref (fun s => s.results.map Prod.fst) hremove
    (fun s p hp => congrArg _ (hkeep s p hp)) s.plist s
  obtain ⟨hnext, hnt, htimer⟩ := walk_invariant
    (I := fun t : Loop ID => t.nextRef = s.nextRef ∧ t.nextTimeout = s.nextTimeout ∧
      t.timer = s.timer)
    (fun t p ht => by
      obtain ⟨h₁, h₂, h₃⟩ := hframe t p
      exact ⟨h₁.trans ht.1, h₂.trans ht.2.1, h₃.trans ht.2.2⟩) s.plist ⟨rfl, rfl, rfl⟩
  refine h.of_perm hout hnext fun i hi => ?_
  exact htimer.trans (h.timer i (hnt.symm.trans hi))

variable (h : Inv s)
include h

theorem handle_reply (sender : ID) (ptype : UInt8) (answers : ℕ → Bool) :
    handle s (.reply sender ptype answers) =
      { (walk (replyBody sender ptype answers) s.plist { s with called := [] }).2.1 with
        plist := (walk (replyBody sender ptype answers) s.plist { s with called := [] }).1 } := by
  unfold handle
  dsimp only
  rw [loop_eq_walk _ h.plist]

theorem handle_reply_called (sender : ID) (ptype : UInt8) (answers : ℕ → Bool) :
    (handle s (.reply sender ptype answers)).called = heard sender ptype answers s.plist := by
  rw [handle_reply h]
  exact walk_called sender ptype answers s.plist _

theorem Inv.handle_reply (sender : ID) (ptype : UInt8) (answers : ℕ → Bool) :
    Inv (handle s (.reply sender ptype answers)) := by
  have hstart : Inv { s with called := [] } := { h with }
  rw [Udp.handle_reply h]
  refine hstart.walk _ (fun s p hp => ?_) (fun s p hp => ?_) (fun s p => ?_)
  · unfold replyBody at hp ⊢
    split_ifs at hp ⊢
    exact results_send _ p .done
  · unfold replyBody at hp ⊢
    split_ifs at hp ⊢
    · exact absurd rfl hp
    · rfl
    · rfl
  · unfold replyBody
    split_ifs <;> exact ⟨rfl, rfl, rfl⟩

omit h in
omit [DecidableEq ID] in
theorem Inv.checkDrift (h : Inv s) (clock : ℤ) : Inv (checkDrift clock s) := by
  unfold Udp.checkDrift
  split_ifs <;> exact { h with }

theorem Inv.handle_tick (now clock : ℤ) : Inv (handle s (.tick now clock)) := by
  have hstart : Inv { s with nextTimeout := none, timer := none } := ⟨h.nodup, h.lt, nofun⟩
  unfold handle
  dsimp only
  rw [loop_eq_walk _ h.plist]
  refine Inv.checkDrift (hstart.walk _ (fun s p hp => ?_) (fun s p hp => ?_) (fun s p => ?_)) clock
  · unfold tickBody at hp ⊢
    split_ifs at hp ⊢
    exact results_send s p .errTimeout
  · unfold tickBody at hp ⊢
    split_ifs at hp ⊢
    · exact absurd rfl hp
    · rfl
  · unfold tickBody
    split_ifs <;> exact ⟨rfl, rfl, rfl⟩

theorem Inv.handle_pending (sender : ID) (ptype : UInt8) (now : ℤ) :
    Inv (handle s (.pending sender ptype now)) := by
  have hperm : ((s.plist ++ [(⟨s.nextRef, sender, ptype, now + respTimeout⟩ : Pending ID)]).map
      Pending.ref ++ s.results.map Prod.fst).Perm
      (s.nextRef :: (s.plist.map Pending.ref ++ s.results.map Prod.fst)) := by
    rw [map_append, append_assoc]
    exact perm_middle
  refine ⟨hperm.nodup_iff.mpr (nodup_cons.mpr ⟨fun hmem => ?_, h.nodup⟩), fun i hi => ?_, h.timer⟩
  · exact Nat.lt_irrefl _ (h.lt _ hmem)
  · rcases mem_cons.mp (hperm.mem_iff.mp hi) with rfl | hi
    · exact Nat.lt_succ_self _
    · exact Nat.lt_succ_of_lt (h.lt i hi)

theorem Inv.handle (e : Event ID) : ((handle s e).results.map Prod.fst).Nodup ∧
    ((Udp.handle s e).closed = false → Inv (Udp.handle s e)) := by
  cases e with
  | closing =>
    refine ⟨?_, nofun⟩
    have hmap : (Udp.handle s .closing).results.map Prod.fst =
        s.results.map Prod.fst ++ s.plist.map Pending.ref := by
      change (s.results ++ s.plist.map fun p => (p.ref, Result.errClosed)).map Prod.fst = _
      rw [map_append, map_map]
      rfl
    rw [hmap]
    exact perm_append_comm.nodup_iff.mp h.nodup
  | pending sender ptype now =>
    have hinv := h.handle_pending sender ptype now
    exact ⟨hinv.results, fun _ => hinv⟩
  | reply sender ptype answers =>
    have hinv := h.handle_reply sender ptype answers
    exact ⟨hinv.results, fun _ => hinv⟩
  | tick now clock =>
    have hinv := h.handle_tick now clock
    exact ⟨hinv.results, fun _ => hinv⟩

theorem passed_iff (e : Event ID) :
    (∀ sender ptype answers, e = .reply sender ptype answers →
      (handle s e).called = waiting sender ptype s) ↔ ReplyOk s e := by
  cases e with
  | reply sender ptype answers =>
    have hiff := heard_eq_iff sender ptype answers s.plist
    constructor
    · intro hpassed
      exact hiff.mp ((handle_reply_called h sender ptype answers).symm.trans
        (hpassed sender ptype answers rfl))
    · rintro hok _ _ _ heq
      cases heq
      exact (handle_reply_called h sender ptype answers).trans (hiff.mpr hok)
  | closing | pending sender ptype now | tick now clock =>
    exact ⟨fun _ => trivial, fun _ _ _ _ heq => by cases heq⟩

theorem Inv.step (hopen : s.closed = false) {r : Round ID} (hs : step s r = some t) :
    (t.closed = false → Inv t) ∧ (Served s r t ↔ RoundOk s r) := by
  obtain ⟨hresults, hinv⟩ := h.handle r.event
  have hpassed := passed_iff h r.event
  unfold Udp.step at hs
  rw [hopen, if_neg Bool.false_ne_true] at hs
  cases hs
  cases hclosed : (Udp.handle s r.event).closed with
  | true =>
    refine ⟨fun hfalse => absurd (hclosed.symm.trans hfalse) nofun, ?_⟩
    constructor
    · intro hserved _
      refine ⟨hpassed.mp hserved.passed, fun hfalse => absurd (hclosed.symm.trans hfalse) nofun⟩
    · intro hok
      refine ⟨hpassed.mpr (hok hopen).1, hresults, fun hfalse => ?_⟩
      exact absurd (hclosed.symm.trans hfalse) nofun
  | false =>
    have hnext := hinv hclosed
    obtain ⟨hcalled, hopen'⟩ := resetTimeout_kept hnext r.now
    refine ⟨fun _ => hnext.resetTimeout r.now, ?_⟩
    constructor
    · intro hserved _
      refine ⟨hpassed.mp fun sender ptype answers he => ?_, fun _ => ?_⟩
      · exact hcalled.symm.trans (hserved.passed sender ptype answers he)
      · exact (armed_iff hnext r.now).mp (hserved.armed (hopen'.trans hclosed))
    · intro hok
      obtain ⟨hreply, hreset⟩ := hok hopen
      refine ⟨fun sender ptype answers he => ?_, (hnext.resetTimeout r.now).results, fun _ => ?_⟩
      · exact hcalled.trans (hpassed.mpr hreply sender ptype answers he)
      · exact (armed_iff hnext r.now).mpr (hreset hclosed)

omit h

/-- **All rounds are served if and only if all meet their condition.** -/
theorem served_iff (rounds : List (Round ID)) :
    (∀ done r rest, rounds = done ++ r :: rest → ∀ s t,
      run Udp.step newLoop done = some s → Udp.step s r = some t → Served s r t) ↔
      Along Udp.step RoundOk newLoop rounds := by
  have hinv : ∀ done s, run step (newLoop : Loop ID) done = some s →
      s.closed = false → Inv s := fun done s hs =>
    run_invariant (I := fun s : Loop ID => s.closed = false → Inv s)
      (fun s r t hI hst hopen => by
        cases hclosed : s.closed with
        | true =>
          rw [step, hclosed, if_pos rfl] at hst
          cases hst
        | false => exact ((hI hclosed).step hclosed hst).1 hopen) (fun _ => inv_newLoop) hs
  rw [along_iff_forall]
  refine forall_congr' fun done => forall_congr' fun r => forall_congr' fun rest =>
    forall_congr' fun _ => forall_congr' fun s => ?_
  constructor
  · intro hserved hs hopen
    obtain ⟨t, hstep⟩ : ∃ t, step s r = some t := by
      rw [step, hopen]
      exact ⟨_, if_neg Bool.false_ne_true⟩
    exact (((hinv done s hs hopen).step hopen hstep).2.mp (hserved _ hs hstep)) hopen
  · intro hok t hs hst
    cases hopen : s.closed with
    | true =>
      rw [step, hopen, if_pos rfl] at hst
      cases hst
    | false => exact ((hinv done s hs hopen).step hopen hst).2.mpr (hok hs)

end Rounds

/-! ## Where it fails -/

section Lost

def twoPending (now : ℤ) : List (Round ℕ) := [⟨.pending 7 1 now, now⟩, ⟨.pending 7 1 now, now⟩]

def sampleReply : Round ℕ := ⟨.reply 7 1 fun _ => true, 0⟩

/-- **A reply is lost, and a timer is not armed**, after the clock jumps back. -/
theorem replies_lost :
    (∃ s t, run step newLoop (twoPending 0) = some s ∧ step s sampleReply = some t ∧
      waiting 7 1 s = [0, 1] ∧ t.called = [0]) ∧
    ∃ t, run step newLoop (twoPending 10000000000 ++ [⟨.tick 0 0, 0⟩]) = some t ∧
      t.closed = false ∧ t.plist.map Pending.ref = [1] ∧ t.timer = none := by
  constructor
  · exact ⟨_, _, rfl, rfl, by decide, by decide⟩
  · exact ⟨_, rfl, by decide, by decide, by decide⟩

end Lost

end XChain.Udp
