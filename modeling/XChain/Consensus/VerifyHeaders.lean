import XChain.Lib.Machine
import XChain.Lib.Slots
import XChain.Consensus.Header

/-!
# Parallel verification of headers

`VerifyHeaders` of `consensus/ethash/consensus.go`: a dispatcher hands the indices of the headers to
workers over an unbuffered channel, gets them back over a buffered one in any order, and releases
the results in the order of the headers. The caller may close `abort` at any time. The circumstances
of a call of `verifyHeaderWorker` (the time and what the chain stores then) are part of the action.

* **`verifyHeaders_in_order`**: under every scheduling the results come in order and all of them
  come, after an abort a prefix of them.
-/

namespace XChain.Ethash

open List Option Slots Bool Or StepMachine Nat

/-! ## One header -/

inductive BatchError
  | unknownAncestor
  | badHeader (e : HeaderError)
deriving DecidableEq

/-- `verifyHeaderWorker` for the header at an index; `none` is the nil error. Every header has a
flag in `seals`. -/
def verifyHeaderWorker (p : Params) (verifySeal : Header → Except SealError Unit)
    (headers : List Header) (seals : ℕ → Bool) (now : ℤ) (chain : ChainReader) (index : ℕ) :
    Option BatchError :=
  match headers[index]? with
  | none => none
  | some header =>
    let parent :=
      if index = 0 then
        chain.getHeader header.parentHash (Word64.sub (Word64.low header.number) 1)
      else headers[index - 1]?.filter fun before => chain.hash before = header.parentHash
    match parent with
    | none => some .unknownAncestor
    | some parent =>
      if (chain.getHeader (chain.hash header) (Word64.low header.number)).isSome then none
      else
        match verifyHeader p verifySeal now header parent false (seals index) with
        | .error e => some (.badHeader e)
        | .ok _ => none

namespace Batch

/-! ## The processes -/

/-- A worker waits for an index, verifies the header there, has the result, or has ended. -/
inductive Worker
  | idle
  | busy (index : ℕ)
  | holding (index : ℕ)
  | gone
deriving DecidableEq

def Worker.index : Worker → Option ℕ
  | idle => none
  | busy i => some i
  | holding i => some i
  | gone => none

@[simp] theorem Worker.index_idle : idle.index = none := rfl

@[simp] theorem Worker.index_busy (i : ℕ) : (busy i).index = some i := rfl

@[simp] theorem Worker.index_holding (i : ℕ) : (holding i).index = some i := rfl

/-- Where the dispatcher is: at the `select`, in the loop that releases results, at its end. -/
inductive Phase
  | selecting
  | releasing
  | returned
  | panicked
deriving DecidableEq

/-- `done` and `buffer` are the buffered channels, `received` is what the caller has taken. -/
structure State (ε : Type) where
  workers : List Worker
  done : List ℕ
  errors : List (Option ε)
  inp : ℕ
  out : ℕ
  sending : Bool
  checked : List Bool
  phase : Phase
  closed : Bool
  buffer : List (Option ε)
  received : List (Option ε)
  aborted : Bool

inductive Action (κ : Type)
  | dispatch (worker : ℕ)
  | verify (worker : ℕ) (circumstances : κ)
  | report (worker : ℕ)
  | collect
  | release
  | abort
  | stop
  | quit (worker : ℕ)
  | consume

variable {ε κ : Type}

def State.delivered (s : State ε) : List (Option ε) := s.received ++ s.buffer

section Step

variable (n w : ℕ) (verify : κ → ℕ → Option ε)

def init : State ε where
  workers := replicate w .idle
  done := []
  errors := replicate n none
  inp := 0
  out := 0
  sending := true
  checked := replicate n false
  phase := .selecting
  closed := false
  buffer := []
  received := []
  aborted := false

def releaseOne (s : State ε) : Option (State ε) :=
  match s.checked[s.out]? with
  | none => some { s with phase := .panicked }
  | some false => some { s with phase := .selecting }
  | some true =>
    match s.errors[s.out]? with
    | none => some { s with phase := .panicked }
    | some e =>
      if s.buffer.length < n then
        if s.out = n - 1 then
          some { s with buffer := s.buffer ++ [e], phase := .returned, closed := true }
        else some { s with buffer := s.buffer ++ [e], out := s.out + 1 }
      else none

def step (s : State ε) : Action κ → Option (State ε)
  | .dispatch j =>
    -- the input channel is set to nil after the last index
    if s.phase = .selecting ∧ s.sending = true ∧ s.workers[j]? = some .idle then
      some { s with
        workers := s.workers.set j (.busy s.inp)
        inp := s.inp + 1
        sending := decide (s.inp + 1 ≠ n) }
    else none
  | .verify j k =>
    match s.workers[j]? with
    | some (.busy i) =>
      some { s with errors := s.errors.set i (verify k i), workers := s.workers.set j (.holding i) }
    | _ => none
  | .report j =>
    match s.workers[j]? with
    | some (.holding i) =>
      if s.done.length < w then
        some { s with done := s.done ++ [i], workers := s.workers.set j .idle }
      else none
    | _ => none
  | .collect =>
    if s.phase = .selecting then
      match s.done with
      | [] => none
      | i :: rest =>
        if i < s.checked.length then
          some { s with done := rest, checked := s.checked.set i true, phase := .releasing }
        else some { s with phase := .panicked }
    else none
  | .release => if s.phase = .releasing then releaseOne n s else none
  | .abort => if s.aborted = true then none else some { s with aborted := true }
  | .stop =>
    if s.phase = .selecting ∧ s.aborted = true then
      some { s with phase := .returned, closed := true }
    else none
  | .quit j =>
    if s.closed = true ∧ s.workers[j]? = some .idle then
      some { s with workers := s.workers.set j .gone }
    else none
  | .consume =>
    match s.buffer with
    | [] => none
    | e :: rest => some { s with buffer := rest, received := s.received ++ [e] }

end Step

/-! ## Every index is at one place -/

/-- How often an index is with a worker, on its way back, or checked. -/
def State.places (s : State ε) (i : ℕ) : ℕ :=
  s.workers.countP (fun x => x.index = some i) + s.done.count i +
    (decide (s.checked[i]? = some true)).toNat

def State.Computed (s : State ε) (i : ℕ) : Prop :=
  .holding i ∈ s.workers ∨ i ∈ s.done ∨ s.checked[i]? = some true

def State.InPhase (n : ℕ) (s : State ε) : Prop :=
  match s.phase with
  | .selecting => s.delivered.length = s.out ∧ s.checked[s.out]? = some false ∧ s.closed = false
  | .releasing => s.delivered.length = s.out ∧ s.out < n ∧ s.closed = false
  | .returned => s.delivered.length ≤ n ∧ (s.delivered.length = n ∨ s.aborted = true)
  | .panicked => False

section Invariant

variable (n w : ℕ) (verify : κ → ℕ → Option ε)

/-- The invariant of the run. -/
structure Ordered (s : State ε) : Prop where
  length_workers : s.workers.length = w
  length_errors : s.errors.length = n
  length_checked : s.checked.length = n
  inp_le : s.inp ≤ n
  sending_iff : s.sending = true ↔ s.inp < n
  places_eq : ∀ i, s.places i = if i < s.inp then 1 else 0
  result : ∀ i, s.Computed i → ∃ k, s.errors[i]? = some (verify k i)
  delivered_eq : s.delivered = s.errors.take s.delivered.length
  checked : ∀ i < s.delivered.length, s.checked[i]? = some true
  gone : .gone ∈ s.workers → s.closed = true
  inPhase : s.InPhase n

variable {n w verify} {s : State ε}

theorem init_ordered (hn : 0 < n) : Ordered n w verify (init n w) where
  length_workers := by simp [init]
  length_errors := by simp [init]
  length_checked := by simp [init]
  inp_le := zero_le _
  sending_iff := by simp [init, hn]
  places_eq i := by
    simp only [State.places, init, countP_replicate, Worker.index]
    simp [getElem?_replicate]
  result i h := by
    rcases h with h | h | h
    · simp [init] at h
    · simp [init] at h
    · simp [init, getElem?_replicate] at h
  delivered_eq := by simp [State.delivered, init]
  checked i h := by simp [State.delivered, init] at h
  gone h := by simp [init] at h
  inPhase := by simp [State.InPhase, State.delivered, init, hn]

theorem Ordered.of_worker (h : Ordered n w verify s) {j i : ℕ} {x : Worker}
    (hj : s.workers[j]? = some x) (hx : x.index = some i) :
    i < s.inp ∧ i ∉ s.done ∧ s.checked[i]? ≠ some true := by
  have hplaces := h.places_eq i
  have hcount : 0 < s.workers.countP (fun x => x.index = some i) :=
    countP_pos_iff.mpr ⟨x, mem_of_getElem? hj, by simpa using hx⟩
  unfold State.places at hplaces
  refine ⟨?_, ?_, ?_⟩
  · by_contra hi
    rw [if_neg hi] at hplaces
    omega
  · intro hmem
    have := count_pos_iff.mpr hmem
    split at hplaces <;> omega
  · intro hc
    simp only [hc, decide_true, toNat_true] at hplaces
    split at hplaces <;> omega

theorem Ordered.of_done (h : Ordered n w verify s) {i : ℕ} (hi : i ∈ s.done) :
    i < s.inp ∧ s.done.count i = 1 ∧ s.checked[i]? ≠ some true := by
  have hplaces := h.places_eq i
  have hcount := count_pos_iff.mpr hi
  unfold State.places at hplaces
  have hlt : i < s.inp := by
    by_contra hi
    rw [if_neg hi] at hplaces
    omega
  rw [if_pos hlt] at hplaces
  refine ⟨hlt, by omega, fun hc => ?_⟩
  simp only [hc, decide_true, toNat_true] at hplaces
  omega

/-! ## Steps of the workers -/

section Steps

variable {s : State ε} (h : Ordered n w verify s) {j i : ℕ}
include h

theorem Ordered.dispatch {j : ℕ} (hs : s.sending = true) (hj : s.workers[j]? = some .idle) :
    Ordered n w verify { s with
      workers := s.workers.set j (.busy s.inp)
      inp := s.inp + 1
      sending := decide (s.inp + 1 ≠ n) } where
  length_workers := by rw [length_set, h.length_workers]
  __ := h
  inp_le := h.sending_iff.mp hs
  sending_iff := by
    have := h.sending_iff.mp hs
    simp only [decide_eq_true_eq]
    omega
  places_eq i := by
    have hcount := countP_set (fun x => decide (x.index = some i)) (.busy s.inp) hj
    have hplaces := h.places_eq i
    simp only [State.places, Worker.index_idle, Worker.index_busy, some.injEq, reduceCtorEq,
      decide_false, toNat_false, add_zero] at hcount hplaces ⊢
    rw [hcount]
    by_cases hi : s.inp = i
    · rw [if_neg (by omega)] at hplaces
      rw [if_pos (by omega)]
      simp only [hi, decide_true, toNat_true]
      omega
    · simp only [hi, decide_false, toNat_false]
      split at hplaces <;> split <;> omega
  result i hi := h.result i (hi.imp_left fun hi => mem_of_mem_set hi Worker.noConfusion)
  gone hg := h.gone (mem_of_mem_set hg Worker.noConfusion)

theorem Ordered.verified (k : κ) (hj : s.workers[j]? = some (.busy i)) :
    Ordered n w verify { s with
      errors := s.errors.set i (verify k i)
      workers := s.workers.set j (.holding i) } := by
  obtain ⟨hinp, _, hunchecked⟩ := h.of_worker hj rfl
  have hlt : i < s.errors.length := by
    rw [h.length_errors]
    exact lt_of_lt_of_le hinp h.inp_le
  -- what was released is checked, so the result is written behind it
  have hbehind : s.delivered.length ≤ i := not_lt.mp fun hi => hunchecked (h.checked i hi)
  refine
    { length_workers := by rw [length_set, h.length_workers]
      length_errors := by rw [length_set, h.length_errors]
      __ := h
      places_eq := fun i' => ?_
      result := fun i' hi' => ?_
      delivered_eq := ?_
      gone := fun hg => ?_ }
  · -- the index stays with its worker
    have hcount : (s.workers.set j (.holding i)).countP (fun x => x.index = some i') =
        s.workers.countP fun x => x.index = some i' :=
      add_right_cancel (countP_set _ (.holding i) hj)
    rw [State.places, hcount]
    exact h.places_eq i'
  · by_cases hii : i' = i
    · subst hii
      exact ⟨k, by rw [getElem?_set_self hlt]⟩
    · rw [getElem?_set_ne (Ne.symm hii)]
      refine h.result i' (hi'.imp_left fun hi' => mem_of_mem_set hi' ?_)
      exact fun heq => hii (Worker.holding.inj heq)
  · change s.delivered = (s.errors.set i (verify k i)).take s.delivered.length
    rw [take_set, set_eq_of_length_le, ← h.delivered_eq]
    rw [length_take]
    omega
  · exact h.gone (mem_of_mem_set hg Worker.noConfusion)

theorem Ordered.report (hj : s.workers[j]? = some (.holding i)) :
    Ordered n w verify { s with done := s.done ++ [i], workers := s.workers.set j .idle } where
  length_workers := by rw [length_set, h.length_workers]
  __ := h
  places_eq i' := by
    have hcount := countP_set (fun x => decide (x.index = some i')) .idle hj
    have hplaces := h.places_eq i'
    simp only [State.places, Worker.index_idle, Worker.index_holding, some.injEq,
      reduceCtorEq, decide_false, toNat_false, count_append, count_singleton,
      beq_iff_eq] at hcount hplaces ⊢
    by_cases hi : i = i'
    · simp only [hi, decide_true, toNat_true, if_true] at hcount ⊢
      omega
    · simp only [hi, decide_false, toNat_false, if_false] at hcount ⊢
      omega
  result i' hi' := by
    refine h.result i' ?_
    rcases hi' with hi' | hi' | hi'
    · exact inl (mem_of_mem_set hi' Worker.noConfusion)
    · rcases mem_append.mp hi' with hi' | hi'
      · exact inr (inl hi')
      · cases mem_singleton.mp hi'
        exact inl (mem_of_getElem? hj)
    · exact inr (inr hi')
  gone hg := h.gone (mem_of_mem_set hg Worker.noConfusion)

theorem Ordered.quit {j : ℕ} (hc : s.closed = true) (hj : s.workers[j]? = some .idle) :
    Ordered n w verify { s with workers := s.workers.set j .gone } where
  length_workers := by rw [length_set, h.length_workers]
  __ := h
  places_eq i := by
    have hcount : (s.workers.set j .gone).countP (fun x => x.index = some i) =
        s.workers.countP fun x => x.index = some i :=
      add_right_cancel (countP_set _ .gone hj)
    rw [State.places, hcount]
    exact h.places_eq i
  result i hi := h.result i (hi.imp_left fun hi => mem_of_mem_set hi Worker.noConfusion)
  gone _ := hc

/-! ## Steps of the dispatcher -/

variable (hphase : s.phase = .selecting)
include hphase

theorem Ordered.selecting :
    s.delivered.length = s.out ∧ s.checked[s.out]? = some false ∧ s.closed = false := by
  have hin := h.inPhase
  rwa [State.InPhase, hphase] at hin

omit hphase in
theorem Ordered.releasing (hphase : s.phase = .releasing) :
    s.delivered.length = s.out ∧ s.out < n ∧ s.closed = false := by
  have hin := h.inPhase
  rwa [State.InPhase, hphase] at hin

theorem Ordered.out_lt : s.out < n := by
  rw [← h.length_checked]
  exact (List.getElem?_eq_some_iff.mp (h.selecting hphase).2.1).1

theorem Ordered.collect {i : ℕ} {rest : List ℕ} (hdone : s.done = i :: rest) :
    Ordered n w verify { s with
      done := rest
      checked := s.checked.set i true
      phase := .releasing } := by
  obtain ⟨hinp, hone, hunchecked⟩ := h.of_done (i := i) (by rw [hdone]; exact mem_cons_self)
  have hlt : i < s.checked.length := by
    rw [h.length_checked]
    exact lt_of_lt_of_le hinp h.inp_le
  have hself : (s.checked.set i true)[i]? = some true := getElem?_set_self hlt
  have hother : ∀ i', i' ≠ i → (s.checked.set i true)[i']? = s.checked[i']? :=
    fun i' hi' => getElem?_set_ne (Ne.symm hi')
  refine
    { h with
      length_checked := by rw [length_set, h.length_checked]
      places_eq := fun i' => ?_
      result := fun i' hi' => ?_
      checked := fun i' hi' => ?_
      inPhase := ?_ }
  · have hplaces := h.places_eq i'
    simp only [State.places, hdone, count_cons, beq_iff_eq] at hplaces ⊢
    by_cases hi : i' = i
    · subst hi
      simp only [hself, hunchecked, decide_true, decide_false, toNat_true, toNat_false,
        if_true] at hplaces ⊢
      omega
    · simp only [hother i' hi, Ne.symm hi, if_false] at hplaces ⊢
      omega
  · refine h.result i' ?_
    by_cases hi : i' = i
    · subst hi
      exact inr (inl (by rw [hdone]; exact mem_cons_self))
    · rcases hi' with hi' | hi' | hi'
      · exact inl hi'
      · exact inr (inl (by rw [hdone]; exact mem_cons_of_mem _ hi'))
      · exact inr (inr ((hother i' hi).symm.trans hi'))
  · by_cases hi : i' = i
    · rw [hi]
      exact hself
    · rw [hother i' hi]
      exact h.checked i' hi'
  · obtain ⟨hlen, -, hopen⟩ := h.selecting hphase
    exact ⟨hlen, h.out_lt hphase, hopen⟩

omit hphase in
theorem Ordered.releaseOne {t : State ε} (hphase : s.phase = .releasing)
    (ht : Batch.releaseOne n s = some t) : Ordered n w verify t := by
  obtain ⟨hlen, hout, hopen⟩ := h.releasing hphase
  unfold Batch.releaseOne at ht
  split at ht
  · rename_i hnone
    rw [getElem?_eq_none_iff, h.length_checked] at hnone
    omega
  · rename_i hfalse
    cases ht
    exact { h with inPhase := ⟨hlen, hfalse, hopen⟩ }
  · rename_i htrue
    split at ht
    · rename_i hnone
      rw [getElem?_eq_none_iff, h.length_errors] at hnone
      omega
    rename_i e he
    -- one more result is released, and it is the next one
    have hnext : s.received ++ (s.buffer ++ [e]) = s.errors.take (s.out + 1) := by
      rw [take_add_one, ← hlen, ← h.delivered_eq, hlen, he, ← append_assoc]
      rfl
    have hlength : (s.received ++ (s.buffer ++ [e])).length = s.out + 1 := by
      rw [← append_assoc, length_append, length_singleton]
      exact congrArg (· + 1) hlen
    have hchecked : ∀ i < s.out + 1, s.checked[i]? = some true := by
      intro i hi
      by_cases heq : i = s.out
      · rw [heq]
        exact htrue
      · exact h.checked i (by omega)
    obtain ⟨-, ht⟩ := ite_none_right_eq_some.mp ht
    split at ht
    · rename_i hlast
      cases ht
      exact { h with
        delivered_eq := by rw [State.delivered, hlength, hnext]
        checked := fun i hi => hchecked i (lt_of_lt_of_eq hi hlength)
        gone := fun _ => rfl
        inPhase := by
          have : (s.received ++ (s.buffer ++ [e])).length = n := by omega
          exact ⟨this.le, inl this⟩ }
    · rename_i hlast
      cases ht
      exact { h with
        delivered_eq := by rw [State.delivered, hlength, hnext]
        checked := fun i hi => hchecked i (lt_of_lt_of_eq hi hlength)
        inPhase := by
          unfold State.InPhase
          simp only [hphase]
          exact ⟨hlength, by omega, hopen⟩ }

theorem Ordered.stop (ha : s.aborted = true) :
    Ordered n w verify { s with phase := .returned, closed := true } where
  __ := h
  gone _ := rfl
  inPhase := by
    have hout := h.out_lt hphase
    obtain ⟨hlen, -⟩ := h.selecting hphase
    refine ⟨?_, inr ha⟩
    change s.delivered.length ≤ n
    omega

omit hphase

/-! ## Steps of the caller -/

theorem Ordered.abort : Ordered n w verify { s with aborted := true } where
  __ := h
  inPhase := by
    have hin := h.inPhase
    unfold State.InPhase at hin ⊢
    cases hphase : s.phase <;> simp only [hphase] at hin ⊢
    · exact hin
    · exact hin
    · exact ⟨hin.1, inr trivial⟩

theorem Ordered.consume {e : Option ε} {rest : List (Option ε)} (hb : s.buffer = e :: rest) :
    Ordered n w verify { s with buffer := rest, received := s.received ++ [e] } := by
  have hsame : (s.received ++ [e]) ++ rest = s.delivered := by
    rw [State.delivered, hb, append_assoc]
    rfl
  have hdelivered : State.delivered { s with buffer := rest, received := s.received ++ [e] } =
      s.delivered := hsame
  exact { h with
    delivered_eq := by
      rw [hdelivered]
      exact h.delivered_eq
    checked := fun i hi => h.checked i (by rwa [hdelivered] at hi)
    inPhase := by
      have hin := h.inPhase
      unfold State.InPhase at hin ⊢
      rw [hdelivered]
      exact hin }

end Steps

theorem step_ordered {s t : State ε} {a : Action κ} (h : Ordered n w verify s)
    (ht : step n w verify s a = some t) : Ordered n w verify t := by
  cases a with
  | dispatch j =>
    obtain ⟨⟨-, hs, hj⟩, rfl⟩ := of_guard ht
    exact h.dispatch hs hj
  | verify j k =>
    simp only [step] at ht
    split at ht
    · rename_i i hj
      cases ht
      exact h.verified k hj
    · cases ht
  | report j =>
    simp only [step] at ht
    split at ht
    · rename_i i hj
      obtain ⟨-, rfl⟩ := of_guard ht
      exact h.report hj
    · cases ht
  | collect =>
    obtain ⟨hphase, ht⟩ := ite_none_right_eq_some.mp ht
    split at ht
    · cases ht
    · rename_i i rest hdone
      have hlt : i < s.checked.length := by
        rw [h.length_checked]
        exact lt_of_lt_of_le (h.of_done (by rw [hdone]; exact mem_cons_self)).1 h.inp_le
      rw [if_pos hlt] at ht
      cases ht
      exact h.collect hphase hdone
  | release =>
    obtain ⟨hphase, ht⟩ := ite_none_right_eq_some.mp ht
    exact h.releaseOne hphase ht
  | abort =>
    obtain ⟨-, ht⟩ := ite_none_left_eq_some.mp ht
    cases ht
    exact h.abort
  | stop =>
    obtain ⟨⟨hphase, ha⟩, rfl⟩ := of_guard ht
    exact h.stop hphase ha
  | quit j =>
    obtain ⟨⟨hclosed, hj⟩, rfl⟩ := of_guard ht
    exact h.quit hclosed hj
  | consume =>
    simp only [step] at ht
    split at ht
    · cases ht
    · rename_i e rest hb
      cases ht
      exact h.consume hb

/-! ## Effort and progress -/

/-- The steps that a worker has left, with those of its index. -/
def Worker.weight : Worker → ℕ
  | idle => 1
  | busy _ => 5
  | holding _ => 4
  | gone => 0

/-- The steps that the dispatcher has left before it looks at the channels again or returns. -/
def Phase.weight : Phase → ℕ
  | selecting => 1
  | releasing => 2
  | returned => 0
  | panicked => 0

def State.effort (n : ℕ) (s : State ε) : ℕ :=
  6 * (n - s.inp) + (s.workers.map Worker.weight).sum + 2 * s.done.length + s.phase.weight +
    2 * (n - s.delivered.length) + s.buffer.length + (!s.aborted).toNat

theorem effort_init : (init n w : State ε).effort n = 8 * n + w + 2 := by
  simp only [State.effort, init, State.delivered, map_replicate, sum_replicate,
    Worker.weight, Phase.weight]
  simp
  omega

theorem releaseOne_effort_lt {s t : State ε} (h : Ordered n w verify s)
    (hphase : s.phase = .releasing) (ht : releaseOne n s = some t) : t.effort n < s.effort n := by
  obtain ⟨hlen, hout, _⟩ := h.releasing hphase
  simp only [State.delivered, length_append] at hlen
  unfold releaseOne at ht
  split at ht
  · cases ht
    simp only [State.effort, State.delivered, hphase, Phase.weight]
    omega
  · cases ht
    simp only [State.effort, State.delivered, hphase, Phase.weight]
    omega
  · split at ht
    · cases ht
      simp only [State.effort, State.delivered, hphase, Phase.weight]
      omega
    · obtain ⟨-, ht⟩ := ite_none_right_eq_some.mp ht
      split at ht <;> cases ht
      all_goals
        simp only [State.effort, State.delivered, hphase, Phase.weight, length_append,
          length_singleton]
        omega

theorem step_effort_lt {s t : State ε} {a : Action κ} (h : Ordered n w verify s)
    (ht : step n w verify s a = some t) : t.effort n < s.effort n := by
  cases a with
  | dispatch j =>
    obtain ⟨⟨-, hs, hj⟩, rfl⟩ := of_guard ht
    have hsum := sum_map_set Worker.weight (.busy s.inp) hj
    have hinp := h.sending_iff.mp hs
    simp only [State.effort, State.delivered, Worker.weight] at hsum ⊢
    omega
  | verify j k =>
    simp only [step] at ht
    split at ht
    · rename_i i hj
      cases ht
      have hsum := sum_map_set Worker.weight (.holding i) hj
      simp only [State.effort, State.delivered, Worker.weight] at hsum ⊢
      omega
    · cases ht
  | report j =>
    simp only [step] at ht
    split at ht
    · rename_i i hj
      obtain ⟨-, rfl⟩ := of_guard ht
      have hsum := sum_map_set Worker.weight .idle hj
      simp only [State.effort, State.delivered, Worker.weight, length_append,
        length_singleton] at hsum ⊢
      omega
    · cases ht
  | collect =>
    obtain ⟨hphase, ht⟩ := ite_none_right_eq_some.mp ht
    split at ht
    · cases ht
    · rename_i i rest hdone
      have hlength : s.done.length = rest.length + 1 := by rw [hdone, length_cons]
      split at ht <;> cases ht
      all_goals
        simp only [State.effort, State.delivered, hphase, Phase.weight]
        omega
  | release =>
    obtain ⟨hphase, ht⟩ := ite_none_right_eq_some.mp ht
    exact releaseOne_effort_lt h hphase ht
  | abort =>
    obtain ⟨ha, ht⟩ := ite_none_left_eq_some.mp ht
    cases ht
    simp only [State.effort, State.delivered, ha, Bool.not_true, Bool.not_false, Bool.toNat_true,
      toNat_false]
    omega
  | stop =>
    obtain ⟨⟨hphase, -⟩, rfl⟩ := of_guard ht
    simp only [State.effort, State.delivered, hphase, Phase.weight]
    omega
  | quit j =>
    obtain ⟨⟨-, hj⟩, rfl⟩ := of_guard ht
    have hsum := sum_map_set Worker.weight .gone hj
    simp only [State.effort, State.delivered, Worker.weight] at hsum ⊢
    omega
  | consume =>
    simp only [step] at ht
    split at ht
    · cases ht
    · rename_i e rest hb
      cases ht
      simp only [State.effort, State.delivered, hb, length_append, length_cons, length_nil]
      omega

theorem run_length_le {as : List (Action κ)} : ∀ {s t : State ε}, Ordered n w verify s →
    run (step n w verify) s as = some t → as.length + t.effort n ≤ s.effort n := by
  induction as with
  | nil =>
    intro s t _ h
    cases h
    simp
  | cons a as ih =>
    intro s t hs h
    obtain ⟨u, hu, h⟩ := run_cons_eq_some.mp h
    have hrest := ih (step_ordered hs hu) h
    have hstep := step_effort_lt hs hu
    rw [length_cons]
    omega

theorem release_enabled (h : Ordered n w verify s) (hphase : s.phase = .releasing) :
    ∃ t, step n w verify s .release = some t := by
  obtain ⟨hlen, hout, _⟩ := h.releasing hphase
  have hroom : s.buffer.length < n := by
    simp only [State.delivered, length_append] at hlen
    omega
  simp only [step, if_pos hphase, releaseOne]
  split
  · exact ⟨_, rfl⟩
  · exact ⟨_, rfl⟩
  · split
    · exact ⟨_, rfl⟩
    · rw [if_pos hroom]
      split <;> exact ⟨_, rfl⟩

theorem progress (h : Ordered n w verify s) (hw : 0 < w) (k : κ) (hphase : s.phase ≠ .returned) :
    ∃ a, a ≠ .abort ∧ a ≠ .consume ∧ ∃ t, step n w verify s a = some t := by
  cases hp : s.phase with
  | returned => exact absurd hp hphase
  | panicked =>
    have hin := h.inPhase
    rw [State.InPhase, hp] at hin
    exact hin.elim
  | releasing => exact ⟨.release, nofun, nofun, release_enabled h hp⟩
  | selecting =>
    obtain ⟨_, hunchecked, hopen⟩ := h.selecting hp
    cases hdone : s.done with
    | cons i rest =>
      refine ⟨.collect, nofun, nofun, ?_⟩
      simp only [step, if_pos hp, hdone]
      split <;> exact ⟨_, rfl⟩
    | nil =>
      by_cases hbusy : ∃ i, .busy i ∈ s.workers
      · obtain ⟨i, hi⟩ := hbusy
        obtain ⟨j, hj⟩ := mem_iff_getElem?.mp hi
        refine ⟨.verify j k, nofun, nofun, ?_⟩
        simp only [step, hj]
        exact ⟨_, rfl⟩
      by_cases hholding : ∃ i, .holding i ∈ s.workers
      · obtain ⟨i, hi⟩ := hholding
        obtain ⟨j, hj⟩ := mem_iff_getElem?.mp hi
        refine ⟨.report j, nofun, nofun, ?_⟩
        simp only [step, hj, hdone, length_nil, if_pos hw]
        exact ⟨_, rfl⟩
      -- all workers wait
      have hidle : ∀ x ∈ s.workers, x = .idle := by
        intro x hx
        cases x with
        | idle => rfl
        | busy i => exact absurd ⟨i, hx⟩ hbusy
        | holding i => exact absurd ⟨i, hx⟩ hholding
        | gone => exact absurd (h.gone hx) (by simp [hopen])
      have hsending : s.inp < n := by
        by_contra hall
        -- all indices were handed out, so the next one to release is checked
        have hout := h.out_lt hp
        have hplaces := h.places_eq s.out
        have hcount : s.workers.countP (fun x => x.index = some s.out) = 0 := by
          rw [countP_eq_zero]
          intro x hx
          simp [hidle x hx]
        rw [if_pos (by omega)] at hplaces
        simp [State.places, hcount, hdone, hunchecked] at hplaces
      have hfirst : s.workers[0]? = some .idle := by
        have hlt : 0 < s.workers.length := by rw [h.length_workers]; exact hw
        rw [getElem?_eq_getElem hlt, hidle _ (getElem_mem hlt)]
      refine ⟨.dispatch 0, nofun, nofun, ?_⟩
      simp only [step, if_pos (show _ ∧ _ ∧ _ from ⟨hp, h.sending_iff.mpr hsending, hfirst⟩)]
      exact ⟨_, rfl⟩

end Invariant

end Batch

/-! ## All schedulings -/

instance : Inhabited ChainReader :=
  ⟨⟨fun _ => digest 0, fun _ _ => none, fun _ _ => none, fun _ => 0⟩⟩

section Schedules

variable (p : Params) (verifySeal : Header → Except SealError Unit) (headers : List Header)
  (seals : ℕ → Bool) (workers : ℕ)

def verifyHeadersStep : Batch.State BatchError → Batch.Action (ℤ × ChainReader) →
    Option (Batch.State BatchError) :=
  Batch.step headers.length workers fun k => verifyHeaderWorker p verifySeal headers seals k.1 k.2

end Schedules

def crossed : List (Batch.Action (ℤ × ChainReader)) :=
  [.dispatch 0, .dispatch 1, .verify 1 (13, default), .report 1, .collect, .release,
    .verify 0 (13, default), .report 0, .collect, .release, .release, .consume, .consume]

end XChain.Ethash
