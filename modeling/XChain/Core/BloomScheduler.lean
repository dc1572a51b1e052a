import XChain.Core.Bloombits
import XChain.Lib.Channel
import XChain.Lib.Table

/-!
# Fetching the vectors of the bloom bits

`core/bloombits/scheduler.go` and the `distributor` of `core/bloombits/matcher.go`. A scheduler
keeps for each section of its bit the vector, or that it was asked for. A retriever gives for a
section the vector of the index or nothing, and what it does not find is queued again. The session
is not closed.

* **`Scheduling.cached_step`**: the vectors that are kept are those of the index;
* **`Wire.step_flow`**: what is on its way through a scheduler leaves in order, as vectors.
-/

namespace XChain.Bloombits

open GoChan GoMap List

structure Retrieval where
  bit : ℕ
  sections : List ℕ
  deriving DecidableEq

/-- The responses of all schedulers, by bit and section, and the distributor with its retrievers. -/
structure Scheduling where
  responses : Table (ℕ × ℕ) (Option (List UInt8))
  dist : Chan (ℕ × ℕ)
  requests : Table ℕ (List ℕ)
  unallocs : List ℕ
  allocated : List ℕ
  tasks : List Retrieval

namespace Scheduling

variable (index : ℕ → ℕ → List UInt8) (d : Scheduling)

/-! ## The distributor -/

def queue (bit : ℕ) : List ℕ := (d.requests.lookup bit).getD []

/-- `sort.Search` for a section in a queue and the insertion there. -/
def insertSection (queue : List ℕ) (sec : ℕ) : List ℕ :=
  queue.takeWhile (· < sec) ++ sec :: queue.dropWhile (· < sec)

/-- `assign`: a bit goes to a retriever that waits, or is left for the next one. -/
def assign (bit : ℕ) (waiting : Bool) : Scheduling :=
  if waiting = true then { d with allocated := bit :: d.allocated }
  else { d with unallocs := d.unallocs.insert bit }

def request (waiting : Bool) : Option Scheduling :=
  match d.dist.recv with
  | none => none
  | some ((bit, sec), dist) =>
    let queue := d.queue bit
    let d' := { d with dist := dist, requests := d.requests.insert bit (insertSection queue sec) }
    some (if queue = [] then d'.assign bit waiting else d')

/-- A retriever arrives while bits are left: it gets the one whose queue starts lowest. -/
def allocateRetrieval (bit : ℕ) : Option Scheduling :=
  if bit ∈ d.unallocs ∧ ∀ other ∈ d.unallocs, ∃ low ∈ (d.queue bit).head?,
      ∃ sec ∈ (d.queue other).head?, low ≤ sec then
    some { d with unallocs := d.unallocs.erase bit, allocated := bit :: d.allocated }
  else none

def allocateSections (bit count : ℕ) (waiting : Bool) : Option Scheduling :=
  if bit ∈ d.allocated then
    let d' := { d with
      allocated := d.allocated.erase bit
      tasks := ⟨bit, (d.queue bit).take count⟩ :: d.tasks }
    if (d.queue bit).length ≤ count then some { d' with requests := d.requests.erase bit }
    else
      some (assign { d' with requests := d.requests.insert bit ((d.queue bit).drop count) }
        bit waiting)
  else none

/-- `scheduler.deliver`: only what was asked for and is not there. -/
def deliver (bit : ℕ) (found : List (ℕ × List UInt8))
    (responses : Table (ℕ × ℕ) (Option (List UInt8))) : Table (ℕ × ℕ) (Option (List UInt8)) :=
  found.foldl (fun t e =>
    if t.lookup (bit, e.1) = some none then t.insert (bit, e.1) (some e.2) else t) responses

/-- The answer of a retriever: the missing sections are queued again. -/
def deliverSections (task : Retrieval) (bitsets : List (List UInt8)) (waiting : Bool) :
    Scheduling :=
  let answers := task.sections.zip bitsets
  let missing := (answers.filter fun e => e.2.isEmpty).map Prod.fst
  let found := answers.filter fun e => !e.2.isEmpty
  let d' := { d with responses := deliver task.bit found d.responses, tasks := d.tasks.erase task }
  if missing = [] then d'
  else
    let queue := missing.foldl insertSection (d.queue task.bit)
    let d'' := { d' with requests := d.requests.insert task.bit queue }
    if queue.length = missing.length then d''.assign task.bit waiting else d''

/-- What the distributor does; `waiting` says whether a retriever waits for a bit. -/
inductive Action where
  | request (waiting : Bool)
  | allocateRetrieval (bit : ℕ)
  | allocateSections (bit count : ℕ) (waiting : Bool)
  | deliverSections (task : Retrieval) (found : List ℕ) (waiting : Bool)
  deriving DecidableEq

/-- A step of the distributor; a retriever finds some of its sections. -/
def step : Action → Option Scheduling
  | .request waiting => d.request waiting
  | .allocateRetrieval bit => d.allocateRetrieval bit
  | .allocateSections bit count waiting => d.allocateSections bit count waiting
  | .deliverSections task found waiting =>
    if task ∈ d.tasks then
      some (d.deliverSections task
        (task.sections.map fun sec => if sec ∈ found then index task.bit sec else []) waiting)
    else none

def Cached : Prop :=
  ∀ bit sec v, d.responses.lookup (bit, sec) = some (some v) → v = index bit sec

variable {index d} {d' : Scheduling} {bit : ℕ}

theorem responses_assign (bit : ℕ) (waiting : Bool) :
    (d.assign bit waiting).responses = d.responses := by
  unfold assign
  split <;> rfl

theorem Cached.of_eq (h : d.Cached index) (heq : d'.responses = d.responses) : d'.Cached index := by
  intro bit sec v hv
  rw [heq] at hv
  exact h bit sec v hv

theorem lookup_deliver {key : ℕ × ℕ} {v : List UInt8} :
    ∀ (found : List (ℕ × List UInt8)) {t : Table (ℕ × ℕ) (Option (List UInt8))},
      (deliver bit found t).lookup key = some (some v) →
      t.lookup key = some (some v) ∨ ∃ e ∈ found, key = (bit, e.1) ∧ v = e.2
  | [], _, h => .inl h
  | e :: found, t, h => by
    unfold deliver at h
    rw [foldl_cons] at h
    rcases lookup_deliver found h with hrest | ⟨e', he', heq⟩
    · split at hrest
      · rcases Table.lookup_insert_eq_some.mp hrest with ⟨hkey, hv⟩ | ⟨_, hold⟩
        · exact .inr ⟨e, mem_cons_self, hkey, (Option.some.inj hv).symm⟩
        · exact .inl hold
      · exact .inl hrest
    · exact .inr ⟨e', mem_cons_of_mem _ he', heq⟩

theorem responses_deliverSections (task : Retrieval) (bitsets : List (List UInt8))
    (waiting : Bool) :
    (d.deliverSections task bitsets waiting).responses =
      deliver task.bit ((task.sections.zip bitsets).filter fun e => !e.2.isEmpty) d.responses := by
  unfold deliverSections
  dsimp only
  split
  · rfl
  · split
    · exact responses_assign _ _
    · rfl

theorem snd_eq_of_mem_answers {sections found : List ℕ} {e : ℕ × List UInt8} (h : e ∈ (sections.zip
      (sections.map fun sec => if sec ∈ found then index bit sec else [])).filter fun e =>
      !e.2.isEmpty) : e.2 = index bit e.1 := by
  obtain ⟨hmem, hne⟩ := mem_filter.mp h
  rw [← map_id sections, map_map, zip_map', mem_map] at hmem
  obtain ⟨sec, _, rfl⟩ := hmem
  dsimp only [id, Function.comp_apply] at hne ⊢
  split
  · rfl
  · rename_i hfound
    rw [if_neg hfound] at hne
    exact absurd hne (by decide)

/-- **Only vectors of the index are kept.** -/
theorem cached_step {a : Action} (hd : d.Cached index) (h : d.step index a = some d') :
    d'.Cached index := by
  cases a with
  | request waiting =>
    rw [step, request] at h
    split at h
    · cases h
    · cases h
      split
      · exact hd.of_eq (responses_assign _ _)
      · exact hd
  | allocateRetrieval bit =>
    rw [step, allocateRetrieval] at h
    split at h
    · cases h
      exact hd
    · cases h
  | allocateSections bit count waiting =>
    rw [step, allocateSections] at h
    split at h
    · split at h
      · cases h
        exact hd
      · cases h
        exact hd.of_eq (responses_assign _ _)
    · cases h
  | deliverSections task found waiting =>
    rw [step] at h
    split at h
    · cases h
      intro bit sec v hv
      rw [responses_deliverSections] at hv
      rcases lookup_deliver _ hv with hold | ⟨e, he, hkey, rfl⟩
      · exact hd bit sec v hold
      · obtain ⟨rfl, rfl⟩ := Prod.mk.inj hkey
        exact snd_eq_of_mem_answers he
    · cases h

end Scheduling

/-! ## The goroutines of a scheduler -/

/-- The goroutines that `scheduler.run` starts for a bit, and their channels. -/
structure Wire where
  sections : Chan ℕ
  /-- The section in `scheduleRequests`, and whether its request is still to be sent. -/
  requesting : Option (ℕ × Bool)
  pend : Chan ℕ
  /-- The section that `scheduleDeliveries` waits for. -/
  expecting : Option ℕ
  done : Chan (List UInt8)

namespace Wire

def new : Wire := ⟨.new, none, .new, none, .new⟩

inductive Action where
  | take | dist | pend | closePend
  | expect | deliver | closeDone
  deriving DecidableEq

variable (index : ℕ → ℕ → List UInt8) (bit : ℕ) (d : Scheduling) (w : Wire)

def take : Option (Scheduling × Wire) :=
  match w.requesting, w.sections.recv with
  | none, some (sec, sections) =>
    let unique := (d.responses.lookup (bit, sec)).isNone
    let d' := if unique = true then
      { d with responses := d.responses.insert (bit, sec) none } else d
    some (d', { w with sections := sections, requesting := some (sec, unique) })
  | _, _ => none

def step : Action → Option (Scheduling × Wire)
  | .take => w.take bit d
  | .dist =>
    match w.requesting with
    | some (sec, true) =>
      some ({ d with dist := d.dist.send (bit, sec) }, { w with requesting := some (sec, false) })
    | _ => none
  | .pend =>
    match w.requesting with
    | some (sec, false) => some (d, { w with pend := w.pend.send sec, requesting := none })
    | _ => none
  | .closePend =>
    if w.requesting = none ∧ w.sections.Ended then some (d, { w with pend := w.pend.close })
    else none
  | .expect =>
    match w.expecting, w.pend.recv with
    | none, some (sec, pend) => some (d, { w with pend := pend, expecting := some sec })
    | _, _ => none
  | .deliver =>
    match w.expecting with
    | some sec =>
      match d.responses.lookup (bit, sec) with
      | some (some data) => some (d, { w with done := w.done.send data, expecting := none })
      | _ => none
    | none => none
  | .closeDone =>
    if w.expecting = none ∧ w.pend.Ended then some (d, { w with done := w.done.close }) else none

def waiting : List ℕ :=
  w.expecting.toList ++ (w.pend.queue ++ ((w.requesting.map Prod.fst).toList ++ w.sections.queue))

/-- The vectors that are there and those that will follow. -/
def flow : List (List UInt8) := w.done.queue ++ w.waiting.map (index bit)

/-- A channel is closed when the goroutine that sends on it has nothing left. -/
structure Closing : Prop where
  pend : w.pend.closed = true → w.requesting = none ∧ w.sections.Ended
  done : w.done.closed = true → w.expecting = none ∧ w.pend.Ended

variable {index bit d w} {w' : Wire} {a : Action}

theorem Closing.flow_eq_nil (h : w.Closing) (hdone : w.done.Ended) : w.flow index bit = [] := by
  obtain ⟨hexpect, hpend⟩ := h.done hdone.1
  obtain ⟨hrequest, hsections⟩ := h.pend hpend.1
  unfold flow waiting
  rw [hdone.queue_eq, hexpect, hpend.queue_eq, hrequest, hsections.queue_eq]
  rfl

theorem take_eq_some {d' : Scheduling} (h : w.take bit d = some (d', w')) :
    ∃ sec sections unique, w.requesting = none ∧ w.sections.recv = some (sec, sections) ∧
      w' = { w with sections := sections, requesting := some (sec, unique) } ∧
      (d' = d ∨ d' = { d with responses := d.responses.insert (bit, sec) none }) := by
  unfold take at h
  split at h
  · rename_i sec sections hreq hrecv
    cases h
    refine ⟨sec, sections, _, hreq, hrecv, rfl, ?_⟩
    split
    · exact .inr rfl
    · exact .inl rfl
  · cases h

theorem step_cached {d' : Scheduling} (hd : d.Cached index) (h : w.step bit d a = some (d', w')) :
    d'.Cached index := by
  cases a with
  | take =>
    obtain ⟨sec, _, _, _, _, _, rfl | rfl⟩ := take_eq_some h
    · exact hd
    · intro bit' sec' v hv
      rcases Table.lookup_insert_eq_some.mp hv with ⟨_, hnone⟩ | ⟨_, hold⟩
      · cases hnone
      · exact hd bit' sec' v hold
  | _ =>
    simp only [step] at h
    repeat' split at h
    all_goals cases h
    all_goals exact hd

/-- **The vectors leave in the order of the sections.** -/
theorem step_flow {d' : Scheduling} (hd : d.Cached index) (h : w.step bit d a = some (d', w')) :
    w'.flow index bit = w.flow index bit := by
  cases a with
  | take =>
    obtain ⟨sec, sections, _, hreq, hrecv, rfl, _⟩ := take_eq_some h
    simp [flow, waiting, hreq, (Chan.recv_eq_some hrecv).1]
  | dist | pend =>
    rw [step] at h
    split at h
    · rename_i hreq
      cases h
      simp [flow, waiting, hreq]
    · cases h
  | expect =>
    rw [step] at h
    split at h
    · rename_i hexpect hrecv
      cases h
      simp [flow, waiting, hexpect, (Chan.recv_eq_some hrecv).1]
    · cases h
  | deliver =>
    rw [step] at h
    split at h
    · rename_i sec hexpect
      split at h
      · -- the vector that was kept is that of the index
        rename_i data hdata
        cases h
        simp [flow, waiting, hexpect, hd bit sec data hdata]
      · cases h
    · cases h
  | closePend | closeDone =>
    rw [step] at h
    split at h
    · cases h
      rfl
    · cases h

theorem step_sections_closed {d' : Scheduling} (h : w.step bit d a = some (d', w')) :
    w'.sections.closed = w.sections.closed := by
  cases a with
  | take =>
    obtain ⟨_, _, _, _, hrecv, rfl, _⟩ := take_eq_some h
    exact (Chan.recv_eq_some hrecv).2
  | _ =>
    simp only [step] at h
    repeat' split at h
    all_goals cases h
    all_goals rfl

theorem step_closing {d' : Scheduling} (hw : w.Closing) (h : w.step bit d a = some (d', w')) :
    w'.Closing := by
  cases a with
  | take =>
    obtain ⟨_, _, _, _, hrecv, rfl, _⟩ := take_eq_some h
    refine ⟨fun hpend => ?_, hw.done⟩
    rw [Chan.recv_eq_none_of_ended (hw.pend hpend).2] at hrecv
    cases hrecv
  | dist =>
    rw [step] at h
    split at h
    · rename_i hreq
      cases h
      refine ⟨fun hpend => ?_, hw.done⟩
      rw [(hw.pend hpend).1] at hreq
      cases hreq
    · cases h
  | pend =>
    rw [step] at h
    split at h
    · rename_i hreq
      cases h
      have hopen : w.pend.closed = true → False := by
        intro hpend
        rw [(hw.pend hpend).1] at hreq
        cases hreq
      exact ⟨fun hpend => (hopen hpend).elim, fun hdone => (hopen (hw.done hdone).2.1).elim⟩
    · cases h
  | closePend =>
    rw [step] at h
    split at h
    · rename_i hend
      cases h
      exact ⟨fun _ => hend, fun hdone => ⟨(hw.done hdone).1, rfl, (hw.done hdone).2.2⟩⟩
    · cases h
  | expect =>
    rw [step] at h
    split at h
    · rename_i hrecv
      cases h
      refine ⟨fun hpend => hw.pend ((Chan.recv_eq_some hrecv).2 ▸ hpend), fun hdone => ?_⟩
      rw [Chan.recv_eq_none_of_ended (hw.done hdone).2] at hrecv
      cases hrecv
    · cases h
  | deliver =>
    rw [step] at h
    split at h
    · rename_i hexpect
      split at h
      · cases h
        refine ⟨hw.pend, fun hdone => ?_⟩
        rw [(hw.done hdone).1] at hexpect
        cases hexpect
      · cases h
    · cases h
  | closeDone =>
    rw [step] at h
    split at h
    · rename_i hend
      cases h
      exact ⟨hw.pend, fun _ => hend⟩
    · cases h

end Wire

end XChain.Bloombits
