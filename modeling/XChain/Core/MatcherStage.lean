import XChain.Core.BloomScheduler

/-!
# The goroutines of a group

`subMatch` in `core/bloombits/matcher.go`. One goroutine takes sections from the source, passes
their numbers to the schedulers of all bits of the group and then the section to the other
goroutine, which takes a vector from each scheduler, merges them and passes the section on if a bit
is left.

* **`Stage.step_ok`**: every step keeps what the schedulers owe to the group;
* **`Stage.step_passing`**: no step changes what will have left the group in the end.
-/

namespace XChain.Bloombits

open GoChan Bitset List Option Function Chan

structure PartialMatches where
  sec : ℕ
  bitset : List UInt8

def bitList (bloom : List BloomIndexes) : List ℕ := bloom.flatMap Vector.toList

def byClause : List (List UInt8) → List (List (List UInt8))
  | a :: b :: c :: rest => [a, b, c] :: byClause rest
  | _ => []

def merge (m : Matcher) (x : PartialMatches) (data : List (List UInt8)) : Option PartialMatches :=
  let vector := andBytes (m.orVector ((byClause data).map m.andVector)) x.bitset
  if anySet vector = true then some ⟨x.sec, vector⟩ else none

def pass (m : Matcher) (index : ℕ → ℕ → List UInt8) (bloom : List BloomIndexes)
    (x : PartialMatches) : Option PartialMatches :=
  (m.subMatch index bloom x.sec x.bitset).map fun bitset => ⟨x.sec, bitset⟩

theorem byClause_map (f : ℕ → List UInt8) : ∀ bloom : List BloomIndexes,
    byClause ((bitList bloom).map f) = bloom.map fun bits => bits.toList.map f
  | [] => rfl
  | bits :: bloom => by
    obtain ⟨a, b, c, habc⟩ : ∃ a b c, bits.toList = [a, b, c] :=
      length_eq_three.mp bits.length_toList
    have hbits : bitList (bits :: bloom) = a :: b :: c :: bitList bloom := by
      rw [bitList, flatMap_cons, habc]
      rfl
    rw [hbits, map_cons, map_cons, map_cons, byClause, byClause_map f bloom, map_cons, habc]
    rfl

/-- **The vectors of the index give the merge of the group.** -/
theorem merge_eq {m : Matcher} {index : ℕ → ℕ → List UInt8} {bloom : List BloomIndexes}
    (x : PartialMatches) :
    merge m x ((bitList bloom).map fun bit => index bit x.sec) = pass m index bloom x := by
  unfold merge pass Matcher.subMatch
  rw [byClause_map, List.map_map]
  rw [apply_ite (Option.map _)]
  rfl

/-! ## The model -/

inductive Multiplexer where
  | reading
  /-- The number of the section was sent to the first `count` schedulers. -/
  | sending (x : PartialMatches) (count : ℕ)
  /-- The source has ended, the channels to the first `count` schedulers are closed. -/
  | closing (count : ℕ)

structure SubMatch where
  mux : Multiplexer
  wires : ℕ → Wire
  process : Chan PartialMatches
  /-- The section whose vectors are gathered, with those that were taken. -/
  gathering : Option (PartialMatches × List (List UInt8))

namespace SubMatch

def new : SubMatch := ⟨.reading, fun _ => .new, .new, none⟩

def setWire (u : SubMatch) (k : ℕ) (w : Wire) : SubMatch :=
  { u with wires := update u.wires k w }

end SubMatch

structure Stage where
  source : Chan PartialMatches
  sub : SubMatch
  results : Chan PartialMatches
  sched : Scheduling

namespace Stage

inductive Action where
  | take | multiplex | process | stop | closeSection | closeProcess
  | wire (k : ℕ) (a : Wire.Action)
  | collect | gather | result | closeResults
  deriving DecidableEq

variable (m : Matcher) (index : ℕ → ℕ → List UInt8) (bloom : List BloomIndexes) (st : Stage)

def setSub (u : SubMatch) : Stage := { st with sub := u }

/-- A vector is taken from a scheduler; a channel that has ended gives `nil`. -/
def gatherFrom (x : PartialMatches) (data : List (List UInt8)) : Option Stage :=
  let w := st.sub.wires data.length
  match w.done.recv with
  | some (v, done) =>
    some (st.setSub { st.sub.setWire data.length { w with done := done } with
      gathering := some (x, data ++ [v]) })
  | none =>
    if w.done.Ended then some (st.setSub { st.sub with gathering := some (x, data ++ [[]]) })
    else none

def step : Action → Option Stage
  | .take =>
    match st.sub.mux, st.source.recv with
    | .reading, some (x, source) =>
      some { st with source := source, sub := { st.sub with mux := .sending x 0 } }
    | _, _ => none
  | .multiplex =>
    match st.sub.mux with
    | .sending x count =>
      if count < (bitList bloom).length then
        let w := st.sub.wires count
        some (st.setSub { st.sub.setWire count { w with sections := w.sections.send x.sec } with
          mux := .sending x (count + 1) })
      else none
    | _ => none
  | .process =>
    match st.sub.mux with
    | .sending x count =>
      if count < (bitList bloom).length then none
      else some (st.setSub { st.sub with mux := .reading, process := st.sub.process.send x })
    | _ => none
  | .stop =>
    match st.sub.mux with
    | .reading =>
      if st.source.Ended then some (st.setSub { st.sub with mux := .closing 0 }) else none
    | _ => none
  | .closeSection =>
    match st.sub.mux with
    | .closing count =>
      if count < (bitList bloom).length then
        let w := st.sub.wires count
        some (st.setSub { st.sub.setWire count { w with sections := w.sections.close } with
          mux := .closing (count + 1) })
      else none
    | _ => none
  | .closeProcess =>
    match st.sub.mux with
    | .closing count =>
      if count < (bitList bloom).length then none
      else some (st.setSub { st.sub with process := st.sub.process.close })
    | _ => none
  | .wire k a =>
    match (bitList bloom)[k]? with
    | none => none
    | some bit =>
      ((st.sub.wires k).step bit st.sched a).map fun e =>
        { st with sub := st.sub.setWire k e.2, sched := e.1 }
  | .collect =>
    match st.sub.gathering, st.sub.process.recv with
    | none, some (x, process) =>
      some (st.setSub { st.sub with process := process, gathering := some (x, []) })
    | _, _ => none
  | .gather =>
    match st.sub.gathering with
    | none => none
    | some (x, data) => if data.length < (bitList bloom).length then st.gatherFrom x data else none
  | .result =>
    match st.sub.gathering with
    | none => none
    | some (x, data) =>
      if data.length < (bitList bloom).length then none
      else
        let st' := st.setSub { st.sub with gathering := none }
        match merge m x data with
        | none => some st'
        | some y => some { st' with results := st.results.send y }
  | .closeResults =>
    if st.sub.gathering.isNone = true ∧ st.sub.process.Ended then
      some { st with results := st.results.close }
    else none

end Stage

/-! ## What is in a group -/

namespace Multiplexer

def held : Multiplexer → List PartialMatches
  | .sending x _ => [x]
  | _ => []

def sentTo (k : ℕ) : Multiplexer → List PartialMatches
  | .sending x count => if k < count then [x] else []
  | _ => []

end Multiplexer

namespace SubMatch

variable (u : SubMatch)

def flight : List PartialMatches :=
  (u.gathering.map Prod.fst).toList ++ (u.process.queue ++ u.mux.held)

def untaken (k : ℕ) : List PartialMatches :=
  match u.gathering with
  | some (x, data) => if data.length ≤ k then [x] else []
  | none => []

/-- The sections of which a vector is still to be taken from a scheduler that knows of them. -/
def owed (k : ℕ) : List PartialMatches := u.untaken k ++ (u.process.queue ++ u.mux.sentTo k)

end SubMatch

/-! ## A scheduler of a group -/

/-- A scheduler has the sections of which a vector is owed, and its channel of sections is closed
only when the group has stopped. -/
structure Wire.Ok (index : ℕ → ℕ → List UInt8) (bit : Option ℕ) (owed : List PartialMatches)
    (stopped : Prop) (w : Wire) : Prop where
  flow : ∀ b ∈ bit, w.flow index b = owed.map fun x => index b x.sec
  closing : w.Closing
  sections : w.sections.closed = true → stopped

namespace Wire.Ok

variable {index : ℕ → ℕ → List UInt8} {bit : Option ℕ} {owed owed' : List PartialMatches}
  {stopped stopped' : Prop} {w : Wire} {x : PartialMatches} {b : ℕ}

theorem congr (h : w.Ok index bit owed stopped) (howed : ∀ b ∈ bit, owed' = owed)
    (hstop : stopped → stopped') : w.Ok index bit owed' stopped' where
  flow b hb := by rw [howed b hb, h.flow b hb]
  closing := h.closing
  sections hclosed := hstop (h.sections hclosed)

theorem send (h : w.Ok index bit owed stopped) (hopen : ¬ stopped) :
    Wire.Ok index bit (owed ++ [x]) stopped' { w with sections := w.sections.send x.sec } where
  flow b hb := by
    have hflow := h.flow b hb
    simp [Wire.flow, Wire.waiting, ← hflow]
  closing := ⟨fun hpend => absurd (h.sections (h.closing.pend hpend).2.1) hopen, h.closing.done⟩
  sections hclosed := absurd (h.sections hclosed) hopen

theorem close (h : w.Ok index bit owed stopped) (hstop : stopped') :
    Wire.Ok index bit owed stopped' { w with sections := w.sections.close } where
  flow := h.flow
  closing := ⟨fun hpend => ⟨(h.closing.pend hpend).1, rfl, (h.closing.pend hpend).2.2⟩,
    h.closing.done⟩
  sections _ := hstop

theorem step {d d' : Scheduling} {w' : Wire} {a : Wire.Action}
    (h : w.Ok index (some b) owed stopped) (hd : d.Cached index)
    (hstep : w.step b d a = some (d', w')) : w'.Ok index (some b) owed stopped where
  flow b' hb := by
    cases hb
    rw [Wire.step_flow hd hstep, h.flow b rfl]
  closing := Wire.step_closing h.closing hstep
  sections hclosed := h.sections (Wire.step_sections_closed hstep ▸ hclosed)

variable (h : w.Ok index (some b) (x :: owed) stopped)
include h

/-- **A vector that is taken is that of the first section that is owed.** -/
theorem recv {v : List UInt8} {done : Chan (List UInt8)} (hrecv : w.done.recv = some (v, done)) :
    v = index b x.sec ∧ Wire.Ok index (some b) owed stopped { w with done := done } := by
  obtain ⟨hqueue, hclosed⟩ := recv_eq_some hrecv
  have hflow := h.flow b rfl
  rw [Wire.flow, hqueue, cons_append, map_cons, cons.injEq] at hflow
  refine ⟨hflow.1, ⟨?_, ⟨h.closing.pend, ?_⟩, h.sections⟩⟩
  · rintro b' hb
    cases hb
    exact hflow.2
  · intro hdone
    exact h.closing.done (hclosed ▸ hdone)

theorem not_ended : ¬ w.done.Ended := by
  intro hended
  have hflow := h.flow b rfl
  rw [h.closing.flow_eq_nil hended] at hflow
  cases hflow

end Wire.Ok

open SubMatch Multiplexer

/-! ## The steps of a group -/

namespace Stage

section Invariant

variable (m : Matcher) (index : ℕ → ℕ → List UInt8) (bloom : List BloomIndexes) (st : Stage)

/-- What will have left the group when `rest` has followed on the source. -/
def passing (rest : List PartialMatches) : List PartialMatches :=
  st.results.queue ++ (st.sub.flight ++ (st.source.queue ++ rest)).filterMap (pass m index bloom)

def Stopped (mux : Multiplexer) : Prop := ∃ n, mux = .closing n

/-- Each scheduler has the sections that are owed; a closed channel has nothing left to be sent. -/
structure Ok : Prop where
  count : ∀ x count, st.sub.mux = .sending x count → count ≤ (bitList bloom).length
  gathered : ∀ x data, st.sub.gathering = some (x, data) →
    data = ((bitList bloom).take data.length).map fun bit => index bit x.sec
  wires : ∀ k, Wire.Ok index (bitList bloom)[k]? (st.sub.owed k) (Stopped st.sub.mux)
    (st.sub.wires k)
  stopped : Stopped st.sub.mux → st.source.Ended
  process : st.sub.process.closed = true → Stopped st.sub.mux
  results : st.results.closed = true → st.sub.gathering = none ∧ st.sub.process.Ended

end Invariant

variable {m : Matcher} {index : ℕ → ℕ → List UInt8} {bloom : List BloomIndexes} {st st' : Stage}
  {a : Action}

theorem not_stopped_reading : ¬ Stopped .reading := nofun

theorem not_stopped_sending (x : PartialMatches) (count : ℕ) : ¬ Stopped (.sending x count) := nofun

theorem wires_setWire {u u' : SubMatch} {j : ℕ} {w : Wire}
    (hold : ∀ k, Wire.Ok index (bitList bloom)[k]? (u.owed k) (Stopped u.mux) (u.wires k))
    (hu : u'.wires = update u.wires j w)
    (hj : Wire.Ok index (bitList bloom)[j]? (u'.owed j) (Stopped u'.mux) w)
    (howed : ∀ k ≠ j, u'.owed k = u.owed k) (hstop : Stopped u.mux → Stopped u'.mux) (k : ℕ) :
    Wire.Ok index (bitList bloom)[k]? (u'.owed k) (Stopped u'.mux) (u'.wires k) := by
  rw [hu]
  revert k
  rw [forall_update_iff u.wires fun k w =>
    Wire.Ok index (bitList bloom)[k]? (u'.owed k) (Stopped u'.mux) w]
  exact ⟨hj, fun k hk => (hold k).congr (fun _ _ => howed k hk) hstop⟩

variable (hok : st.Ok index bloom)
include hok

theorem ok_take (h : st.step m bloom .take = some st') : st'.Ok index bloom := by
  rw [step] at h
  split at h
  · rename_i x source hmux hrecv
    cases h
    have hnot : ¬ Stopped st.sub.mux := by
      rw [hmux]
      exact not_stopped_reading
    exact { hok with
      count := by
        intro x' count hsend
        cases hsend
        exact Nat.zero_le _
      wires := by
        intro k
        refine (hok.wires k).congr (fun _ _ => ?_) fun hs => absurd hs hnot
        unfold owed
        rw [hmux]
        rfl
      stopped := nofun
      process := fun hclosed => absurd (hok.process hclosed) hnot }
  · cases h

theorem ok_multiplex (h : st.step m bloom .multiplex = some st') : st'.Ok index bloom := by
  rw [step] at h
  split at h
  · rename_i x count hmux
    split at h
    · rename_i hcount
      cases h
      have hnot : ¬ Stopped st.sub.mux := by
        rw [hmux]
        exact not_stopped_sending x count
      exact { hok with
        count := by
          intro x' count' hsend
          cases hsend
          exact hcount
        wires := by
          refine wires_setWire hok.wires rfl ?_ (fun k hk => ?_) fun hs => absurd hs hnot
          · refine ((hok.wires count).send hnot).congr (fun _ _ => ?_) id
            simp [owed, untaken, setWire, setSub, sentTo, hmux]
          · have hlt : k < count + 1 ↔ k < count := by omega
            simp [owed, untaken, setWire, setSub, sentTo, hmux, hlt]
        stopped := nofun
        process := fun hclosed => absurd (hok.process hclosed) hnot }
    · cases h
  · cases h

theorem ok_process (h : st.step m bloom .process = some st') : st'.Ok index bloom := by
  rw [step] at h
  split at h
  · rename_i x count hmux
    split at h
    · cases h
    rename_i hcount
    cases h
    have hnot : ¬ Stopped st.sub.mux := by
      rw [hmux]
      exact not_stopped_sending x count
    have hopen : st.sub.process.closed ≠ true := fun hclosed => hnot (hok.process hclosed)
    exact { hok with
      count := nofun
      wires := by
        intro k
        refine (hok.wires k).congr (fun bit hbit => ?_) fun hs => absurd hs hnot
        have hk : k < count := by
          have := (List.getElem?_eq_some_iff.mp hbit).1
          omega
        simp [owed, untaken, setSub, sentTo, hmux, hk]
      stopped := nofun
      process := fun hclosed => absurd hclosed hopen
      results := fun hclosed => absurd (hok.results hclosed).2.1 hopen }
  · cases h

theorem ok_stop (h : st.step m bloom .stop = some st') : st'.Ok index bloom := by
  rw [step] at h
  split at h
  · rename_i hmux
    split at h
    · rename_i hended
      cases h
      exact { hok with
        count := nofun
        wires := by
          intro k
          refine (hok.wires k).congr (fun _ _ => ?_) fun _ => ⟨0, rfl⟩
          unfold owed
          rw [hmux]
          rfl
        stopped := fun _ => hended
        process := fun _ => ⟨0, rfl⟩ }
    · cases h
  · cases h

theorem ok_closeSection (h : st.step m bloom .closeSection = some st') : st'.Ok index bloom := by
  rw [step] at h
  split at h
  · rename_i count hmux
    split at h
    · cases h
      have hstop : Stopped (.closing (count + 1)) := ⟨_, rfl⟩
      have howed : ∀ k, owed { st.sub.setWire count
          { st.sub.wires count with sections := (st.sub.wires count).sections.close } with
            mux := .closing (count + 1) } k = st.sub.owed k := by
        intro k
        unfold owed
        rw [hmux]
        rfl
      exact { hok with
        count := nofun
        wires := by
          refine wires_setWire hok.wires rfl ?_ (fun k _ => howed k) fun _ => hstop
          exact ((hok.wires count).close hstop).congr (fun _ _ => howed count) id
        stopped := fun _ => hok.stopped ⟨count, hmux⟩
        process := fun _ => hstop }
    · cases h
  · cases h

theorem ok_closeProcess (h : st.step m bloom .closeProcess = some st') : st'.Ok index bloom := by
  rw [step] at h
  split at h
  · rename_i count hmux
    split at h
    · cases h
    cases h
    exact { hok with
      process := fun _ => ⟨count, hmux⟩
      results := fun hclosed =>
        ⟨(hok.results hclosed).1, rfl, (hok.results hclosed).2.2⟩ }
  · cases h

theorem ok_wire {k : ℕ} {a : Wire.Action} (hd : st.sched.Cached index)
    (h : st.step m bloom (.wire k a) = some st') : st'.Ok index bloom ∧ st'.sched.Cached index := by
  rw [step] at h
  split at h
  · cases h
  · rename_i bit hbit
    obtain ⟨⟨d', w'⟩, hstep, rfl⟩ := map_eq_some_iff.mp h
    have hk := hok.wires k
    rw [hbit] at hk
    refine ⟨{ hok with wires := ?_ }, Wire.step_cached hd hstep⟩
    refine wires_setWire hok.wires rfl ?_ (fun _ _ => rfl) id
    rw [hbit]
    exact hk.step hd hstep

theorem ok_collect (h : st.step m bloom .collect = some st') : st'.Ok index bloom := by
  rw [step] at h
  split at h
  · rename_i x process hgather hrecv
    obtain ⟨hqueue, hclosed⟩ := recv_eq_some hrecv
    cases h
    exact { hok with
      gathered := by
        intro x' data hdata
        cases hdata
        rfl
      wires := by
        intro k
        refine (hok.wires k).congr (fun _ _ => ?_) id
        simp [owed, untaken, setSub, hgather, hqueue]
      process := fun hc => hok.process (hclosed ▸ hc)
      results := by
        intro hc
        rw [recv_eq_none_of_ended (hok.results hc).2] at hrecv
        cases hrecv }
  · cases h

theorem ok_gather (h : st.step m bloom .gather = some st') : st'.Ok index bloom := by
  rw [step] at h
  split at h
  · cases h
  rename_i x data hgather
  split at h
  · rename_i hlt
    have hbit : (bitList bloom)[data.length]? = some (bitList bloom)[data.length] :=
      getElem?_eq_getElem hlt
    have howed : st.sub.owed data.length =
        x :: (st.sub.process.queue ++ st.sub.mux.sentTo data.length) := by
      simp [owed, untaken, hgather]
    have hwire := hok.wires data.length
    rw [hbit, howed] at hwire
    rw [gatherFrom] at h
    split at h
    · rename_i v done hrecv
      cases h
      obtain ⟨hv, hdone⟩ := hwire.recv hrecv
      exact { hok with
        gathered := by
          intro x' data' hdata
          cases hdata
          rw [length_append, length_singleton, take_add_one, hbit, map_append,
            ← hok.gathered x data hgather, hv]
          rfl
        wires := by
          refine wires_setWire hok.wires rfl ?_ (fun k hk => ?_) id
          · rw [hbit]
            refine hdone.congr (fun _ _ => ?_) id
            simp [owed, untaken, setWire, setSub]
          · have hle : data.length + 1 ≤ k ↔ data.length ≤ k := by omega
            simp [owed, untaken, setWire, setSub, hgather, hle]
        results := by
          intro hclosed
          rw [(hok.results hclosed).1] at hgather
          cases hgather }
    · rw [if_neg hwire.not_ended] at h
      cases h
  · cases h

theorem ok_result (h : st.step m bloom .result = some st') : st'.Ok index bloom := by
  rw [step] at h
  split at h
  · cases h
  rename_i x data hgather
  split at h
  · cases h
  rename_i hlen
  have hopen : st.results.closed ≠ true := by
    intro hclosed
    rw [(hok.results hclosed).1] at hgather
    cases hgather
  have hok' : Stage.Ok index bloom (st.setSub { st.sub with gathering := none }) :=
    { hok with
      gathered := nofun
      wires := by
        intro k
        refine (hok.wires k).congr (fun bit hbit => ?_) id
        have hk : ¬ data.length ≤ k := by
          have := (List.getElem?_eq_some_iff.mp hbit).1
          omega
        simp [owed, untaken, setSub, hgather, hk]
      results := fun hclosed => absurd hclosed hopen }
  split at h
  · cases h
    exact hok'
  · cases h
    exact { hok' with results := fun hclosed => absurd hclosed hopen }

theorem ok_closeResults (h : st.step m bloom .closeResults = some st') : st'.Ok index bloom := by
  rw [step] at h
  split at h
  · rename_i hend
    cases h
    exact { hok with results := fun _ => ⟨isNone_iff_eq_none.mp hend.1, hend.2⟩ }
  · cases h

omit hok in
/-- What most steps leave alone. -/
theorem step_frame (h : st.step m bloom a = some st') :
    ((∃ k b, a = .wire k b) ∨ st'.sched = st.sched) ∧ st'.source.closed = st.source.closed ∧
      (a = .result ∨ a = .closeResults ∨ st'.results = st.results) := by
  cases a with
  | take =>
    rw [step] at h
    split at h
    · rename_i hrecv
      cases h
      exact ⟨.inr rfl, (recv_eq_some hrecv).2, .inr (.inr rfl)⟩
    · cases h
  | wire k b =>
    rw [step] at h
    split at h
    · cases h
    · obtain ⟨_, _, rfl⟩ := map_eq_some_iff.mp h
      exact ⟨.inl ⟨k, b, rfl⟩, rfl, .inr (.inr rfl)⟩
  | gather =>
    simp only [step, gatherFrom] at h
    repeat' split at h
    all_goals cases h
    all_goals exact ⟨.inr rfl, rfl, .inr (.inr rfl)⟩
  | _ =>
    simp only [step] at h
    repeat' split at h
    all_goals cases h
    all_goals simp [setSub]

/-- **Every step of a group keeps what its schedulers owe.** -/
theorem step_ok (hd : st.sched.Cached index) (h : st.step m bloom a = some st') :
    st'.Ok index bloom ∧ st'.sched.Cached index := by
  rcases (step_frame h).1 with ⟨k, b, rfl⟩ | hsched
  · exact ok_wire hok hd h
  · refine ⟨?_, hd.of_eq (by rw [hsched])⟩
    cases a with
    | take => exact ok_take hok h
    | multiplex => exact ok_multiplex hok h
    | process => exact ok_process hok h
    | stop => exact ok_stop hok h
    | closeSection => exact ok_closeSection hok h
    | closeProcess => exact ok_closeProcess hok h
    | wire k b => exact (ok_wire hok hd h).1
    | collect => exact ok_collect hok h
    | gather => exact ok_gather hok h
    | result => exact ok_result hok h
    | closeResults => exact ok_closeResults hok h

theorem step_results_of_closed (hclosed : st.results.closed = true)
    (h : st.step m bloom a = some st') : st'.results = st.results := by
  rcases (step_frame h).2.2 with rfl | rfl | hsame
  · rw [step] at h
    split at h
    · cases h
    · rename_i hgather
      rw [(hok.results hclosed).1] at hgather
      cases hgather
  · rw [step] at h
    split at h
    · cases h
      rw [close, ← hclosed]
    · cases h
  · exact hsame

/-! ## What leaves a group -/

theorem passing_result (rest : List PartialMatches) (h : st.step m bloom .result = some st') :
    st'.passing m index bloom rest = st.passing m index bloom rest := by
  rw [step] at h
  split at h
  · cases h
  rename_i x data hgather
  split at h
  · cases h
  rename_i hlen
  have hdata : data = (bitList bloom).map fun bit => index bit x.sec := by
    conv_lhs => rw [hok.gathered x data hgather, take_of_length_le (Nat.le_of_not_lt hlen)]
  have hmerge : merge m x data = pass m index bloom x := by
    rw [hdata, merge_eq]
  rw [hmerge] at h
  split at h
  · rename_i hpass
    cases h
    simp [passing, flight, setSub, hgather, hpass]
  · rename_i y hpass
    cases h
    simp [passing, flight, setSub, hgather, hpass]

/-- **No step changes what will have left the group.** -/
theorem step_passing (rest : List PartialMatches) (h : st.step m bloom a = some st') :
    st'.passing m index bloom rest = st.passing m index bloom rest := by
  cases a with
  | take =>
    rw [step] at h
    split at h
    · rename_i hmux hrecv
      cases h
      simp [passing, flight, held, hmux, (recv_eq_some hrecv).1]
    · cases h
  | process =>
    rw [step] at h
    split at h
    · rename_i hmux
      split at h
      · cases h
      · cases h
        simp [passing, flight, held, setSub, hmux]
    · cases h
  | collect =>
    rw [step] at h
    split at h
    · rename_i hgather hrecv
      cases h
      simp [passing, flight, setSub, hgather, (recv_eq_some hrecv).1]
    · cases h
  | gather =>
    simp only [step, gatherFrom] at h
    split at h
    · cases h
    rename_i hgather
    repeat' split at h
    all_goals cases h
    all_goals simp [passing, flight, setWire, setSub, hgather]
  | result => exact passing_result hok rest h
  | wire k b =>
    rw [step] at h
    split at h
    · cases h
    · obtain ⟨_, _, rfl⟩ := map_eq_some_iff.mp h
      rfl
  | multiplex | stop | closeSection | closeProcess =>
    simp only [step] at h
    split at h
    · rename_i hmux
      split at h
      all_goals cases h
      all_goals simp [passing, flight, setWire, held, setSub, hmux]
    · cases h
  | closeResults =>
    rw [step] at h
    split at h
    · cases h
      rfl
    · cases h

end Stage

end XChain.Bloombits
