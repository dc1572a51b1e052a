import XChain.Lib.Machine
import XChain.Lib.Table

/-!
# State sync

`mc/downloader/statesync.go`: `stateSync.loop` puts the nodes that the scheduler of the trie misses
into requests to peers and processes what comes back; `runStateSync` keeps track of the requests
meanwhile. An action is a stretch of code of one of them between two receives or sends, or a send
and its receive. What the scheduler answers is in the actions; `returned` and `accepted` record it.
Counters of progress and the choice of idle peers are left out.

* **`outstanding_in_one_place`**: in every run, a hash that the scheduler wants is in one of them.
-/

namespace XChain.StateSync

open GoMap List Option Table AList StepMachine

section Source

variable {H P B : Type} [DecidableEq H] [DecidableEq P]

structure Task (P : Type) where
  attempts : List P
deriving DecidableEq

/-- `stateReq`; a nil response is that of a request that timed out. -/
structure Req (H P B : Type) where
  ref : ℕ
  peer : P
  items : List H
  tasks : Table H (Task P)
  response : Option (List B)
  dropped : Bool

/-- Where `loop` is; without idle peers `assignTasks` waits for something to happen. -/
inductive Phase (H P B : Type)
  | ready
  | assigning (peers : List (P × ℕ))
  | handing (req : Req H P B) (peers : List (P × ℕ))
  | processing (req : Req H P B) (blobs : List B)
  | ended

/-- Both goroutines, and what the scheduler has answered. -/
structure Sync (H P B : Type) where
  tasks : Table H (Task P)
  active : Table P (Req H P B)
  finished : List (Req H P B)
  phase : Phase H P B
  returned : List H
  accepted : List H
  nextRef : ℕ

def newStateSync : Sync H P B := ⟨∅, ∅, [], .ready, [], [], 0⟩

def Outstanding (s : Sync H P B) (h : H) : Prop := h ∈ s.returned ∧ h ∉ s.accepted

instance (s : Sync H P B) (h : H) : Decidable (Outstanding s h) :=
  inferInstanceAs (Decidable (_ ∧ _))

def refill (missing : List H) (s : Sync H P B) : Sync H P B :=
  { s with
    tasks := missing.foldl (fun tasks h => tasks.insert h ⟨[]⟩) s.tasks
    returned := s.returned ++ missing }

structure Filled (H P : Type) where
  items : List H
  reqTasks : Table H (Task P)
  tasks : Table H (Task P)

def fillFrom (peer : P) (n : ℕ) : List (Entry H (Task P)) → Filled H P → Filled H P
  | [], f => f
  | ⟨h, t⟩ :: es, f =>
    if f.items.length = n then f
    else if peer ∈ t.attempts then fillFrom peer n es f
    else fillFrom peer n es ⟨f.items ++ [h], f.reqTasks.insert h ⟨peer :: t.attempts⟩,
      f.tasks.erase h⟩

/-- `fillTasks` and the test whether the request is sent, for the first of the idle peers. -/
def fillTasks (peer : P) (n : ℕ) (peers : List (P × ℕ)) (missing : List H)
    (order : Ranging (Entry H (Task P))) (s : Sync H P B) : Sync H P B :=
  let s := if s.tasks.entries.length < n then refill missing s else s
  let f := fillFrom peer n (order.visit s.tasks.entries) ⟨[], ∅, s.tasks⟩
  { s with
    tasks := f.tasks
    nextRef := s.nextRef + 1
    phase := if f.items = [] then .assigning peers
      else .handing ⟨s.nextRef, peer, f.items, f.reqTasks, none, false⟩ peers }

/-- `runStateSync` gets a new request. A request that the peer had before is finished. -/
def track (req : Req H P B) (peers : List (P × ℕ)) (s : Sync H P B) : Sync H P B :=
  { s with
    finished := match s.active.lookup req.peer with
      | some old => s.finished ++ [{ old with dropped := true }]
      | none => s.finished
    active := s.active.insert req.peer req
    phase := .assigning peers }

/-- A request of a peer is finished, if there is one that `finish` takes. -/
def finishReq (peer : P) (finish : Req H P B → Option (Req H P B)) (s : Sync H P B) : Sync H P B :=
  match (s.active.lookup peer).bind finish with
  | none => s
  | some req => { s with finished := s.finished ++ [req], active := s.active.erase peer }

inductive Answer
  | accepted
  | notRequested
  | alreadyProcessed
  | invalid
deriving DecidableEq

def processBlob (req : Req H P B) (h : H) (blobs : List B) (answer : Answer) (s : Sync H P B) :
    Sync H P B :=
  let req := { req with tasks := req.tasks.erase h }
  match answer with
  | .invalid => { s with phase := .ended }
  | .accepted => { s with phase := .processing req blobs, accepted := h :: s.accepted }
  | _ => { s with phase := .processing req blobs }

/-- The loop at the end of `process`: tasks that were not fulfilled go back into the queue, unless
one has failed with all peers. -/
def requeueFrom (req : Req H P B) (npeers : ℕ) :
    List (Entry H (Task P)) → Table H (Task P) → Option (Table H (Task P))
  | [], tasks => some tasks
  | ⟨h, t⟩ :: es, tasks =>
    let attempts := if req.response.elim true (fun blobs => decide (blobs ≠ [])) then
      t.attempts.erase req.peer else t.attempts
    if npeers ≤ attempts.length then none
    else requeueFrom req npeers es (tasks.insert h ⟨attempts⟩)

def requeue (req : Req H P B) (npeers : ℕ) (order : Ranging (Entry H (Task P))) (s : Sync H P B) :
    Sync H P B :=
  match requeueFrom req npeers (order.visit req.tasks.entries) s.tasks with
  | none => { s with phase := .ended }
  | some tasks => { s with tasks := tasks, phase := .ready }

inductive Action (H P B : Type)
  | assign (peers : List (P × ℕ))
  | fill (missing : List H) (order : Ranging (Entry H (Task P)))
  | track
  | newPeer
  | deliver
  | process (answer : Answer)
  | requeue (npeers : ℕ) (order : Ranging (Entry H (Task P)))
  | statePack (peer : P) (states : Option (List B))
  | peerDrop (peer : P)
  | timeout (peer : P) (ref : ℕ)
  | finish

/-- An action of one of the goroutines. -/
def step (keccak : B → H) (s : Sync H P B) : Action H P B → Option (Sync H P B)
  | .assign peers =>
    match s.phase with
    | .ready => some { s with phase := .assigning peers }
    | _ => none
  | .fill missing order =>
    match s.phase with
    | .assigning ((peer, n) :: peers) =>
      some (fillTasks peer n peers missing order s)
    | _ => none
  | .track =>
    match s.phase with
    | .handing req peers => some (track req peers s)
    | _ => none
  | .newPeer =>
    match s.phase with
    | .assigning [] => some { s with phase := .ready }
    | _ => none
  | .deliver =>
    match s.phase, s.finished with
    | .assigning [], req :: finished =>
      some { s with finished := finished, phase := .processing req (req.response.getD []) }
    | _, _ => none
  | .process answer =>
    match s.phase with
    | .processing req (blob :: blobs) => some (processBlob req (keccak blob) blobs answer s)
    | _ => none
  | .requeue npeers order =>
    match s.phase with
    | .processing req [] => some (requeue req npeers order s)
    | _ => none
  | .statePack peer states =>
    some (finishReq peer (fun req => some { req with response := states }) s)
  | .peerDrop peer => some (finishReq peer (fun req => some { req with dropped := true }) s)
  | .timeout peer ref =>
    some (finishReq peer (fun req => if req.ref = ref then some req else none) s)
  | .finish => some { s with phase := .ended }

/-- What is asked of the scheduler: it does not return a hash that is outstanding, and takes such a
one, or finds it invalid. -/
def lawful (keccak : B → H) (s : Sync H P B) : Action H P B → Bool
  | .fill missing _ => missing.all fun h => decide (¬ Outstanding s h)
  | .process answer =>
    match s.phase with
    | .processing _ (blob :: _) =>
      decide (Outstanding s (keccak blob) → answer = .accepted ∨ answer = .invalid)
    | _ => true
  | _ => true

end Source

/-! ## Places -/

section Places

variable {H P B : Type} [DecidableEq H] {s t : Sync H P B}

def Phase.held : Phase H P B → List (Req H P B)
  | .handing req _ => [req]
  | .processing req _ => [req]
  | _ => []

/-- The queue, and the task maps of the requests: handed over or being processed, active, and
finished. -/
def places (s : Sync H P B) : List (Table H (Task P)) :=
  s.tasks :: (s.phase.held ++ s.active.entries.map (·.2) ++ s.finished).map Req.tasks

def has (h : H) (tasks : Table H (Task P)) : Bool := (tasks.lookup h).isSome

/-- Outstanding hashes are in one place, and hashes that were not returned in none. -/
structure Inv (s : Sync H P B) : Prop where
  one : ∀ h, Outstanding s h → (places s).countP (has h) = 1
  none : ∀ h, h ∉ s.returned → (places s).countP (has h) = 0

omit [DecidableEq H] in
theorem outstanding_congr (hreturned : t.returned = s.returned)
    (haccepted : t.accepted = s.accepted) (h : H) : Outstanding t h ↔ Outstanding s h := by
  unfold Outstanding
  rw [hreturned, haccepted]

theorem inv_newStateSync : Inv (newStateSync : Sync H P B) :=
  ⟨fun _ hout => absurd hout.1 not_mem_nil, fun _ _ => rfl⟩

theorem Inv.of_count (hs : Inv s)
    (hcount : ∀ h, (places t).countP (has h) = (places s).countP (has h))
    (hreturned : t.returned = s.returned) (haccepted : t.accepted = s.accepted) : Inv t := by
  refine ⟨fun h hout => ?_, fun h hnot => ?_⟩
  · rw [hcount]
    exact hs.one h ((outstanding_congr hreturned haccepted h).mp hout)
  · rw [hcount]
    exact hs.none h (hreturned ▸ hnot)

theorem Inv.of_perm (hs : Inv s) (hperm : (places t).Perm (places s))
    (hreturned : t.returned = s.returned) (haccepted : t.accepted = s.accepted) : Inv t :=
  hs.of_count (fun h => hperm.countP_eq (has h)) hreturned haccepted

variable {req : Req H P B} {peers : List (P × ℕ)} {missing : List H}

theorem has_insert (h k : H) (task : Task P) (tasks : Table H (Task P)) :
    has h (tasks.insert k task) = (decide (h = k) || has h tasks) := by
  unfold has
  by_cases hk : h = k
  · subst hk
    simp
  · simp [hk, lookup_insert_ne hk]

theorem has_erase (h k : H) (tasks : Table H (Task P)) :
    has h (tasks.erase k) = (!decide (h = k) && has h tasks) := by
  unfold has
  by_cases hk : h = k
  · subst hk
    simp
  · simp [hk, lookup_erase_ne hk]

theorem has_foldl_insert (h : H) : ∀ (missing : List H) (tasks : Table H (Task P)),
    has h (missing.foldl (fun tasks h => tasks.insert h ⟨[]⟩) tasks) =
      (decide (h ∈ missing) || has h tasks)
  | [], tasks => by simp
  | k :: missing, tasks => by
    rw [foldl_cons, has_foldl_insert h missing, has_insert]
    by_cases hk : h = k <;> simp [hk]

theorem inv_refill (hs : Inv s) (hmissing : ¬ ∃ h ∈ missing, Outstanding s h) :
    Inv (refill missing s) := by
  have hcount : ∀ h, (places (refill missing s)).countP (has h) =
      (places s).tail.countP (has h) + (decide (h ∈ missing) || has h s.tasks).toNat := fun h => by
    rw [← has_foldl_insert h missing]
    exact countP_cons_toNat _ _ _
  have hbefore : ∀ h, (places s).countP (has h) =
      (places s).tail.countP (has h) + (has h s.tasks).toNat := fun h =>
    countP_cons_toNat _ _ _
  refine ⟨fun h hout => ?_, fun h hnot => ?_⟩
  · rw [hcount]
    by_cases hmem : h ∈ missing
    · -- it was not returned before
      have hnew : h ∉ s.returned := fun hold => hmissing ⟨h, hmem, hold, hout.2⟩
      have hzero := hs.none h hnew
      rw [hbefore] at hzero
      rw [decide_eq_true hmem, Bool.true_or, Bool.toNat_true]
      omega
    · have hold : h ∈ s.returned := (mem_append.mp hout.1).resolve_right hmem
      have hone := hs.one h ⟨hold, hout.2⟩
      rw [hbefore] at hone
      rw [decide_eq_false hmem, Bool.false_or]
      exact hone
  · have hboth := mem_append.not.mp hnot
    rw [not_or] at hboth
    rw [hcount, decide_eq_false hboth.2, Bool.false_or, ← hbefore]
    exact hs.none h hboth.1

omit [DecidableEq H] in
theorem places_held (hheld : s.phase.held = [req]) :
    places s = s.tasks :: req.tasks ::
      (s.active.entries.map (·.2) ++ s.finished).map Req.tasks := by
  unfold places
  rw [hheld]
  rfl

omit [DecidableEq H] in
theorem places_free (hfree : s.phase.held = []) :
    places s = s.tasks :: (s.active.entries.map (·.2) ++ s.finished).map Req.tasks := by
  unfold places
  rw [hfree]
  rfl

theorem inv_leave (hs : Inv s) {h : H} (hs_held : s.phase.held = [req])
    (ht_held : t.phase.held = [{ req with tasks := req.tasks.erase h }])
    (htasks : t.tasks = s.tasks) (hactive : t.active = s.active)
    (hfinished : t.finished = s.finished) (hreturned : t.returned = s.returned)
    (hout : ∀ k, Outstanding t k → Outstanding s k ∧ k ≠ h) : Inv t := by
  have hcount : ∀ k, (places s).countP (has k) = (places t).countP (has k) +
      (decide (k = h) && has k req.tasks).toNat := fun k => by
    rw [places_held hs_held, places_held ht_held, htasks, hactive, hfinished]
    simp only [countP_cons_toNat, has_erase]
    by_cases hk : k = h <;> simp [hk]
    omega
  refine ⟨fun k hk => ?_, fun k hk => ?_⟩
  · obtain ⟨hold, hne⟩ := hout k hk
    have hone := hs.one k hold
    rw [hcount, decide_eq_false hne, Bool.false_and, Bool.toNat_false] at hone
    exact hone
  · have hzero := hs.none k (hreturned ▸ hk)
    rw [hcount] at hzero
    omega

theorem inv_processBlob (hs : Inv s) {blobs rest : List B} {h : H}
    {answer : Answer} (hphase : s.phase = .processing req rest)
    (hanswer : Outstanding s h → answer = .accepted ∨ answer = .invalid)
    (hended : (processBlob req h blobs answer s).phase ≠ .ended) :
    Inv (processBlob req h blobs answer s) := by
  have hheld : s.phase.held = [req] := by
    rw [hphase]
    rfl
  have hne : answer ≠ .accepted → answer ≠ .invalid → ∀ k, Outstanding s k → k ≠ h := by
    rintro haccepted hinvalid k hk rfl
    exact (hanswer hk).elim haccepted hinvalid
  cases answer with
  | invalid => exact absurd rfl hended
  | accepted =>
    refine inv_leave hs hheld rfl rfl rfl rfl rfl fun k hk => ?_
    obtain ⟨hreturned, haccepted⟩ := hk
    have hboth := mem_cons.not.mp haccepted
    rw [not_or] at hboth
    exact ⟨⟨hreturned, hboth.2⟩, hboth.1⟩
  | notRequested | alreadyProcessed =>
    exact inv_leave hs hheld rfl rfl rfl rfl rfl fun k hk => ⟨hk, hne nofun nofun k hk⟩

variable [DecidableEq P]

/-! ### Requests that are handed over and finished -/

theorem inv_finishReq (hs : Inv s) (peer : P) {finish : Req H P B → Option (Req H P B)}
    (hfinish : ∀ req req', finish req = some req' → req'.tasks = req.tasks) :
    Inv (finishReq peer finish s) := by
  unfold finishReq
  cases hreq : (s.active.lookup peer).bind finish with
  | none => exact hs
  | some req' =>
    obtain ⟨req, hactive, hreq'⟩ := bind_eq_some_iff.mp hreq
    refine hs.of_perm ?_ rfl rfl
    have hentries := ((entries_perm_erase hactive).map (·.2)).map Req.tasks
    unfold places
    simp only [map_append, map_cons, map_nil, hfinish req req' hreq'] at hentries ⊢
    refine Perm.cons _ ?_
    rw [append_assoc, append_assoc]
    refine Perm.append_left _ ?_
    rw [← append_assoc]
    exact (perm_append_singleton _ _).trans (hentries.symm.append_right _)

omit [DecidableEq H] in
theorem finishReq_phase (peer : P) (finish : Req H P B → Option (Req H P B)) (s : Sync H P B) :
    (finishReq peer finish s).phase = s.phase := by
  unfold finishReq
  split <;> rfl

theorem inv_track (hs : Inv s) (hphase : s.phase = .handing req peers) :
    Inv (track req peers s) := by
  refine hs.of_perm ?_ rfl rfl
  unfold places track
  rw [hphase]
  simp only [Phase.held, map_append, map_cons, map_nil, nil_append, entries_insert]
  refine Perm.cons _ ?_
  cases hactive : s.active.lookup req.peer with
  | none =>
    have herase := congrArg entries (erase_of_lookup_none hactive)
    change kerase req.peer s.active.entries = s.active.entries at herase
    rw [herase]
    exact .refl _
  | some old =>
    have hentries := ((entries_perm_erase hactive).map (·.2)).map Req.tasks
    simp only [map_append, map_cons, map_nil] at hentries ⊢
    rw [cons_append, cons_append, ← append_assoc]
    refine Perm.cons _ ?_
    exact (perm_append_singleton _ _).trans (hentries.symm.append_right _)

/-! ### New requests -/

theorem has_fillFrom (peer : P) (n : ℕ) (h : H) : ∀ (es : List (Entry H (Task P)))
    (f : Filled H P), (es.map Sigma.fst).Nodup →
    (∀ e ∈ es, has e.1 f.tasks = true ∧ has e.1 f.reqTasks = false) →
    (has h (fillFrom peer n es f).tasks).toNat + (has h (fillFrom peer n es f).reqTasks).toNat =
      (has h f.tasks).toNat + (has h f.reqTasks).toNat
  | [], f, _, _ => rfl
  | ⟨k, t⟩ :: es, f, hnodup, hes => by
    rw [map_cons, nodup_cons] at hnodup
    rw [fillFrom]
    split_ifs with hfull htried
    · rfl
    · exact has_fillFrom peer n h es f hnodup.2 fun e he => hes e (mem_cons_of_mem _ he)
    · have hne : ∀ e ∈ es, e.1 ≠ k := fun e he hek => hnodup.1 (mem_map.mpr ⟨e, he, hek⟩)
      rw [has_fillFrom peer n h es _ hnodup.2 fun e he => by
        rw [has_erase, has_insert, decide_eq_false (hne e he)]
        simpa using hes e (mem_cons_of_mem _ he)]
      rw [has_erase, has_insert]
      by_cases hk : h = k
      · -- the task itself moves
        obtain ⟨hqueue, hreq⟩ := hes ⟨k, t⟩ mem_cons_self
        subst hk
        simp [hqueue, hreq]
      · simp [hk]

theorem fillFrom_items (peer : P) (n : ℕ) (h : H) : ∀ (es : List (Entry H (Task P)))
    (f : Filled H P), (has h f.reqTasks = true → h ∈ f.items) →
    has h (fillFrom peer n es f).reqTasks = true → h ∈ (fillFrom peer n es f).items
  | [], f, hf => hf
  | ⟨k, t⟩ :: es, f, hf => by
    rw [fillFrom]
    split_ifs with hfull htried
    · exact hf
    · exact fillFrom_items peer n h es f hf
    · refine fillFrom_items peer n h es _ ?_
      rw [has_insert, mem_append, mem_singleton]
      intro hor
      rcases Bool.or_eq_true_iff.mp hor with hk | hreq
      · exact .inr (of_decide_eq_true hk)
      · exact .inl (hf hreq)

theorem inv_fillTasks (hs : Inv s) {peer : P} {n : ℕ} (order : Ranging (Entry H (Task P)))
    (hphase : s.phase.held = []) (hmissing : ¬ ∃ h ∈ missing, Outstanding s h) :
    Inv (fillTasks peer n peers missing order s) := by
  unfold fillTasks
  -- with the new tasks of the scheduler
  generalize hs₁ : (if s.tasks.entries.length < n then refill missing s else s) = s₁
  have hinv : Inv s₁ := by
    rw [← hs₁]
    split_ifs
    · exact inv_refill hs hmissing
    · exact hs
  have hfree : s₁.phase.held = [] := by
    rw [← hs₁]
    split_ifs <;> exact hphase
  have hperm := order.visit_perm s₁.tasks.entries
  have hnodup : ((order.visit s₁.tasks.entries).map Sigma.fst).Nodup :=
    (hperm.map _).nodup_iff.mpr s₁.tasks.nodupKeys
  have hmem : ∀ e ∈ order.visit s₁.tasks.entries,
      has e.1 s₁.tasks = true ∧ has e.1 (∅ : Table H (Task P)) = false := fun e he =>
    ⟨isSome_iff_exists.mpr ⟨e.2, mem_entries.mp (hperm.mem_iff.mp he)⟩, rfl⟩
  dsimp only
  refine hinv.of_count (fun h => ?_) rfl rfl
  have hmove := has_fillFrom peer n h _ ⟨[], ∅, s₁.tasks⟩ hnodup hmem
  have hempty : (has h (∅ : Table H (Task P))).toNat = 0 := rfl
  dsimp only at hmove
  rw [places_free hfree, countP_cons_toNat]
  split_ifs with hitems
  · have hnone := fillFrom_items peer n h (order.visit s₁.tasks.entries) ⟨[], ∅, s₁.tasks⟩ nofun
    rw [hitems] at hnone
    have hfalse := Bool.eq_false_iff.mpr fun htrue => not_mem_nil (hnone htrue)
    rw [hfalse, Bool.toNat_false] at hmove
    rw [places_free rfl, countP_cons_toNat]
    dsimp only
    omega
  · rw [places_held rfl, countP_cons_toNat, countP_cons_toNat]
    dsimp only
    omega

/-! ### Processing -/

theorem has_requeueFrom (req : Req H P B) (npeers : ℕ) (h : H) : ∀ (es : List (Entry H (Task P)))
    {tasks tasks' : Table H (Task P)}, requeueFrom req npeers es tasks = some tasks' →
    has h tasks' = ((es.any fun e => decide (h = e.1)) || has h tasks)
  | [], tasks, tasks', hre => by
    cases hre
    rfl
  | ⟨k, t⟩ :: es, tasks, tasks', hre => by
    obtain ⟨-, hre⟩ := ite_none_left_eq_some.mp hre
    rw [has_requeueFrom req npeers h es hre, has_insert, any_cons, ← Bool.or_assoc]
    congr 1
    exact Bool.or_comm _ _

theorem inv_requeue (hs : Inv s) {npeers : ℕ}
    (order : Ranging (Entry H (Task P))) (hphase : s.phase = .processing req [])
    (hended : (requeue req npeers order s).phase ≠ .ended) : Inv (requeue req npeers order s) := by
  have hheld : s.phase.held = [req] := by
    rw [hphase]
    rfl
  unfold requeue at hended ⊢
  cases hre : requeueFrom req npeers (order.visit req.tasks.entries) s.tasks with
  | none =>
    rw [hre] at hended
    exact absurd rfl hended
  | some tasks =>
    have hany : ∀ h, ((order.visit req.tasks.entries).any fun e => decide (h = e.1)) =
        has h req.tasks := fun h => by
      rw [Bool.eq_iff_iff, List.any_eq_true]
      unfold has
      rw [isSome_iff_exists]
      constructor
      · rintro ⟨e, he, heq⟩
        obtain rfl := of_decide_eq_true heq
        exact ⟨e.2, mem_entries.mp ((order.visit_perm _).mem_iff.mp he)⟩
      · rintro ⟨task, htask⟩
        exact ⟨⟨h, task⟩, (order.visit_perm _).mem_iff.mpr (mem_entries.mpr htask),
          decide_eq_true rfl⟩
    -- a hash of the request goes to the queue; outstanding ones were not in both
    have hcount : ∀ h, (places s).countP (has h) ≤ 1 →
        (places { s with tasks := tasks, phase := .ready }).countP (has h) =
          (places s).countP (has h) := fun h => by
      rw [places_held hheld, places_free rfl]
      simp only [countP_cons_toNat, has_requeueFrom req npeers h _ hre, hany]
      cases has h req.tasks <;> cases has h s.tasks <;> simp
    refine ⟨fun h hout => ?_, fun h hnot => ?_⟩
    · have hone := hs.one h hout
      rw [hcount h (Nat.le_of_eq hone), hone]
    · have hzero := hs.none h hnot
      rw [hcount h (hzero ▸ Nat.zero_le 1), hzero]

/-! ### Runs -/

theorem inv_step {keccak : B → H} (a : Action H P B) (hs : s.phase ≠ .ended → Inv s)
    (hlawful : lawful keccak s a = true) (hst : step keccak s a = some t)
    (hended : t.phase ≠ .ended) : Inv t := by
  cases a with rw [step] at hst
  | assign peers | newPeer =>
    split at hst
    · rename_i hphase
      cases hst
      refine (hs (hphase ▸ nofun)).of_perm ?_ rfl rfl
      rw [places_free rfl, places_free (hphase ▸ rfl)]
    · cases hst
  | fill missing order =>
    split at hst
    · rename_i peer n peers hphase
      cases hst
      refine inv_fillTasks (hs (hphase ▸ nofun)) order (hphase ▸ rfl) ?_
      simpa [lawful] using hlawful
    · cases hst
  | track =>
    split at hst
    · rename_i req peers hphase
      cases hst
      exact inv_track (hs (hphase ▸ nofun)) hphase
    · cases hst
  | deliver =>
    split at hst
    · rename_i req finished hphase hfinished
      cases hst
      refine (hs (hphase ▸ nofun)).of_perm ?_ rfl rfl
      rw [places_held rfl, places_free (hphase ▸ rfl), hfinished]
      refine Perm.cons _ ?_
      rw [map_append, map_append, map_cons]
      exact perm_middle.symm
    · cases hst
  | process answer =>
    split at hst
    · rename_i req blob blobs hphase
      cases hst
      simp only [lawful, hphase, decide_eq_true_eq] at hlawful
      exact inv_processBlob (hs (hphase ▸ nofun)) hphase hlawful hended
    · cases hst
  | requeue npeers order =>
    split at hst
    · rename_i req hphase
      cases hst
      exact inv_requeue (hs (hphase ▸ nofun)) order hphase hended
    · cases hst
  | statePack peer states | peerDrop peer =>
    cases hst
    exact inv_finishReq (hs (finishReq_phase peer _ s ▸ hended)) peer fun req req' h => by
      cases h
      rfl
  | timeout peer ref =>
    cases hst
    refine inv_finishReq (hs (finishReq_phase peer _ s ▸ hended)) peer fun req req' h => ?_
    obtain ⟨-, rfl⟩ := of_guard h
    rfl
  | finish =>
    cases hst
    exact absurd rfl hended

/-- **A hash that is outstanding is in exactly one place.** -/
theorem outstanding_in_one_place (keccak : B → H) (actions : List (Action H P B)) (s : Sync H P B)
    (hlawful : Along (step keccak) (fun s a => lawful keccak s a = true) newStateSync actions)
    (hrun : run (step keccak) newStateSync actions = some s)
    (hended : s.phase ≠ .ended) (h : H) (hreturned : h ∈ s.returned) (hopen : h ∉ s.accepted) :
    (places s).countP (has h) = 1 := by
  have hinv : s.phase ≠ .ended → Inv s :=
    run_invariant_along (I := fun s : Sync H P B => s.phase ≠ .ended → Inv s)
      (fun _ a _ hs hok hst => inv_step a hs hok hst) (fun _ => inv_newStateSync) hlawful hrun
  exact (hinv hended).one h ⟨hreturned, hopen⟩

def sampleActions : List (Action ℕ ℕ ℕ) :=
  [.assign [(1, 2)], .fill [10, 11] Ranging.listed, .track, .newPeer, .assign [(1, 1)],
    .fill [12] Ranging.listed, .track, .deliver, .timeout 1 0, .requeue 5 Ranging.listed,
    .statePack 1 (some [12, 10]), .assign [], .deliver, .process .accepted, .process .accepted]

theorem sample_in_one_place : ∃ s : Sync ℕ ℕ ℕ,
    run (step id) newStateSync sampleActions = some s ∧ s.accepted = [10, 12] ∧
      11 ∈ s.returned ∧ (places s).countP (has 11) = 1 := by
  refine exists_run (by decide +kernel) fun hs => ⟨by decide +kernel, by decide +kernel, ?_⟩
  refine outstanding_in_one_place id sampleActions _ (by decide +kernel) hs (fun hend => ?_) 11
    (by decide +kernel) (by decide +kernel)
  exact absurd (congrArg (·.held.length) hend) (by decide +kernel)

end Places

end XChain.StateSync
