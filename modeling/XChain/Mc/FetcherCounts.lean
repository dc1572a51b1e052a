import XChain.Lib.Slots
import XChain.Mc.Fetcher

/-!
# The announcement counters of the fetcher

The fetch timer forgets all announcements of a hash, which takes them off the counters, and then
keeps the one it picked in `fetching`; from there on this announcement is tracked and not counted,
and forgetting it takes it off the counter a second time.

* **`announces_counted`**: the counters are right as long as every hash that the fetch timer finds
  due is one the chain has by then.
-/

namespace XChain.Fetcher

open List Option Function StepMachine Slots GoMap GoMap.Table State AList

variable {Hash Header Tx Peer : Type}

/-! ## What is tracked -/

def State.origin (s : State Hash Header Tx Peer) (id : ℕ) : Option Peer :=
  s.store[id]?.map Announce.origin

def State.waiting (s : State Hash Header Tx Peer) : List ℕ := s.announced.entries.flatMap (·.2)

def State.held (s : State Hash Header Tx Peer) : List ℕ :=
  (s.waiting ++ s.fetching.entries.map (·.2) ++ s.fetched.entries.flatMap (·.2) ++
    s.completing.entries.map (·.2)).dedup

variable [DecidableEq Peer] {T : Types Hash Header Tx} {s t : State Hash Header Tx Peer}
  {a : Act Hash Header Tx Peer}

def State.ofPeer (s : State Hash Header Tx Peer) (peer : Peer) (ids : List ℕ) : ℕ :=
  ids.countP fun id => s.origin id = some peer

/-- The counters are right: they count the distinct announcements tracked, within the limit. -/
def State.Counted (s : State Hash Header Tx Peer) : Prop :=
  ∀ peer, s.announces peer = s.ofPeer peer s.held ∧ s.announces peer ≤ hashLimit

open State

theorem decrement_apply (announces : Peer → ℤ) (id : ℕ) (peer : Peer) :
    s.decrement announces id peer = announces peer - if s.origin id = some peer then 1 else 0 := by
  unfold decrement origin
  cases s.store[id]? with
  | none => simp
  | some a =>
    by_cases hp : peer = a.origin
    · subst hp
      simp
    · simp [update_of_ne hp, Ne.symm hp]

theorem foldl_decrement (peer : Peer) : ∀ (ids : List ℕ) (announces : Peer → ℤ),
    ids.foldl s.decrement announces peer = announces peer - s.ofPeer peer ids
  | [], _ => (Int.sub_zero _).symm
  | id :: ids, announces => by
    rw [foldl_cons, foldl_decrement peer ids, decrement_apply]
    unfold ofPeer
    rw [countP_cons]
    by_cases hp : s.origin id = some peer
    · simp only [hp, if_true, decide_true]
      omega
    · simp [hp]

theorem ofPeer_perm {ids ids' : List ℕ} (h : ids.Perm ids') (peer : Peer) :
    s.ofPeer peer ids = s.ofPeer peer ids' := h.countP_eq _

theorem ofPeer_append (peer : Peer) (ids ids' : List ℕ) :
    s.ofPeer peer (ids ++ ids') = s.ofPeer peer ids + s.ofPeer peer ids' := countP_append

variable [DecidableEq Hash]

omit [DecidableEq Peer] in
theorem waiting_perm (s : State Hash Header Tx Peer) (hash : Hash) :
    s.waiting.Perm ((s.announced.lookup hash).getD [] ++
      (s.announced.erase hash).entries.flatMap (·.2)) := by
  unfold waiting
  cases hl : s.announced.lookup hash with
  | none => rw [erase_of_lookup_none hl, getD_none, nil_append]
  | some ids => exact (entries_perm_erase hl).flatMap_right _

/-! ## The counters of waiting announcements -/

/-- Nothing has got a header yet, and the counters are those of the waiting announcements. -/
structure Waiting (s : State Hash Header Tx Peer) : Prop where
  fetched : s.fetched = ∅
  completing : s.completing = ∅
  nodup : s.waiting.Nodup
  valid : ∀ id ∈ s.waiting, id < s.store.length
  counted : ∀ peer, s.announces peer = s.ofPeer peer s.waiting
  limited : ∀ peer, s.announces peer ≤ hashLimit
  apart : ∀ hash id, s.fetching.lookup hash = some id →
    s.announced.lookup hash = none ∧ id < s.store.length ∧ id ∉ s.waiting

theorem Waiting.forgetHash {hash : Hash} (h : Waiting s) (hf : s.fetching.lookup hash = none) :
    Waiting (s.forgetHash hash) := by
  have hperm := waiting_perm s hash
  have htracked : s.tracked hash = (s.announced.lookup hash).getD [] := by
    unfold tracked
    rw [hf, h.fetched, h.completing]
    simp
  have hcount : ∀ peer, (s.forgetHash hash).announces peer =
      s.announces peer - s.ofPeer peer ((s.announced.lookup hash).getD []) := by
    intro peer
    rw [← htracked]
    exact foldl_decrement peer _ _
  have hsub : ∀ id ∈ (s.forgetHash hash).waiting, id ∈ s.waiting := fun id hid =>
    hperm.mem_iff.mpr (mem_append_right _ hid)
  refine ⟨?_, ?_, ?_, fun id hid => h.valid id (hsub id hid), fun peer => ?_, fun peer => ?_, ?_⟩
  · change s.fetched.erase hash = ∅
    rw [h.fetched]
    rfl
  · change s.completing.erase hash = ∅
    rw [h.completing]
    rfl
  · exact (nodup_append.mp (hperm.nodup_iff.mp h.nodup)).2.1
  · rw [hcount, h.counted, ofPeer_perm hperm, ofPeer_append]
    change _ = ((s.ofPeer peer ((s.announced.erase hash).entries.flatMap (·.2)) : ℕ) : ℤ)
    omega
  · rw [hcount]
    have := h.limited peer
    omega
  · intro x id hx
    obtain ⟨-, hx⟩ := lookup_erase_eq_some.mp hx
    obtain ⟨hnone, hvalid, hid⟩ := h.apart x id hx
    refine ⟨?_, hvalid, fun hmem => hid (hsub id hmem)⟩
    refine eq_none_iff_forall_ne_some.mpr fun ids hids => ?_
    rw [(lookup_erase_eq_some.mp hids).2] at hnone
    cases hnone

theorem Waiting.fetch {v : Visit Hash} (h : Waiting s) (ht : s.fetch v = some t) :
    Waiting t ∧ (t.fetching = ∅ ↔ s.fetching = ∅ ∧ v.known) := by
  obtain ⟨id, hid, rfl⟩ := map_eq_some_iff.mp ht
  obtain ⟨ids, hl, hpick⟩ := bind_eq_some_iff.mp hid
  have hmem : id ∈ ids := mem_of_getElem? hpick
  have hfree : s.fetching.lookup v.hash = none := by
    refine eq_none_iff_forall_ne_some.mpr fun j hj => ?_
    rw [(h.apart v.hash j hj).1] at hl
    cases hl
  have hforget := h.forgetHash hfree
  have herase : (s.forgetHash v.hash).fetching = s.fetching := erase_of_lookup_none hfree
  have hperm := waiting_perm s v.hash
  rw [hl, getD_some] at hperm
  split_ifs with hknown
  · rw [herase, hknown]
    exact ⟨hforget, by simp⟩
  · refine ⟨{ hforget with apart := fun x j hx => ?_ }, ?_⟩
    · rcases lookup_insert_eq_some.mp hx with ⟨rfl, rfl⟩ | ⟨-, hx⟩
      · -- the one that was picked is in `announced` no more
        refine ⟨lookup_erase _ _, h.valid id (hperm.mem_iff.mpr ?_), fun hw => ?_⟩
        · exact mem_append_left _ hmem
        · exact (nodup_append.mp (hperm.nodup_iff.mp h.nodup)).2.2 id hmem id hw rfl
      · exact hforget.apart x j hx
    · refine iff_of_false (fun he => ?_) fun hk => hknown hk.2
      have hx := lookup_insert (a := v.hash) (b := id) (s.forgetHash v.hash).fetching
      dsimp only at he
      rw [he] at hx
      cases hx

theorem Waiting.fetch_all {due : List (Visit Hash)} : ∀ {s t : State Hash Header Tx Peer},
    Waiting s → run State.fetch s due = some t →
      Waiting t ∧ (t.fetching = ∅ ↔ s.fetching = ∅ ∧ ∀ v ∈ due, v.known) := by
  induction due with
  | nil =>
    rintro s t h ht
    cases ht
    exact ⟨h, by simp⟩
  | cons v due ih =>
    rintro s t h ht
    obtain ⟨u, hu, ht⟩ := run_cons_eq_some.mp ht
    obtain ⟨hwaiting, hfirst⟩ := h.fetch hu
    obtain ⟨hwaiting, hrest⟩ := ih hwaiting ht
    exact ⟨hwaiting, by rw [hrest, hfirst, forall_mem_cons, and_assoc]⟩

theorem Waiting.counted_iff (h : Waiting s) : s.Counted ↔ s.fetching = ∅ := by
  constructor
  · intro hcounted
    by_contra hne
    obtain ⟨⟨hash, id⟩, he⟩ := exists_mem_of_ne_nil _ fun hnil => hne (ext hnil)
    obtain ⟨-, hvalid, hid⟩ := h.apart hash id (mem_entries.mp he)
    -- the announcement that is being fetched is one more than the counter of its peer says
    have hsub : (id :: s.waiting).Subperm s.held := by
      refine subperm_of_subset (nodup_cons.mpr ⟨hid, h.nodup⟩) fun j hj => ?_
      refine mem_dedup.mpr ?_
      rcases mem_cons.mp hj with rfl | hj
      · exact mem_append_left _ (mem_append_left _ (mem_append_right _ (mem_map.mpr ⟨_, he, rfl⟩)))
      · exact mem_append_left _ (mem_append_left _ (mem_append_left _ hj))
    have horigin : s.origin id = some s.store[id].origin := by
      unfold origin
      rw [getElem?_eq_getElem hvalid, map_some]
    have hle := hsub.countP_le fun id' => s.origin id' = some s.store[id].origin
    rw [countP_cons_of_pos (by simpa using horigin)] at hle
    have hc := (hcounted s.store[id].origin).1
    rw [h.counted] at hc
    unfold ofPeer at hc
    omega
  · intro hnone peer
    refine ⟨?_, h.limited peer⟩
    rw [h.counted]
    unfold held
    rw [hnone, h.fetched, h.completing]
    simp [h.nodup.dedup]

/-! ## The loop while nothing is fetched -/

structure Idle (s : State Hash Header Tx Peer) : Prop where
  waiting : Waiting s
  fetching : s.fetching = ∅

theorem Waiting.of_eq (h : Waiting s) (hstore : t.store = s.store)
    (hannounces : t.announces = s.announces) (hannounced : t.announced = s.announced)
    (hfetching : t.fetching = s.fetching) (hfetched : t.fetched = s.fetched)
    (hcompleting : t.completing = s.completing) : Waiting t := by
  have hwaiting : t.waiting = s.waiting := by
    unfold waiting
    rw [hannounced]
  refine ⟨hfetched.trans h.fetched, hcompleting.trans h.completing, ?_, ?_, ?_, ?_, ?_⟩
  · rw [hwaiting]
    exact h.nodup
  · rw [hwaiting, hstore]
    exact h.valid
  · intro peer
    unfold ofPeer origin
    rw [hwaiting, hstore, hannounces]
    exact h.counted peer
  · rw [hannounces]
    exact h.limited
  · rw [hwaiting, hstore, hfetching, hannounced]
    exact h.apart

variable (h : Idle s)
include h

theorem Idle.of_eq (hstore : t.store = s.store)
    (hannounces : t.announces = s.announces)
    (hannounced : t.announced = s.announced) (hfetching : t.fetching = s.fetching)
    (hfetched : t.fetched = s.fetched) (hcompleting : t.completing = s.completing) : Idle t :=
  ⟨h.waiting.of_eq hstore hannounces hannounced hfetching hfetched hcompleting,
    hfetching.trans h.fetching⟩

theorem Idle.forgetHash (hash : Hash) : Idle (s.forgetHash hash) := by
  refine ⟨h.waiting.forgetHash (h.fetching ▸ rfl), ?_⟩
  change s.fetching.erase hash = ∅
  rw [h.fetching]
  rfl

theorem Idle.forgetBlock (hash : Hash) : Idle (s.forgetBlock hash) := by
  unfold State.forgetBlock
  split
  · exact h.of_eq rfl rfl rfl rfl rfl rfl
  · exact h

theorem Idle.enqueue (peer : Peer) (block : Block Header Tx) (height : ℕ) :
    Idle (s.enqueue T peer block height) := by
  unfold State.enqueue
  dsimp only
  split_ifs
  · exact h.forgetHash _
  · exact h.forgetHash _
  · exact h
  · exact h.of_eq rfl rfl rfl rfl rfl rfl

theorem Idle.notify (peer : Peer) (hash : Hash) (number height : ℕ) :
    Idle (s.notify peer hash number height) := by
  unfold State.notify
  dsimp only
  split_ifs with hlimit
  · exact h
  · exact h
  · exact h
  · set u : State Hash Header Tx Peer := _ with hu
    change Idle u
    have hold := waiting_perm s hash
    have hperm : u.waiting.Perm (s.store.length :: s.waiting) := by
      unfold State.waiting
      rw [hu]
      dsimp only
      rw [entries_insert, flatMap_cons, append_assoc]
      exact perm_middle.trans ((List.Perm.cons _ hold.symm))
    have hnew : s.store.length ∉ s.waiting := fun hmem => (h.waiting.valid _ hmem).false
    have horigin : ∀ id ∈ s.waiting, u.origin id = s.origin id := by
      intro id hid
      unfold origin
      rw [getElem?_append_left (h.waiting.valid id hid)]
    have hself : u.origin s.store.length = some peer := by
      unfold origin
      rw [getElem?_concat_length]
      rfl
    have hcount : ∀ p, (u.ofPeer p u.waiting : ℤ) =
        s.ofPeer p s.waiting + if peer = p then 1 else 0 := by
      intro p
      rw [ofPeer_perm hperm]
      unfold ofPeer
      rw [countP_cons, hself, countP_congr fun id hid => by rw [horigin id hid]]
      by_cases hp : peer = p <;> simp [hp]
    refine ⟨⟨h.waiting.fetched, h.waiting.completing, ?_, ?_, fun p => ?_, ?_, ?_⟩,
      h.fetching⟩
    · exact hperm.nodup_iff.mpr (nodup_cons.mpr ⟨hnew, h.waiting.nodup⟩)
    · intro id hid
      rw [hu]
      dsimp only
      rw [length_append, length_singleton]
      rcases mem_cons.mp (hperm.mem_iff.mp hid) with rfl | hid
      · exact Nat.lt_succ_self _
      · exact Nat.lt_succ_of_lt (h.waiting.valid id hid)
    · rw [hcount, ← h.waiting.counted]
      by_cases hp : p = peer
      · subst hp
        rw [if_pos rfl]
        exact update_self ..
      · rw [if_neg (Ne.symm hp), Int.add_zero]
        exact update_of_ne hp ..
    · exact (forall_update_iff s.announces fun _ n => n ≤ hashLimit).mpr
        ⟨not_lt.mp hlimit, fun p _ => h.waiting.limited p⟩
    · intro x id hx
      rw [h.fetching] at hx
      cases hx

omit h in
theorem idle_new : Idle (new : State Hash Header Tx Peer) := by
  refine ⟨⟨rfl, rfl, nodup_nil, ?_, fun _ => rfl, fun _ => Int.natCast_nonneg _, ?_⟩, rfl⟩
  · exact nofun
  · intro hash id hl
    cases hl

theorem Idle.pop {height i : ℕ} {known : Bool} (ht : s.pop T height i known = some t) : Idle t := by
  obtain ⟨op, -, rfl⟩ := map_eq_some_iff.mp ht
  have hpopped : Idle { s with queue := s.queue.eraseIdx i } := h.of_eq rfl rfl rfl rfl rfl rfl
  dsimp only
  split_ifs
  · exact h.of_eq rfl rfl rfl rfl rfl rfl
  · exact hpopped.forgetBlock _
  · exact h.of_eq rfl rfl rfl rfl rfl rfl

theorem Idle.done {j : ℕ} (ht : s.done T j = some t) : Idle t := by
  obtain ⟨block, -, rfl⟩ := map_eq_some_iff.mp ht
  have hgone : Idle { s with imports := s.imports.eraseIdx j } := h.of_eq rfl rfl rfl rfl rfl rfl
  exact (hgone.forgetHash _).forgetBlock _

theorem Idle.filterHeaders (headers : List (Delivered Header)) : s.filterHeaders T headers = s := by
  have hskip : ∀ l : List (Delivered Header),
      l.foldl (filterHeader T) ⟨s, [], []⟩ = ⟨s, [], []⟩ := by
    intro l
    induction l with
    | nil => rfl
    | cons x l ih =>
      have hx : filterHeader T ⟨s, [], []⟩ x = ⟨s, [], []⟩ := by
        unfold filterHeader
        dsimp only
        rw [h.fetching]
        rfl
      rw [foldl_cons, hx, ih]
  unfold State.filterHeaders
  rw [hskip]
  rfl

theorem Idle.filterBodies (bodies : List (BodyItem Hash Header Tx)) (heights : ℕ → ℕ) :
    s.filterBodies T bodies heights = s := by
  have hskip : ∀ l : List (BodyItem Hash Header Tx), l.foldl (filterBody T) (s, []) = (s, []) := by
    intro l
    induction l with
    | nil => rfl
    | cons x l ih =>
      have hx : filterBody T (s, []) x = (s, []) := by
        have hnone : x.2.2.visit s.completing.entries = [] := by
          rw [h.waiting.completing]
          exact (x.2.2.visit_perm []).eq_nil
        unfold filterBody
        rw [hnone]
        rfl
      rw [foldl_cons, hx, ih]
  unfold State.filterBodies
  rw [hskip]
  rfl

omit h

/-- Every hash that the fetch timer finds due has arrived by then. -/
def Act.Arrived : Act Hash Header Tx Peer → Prop
  | .fetchTimer due => ∀ v ∈ due, v.known
  | _ => True

theorem Idle.arrived (h : Idle s) (ha : a.Arrived) : Waiting s ∧ (s.fetching = ∅ ↔ a.Arrived) :=
  ⟨h.waiting, iff_of_true h.fetching ha⟩

theorem Idle.event (h : Idle s) (ht : event T s a = some t) :
    Waiting t ∧ (t.fetching = ∅ ↔ a.Arrived) := by
  cases a with
  | notify peer hash number height =>
    cases ht
    exact (h.notify peer hash number height).arrived trivial
  | inject peer block height =>
    cases ht
    exact (h.enqueue peer block height).arrived trivial
  | done j => exact (h.done ht).arrived trivial
  | fetchTimer due =>
    obtain ⟨hwaiting, hiff⟩ := h.waiting.fetch_all ht
    exact ⟨hwaiting, hiff.trans (and_iff_right h.fetching)⟩
  | completeTimer visits =>
    obtain ⟨hperm, ht⟩ := ite_none_right_eq_some.mp ht
    rw [h.waiting.fetched] at hperm
    rw [map_eq_nil_iff.mp hperm.eq_nil] at ht
    cases ht
    exact h.arrived trivial
  | headers headers =>
    cases ht
    rw [h.filterHeaders]
    exact h.arrived trivial
  | bodies bodies heights =>
    cases ht
    rw [h.filterBodies]
    exact h.arrived trivial
  | cleanup expired height | pop i known | wait => cases ht

theorem Idle.step (h : Idle s) (ht : step T s a = some t) :
    Waiting t ∧ (t.fetching = ∅ ↔ a.Arrived) := by
  unfold XChain.Fetcher.step at ht
  split at ht
  · split at ht
    · obtain ⟨hexpired, rfl⟩ := of_guard ht
      rename_i expired height
      have hnil : expired = [] := by
        refine eq_nil_iff_forall_not_mem.mpr fun hash hmem => ?_
        have := hexpired hash hmem
        rw [h.fetching] at this
        cases this
      subst hnil
      exact Idle.arrived (h.of_eq rfl rfl rfl rfl rfl rfl) trivial
    · cases ht
  · split at ht
    · exact (h.pop ht).arrived trivial
    · obtain ⟨-, rfl⟩ := of_guard ht
      exact Idle.arrived (h.of_eq rfl rfl rfl rfl rfl rfl) trivial
    · cases ht
  · obtain ⟨u, hu, rfl⟩ := map_eq_some_iff.mp ht
    obtain ⟨hwaiting, hiff⟩ := h.event hu
    exact ⟨hwaiting.of_eq rfl rfl rfl rfl rfl rfl, hiff⟩

/-! ## Announcement counters -/

/-- **The announcement counters are right as long as nothing has to be fetched.** -/
theorem announces_counted {as : List (Act Hash Header Tx Peer)} (h : run (step T) new as = some s) :
    (Along (step T) (fun _ a => a.Arrived) new as) ↔
      ∀ bs cs t, as = bs ++ cs → run (step T) new bs = some t → t.Counted := by
  constructor
  · rintro hok bs cs t rfl ht
    have hidle : Idle t := run_invariant_along
      (fun _ _ _ hi ha hs => ⟨(hi.step hs).1, (hi.step hs).2.mpr ha⟩) idle_new hok.of_append ht
    exact hidle.waiting.counted_iff.mpr hidle.fetching
  · intro hcounted
    refine @along_of_no_bad _ _ (step T) (fun _ a => a.Arrived) Idle (fun t => ¬ t.Counted) ?_ ?_ as
      new s idle_new h ?_
    · exact fun _ _ _ hi ha hs => ⟨(hi.step hs).1, (hi.step hs).2.mpr ha⟩
    · intro s a t hi ha hs hc
      obtain ⟨hwaiting, hiff⟩ := hi.step hs
      exact ha (hiff.mp (hwaiting.counted_iff.mp hc))
    · exact fun bs cs t has ht hc => hc (hcounted bs cs t has ht)

def plainTypes : Types ℕ ℕ ℕ := ⟨id, id, fun _ => 0, fun _ => 0, length, length⟩

def arrivedRun : List (Act ℕ ℕ ℕ Bool) :=
  [.cleanup [] 10, .wait, .notify true 11 11 10, .cleanup [] 11, .wait, .fetchTimer [⟨11, 0, true⟩]]

theorem announces_counted_arrived : ∃ s : State ℕ ℕ ℕ Bool,
    run (step plainTypes) new arrivedRun = some s ∧ s.store.length = 1 ∧
      ∀ bs cs t, arrivedRun = bs ++ cs → run (step plainTypes) new bs = some t → t.Counted := by
  refine exists_run (by decide +kernel) fun hrun => ⟨by decide +kernel, ?_⟩
  refine (announces_counted hrun).mp ?_
  refine along_of_forall new fun a ha => ?_
  simp only [arrivedRun, mem_cons, not_mem_nil, or_false] at ha
  rcases ha with rfl | rfl | rfl | rfl | rfl | rfl
  all_goals simp [Act.Arrived]

def expiredRun : List (Act ℕ ℕ ℕ Bool) :=
  [.cleanup [] 10, .wait, .notify true 11 11 10, .cleanup [] 10, .wait,
    .fetchTimer [⟨11, 0, false⟩], .cleanup [11] 10]

/-- **A counter can become negative.** -/
theorem announces_negative : ∃ s : State ℕ ℕ ℕ Bool,
    run (step plainTypes) new expiredRun = some s ∧ s.announces true = -1 ∧ ¬ s.Counted := by
  refine exists_run (by decide +kernel) fun _ => ⟨by decide +kernel, fun hcounted => ?_⟩
  exact absurd (hcounted true).1 (by decide +kernel)

end XChain.Fetcher
