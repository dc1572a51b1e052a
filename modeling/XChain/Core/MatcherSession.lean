import XChain.Core.MatcherStage
import XChain.Lib.Machine
import XChain.Lib.Word

/-!
# A session of the matcher

`Start` and `run` in `core/bloombits/matcher.go`. All goroutines, the distributor and the retrievers
take their steps in any order.

* **`inv_step`**: no step changes what will have been sent;
* **`sent_blocks`**: what was sent is an initial part of the blocks of the range that every group
  selects, and all of it when the channel of results is closed.
-/

namespace XChain.Bloombits

open GoChan GoMap StepMachine List Function Nat Word64 Stage

/-- `scheduler.reset`: what was asked for and not delivered is forgotten. -/
def reset (t : Table (ℕ × ℕ) (Option (List UInt8))) : Table (ℕ × ℕ) (Option (List UInt8)) :=
  t.keys.foldl (fun r key => if r.lookup key = some none then r.erase key else r) t

/-- A running session: `links g` is the channel into group `g`, that of the last group is the sink
of `run`. -/
structure Session where
  /-- The section that is fed next. -/
  next : ℕ
  links : ℕ → Chan PartialMatches
  groups : ℕ → SubMatch
  sched : Scheduling
  /-- The blocks of the section that was received last, those to be sent. -/
  numbers : List ℕ
  sent : List ℕ
  closed : Bool

namespace Session

inductive Action where
  | feed | closeSource
  | group (g : ℕ) (a : Stage.Action)
  | receive | send | closeResults
  | distribute (a : Scheduling.Action)
  deriving DecidableEq

section Model

variable (m : Matcher) (index : ℕ → ℕ → List UInt8) (first last : ℕ)

/-- The blocks of a section in the range that are left, with `uint64` bounds. -/
def blockNumbers (x : PartialMatches) : List ℕ :=
  let sectionStart := low (x.sec * m.sectionSize)
  let lower := if sectionStart < first then first else sectionStart
  let top := sub (add sectionStart m.sectionSize) 1
  let upper := if last < top then last else top
  Matcher.scan x.bitset sectionStart upper (upper + 1 - lower) lower

def new (responses : Table (ℕ × ℕ) (Option (List UInt8))) : Session where
  next := first / m.sectionSize
  links _ := .new
  groups _ := .new
  sched := ⟨reset responses, .new, ∅, [], [], []⟩
  numbers := []
  sent := []
  closed := false

variable (s : Session)

def stage (g : ℕ) : Stage := ⟨s.links g, s.groups g, s.links (g + 1), s.sched⟩

def setStage (g : ℕ) (st : Stage) : Session :=
  { s with
    links := update (update s.links g st.source) (g + 1) st.results
    groups := update s.groups g st.sub
    sched := st.sched }

def fed (sec : ℕ) : PartialMatches := ⟨sec, replicate (m.sectionSize / 8) 0xff⟩

def step : Action → Option Session
  | .feed =>
    if s.next ≤ last / m.sectionSize then
      some { s with
        next := s.next + 1
        links := update s.links 0 ((s.links 0).send (fed m s.next)) }
    else none
  | .closeSource =>
    if last / m.sectionSize < s.next then
      some { s with links := update s.links 0 (s.links 0).close }
    else none
  | .group g a =>
    match m.filters[g]? with
    | none => none
    | some bloom => ((s.stage g).step m bloom a).map (s.setStage g)
  | .receive =>
    match s.numbers, (s.links m.filters.length).recv with
    | [], some (x, link) =>
      some { s with
        links := update s.links m.filters.length link
        numbers := blockNumbers m first last x }
    | _, _ => none
  | .send =>
    match s.numbers with
    | [] => none
    | n :: rest => some { s with numbers := rest, sent := s.sent ++ [n] }
  | .closeResults =>
    if s.numbers.isEmpty = true ∧ (s.links m.filters.length).Ended then
      some { s with closed := true }
    else none
  | .distribute a => (s.sched.step index a).map fun d => { s with sched := d }

/-- What will still come into a channel after what is in it. -/
def rest : ℕ → List PartialMatches
  | 0 => (range' s.next (last / m.sectionSize + 1 - s.next)).map (fed m)
  | g + 1 => ((s.groups g).flight ++ ((s.links g).queue ++ rest g)).filterMap
      (pass m index (m.filters.getD g []))

def stream (g : ℕ) : List PartialMatches := (s.links g).queue ++ s.rest m index last g

/-- No number is lost or sent twice. -/
structure Inv (total : List ℕ) : Prop where
  groups : ∀ g bloom, m.filters[g]? = some bloom → (s.stage g).Ok index bloom
  cached : s.sched.Cached index
  source : (s.links 0).closed = true → last / m.sectionSize < s.next
  total : s.sent ++ (s.numbers ++ (s.stream m index last m.filters.length).flatMap
    (blockNumbers m first last)) = total
  closed : s.closed = true → s.numbers = [] ∧ (s.links m.filters.length).Ended

end Model

variable {m : Matcher} {index : ℕ → ℕ → List UInt8} {first last : ℕ} {s s' : Session} {g : ℕ}
  {bloom : List BloomIndexes}

/-! ## What will come -/

theorem links_setStage_source (st : Stage) : (s.setStage g st).links g = st.source :=
  (update_of_ne (lt_succ_self g).ne _ _).trans (update_self ..)

theorem links_setStage_of_ne {g i : ℕ} (st : Stage) (hi : i ≠ g) (hi' : i ≠ g + 1) :
    (s.setStage g st).links i = s.links i :=
  (update_of_ne hi' _ _).trans (update_of_ne hi _ _)

theorem stage_setStage (st : Stage) : (s.setStage g st).stage g = st := by
  unfold stage
  rw [links_setStage_source]
  unfold setStage
  dsimp only
  rw [update_self, update_self]

theorem rest_congr (hnext : s'.next = s.next) : ∀ {g : ℕ},
    (∀ i < g, s'.groups i = s.groups i ∧ s'.links i = s.links i) →
    s'.rest m index last g = s.rest m index last g
  | 0, _ => by rw [rest, rest, hnext]
  | g + 1, h => by
    obtain ⟨hgroup, hlink⟩ := h g (lt_succ_self g)
    rw [rest, rest, hgroup, hlink, rest_congr hnext fun i hi => h i (lt_succ_of_lt hi)]

theorem stream_congr {j : ℕ} (hj : s'.stream m index last j = s.stream m index last j)
    (hgroups : ∀ i ≥ j, s'.groups i = s.groups i) (hlinks : ∀ i > j, s'.links i = s.links i) :
    ∀ k, s'.stream m index last (j + k) = s.stream m index last (j + k)
  | 0 => hj
  | k + 1 => by
    have ih := stream_congr hj hgroups hlinks k
    unfold stream at ih ⊢
    rw [← add_assoc, hlinks (j + k + 1) (by omega), rest, rest, ih,
      hgroups (j + k) (le_add_right j k)]

theorem passing_stage (hg : m.filters[g]? = some bloom) :
    (s.stage g).passing m index bloom (s.rest m index last g) = s.stream m index last (g + 1) := by
  unfold stream
  rw [rest, getD_eq_getElem?_getD, hg]
  rfl

/-- **Nothing comes after a channel was closed.** -/
theorem rest_eq_nil {total : List ℕ} (hs : s.Inv m index first last total) : ∀ {g : ℕ},
    g ≤ m.filters.length → (s.links g).closed = true → s.rest m index last g = []
  | 0, _, hclosed => by
    have hnext := hs.source hclosed
    rw [rest, Nat.sub_eq_zero_of_le hnext]
    rfl
  | g + 1, hg, hclosed => by
    have hok := hs.groups g _ (getElem?_eq_getElem hg)
    obtain ⟨hgather, hprocess⟩ := hok.results hclosed
    obtain ⟨n, hmux⟩ := hok.process hprocess.1
    have hsource := hok.stopped ⟨n, hmux⟩
    have hflight : (s.groups g).flight = [] := by
      unfold SubMatch.flight
      rw [show (s.groups g).gathering = none from hgather,
        show (s.groups g).process.queue = [] from hprocess.queue_eq,
        show (s.groups g).mux = .closing n from hmux]
      rfl
    rw [rest, hflight, show (s.links g).queue = [] from hsource.queue_eq,
      rest_eq_nil hs (le_of_succ_le hg) hsource.1]
    rfl

/-! ## Steps -/

theorem ok_of_links {h : ℕ} (hok : (s.stage h).Ok index bloom) (hgroup : s'.groups h = s.groups h)
    (hsource : (s.links h).Ended → (s'.links h).Ended)
    (hresults : (s'.links (h + 1)).closed = true → (s.links (h + 1)).closed = true) :
    (s'.stage h).Ok index bloom := by
  have hsub : (s'.stage h).sub = (s.stage h).sub := hgroup
  exact
    { count := hsub ▸ hok.count
      gathered := hsub ▸ hok.gathered
      wires := hsub ▸ hok.wires
      stopped := fun hstop => hsource (hok.stopped (hsub ▸ hstop))
      process := hsub ▸ hok.process
      results := fun hclosed => hsub ▸ hok.results (hresults hclosed) }

variable {total : List ℕ} {link : Chan PartialMatches} {x : PartialMatches}

variable (hs : s.Inv m index first last total)
include hs

theorem inv_of_source {next : ℕ} (hended : (s.links 0).Ended → link.Ended)
    (hnext : link.closed = true → last / m.sectionSize < next) (hstream : stream m index last { s
      with next := next, links := update s.links 0 link } 0 = s.stream m index last 0) :
    Inv m index first last { s with next := next, links := update s.links 0 link }
      total := by
  have hlinks : ∀ h, (s.links h).Ended → (update s.links 0 link h).Ended :=
    (forall_update_iff s.links fun h l => (s.links h).Ended → l.Ended).mpr ⟨hended, fun _ _ => id⟩
  have hall := stream_congr hstream (fun _ _ => rfl)
    (fun i hi => update_of_ne (Nat.pos_iff_ne_zero.mp hi) _ _) m.filters.length
  rw [zero_add] at hall
  exact
    { groups := by
        intro g bloom hg
        refine ok_of_links (hs.groups g bloom hg) rfl (hlinks g) fun hclosed => ?_
        have hne := update_of_ne (succ_ne_zero g) link s.links
        exact hne ▸ hclosed
      cached := hs.cached
      source := fun hclosed => hnext (update_self 0 link s.links ▸ hclosed)
      total := by
        rw [hall]
        exact hs.total
      closed := fun hclosed => ⟨(hs.closed hclosed).1, hlinks _ (hs.closed hclosed).2⟩ }

theorem inv_feed (h : s.step m index first last .feed = some s') :
    s'.Inv m index first last total := by
  obtain ⟨hle, rfl⟩ := of_guard h
  have hopen : (s.links 0).closed ≠ true := fun hclosed => absurd (hs.source hclosed) (by omega)
  refine inv_of_source hs (fun hended => absurd hended.1 hopen)
    (fun hclosed => absurd hclosed hopen) ?_
  have hrange : range' s.next (last / m.sectionSize + 1 - s.next) =
      s.next :: range' (s.next + 1) (last / m.sectionSize + 1 - (s.next + 1)) := by
    rw [show last / m.sectionSize + 1 - s.next = last / m.sectionSize + 1 - (s.next + 1) + 1 by
      omega, range'_succ]
  simp [stream, rest, hrange]

theorem inv_closeSource (h : s.step m index first last .closeSource = some s') :
    s'.Inv m index first last total := by
  obtain ⟨hlt, rfl⟩ := of_guard h
  refine inv_of_source hs (fun hended => ⟨rfl, hended.2⟩) (fun _ => hlt) ?_
  simp [stream, rest]

theorem inv_group {a : Stage.Action} (h : s.step m index first last (.group g a) = some s') :
    s'.Inv m index first last total := by
  rw [step] at h
  split at h
  · cases h
  rename_i bloom hg
  obtain ⟨st', hst, rfl⟩ := Option.map_eq_some_iff.mp h
  have hok := hs.groups g bloom hg
  obtain ⟨hok', hcached⟩ := step_ok hok hs.cached hst
  have hlt : g < m.filters.length := (List.getElem?_eq_some_iff.mp hg).1
  have hgroups : ∀ i, i ≠ g → (s.setStage g st').groups i = s.groups i :=
    fun i hi => update_of_ne hi _ _
  have hsource : ((s.setStage g st').links g).closed = (s.links g).closed := by
    rw [links_setStage_source]
    exact (step_frame hst).2.1
  -- a channel that has ended is left alone by the goroutine that closed it
  have hended : ∀ i ≠ g, (s.links i).Ended → ((s.setStage g st').links i).Ended := by
    intro i hi hiEnded
    by_cases hi' : i = g + 1
    · subst hi'
      rw [show (s.setStage g st').links (g + 1) = st'.results from update_self ..,
        step_results_of_closed hok hiEnded.1 hst]
      exact hiEnded
    · rwa [links_setStage_of_ne st' hi hi']
  have hstream : (s.setStage g st').stream m index last (g + 1) =
      s.stream m index last (g + 1) := by
    have hnext : (s.setStage g st').next = s.next := rfl
    have hrest : (s.setStage g st').rest m index last g = s.rest m index last g :=
      rest_congr hnext fun i hi =>
        ⟨hgroups i (by omega), links_setStage_of_ne st' (by omega) (by omega)⟩
    rw [← passing_stage hg, ← passing_stage hg, ← step_passing hok _ hst, stage_setStage,
      hrest]
  have hall := stream_congr hstream (fun i hi => hgroups i (by omega))
    (fun i hi => links_setStage_of_ne st' (by omega) (by omega)) (m.filters.length - (g + 1))
  rw [Nat.add_sub_cancel' hlt] at hall
  exact
    { groups := by
        intro i bloom' hi
        by_cases hig : i = g
        · subst hig
          rw [hg] at hi
          cases hi
          rwa [stage_setStage]
        · refine ok_of_links (hs.groups i bloom' hi) (hgroups i hig) (hended i hig) ?_
          intro hclosed
          by_cases hig' : i + 1 = g
          · rw [hig'] at hclosed ⊢
            rwa [hsource] at hclosed
          · rwa [links_setStage_of_ne st' hig' (by omega)] at hclosed
      cached := hcached
      source := by
        intro hclosed
        rcases Nat.eq_zero_or_pos g with rfl | hpos
        · rw [hsource] at hclosed
          exact hs.source hclosed
        · rw [links_setStage_of_ne st' (by omega) (by omega)] at hclosed
          exact hs.source hclosed
      total := by
        rw [hall]
        exact hs.total
      closed := fun hclosed =>
        ⟨(hs.closed hclosed).1, hended _ hlt.ne' (hs.closed hclosed).2⟩ }

theorem inv_of_sink (hnumbers : s.numbers = [])
    (hqueue : (s.links m.filters.length).queue = x :: link.queue)
    (hclosed : link.closed = (s.links m.filters.length).closed) (hnext : s'.next = s.next)
    (hgroups : s'.groups = s.groups) (hsched : s'.sched = s.sched) (hsent : s'.sent = s.sent)
    (hlinks : s'.links = update s.links m.filters.length link)
    (hnumbers' : s'.numbers = blockNumbers m first last x) (hclosed' : s'.closed = s.closed) :
    s'.Inv m index first last total := by
  have hlink : s'.links m.filters.length = link := by rw [hlinks, update_self]
  have hother : ∀ i ≠ m.filters.length, s'.links i = s.links i := by
    intro i hi
    rw [hlinks, update_of_ne hi]
  have hflag : ∀ i, (s'.links i).closed = (s.links i).closed := by
    intro i
    by_cases hi : i = m.filters.length
    · rw [hi, hlink, hclosed]
    · rw [hother i hi]
  have hrest : s'.rest m index last m.filters.length = s.rest m index last m.filters.length :=
    rest_congr hnext fun i hi => ⟨by rw [hgroups], hother i hi.ne⟩
  exact
    { groups := by
        intro g bloom hg
        refine ok_of_links (hs.groups g bloom hg) (by rw [hgroups]) ?_ ?_
        · rw [hother g (List.getElem?_eq_some_iff.mp hg).1.ne]
          exact id
        · rw [hflag]
          exact id
      cached := hsched ▸ hs.cached
      source := by
        rw [hflag, hnext]
        exact hs.source
      total := by
        have htotal := hs.total
        rw [hnumbers, stream, hqueue, nil_append, cons_append, flatMap_cons] at htotal
        rw [hsent, hnumbers', stream, hrest, hlink]
        exact htotal
      closed := by
        intro hc
        rw [hclosed'] at hc
        have hended := (hs.closed hc).2
        rw [hended.queue_eq] at hqueue
        cases hqueue }

theorem inv_receive (h : s.step m index first last .receive = some s') :
    s'.Inv m index first last total := by
  rw [step] at h
  split at h
  · rename_i x link hnumbers hrecv
    obtain ⟨hqueue, hclosed⟩ := Chan.recv_eq_some hrecv
    cases h
    exact inv_of_sink hs hnumbers hqueue hclosed rfl rfl rfl rfl rfl rfl rfl
  · cases h

theorem inv_of_same (hnext : s'.next = s.next) (hgroups : s'.groups = s.groups)
    (hlinks : s'.links = s.links) (hcached : s'.sched.Cached index)
    (hnumbers : s'.sent ++ s'.numbers = s.sent ++ s.numbers)
    (hclosed : s'.closed = true → s'.numbers = [] ∧ (s.links m.filters.length).Ended) :
    s'.Inv m index first last total := by
  have hstream : s'.stream m index last m.filters.length =
      s.stream m index last m.filters.length := by
    unfold stream
    rw [hlinks, rest_congr hnext fun i _ => ⟨by rw [hgroups], by rw [hlinks]⟩]
  exact
    { groups := by
        intro g bloom hg
        refine ok_of_links (hs.groups g bloom hg) (by rw [hgroups]) ?_ ?_
        · rw [hlinks]
          exact id
        · rw [hlinks]
          exact id
      cached := hcached
      source := by
        rw [hlinks, hnext]
        exact hs.source
      total := by
        rw [hstream, ← append_assoc, hnumbers, append_assoc]
        exact hs.total
      closed := hlinks.symm ▸ hclosed }

theorem inv_send (h : s.step m index first last .send = some s') :
    s'.Inv m index first last total := by
  rw [step] at h
  split at h
  · cases h
  · rename_i n rest hnumbers
    cases h
    refine inv_of_same hs rfl rfl rfl hs.cached ?_ fun hc => ?_
    · rw [hnumbers, append_assoc]
      rfl
    · rw [(hs.closed hc).1] at hnumbers
      cases hnumbers

theorem inv_closeResults (h : s.step m index first last .closeResults = some s') :
    s'.Inv m index first last total := by
  obtain ⟨hend, rfl⟩ := of_guard h
  exact inv_of_same hs rfl rfl rfl hs.cached rfl fun _ => ⟨isEmpty_iff.mp hend.1, hend.2⟩

theorem inv_distribute {a : Scheduling.Action}
    (h : s.step m index first last (.distribute a) = some s') :
    s'.Inv m index first last total := by
  obtain ⟨d, hd, rfl⟩ := Option.map_eq_some_iff.mp h
  exact inv_of_same hs rfl rfl rfl (Scheduling.cached_step hs.cached hd) rfl hs.closed

/-- **No step changes what will have been sent.** -/
theorem inv_step {a : Action} (h : s.step m index first last a = some s') :
    s'.Inv m index first last total := by
  cases a with
  | feed => exact inv_feed hs h
  | closeSource => exact inv_closeSource hs h
  | group g a => exact inv_group hs h
  | receive => exact inv_receive hs h
  | send => exact inv_send hs h
  | closeResults => exact inv_closeResults hs h
  | distribute a => exact inv_distribute hs h

omit hs

/-! ## A new session -/

theorem lookup_of_lookup_reset {t : Table (ℕ × ℕ) (Option (List UInt8))} {key : ℕ × ℕ}
    {v : Option (List UInt8)} (h : (reset t).lookup key = some v) : t.lookup key = some v := by
  have hfold : ∀ (keys : List (ℕ × ℕ)) (r : Table (ℕ × ℕ) (Option (List UInt8))),
      (keys.foldl (fun r key => if r.lookup key = some none then r.erase key else r) r).lookup
        key = some v → r.lookup key = some v := by
    intro keys
    induction keys with
    | nil => exact fun _ h => h
    | cons k keys ih =>
      intro r hr
      have hstep := ih _ hr
      dsimp only at hstep
      split at hstep
      · exact (Table.lookup_erase_eq_some.mp hstep).2
      · exact hstep
  exact hfold _ t h

theorem ok_new (responses : Table (ℕ × ℕ) (Option (List UInt8))) (g : ℕ)
    (bloom : List BloomIndexes) :
    ((new m first responses).stage g).Ok index bloom where
  count := nofun
  gathered := nofun
  wires _ := ⟨fun _ _ => rfl, ⟨nofun, nofun⟩, nofun⟩
  stopped := nofun
  process := nofun
  results := nofun

theorem rest_new (responses : Table (ℕ × ℕ) (Option (List UInt8))) : ∀ {g : ℕ},
    g ≤ m.filters.length → (new m first responses).rest m index last g =
      (range' (first / m.sectionSize)
        (last / m.sectionSize + 1 - first / m.sectionSize)).filterMap fun sec =>
          ((m.filters.take g).foldlM (fun bitset bloom => m.subMatch index bloom sec bitset)
            (replicate (m.sectionSize / 8) 0xff)).map (PartialMatches.mk sec)
  | 0, _ => by
    rw [rest, ← filterMap_eq_map]
    rfl
  | g + 1, hg => by
    rw [rest, rest_new responses (le_of_succ_le hg)]
    change filterMap _ (filterMap _ _) = _
    rw [filterMap_filterMap, take_add_one, getD_eq_getElem?_getD, getElem?_eq_getElem hg]
    refine filterMap_congr fun sec _ => ?_
    rw [foldlM_append]
    cases (m.filters.take g).foldlM (fun bitset bloom => m.subMatch index bloom sec bitset)
      (replicate (m.sectionSize / 8) 0xff) with
    | none => rfl
    | some bitset => simp [pass]

theorem blockNumbers_eq (hpos : 0 < m.sectionSize) (hsize : m.sectionSize < 2 ^ 64)
    (hlast : last < 2 ^ 63) (hsec : x.sec ≤ last / m.sectionSize) :
    blockNumbers m first last x = let sectionStart := x.sec * m.sectionSize
      let lower := if sectionStart < first then first else sectionStart
      let upper := if last < sectionStart + m.sectionSize - 1 then last
        else sectionStart + m.sectionSize - 1
      Matcher.scan x.bitset sectionStart upper (upper + 1 - lower) lower := by
  have hstart : x.sec * m.sectionSize ≤ last := (le_div_iff_mul_le hpos).mp hsec
  have hsum : x.sec * m.sectionSize + m.sectionSize < Word64.size := by
    unfold Word64.size
    rcases Nat.eq_zero_or_pos x.sec with hzero | hone
    · rw [hzero]
      omega
    · have := Nat.le_mul_of_pos_left m.sectionSize hone
      omega
  have hlow : low (x.sec * m.sectionSize) = x.sec * m.sectionSize := low_of_lt (by omega)
  have htop : sub (add (x.sec * m.sectionSize) m.sectionSize) 1 =
      x.sec * m.sectionSize + m.sectionSize - 1 := by
    rw [add, mod_eq_of_lt hsum, sub_of_le (by omega) hsum]
  unfold blockNumbers
  simp only [hlow, htop]

theorem flatMap_stream_new (hpos : 0 < m.sectionSize) (hsize : m.sectionSize < 2 ^ 64)
    (hlast : last < 2 ^ 63) (responses : Table (ℕ × ℕ) (Option (List UInt8))) :
    ((new m first responses).stream m index last m.filters.length).flatMap
      (blockNumbers m first last) = m.start index first last := by
  unfold stream
  rw [rest_new responses (le_refl _), take_length]
  change (filterMap _ _).flatMap _ = _
  rw [filterMap_eq_flatMap_toList, flatMap_assoc]
  refine flatMap_congr fun sec hsec => ?_
  have hle : sec ≤ last / m.sectionSize := by
    have := mem_range'_1.mp hsec
    omega
  unfold Matcher.sectionMatches Matcher.runSection
  cases m.filters.foldlM (fun bitset bloom => m.subMatch index bloom sec bitset)
    (replicate (m.sectionSize / 8) 0xff) with
  | none => rfl
  | some bitset =>
    change blockNumbers m first last ⟨sec, bitset⟩ ++ [] = _
    rw [append_nil]
    exact blockNumbers_eq hpos hsize hlast hle

theorem inv_new (hpos : 0 < m.sectionSize) (hsize : m.sectionSize < 2 ^ 64)
    (hlast : last < 2 ^ 63) {responses : Table (ℕ × ℕ) (Option (List UInt8))}
    (hresponses : ∀ bit sec v, responses.lookup (bit, sec) = some (some v) → v = index bit sec) :
    (new m first responses).Inv m index first last (m.start index first last) where
  groups g bloom _ := ok_new responses g bloom
  cached bit sec v hv := hresponses bit sec v (lookup_of_lookup_reset hv)
  source := nofun
  total := flatMap_stream_new hpos hsize hlast responses
  closed := nofun

/-- **The blocks that are sent** are an initial part of those selected, all when the channel closes.
-/
theorem sent_blocks {responses : Table (ℕ × ℕ) (Option (List UInt8))} {as : List Action}
    (h8 : 8 ∣ m.sectionSize) (hpos : 0 < m.sectionSize) (hsize : m.sectionSize < 2 ^ 64)
    (hlast : last < 2 ^ 63) (hindex : ∀ sec ≤ last / m.sectionSize, m.Sized index sec)
    (hresponses : ∀ bit sec v, responses.lookup (bit, sec) = some (some v) → v = index bit sec)
    (h : run (step m index first last) (new m first responses) as = some s) :
    s.sent <+: (range' first (last + 1 - first)).filter (m.selects index) ∧
      (s.closed = true → s.sent = (range' first (last + 1 - first)).filter (m.selects index)) ∧
      s.sent.Nodup := by
  have hnew : (new m first responses).Inv m index first last (m.start index first last) :=
    inv_new hpos hsize hlast hresponses
  have hs := run_invariant (fun s a t hs hstep => inv_step hs hstep) hnew h
  rw [Matcher.start_eq h8 hpos hindex] at hs
  have hpre : s.sent <+: (range' first (last + 1 - first)).filter (m.selects index) :=
    ⟨_, hs.total⟩
  refine ⟨hpre, fun hclosed => ?_, hpre.sublist.nodup ((nodup_range' ..).filter _)⟩
  obtain ⟨hnumbers, hended⟩ := hs.closed hclosed
  have htotal := hs.total
  rwa [hnumbers, stream, hended.queue_eq, rest_eq_nil hs (le_refl _) hended.1,
    append_nil, nil_append, flatMap_nil, append_nil] at htotal

def sampleMatcher : Matcher := ⟨8, [[#v[0, 1, 2]]]⟩

def sampleIndex (bit _sec : ℕ) : List UInt8 := [[0xb0, 0xa0, 0xff].getD bit 0]

def sampleRun : List Action :=
  [.feed, .closeSource, .group 0 .take, .group 0 .multiplex, .group 0 .multiplex,
    .group 0 .multiplex, .group 0 .process, .group 0 .stop, .group 0 .collect] ++
  [0, 1, 2].flatMap (fun k => [.group 0 (.wire k .take), .group 0 (.wire k .dist),
    .group 0 (.wire k .pend), .group 0 (.wire k .expect), .distribute (.request true),
    .distribute (.allocateSections k 1 false)]) ++
  [.distribute (.deliverSections ⟨0, [0]⟩ [0] false),
    .distribute (.deliverSections ⟨1, [0]⟩ [] false),
    .distribute (.deliverSections ⟨2, [0]⟩ [0] false), .distribute (.allocateRetrieval 1),
    .distribute (.allocateSections 1 5 false), .distribute (.deliverSections ⟨1, [0]⟩ [0] false)] ++
  [0, 1, 2].flatMap (fun k => [.group 0 (.wire k .deliver), .group 0 .gather]) ++
  [.group 0 .result, .group 0 .closeSection, .group 0 .closeSection, .group 0 .closeSection,
    .group 0 .closeProcess, .group 0 .closeResults, .receive, .send, .send, .closeResults]

theorem sampleRun_sent : ∃ s, run (step sampleMatcher sampleIndex 0 7)
    (new sampleMatcher 0 ∅) sampleRun = some s ∧ s.closed = true ∧ s.sent = [0, 2] :=
  exists_run (by decide +kernel) fun _ => by decide +kernel

/-- The blocks of the section that the group selects, by the theorem and by the run. -/
theorem sample_blocks : ∃ s, run (step sampleMatcher sampleIndex 0 7)
    (new sampleMatcher 0 ∅) sampleRun = some s ∧ s.sent = [0, 2] ∧
      s.sent = (range' 0 8).filter (sampleMatcher.selects sampleIndex) ∧ s.sent.Nodup := by
  obtain ⟨s, h, hclosed, hsent⟩ := sampleRun_sent
  have hsized : ∀ sec ≤ 7 / sampleMatcher.sectionSize, sampleMatcher.Sized sampleIndex sec :=
    fun _ _ _ _ _ _ _ _ => rfl
  have hblocks := sent_blocks (by decide) (by decide) (by decide) (by decide) hsized
    (fun _ _ _ hv => by cases hv) h
  exact ⟨s, h, hsent, hblocks.2.1 hclosed, hblocks.2.2⟩

end Session

end XChain.Bloombits
