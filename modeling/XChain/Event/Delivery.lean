import XChain.Lib.Machine
import XChain.Lib.Slots
import XChain.Event.CaseList

/-!
# What a `Send` delivers

`Subscribe`, `Unsubscribe` and `Send` of any number of goroutines on one feed, one step of them at
a time. Several subscriptions may have the same channel; a removal then takes the first case of the
channel, whichever subscription put it there. A subscription is marked when a `Send` merges the
inbox.

* **`send_delivers_exactly_once`**: what every completed `Send` has delivered, and no removal is of
  the index -1.
-/

namespace XChain

open CaseLists Nat Prod Option

namespace Delivery

open StepMachine Slots List Option

/-- How far `Unsubscribe` is: not called, waiting to take the channel out of the send cases, or
done. -/
inductive Phase
  | live
  | removing
  | gone
deriving DecidableEq

/-- A `feedSub`, marked if it was not removed yet when the current `Send` merged the inbox. -/
structure Sub (Ch : Type) where
  channel : Ch
  phase : Phase
  merged : Bool
deriving DecidableEq

structure Sent (Ch V : Type) where
  value : V
  nsent : ℕ
  delivered : List (Ch × V)
  subs : List (Sub Ch)

/-- A feed with its subscriptions and what the `Send` in progress has put on the channels. -/
structure State (Ch V : Type) where
  feed : CaseLists Ch V
  subs : List (Sub Ch)
  delivered : List (Ch × V)
  nsent : ℕ
  returned : List (Sent Ch V)
  crashed : Bool

inductive Act (Ch V : Type)
  | subscribe (c : Ch)
  | send (value : V)
  | merge
  | attempt (sent : Bool)
  | choose (i : ℕ)
  | unsubscribe (k : ℕ)
  | remove (k : ℕ)

variable {Ch V : Type}

def init : State Ch V := ⟨.init, [], [], 0, [], false⟩

namespace State

variable (s : State Ch V)

def merge : Option (State Ch V) :=
  s.feed.merge.map fun g =>
    { s with
      feed := g
      subs := s.subs.map fun x => { x with merged := x.phase ≠ .gone }
      delivered := []
      nsent := 0 }

def delivers (g : CaseLists Ch V) (i : ℕ) (value : V) : Option (State Ch V) :=
  s.feed.sendCases[i]?.map fun c =>
    { s with feed := g, delivered := s.delivered ++ [(c, value)], nsent := s.nsent + 1 }

def returns (g : CaseLists Ch V) (value : V) : State Ch V :=
  { s with feed := g, returned := s.returned ++ [⟨value, s.nsent, s.delivered, s.subs⟩] }

def attempt (sent : Bool) : Option (State Ch V) :=
  match s.feed.send, s.feed.attempt sent with
  | .trying value i, some g =>
    if i < s.feed.cases then
      if sent then s.delivers g i value else some { s with feed := g }
    else if s.feed.cases = 0 then some (s.returns g value)
    else some { s with feed := g }
  | _, _ => none

def choose (i : ℕ) : Option (State Ch V) :=
  match s.feed.send, s.feed.choose i with
  | .blocked value, some g => s.delivers g i value
  | _, _ => none

section Remove

variable [DecidableEq Ch]

def unsubscribe (k : ℕ) : Option (State Ch V) :=
  match s.subs[k]? with
  | some x =>
    if x.phase = .live then
      match s.feed.removeInbox x.channel with
      | some g => some { s with feed := g, subs := s.subs.set k { x with phase := .gone } }
      | none => some { s with subs := s.subs.set k { x with phase := .removing } }
    else none
  | none => none

/-- Where `Send` goes on after a removal: it tries its cases again if it was blocked. -/
def afterRemoval : SendPc V → Option (SendPc V)
  | .idle => some .idle
  | .blocked value => some (.trying value 0)
  | _ => none

/-- The second part of `remove`, if the send lock is free or `Send` is blocked. -/
def remove (k : ℕ) : Option (State Ch V) :=
  match s.subs[k]?, afterRemoval s.feed.send with
  | some x, some pc =>
    if x.phase = .removing then
      match s.feed.removeCase x.channel with
      | some g => some { s with
          feed := { g with send := pc }
          subs := s.subs.set k { x with phase := .gone } }
      | none => some { s with crashed := true }
    else none
  | _, _ => none

def step (s : State Ch V) (a : Act Ch V) : Option (State Ch V) :=
  if s.crashed then none
  else match a with
  | .subscribe c => some { s with
      feed := s.feed.subscribe c
      subs := s.subs ++ [⟨c, .live, false⟩] }
  | .send value => (s.feed.lock value).map fun g => { s with feed := g }
  | .merge => s.merge
  | .attempt sent => s.attempt sent
  | .choose i => s.choose i
  | .unsubscribe k => s.unsubscribe k
  | .remove k => s.remove k

end Remove

end State

/-! ## What is counted -/

namespace Sub

variable (x : Sub Ch)

def isOpen : Bool := x.phase ≠ .gone

def isRemoving : Bool := x.phase = .removing

def isKept : Bool := x.merged && x.isOpen

end Sub

def inProgress : SendPc V → Option V
  | .trying value _ => some value
  | .blocked value => some value
  | _ => none

section Invariant

variable [DecidableEq Ch]

/-- **Exactly once** to the subscriptions of the merge, at the end to all that are left. -/
def Sent.ExactlyOnce (r : Sent Ch V) : Prop :=
  r.nsent = r.delivered.length ∧
    ∃ got : List (Sub Ch), (r.subs.filter Sub.isKept).Sublist got ∧
      got.Sublist (r.subs.filter Sub.merged) ∧
      r.delivered.Perm (got.map fun x => (x.channel, r.value))

structure Sending (s : State Ch V) (value : V) : Prop where
  nsent : s.nsent = s.delivered.length
  value : ∀ d ∈ s.delivered, d.2 = value
  owed : ∀ c, tally Sub.channel (fun x => x.isKept || x.isRemoving) s.subs c ≤
    s.feed.sendCases.count c
  served : ∀ c, s.feed.split.served.count c ≤ (s.delivered.map fst).count c
  active : ∀ c, (s.delivered.map fst).count c + s.feed.split.active.count c ≤
    tally Sub.channel Sub.merged s.subs c

structure Inv (s : State Ch V) : Prop where
  sound : s.crashed = false
  sliced : s.feed.Sliced
  cases : ∀ c, s.feed.inbox.count c + s.feed.sendCases.count c =
    tally Sub.channel Sub.isOpen s.subs c
  removing : ∀ c, tally Sub.channel Sub.isRemoving s.subs c ≤ s.feed.sendCases.count c
  sending : ∀ value, inProgress s.feed.send = some value → Sending s value
  returned : ∀ r ∈ s.returned, r.ExactlyOnce

theorem inv_init : Inv (init : State Ch V) :=
  ⟨rfl, le_rfl, fun _ => rfl, fun _ => le_rfl, fun _ h => (nomatch h),
    fun _ h => (nomatch h)⟩

theorem count_split (f : CaseLists Ch V) (c : Ch) :
    f.split.active.count c + f.split.served.count c = f.sendCases.count c := by
  rw [← count_append]
  exact congrArg _ (take_append_drop _ _)

variable {c : Ch} {f g : CaseLists Ch V}

theorem count_erase_add {l : List Ch} (h : c ∈ l) (x : Ch) :
    (l.erase c).count x + (decide (c = x)).toNat = l.count x := by
  rw [(perm_cons_erase h).count_eq x, count_cons]
  by_cases hx : c = x <;> simp [hx]

theorem removeCase_spec (h : f.removeCase c = some g) :
    g.inbox = f.inbox ∧ g.send = f.send ∧
      (∀ x, g.sendCases.count x + (decide (c = x)).toNat = f.sendCases.count x) ∧
      (∀ x, g.split.active.count x ≤ f.split.active.count x) ∧
      ∀ x, g.split.served.count x ≤ f.split.served.count x := by
  have hdelete : f.split.delete c = some g.split := by
    rw [← split_removeCase, h, map_some]
  have hkept : g.inbox = f.inbox ∧ g.send = f.send := by
    obtain ⟨i, -, rfl⟩ := map_eq_some_iff.mp h
    exact ⟨rfl, rfl⟩
  refine ⟨hkept.1, hkept.2, ?_⟩
  simp only [← count_split]
  unfold Feed.delete at hdelete
  split_ifs at hdelete with hactive hserved
  · rw [← some.inj hdelete]
    refine ⟨fun x => ?_, fun x => erase_sublist.count_le x, fun x => le_rfl⟩
    have := count_erase_add hactive x
    dsimp only
    omega
  · rw [← some.inj hdelete]
    refine ⟨fun x => ?_, fun x => le_rfl, fun x => erase_sublist.count_le x⟩
    have := count_erase_add hserved x
    dsimp only
    omega

theorem removeInbox_spec (h : f.removeInbox c = some g) :
    g.sendCases = f.sendCases ∧ g.cases = f.cases ∧ g.send = f.send ∧
      ∀ x, g.inbox.count x + (decide (c = x)).toNat = f.inbox.count x := by
  have hremove : f.split.removeInbox c = some g.split := by
    rw [← split_removeInbox, h, map_some]
  obtain ⟨i, -, rfl⟩ := map_eq_some_iff.mp h
  unfold Feed.removeInbox at hremove
  split_ifs at hremove with hmem
  refine ⟨rfl, rfl, rfl, fun x => ?_⟩
  have hinbox : CaseList.delete f.inbox i = f.inbox.erase c :=
    (congrArg Feed.inbox (some.inj hremove)).symm
  rw [hinbox]
  exact count_erase_add hmem x

variable {f : CaseLists Ch V} {i : ℕ}

theorem removeInbox_eq_none (h : f.removeInbox c = none) : f.inbox.count c = 0 :=
  count_eq_zero.mpr (find_eq_none.mp (map_eq_none_iff.mp h))

theorem removeCase_eq_none (h : f.removeCase c = none) : f.sendCases.count c = 0 :=
  count_eq_zero.mpr (find_eq_none.mp (map_eq_none_iff.mp h))

theorem serve_spec (hf : f.Sliced) (hi : i < f.cases) (hc : f.sendCases[i]? = some c)
    (pc : SendPc V) (x : Ch) :
    (f.serve i pc).split.active.count x + (decide (c = x)).toNat = f.split.active.count x ∧
      (f.serve i pc).split.served.count x = f.split.served.count x + (decide (c = x)).toNat := by
  have hactive : f.split.active[i]? = some c := by
    change (f.sendCases.take f.cases)[i]? = _
    rw [getElem?_take, if_pos hi, hc]
  rw [split_serve hf hi hc]
  have hcount := (deactivate_perm hactive).count_eq x
  rw [count_cons] at hcount
  change (deactivate _ i).count x + _ = _ ∧ (c :: f.split.served).count x = _
  by_cases hx : c = x <;> simp [hx] at hcount ⊢ <;> omega

/-! ## The steps -/

variable {s : State Ch V} {g : CaseLists Ch V} {value : V}

theorem Inv.of_feed (hs : Inv s)
    (hinbox : g.inbox = s.feed.inbox) (hcases : g.sendCases = s.feed.sendCases)
    (hlen : g.cases = s.feed.cases)
    (hsend : ∀ value, inProgress g.send = some value → inProgress s.feed.send = some value) :
    Inv { s with feed := g } := by
  have hsplit : g.split.active = s.feed.split.active ∧ g.split.served = s.feed.split.served := by
    unfold split
    rw [hcases, hlen]
    exact ⟨rfl, rfl⟩
  refine ⟨hs.sound, ?_, ?_, ?_, ?_, hs.returned⟩
  · unfold CaseLists.Sliced
    rw [hcases, hlen]
    exact hs.sliced
  · rw [hinbox, hcases]
    exact hs.cases
  · rw [hcases]
    exact hs.removing
  · intro value hvalue
    obtain ⟨hn, hv, ho, hsv, ha⟩ := hs.sending value (hsend value hvalue)
    refine ⟨hn, hv, ?_, ?_, ?_⟩
    · rw [hcases]
      exact ho
    · rw [hsplit.2]
      exact hsv
    · rw [hsplit.1]
      exact ha

theorem inv_subscribe (hs : Inv s) (c : Ch) :
    Inv { s with feed := s.feed.subscribe c, subs := s.subs ++ [⟨c, .live, false⟩] } := by
  have htally : ∀ (p : Sub Ch → Bool) (x : Ch), p ⟨c, .live, false⟩ = false →
      tally Sub.channel p (s.subs ++ [⟨c, .live, false⟩]) x = tally Sub.channel p s.subs x := by
    intro p x hp
    rw [tally_append, tally_cons, hp]
    simp [tally]
  refine ⟨hs.sound, hs.sliced, fun x => ?_, fun x => ?_, fun value hvalue => ?_, hs.returned⟩
  · have := hs.cases x
    change (s.feed.inbox ++ [c]).count x + s.feed.sendCases.count x = _
    by_cases hx : c = x <;> simp [hx, tally, Sub.isOpen] at this ⊢ <;> omega
  · rw [htally _ _ rfl]
    exact hs.removing x
  · obtain ⟨hn, hv, ho, hsv, ha⟩ := hs.sending value hvalue
    exact ⟨hn, hv, fun x => (htally _ x rfl).trans_le (ho x), hsv,
      fun x => (ha x).trans_eq (htally _ x rfl).symm⟩

theorem inv_send (hs : Inv s) (h : s.feed.lock value = some g) : Inv { s with feed := g } := by
  unfold lock at h
  split at h
  · cases h
    exact hs.of_feed rfl rfl rfl fun _ hv => nomatch hv
  · cases h

theorem tally_mark (p : Sub Ch → Bool) (subs : List (Sub Ch)) (c : Ch) :
    tally Sub.channel p (subs.map fun x => { x with merged := x.phase ≠ .gone }) c =
      tally Sub.channel (fun x => p { x with merged := x.phase ≠ .gone }) subs c :=
  countP_map

variable {s t : State Ch V} {k : ℕ} {x : Sub Ch}

theorem inv_merge (hs : Inv s) (h : s.merge = some t) : Inv t := by
  obtain ⟨g, hg, rfl⟩ := map_eq_some_iff.mp h
  unfold CaseLists.merge at hg
  split at hg
  · cases hg
    have hcount : ∀ c, (s.feed.sendCases ++ s.feed.inbox).count c =
        tally Sub.channel Sub.isOpen s.subs c := by
      intro c
      rw [← hs.cases c, count_append, add_comm]
    refine ⟨hs.sound, le_rfl, fun c => ?_, fun c => ?_, fun value hvalue => ⟨rfl, ?_, fun c => ?_,
      fun c => ?_, fun c => ?_⟩, hs.returned⟩
    · dsimp only
      rw [tally_mark, hcount, count_nil, zero_add]
      rfl
    · dsimp only
      rw [tally_mark, count_append]
      exact le_add_right_of_le (hs.removing c)
    · intro d hd
      cases hd
    · dsimp only
      rw [tally_mark, hcount]
      refine tally_mono _ ?_ _ _
      rintro ⟨_, _ | _ | _, _⟩ hx <;> first | rfl | exact hx
    · change (drop _ (s.feed.sendCases ++ s.feed.inbox)).count c ≤ _
      rw [drop_length, count_nil]
      exact zero_le _
    · change 0 + (take _ (s.feed.sendCases ++ s.feed.inbox)).count c ≤ _
      rw [take_length, hcount, tally_mark, zero_add]
      exact le_rfl
  · cases hg

theorem inv_delivers {pc : SendPc V} (hs : Inv s) (hvalue : inProgress s.feed.send = some value)
    (hpc : inProgress pc = some value) (hi : i < s.feed.cases)
    (h : s.delivers (s.feed.serve i pc) i value = some t) : Inv t := by
  obtain ⟨c, hc, rfl⟩ := map_eq_some_iff.mp h
  have hserve := serve_spec hs.sliced hi hc pc
  have hcount : ∀ x, (s.feed.serve i pc).sendCases.count x = s.feed.sendCases.count x := by
    intro x
    obtain ⟨ha, hb⟩ := hserve x
    rw [← count_split, ← count_split]
    omega
  obtain ⟨hn, hv, ho, hsv, ha⟩ := hs.sending value hvalue
  refine ⟨hs.sound, sliced_serve hs.sliced i pc, fun x => ?_, fun x => ?_, fun w hw => ?_,
    hs.returned⟩
  · dsimp only
    rw [hcount]
    exact hs.cases x
  · dsimp only
    rw [hcount]
    exact hs.removing x
  · obtain rfl : value = w := some.inj (hpc.symm.trans hw)
    have hdeliv : ∀ x, ((s.delivered ++ [(c, value)]).map fst).count x =
        (s.delivered.map fst).count x + (decide (c = x)).toNat := by
      intro x
      by_cases hx : c = x <;> simp [hx]
    refine ⟨?_, ?_, fun x => ?_, fun x => ?_, fun x => ?_⟩
    · dsimp only
      rw [length_append, hn]
      rfl
    · intro d hd
      rcases mem_append.mp hd with hd | hd
      · exact hv d hd
      · rw [mem_singleton.mp hd]
    · dsimp only
      rw [hcount]
      exact ho x
    · dsimp only
      rw [hdeliv, (hserve x).2]
      exact Nat.add_le_add_right (hsv x) _
    · have hx := ha x
      obtain ⟨hserved, -⟩ := hserve x
      dsimp only
      rw [hdeliv]
      omega

theorem Sending.exactlyOnce (h : Sending s value) (hnone : s.feed.cases = 0) :
    Sent.ExactlyOnce ⟨value, s.nsent, s.delivered, s.subs⟩ := by
  have hserved : ∀ c, s.feed.sendCases.count c ≤ (s.delivered.map fst).count c := by
    intro c
    have hactive : s.feed.split.active = [] := by
      change s.feed.sendCases.take s.feed.cases = []
      rw [hnone, take_zero]
    have := h.served c
    rw [← count_split, hactive, count_nil]
    omega
  obtain ⟨got, hkept, hmerged, hcount⟩ := exists_sublist_tally Sub.channel
    (p := Sub.merged) (q := Sub.isKept) (fun x hx => (Bool.and_eq_true _ _ ▸ hx).1) s.subs
    (fun c => (s.delivered.map fst).count c)
    (fun c => (tally_mono _ (fun x hx => by rw [hx, Bool.true_or]) _ c).trans
      ((h.owed c).trans (hserved c)))
    (fun c => le_of_add_right_le (h.active c))
  refine ⟨h.nsent, got, hkept, hmerged, ?_⟩
  have hperm : (s.delivered.map fst).Perm (got.map Sub.channel) :=
    perm_iff_count.mpr fun c => (hcount c).symm
  have hpairs : s.delivered = (s.delivered.map fst).map fun c => (c, value) := by
    have hself : ∀ d ∈ s.delivered, ((fun c => (c, value)) ∘ fst) d = d := by
      intro d hd
      rw [← h.value d hd]
      rfl
    rw [List.map_map, List.map_congr_left hself, List.map_id']
  have := hperm.map fun c => (c, value)
  rw [← hpairs, List.map_map] at this
  exact this

theorem inv_attempt {sent : Bool} (hs : Inv s) (h : s.attempt sent = some t) : Inv t := by
  unfold State.attempt at h
  split at h
  · rename_i value i g hsend hg
    have hvalue : inProgress s.feed.send = some value := by rw [hsend]; rfl
    unfold attempt at hg
    rw [hsend] at hg
    dsimp only at hg
    split_ifs at h hg with hi hsent hzero
    · cases hg
      exact inv_delivers hs hvalue rfl hi h
    · cases hg
      cases h
      exact hs.of_feed rfl rfl rfl fun _ hw => by rw [← hw]; exact hvalue
    · cases hg
      cases h
      refine { hs with sending := fun w hw => (nomatch hw), returned := fun r hr => ?_ }
      rcases mem_append.mp hr with hr | hr
      · exact hs.returned r hr
      · rw [mem_singleton.mp hr]
        exact (hs.sending value hvalue).exactlyOnce hzero
    · cases hg
      cases h
      exact hs.of_feed rfl rfl rfl fun _ hw => by rw [← hw]; exact hvalue
  · cases h

theorem inv_choose (hs : Inv s) (h : s.choose i = some t) : Inv t := by
  unfold State.choose at h
  split at h
  · rename_i value g hsend hg
    have hvalue : inProgress s.feed.send = some value := by rw [hsend]; rfl
    unfold CaseLists.choose at hg
    rw [hsend] at hg
    obtain ⟨hi, rfl⟩ := of_guard hg
    exact inv_delivers hs hvalue rfl hi h
  · cases h

section Phases

variable {s : State Ch V} {k : ℕ} {x : Sub Ch}

variable (hx : s.subs[k]? = some x)
include hx

theorem tally_gone (p : Sub Ch → Bool) (hp : p { x with phase := .gone } = false) (c : Ch) :
    tally Sub.channel p (s.subs.set k { x with phase := .gone }) c +
      (decide (x.channel = c) && p x).toNat = tally Sub.channel p s.subs c := by
  rw [tally_set Sub.channel p _ hx, hp, Bool.and_false]
  rfl

theorem tally_merged (phase : Phase) (c : Ch) :
    tally Sub.channel Sub.merged (s.subs.set k { x with phase }) c =
      tally Sub.channel Sub.merged s.subs c :=
  add_right_cancel (tally_set Sub.channel Sub.merged { x with phase } hx c)

theorem tally_removing_of_ne (p : Sub Ch → Bool) {c : Ch} (hc : x.channel ≠ c) :
    tally Sub.channel p (s.subs.set k { x with phase := .removing }) c =
      tally Sub.channel p s.subs c := by
  have := tally_set Sub.channel p { x with phase := .removing } hx c
  simpa [hc] using this

end Phases

theorem inv_removeInbox (hs : Inv s) (hx : s.subs[k]? = some x) (hlive : x.phase = .live)
    (hg : s.feed.removeInbox x.channel = some g) :
    Inv { s with feed := g, subs := s.subs.set k { x with phase := .gone } } := by
  obtain ⟨hcases, hlen, hsend, hinbox⟩ := removeInbox_spec hg
  have hopen : x.isOpen = true := by simp [Sub.isOpen, hlive]
  have hsplit : g.split.active = s.feed.split.active ∧ g.split.served = s.feed.split.served := by
    unfold split
    rw [hcases, hlen]
    exact ⟨rfl, rfl⟩
  refine ⟨hs.sound, ?_, fun c => ?_, fun c => ?_, fun value hvalue => ?_, hs.returned⟩
  · unfold CaseLists.Sliced
    rw [hcases, hlen]
    exact hs.sliced
  · have h1 := hinbox c
    have h2 := hs.cases c
    have h3 := tally_gone hx Sub.isOpen rfl c
    rw [hopen, Bool.and_true] at h3
    dsimp only
    rw [hcases]
    omega
  · have h1 := tally_gone hx Sub.isRemoving rfl c
    have h2 := hs.removing c
    dsimp only
    rw [hcases]
    omega
  · obtain ⟨hn, hv, ho, hsv, ha⟩ := hs.sending value (hsend ▸ hvalue)
    refine ⟨hn, hv, fun c => ?_, fun c => ?_, fun c => ?_⟩
    · have h1 := tally_gone hx (fun x => x.isKept || x.isRemoving) (by simp [Sub.isKept,
        Sub.isOpen, Sub.isRemoving]) c
      have h2 := ho c
      dsimp only
      rw [hcases]
      omega
    · dsimp only
      rw [hsplit.2]
      exact hsv c
    · dsimp only
      rw [hsplit.1, tally_merged hx]
      exact ha c

theorem inv_removing (hs : Inv s) (hx : s.subs[k]? = some x) (hlive : x.phase = .live)
    (hnone : s.feed.removeInbox x.channel = none) :
    Inv { s with subs := s.subs.set k { x with phase := .removing } } := by
  have hopen : ∀ c, tally Sub.channel Sub.isOpen (s.subs.set k { x with phase := .removing }) c =
      tally Sub.channel Sub.isOpen s.subs c := by
    intro c
    have h1 := tally_set Sub.channel Sub.isOpen { x with phase := .removing } hx c
    have h2 : x.isOpen = true := by simp [Sub.isOpen, hlive]
    rw [h2] at h1
    exact add_right_cancel h1
  -- on the channel of the subscription, what is counted is at most the open subscriptions
  have hbound : ∀ p : Sub Ch → Bool, (∀ y, p y = true → y.isOpen = true) →
      (∀ c, tally Sub.channel p s.subs c ≤ s.feed.sendCases.count c) → ∀ c,
      tally Sub.channel p (s.subs.set k { x with phase := .removing }) c ≤
        s.feed.sendCases.count c := by
    intro p hp hle c
    by_cases hc : x.channel = c
    · have h1 := tally_mono Sub.channel hp (s.subs.set k { x with phase := .removing }) c
      have h2 := hs.cases c
      rw [← hc, removeInbox_eq_none hnone, hc] at h2
      rw [hopen] at h1
      omega
    · rw [tally_removing_of_ne hx p hc]
      exact hle c
  refine ⟨hs.sound, hs.sliced, fun c => ?_, ?_, fun value hvalue => ?_, hs.returned⟩
  · exact (hs.cases c).trans (hopen c).symm
  · refine hbound _ ?_ hs.removing
    rintro ⟨_, _ | _ | _, _⟩ hy <;> first | rfl | exact hy
  · obtain ⟨hn, hv, ho, hsv, ha⟩ := hs.sending value hvalue
    refine ⟨hn, hv, ?_, hsv, fun c => (ha c).trans_eq (tally_merged hx _ c).symm⟩
    refine hbound _ ?_ ho
    rintro ⟨_, _ | _ | _, _ | _⟩ hy <;> first | rfl | exact hy

theorem inv_unsubscribe (hs : Inv s) (h : s.unsubscribe k = some t) : Inv t := by
  unfold State.unsubscribe at h
  split at h
  · rename_i x hx
    obtain ⟨hlive, h⟩ := ite_none_right_eq_some.mp h
    split at h
    · rename_i g hg
      cases h
      exact inv_removeInbox hs hx hlive hg
    · rename_i hnone
      cases h
      exact inv_removing hs hx hlive hnone
  · cases h

theorem inv_remove (hs : Inv s) (h : s.remove k = some t) : Inv t := by
  unfold State.remove at h
  split at h
  · rename_i x pc hx hpc
    obtain ⟨hremoving, h⟩ := ite_none_right_eq_some.mp h
    have hx' : x.isRemoving = true := by simp [Sub.isRemoving, hremoving]
    have hopen : x.isOpen = true := by simp [Sub.isOpen, hremoving]
    split at h
    · rename_i g hg
      cases h
      obtain ⟨hinbox, hsend, hcount, hactive, hserved⟩ := removeCase_spec hg
      have hvalue : ∀ value, inProgress pc = some value → inProgress s.feed.send = some value := by
        intro value hv
        cases hsend : s.feed.send <;> rw [hsend] at hpc <;> cases hpc <;> exact hv
      refine ⟨hs.sound, sliced_removeCase (g := g) hs.sliced hg, fun c => ?_, fun c => ?_,
        fun value hv => ?_, hs.returned⟩
      · have h1 := hs.cases c
        have h2 := hcount c
        have h3 := tally_gone hx Sub.isOpen rfl c
        rw [hopen, Bool.and_true] at h3
        dsimp only
        rw [hinbox]
        omega
      · have h1 := hs.removing c
        have h2 := hcount c
        have h3 := tally_gone hx Sub.isRemoving rfl c
        rw [hx', Bool.and_true] at h3
        dsimp only
        omega
      · obtain ⟨hn, hw, ho, hsv, ha⟩ := hs.sending value (hvalue value hv)
        refine ⟨hn, hw, fun c => ?_, fun c => (hserved c).trans (hsv c), fun c => ?_⟩
        · have h1 := ho c
          have h2 := hcount c
          have h3 := tally_gone hx (fun x => x.isKept || x.isRemoving) (by simp [Sub.isKept,
            Sub.isOpen, Sub.isRemoving]) c
          rw [hx', Bool.or_true, Bool.and_true] at h3
          dsimp only
          omega
        · dsimp only
          rw [tally_merged hx]
          exact (Nat.add_le_add_left (hactive c) _).trans (ha c)
    · -- the subscription still has a case
      rename_i hnone
      have h1 := hs.removing x.channel
      have h2 := tally_gone hx Sub.isRemoving rfl x.channel
      rw [removeCase_eq_none hnone] at h1
      simp [hx'] at h2
      omega
  · cases h

theorem inv_step (s : State Ch V) (a : Act Ch V) (t : State Ch V) (hs : Inv s)
    (h : s.step a = some t) : Inv t := by
  obtain ⟨-, h⟩ := ite_none_left_eq_some.mp h
  cases a with
  | subscribe c => cases h; exact inv_subscribe hs c
  | send value =>
    obtain ⟨g, hg, rfl⟩ := map_eq_some_iff.mp h
    exact inv_send hs hg
  | merge => exact inv_merge hs h
  | attempt sent => exact inv_attempt hs h
  | choose i => exact inv_choose hs h
  | unsubscribe k => exact inv_unsubscribe hs h
  | remove k => exact inv_remove hs h

/-- **The feed delivers exactly once.** -/
theorem send_delivers_exactly_once {as : List (Act Ch V)}
    (h : run State.step init as = some s) :
    (∀ r ∈ s.returned, r.ExactlyOnce) ∧ s.crashed = false :=
  have hs := run_invariant inv_step inv_init h
  ⟨hs.returned, hs.sound⟩

end Invariant

def sharedRun : List (Act ℕ ℕ) :=
  [.subscribe 1, .subscribe 2, .subscribe 1, .send 7, .merge, .attempt false, .attempt true,
    .subscribe 3, .attempt false, .unsubscribe 0, .attempt false, .remove 0, .attempt true,
    .attempt false]

theorem send_delivers_exactly_once_shared : ∃ s : State ℕ ℕ,
    run State.step init sharedRun = some s ∧
      (s.returned.map fun r => (r.value, r.nsent, r.delivered)) = [(7, 2, [(2, 7), (1, 7)])] ∧
      (∀ r ∈ s.returned, r.ExactlyOnce) ∧ s.crashed = false :=
  exists_run (by decide +kernel) fun hrun => ⟨by decide +kernel, send_delivers_exactly_once hrun⟩

end Delivery

end XChain
