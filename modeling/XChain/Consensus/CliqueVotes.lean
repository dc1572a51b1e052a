import XChain.Lib.Machine
import XChain.Lib.Table
import XChain.Lib.Text
import XChain.Lib.Word

/-!
# Votes of the proof-of-authority engine

`consensus/clique/snapshot.go`: a snapshot holds the signers, the votes they cast on adding or
dropping a signer, in order, and a tally for each account, which is edited in place next to the
votes. Each header that is applied casts one vote, takes back the earlier vote of its signer on the
same account, and may change the signers when a vote passes.

* **`bookkeeping_apply`**: what holds of votes and tally after any headers that are accepted.
-/

namespace XChain.Clique

open GoText GoMap List Option AList Word64 Nat StepMachine Bool

structure Vote (A : Type) where
  signer : A
  block : ℕ
  address : A
  authorize : Bool
deriving DecidableEq

structure Tally where
  authorize : Bool
  votes : ℕ
deriving DecidableEq

structure Snapshot (A H : Type) where
  number : ℕ
  hash : H
  signers : Finset A
  recents : Table ℕ A
  votes : List (Vote A)
  tally : Table A Tally

structure Header (A H : Type) where
  number : ℕ
  coinbase : A
  nonce : FixedBytes 8
  hash : H

/-- The errors of `apply`; with an epoch of 0 it divides by zero. -/
inductive ApplyError
  | invalidVotingChain
  | recover
  | unauthorized
  | invalidVote
  | divideByZero
deriving DecidableEq

def nonceAuthVote : FixedBytes 8 := ⟨replicate 8 255, rfl⟩

def nonceDropVote : FixedBytes 8 := ⟨replicate 8 0, rfl⟩

variable {A H : Type} [DecidableEq A]

def newSnapshot (number : ℕ) (hash : H) (signers : List A) : Snapshot A H :=
  ⟨number, hash, signers.toFinset, ∅, [], ∅⟩

/-! ## The tally -/

def validVote (signers : Finset A) (address : A) (authorize : Bool) : Bool :=
  (decide (address ∈ signers) && !authorize) || (!decide (address ∈ signers) && authorize)

def cast (signers : Finset A) (tally : Table A Tally) (address : A) (authorize : Bool) :
    Option (Table A Tally) :=
  if !validVote signers address authorize then none
  else match tally.lookup address with
    | some old => some (tally.insert address { old with votes := old.votes + 1 })
    | none => some (tally.insert address ⟨authorize, 1⟩)

def uncast (tally : Table A Tally) (address : A) (authorize : Bool) : Table A Tally :=
  match tally.lookup address with
  | none => tally
  | some old =>
    if old.authorize ≠ authorize then tally
    else if 1 < old.votes then tally.insert address { old with votes := old.votes - 1 }
    else tally.erase address

/-! ## A header -/

def checkpoint (epoch number : ℕ) (snap : Snapshot A H) : Snapshot A H :=
  if number % epoch = 0 then { snap with votes := [], tally := ∅ } else snap

def forgetRecent (number : ℕ) (snap : Snapshot A H) : Snapshot A H :=
  if snap.signers.card / 2 + 1 ≤ number then
    { snap with recents := snap.recents.erase (number - (snap.signers.card / 2 + 1)) }
  else snap

def discardVote (signer coinbase : A) (snap : Snapshot A H) : Snapshot A H :=
  match snap.votes.find? fun v => decide (v.signer = signer ∧ v.address = coinbase) with
  | none => snap
  | some vote =>
    { snap with
      tally := uncast snap.tally vote.address vote.authorize
      votes := snap.votes.eraseP fun v => decide (v.signer = signer ∧ v.address = coinbase) }

def voteOf (nonce : FixedBytes 8) : Option Bool :=
  if nonce = nonceAuthVote then some true
  else if nonce = nonceDropVote then some false
  else none

def castVote (signer coinbase : A) (number : ℕ) (authorize : Bool) (snap : Snapshot A H) :
    Snapshot A H :=
  match cast snap.signers snap.tally coinbase authorize with
  | none => snap
  | some tally =>
    { snap with tally := tally, votes := snap.votes ++ [⟨signer, number, coinbase, authorize⟩] }

/-- The loop that discards the votes a deauthorized signer cast: those that stay, and the tally. -/
def discardCastBy (coinbase : A) : List (Vote A) → Table A Tally → List (Vote A) × Table A Tally
  | [], tally => ([], tally)
  | vote :: votes, tally =>
    if vote.signer = coinbase then
      discardCastBy coinbase votes (uncast tally vote.address vote.authorize)
    else ((vote :: (discardCastBy coinbase votes tally).1), (discardCastBy coinbase votes tally).2)

def deauthorize (coinbase : A) (number : ℕ) (snap : Snapshot A H) : Snapshot A H :=
  let snap := forgetRecent number { snap with signers := snap.signers.erase coinbase }
  let kept := discardCastBy coinbase snap.votes snap.tally
  { snap with votes := kept.1, tally := kept.2 }

def passVote (coinbase : A) (number : ℕ) (snap : Snapshot A H) : Snapshot A H :=
  let tally := (snap.tally.lookup coinbase).getD ⟨false, 0⟩
  if snap.signers.card / 2 < tally.votes then
    let snap := if tally.authorize then { snap with signers := insert coinbase snap.signers }
      else deauthorize coinbase number snap
    { snap with
      votes := snap.votes.filter fun v => decide (v.address ≠ coinbase)
      tally := snap.tally.erase coinbase }
  else snap

section Apply

variable (epoch : ℕ) (ecrecover : Header A H → Option A)

def authorizedSigner (snap : Snapshot A H) (header : Header A H) : Except ApplyError A :=
  match ecrecover header with
  | none => .error .recover
  | some signer =>
    if signer ∉ snap.signers then .error .unauthorized
    else if snap.recents.entries.any fun recent => decide (recent.2 = signer) then
      .error .unauthorized
    else .ok signer

def applyHeader (snap : Snapshot A H) (header : Header A H) : Except ApplyError (Snapshot A H) :=
  if epoch = 0 then .error .divideByZero
  else
    let number := low header.number
    let snap := forgetRecent number (checkpoint epoch number snap)
    match authorizedSigner ecrecover snap header with
    | .error e => .error e
    | .ok signer =>
      let snap := discardVote signer header.coinbase
        { snap with recents := snap.recents.insert number signer }
      match voteOf header.nonce with
      | none => .error .invalidVote
      | some authorize =>
        .ok (passVote header.coinbase number
          (castVote signer header.coinbase number authorize snap))

def consecutive : List (Header A H) → Bool
  | first :: second :: headers =>
    decide (low second.number = add (low first.number) 1) &&
      consecutive (second :: headers)
  | _ => true

def apply (s : Snapshot A H) (headers : List (Header A H)) : Except ApplyError (Snapshot A H) :=
  match headers with
  | [] => .ok s
  | first :: rest =>
    if !consecutive (first :: rest) then .error .invalidVotingChain
    else if low first.number ≠ add s.number 1 then .error .invalidVotingChain
    else do
      let snap ← (first :: rest).foldlM (applyHeader epoch ecrecover) s
      .ok { snap with
            number := add snap.number (first :: rest).length
            hash := ((first :: rest).getLast (cons_ne_nil _ _)).hash }

def applyAll (s : Snapshot A H) (calls : List (List (Header A H))) :
    Except ApplyError (Snapshot A H) :=
  calls.foldlM (apply epoch ecrecover) s

end Apply

/-! ## The tally as a recount -/

section Recount

def votesOn (votes : List (Vote A)) (a : A) : ℕ := votes.countP fun v => decide (v.address = a)

def recount (signers : Finset A) (votes : List (Vote A)) (a : A) : Option Tally :=
  if votesOn votes a = 0 then none else some ⟨decide (a ∉ signers), votesOn votes a⟩

def Counted (signers : Finset A) (votes : List (Vote A)) (tally : Table A Tally) : Prop :=
  ∀ a, tally.lookup a = recount signers votes a

def Meaningful (signers : Finset A) (v : Vote A) : Prop :=
  v.authorize = decide (v.address ∉ signers)

variable {signers : Finset A} {votes : List (Vote A)} {tally : Table A Tally} {v : Vote A}

theorem counted_nil (signers : Finset A) : Counted signers [] ∅ := fun _ => rfl

theorem Counted.perm {votes' : List (Vote A)} (h : Counted signers votes tally)
    (hp : votes.Perm votes') : Counted signers votes' tally := by
  intro a
  rw [h a, recount, recount, votesOn, votesOn, hp.countP_eq]

theorem votesOn_cons_self (v : Vote A) (votes : List (Vote A)) :
    votesOn (v :: votes) v.address = votesOn votes v.address + 1 :=
  countP_cons_of_pos (decide_eq_true rfl)

theorem votesOn_cons_ne {a : A} (h : a ≠ v.address) : votesOn (v :: votes) a = votesOn votes a :=
  countP_cons_of_neg (by simpa using h.symm)

theorem recount_cons_ne {a : A} (h : a ≠ v.address) :
    recount signers (v :: votes) a = recount signers votes a := by
  rw [recount, recount, votesOn_cons_ne h]

theorem counted_uncast (h : Counted signers (v :: votes) tally) (hv : Meaningful signers v) :
    Counted signers votes (uncast tally v.address v.authorize) := by
  have hself : tally.lookup v.address =
      some ⟨decide (v.address ∉ signers), votesOn votes v.address + 1⟩ := by
    rw [h v.address, recount, votesOn_cons_self, if_neg (succ_ne_zero _)]
  intro a
  unfold uncast
  rw [hself]
  dsimp only
  rw [if_neg (not_not_intro hv.symm)]
  by_cases ha : a = v.address
  · subst ha
    unfold recount
    by_cases hzero : votesOn votes v.address = 0
    · rw [if_pos hzero, if_neg (by omega), lookup_erase]
    · rw [if_neg hzero, if_pos (by omega), lookup_insert, Nat.add_sub_cancel]
  · have hother : tally.lookup a = recount signers votes a := by rw [h a, recount_cons_ne ha]
    by_cases hone : 1 < votesOn votes v.address + 1
    · rw [if_pos hone, lookup_insert_ne ha, hother]
    · rw [if_neg hone, lookup_erase_ne ha, hother]

theorem validVote_iff {address : A} {authorize : Bool} :
    validVote signers address authorize = true ↔ authorize = decide (address ∉ signers) := by
  unfold validVote
  by_cases h : address ∈ signers <;> cases authorize <;> simp [h]

theorem counted_cast {tally' : Table A Tally} (h : Counted signers votes tally)
    (hcast : cast signers tally v.address v.authorize = some tally') :
    Meaningful signers v ∧ Counted signers (v :: votes) tally' := by
  obtain ⟨hvalid, hcast⟩ := ite_none_left_eq_some.mp hcast
  have hv : Meaningful signers v := validVote_iff.mp (by simpa using hvalid)
  refine ⟨hv, fun a => ?_⟩
  -- in both cases the entry of the account is the recount with the new vote
  have hinsert : tally' = tally.insert v.address
      ⟨decide (v.address ∉ signers), votesOn votes v.address + 1⟩ := by
    rw [h v.address] at hcast
    unfold recount at hcast
    by_cases hzero : votesOn votes v.address = 0
    · rw [if_pos hzero] at hcast
      rw [hzero, ← hv]
      exact (some.inj hcast).symm
    · rw [if_neg hzero] at hcast
      exact (some.inj hcast).symm
  rw [hinsert]
  by_cases ha : a = v.address
  · subst ha
    rw [lookup_insert, recount, votesOn_cons_self, if_neg (succ_ne_zero _)]
  · rw [lookup_insert_ne ha, h a, recount_cons_ne ha]

theorem counted_change {signers' : Finset A} {coinbase : A} (h : Counted signers votes tally)
    (hsigners : ∀ a, a ≠ coinbase → (a ∈ signers' ↔ a ∈ signers)) :
    Counted signers' (votes.filter fun v => decide (v.address ≠ coinbase))
      (tally.erase coinbase) := by
  intro a
  unfold recount votesOn
  rw [countP_filter]
  by_cases ha : a = coinbase
  · subst ha
    rw [lookup_erase, if_pos]
    exact countP_eq_zero.mpr (by simp)
  · have hcount : (votes.countP fun v => decide (v.address = a) && decide (v.address ≠ coinbase)) =
        votesOn votes a := by
      refine countP_congr fun v _ => ?_
      simp only [and_eq_true, decide_eq_true_eq]
      exact ⟨fun h => h.1, fun h => ⟨h, h ▸ ha⟩⟩
    rw [lookup_erase_ne ha, h a, recount, hcount]
    simp only [hsigners a ha]

theorem discardCastBy_fst (coinbase : A) : ∀ (votes : List (Vote A)) (tally : Table A Tally),
    (discardCastBy coinbase votes tally).1 = votes.filter fun v => decide (v.signer ≠ coinbase)
  | [], _ => rfl
  | v :: votes, tally => by
    unfold discardCastBy
    by_cases hv : v.signer = coinbase
    · rw [if_pos hv, discardCastBy_fst, filter_cons_of_neg (by simpa using hv)]
    · rw [if_neg hv, discardCastBy_fst, filter_cons_of_pos (by simpa using hv)]

theorem counted_discardCastBy (coinbase : A) :
    ∀ {votes seen : List (Vote A)} {tally : Table A Tally},
      Counted signers (votes ++ seen) tally → (∀ v ∈ votes, Meaningful signers v) →
      Counted signers ((discardCastBy coinbase votes tally).1 ++ seen)
        (discardCastBy coinbase votes tally).2
  | [], _, _, h, _ => h
  | v :: votes, seen, tally, h, hmeaning => by
    have hrest := fun u hu => hmeaning u (mem_cons_of_mem v hu)
    unfold discardCastBy
    by_cases hv : v.signer = coinbase
    · rw [if_pos hv]
      exact counted_discardCastBy coinbase (counted_uncast h (hmeaning v mem_cons_self)) hrest
    · rw [if_neg hv]
      -- the vote stays, next to those seen before
      have hmoved : Counted signers (votes ++ v :: seen) tally := h.perm perm_middle.symm
      exact (counted_discardCastBy coinbase hmoved hrest).perm perm_middle

end Recount

/-! ## The rounds of the loop -/

section Rounds

/-- The votes are meaningful votes of signers, no two alike, and the tally counts them. -/
structure Inv (s : Snapshot A H) : Prop where
  counted : Counted s.signers s.votes s.tally
  meaningful : ∀ v ∈ s.votes, Meaningful s.signers v
  signer_mem : ∀ v ∈ s.votes, v.signer ∈ s.signers
  distinct : s.votes.Pairwise fun u v => ¬ (u.signer = v.signer ∧ u.address = v.address)

variable {s : Snapshot A H} {s' : Snapshot A H} {coinbase : A}

theorem inv_of_empty (hvotes : s.votes = []) (htally : s.tally = ∅) : Inv s where
  counted := by
    rw [hvotes, htally]
    exact counted_nil s.signers
  meaningful v hv := by
    rw [hvotes] at hv
    cases hv
  signer_mem v hv := by
    rw [hvotes] at hv
    cases hv
  distinct := by
    rw [hvotes]
    exact Pairwise.nil

theorem Inv.congr (h : Inv s) (hsigners : s'.signers = s.signers) (hvotes : s'.votes = s.votes)
    (htally : s'.tally = s.tally) : Inv s' where
  counted := hsigners ▸ hvotes ▸ htally ▸ h.counted
  meaningful := hsigners ▸ hvotes ▸ h.meaningful
  signer_mem := hsigners ▸ hvotes ▸ h.signer_mem
  distinct := hvotes ▸ h.distinct

omit [DecidableEq A] in
theorem forgetRecent_eq (number : ℕ) (s : Snapshot A H) :
    ∃ recents, forgetRecent number s = { s with recents := recents } := by
  unfold forgetRecent
  split
  · exact ⟨_, rfl⟩
  · exact ⟨s.recents, rfl⟩

theorem Inv.forgetRecent (h : Inv s) (number : ℕ) : Inv (forgetRecent number s) := by
  obtain ⟨recents, heq⟩ := forgetRecent_eq number s
  rw [heq]
  exact h.congr rfl rfl rfl

theorem Inv.checkpoint (h : Inv s) (epoch number : ℕ) : Inv (checkpoint epoch number s) := by
  unfold Clique.checkpoint
  split
  · exact inv_of_empty rfl rfl
  · exact h

theorem discardVote_signers (signer coinbase : A) (s : Snapshot A H) :
    (discardVote signer coinbase s).signers = s.signers := by
  unfold discardVote
  split <;> rfl

theorem Inv.discardVote (h : Inv s) (signer coinbase : A) :
    Inv (discardVote signer coinbase s) ∧
      ∀ v ∈ (Clique.discardVote signer coinbase s).votes,
        ¬ (v.signer = signer ∧ v.address = coinbase) := by
  unfold Clique.discardVote
  cases hfind : s.votes.find? fun v => decide (v.signer = signer ∧ v.address = coinbase) with
  | none => exact ⟨h, fun v hv => by simpa using find?_eq_none.mp hfind v hv⟩
  | some vote =>
    obtain ⟨hvote, before, behind, hvotes, hbefore⟩ := find?_eq_some_iff_append.mp hfind
    have hvote' := of_decide_eq_true hvote
    have herase : (s.votes.eraseP fun v => decide (v.signer = signer ∧ v.address = coinbase)) =
        before ++ behind := by
      have hskip : ∀ v ∈ before, ¬ decide (v.signer = signer ∧ v.address = coinbase) = true :=
        fun v hv => by simpa only [not_eq_true, not_eq_true'] using hbefore v hv
      rw [hvotes, eraseP_append_right _ hskip, eraseP_cons_of_pos]
      exact hvote
    have hsub : (before ++ behind).Sublist s.votes := by
      rw [hvotes]
      exact (sublist_cons_self vote behind).append_left before
    have hcounted : Counted s.signers (vote :: (before ++ behind)) s.tally :=
      h.counted.perm (hvotes ▸ perm_middle)
    rw [herase]
    refine ⟨⟨counted_uncast hcounted (h.meaningful vote (hvotes ▸ by simp)),
      fun v hv => h.meaningful v (hsub.subset hv), fun v hv => h.signer_mem v (hsub.subset hv),
      h.distinct.sublist hsub⟩, fun v hv hsame => ?_⟩
    -- another vote alike would have stood next to the one that went
    have hpair : (vote :: (before ++ behind)).Pairwise
        fun u v => ¬ (u.signer = v.signer ∧ u.address = v.address) := by
      refine (Perm.pairwise_iff ?_ (hvotes ▸ perm_middle)).mp h.distinct
      exact fun hne heq => hne ⟨heq.1.symm, heq.2.symm⟩
    refine (pairwise_cons.mp hpair).1 v hv ⟨?_, ?_⟩
    · rw [hvote'.1, hsame.1]
    · rw [hvote'.2, hsame.2]

theorem Inv.castVote (h : Inv s) {signer coinbase : A} (number : ℕ) (authorize : Bool)
    (hsigner : signer ∈ s.signers)
    (hfresh : ∀ v ∈ s.votes, ¬ (v.signer = signer ∧ v.address = coinbase)) :
    Inv (castVote signer coinbase number authorize s) := by
  unfold Clique.castVote
  cases hcast : cast s.signers s.tally coinbase authorize with
  | none => exact h
  | some tally =>
    obtain ⟨hmeaning, hcounted⟩ :=
      counted_cast (v := ⟨signer, number, coinbase, authorize⟩) h.counted hcast
    refine ⟨hcounted.perm (perm_append_singleton _ _).symm, fun v hv => ?_, fun v hv => ?_, ?_⟩
    · rcases mem_append.mp hv with hv | hv
      · exact h.meaningful v hv
      · rw [mem_singleton.mp hv]
        exact hmeaning
    · rcases mem_append.mp hv with hv | hv
      · exact h.signer_mem v hv
      · rw [mem_singleton.mp hv]
        exact hsigner
    · refine pairwise_append.mpr ⟨h.distinct, pairwise_singleton _ _, fun u hu v hv => ?_⟩
      rw [mem_singleton.mp hv]
      exact hfresh u hu

theorem deauthorize_spec (h : Inv s) (coinbase : A) (number : ℕ) :
    (deauthorize coinbase number s).signers = s.signers.erase coinbase ∧
      (deauthorize coinbase number s).votes =
        (s.votes.filter fun v => decide (v.signer ≠ coinbase)) ∧
      Counted s.signers (deauthorize coinbase number s).votes
        (deauthorize coinbase number s).tally := by
  obtain ⟨recents, heq⟩ := forgetRecent_eq number { s with signers := s.signers.erase coinbase }
  unfold deauthorize
  rw [heq]
  refine ⟨rfl, discardCastBy_fst .., ?_⟩
  have hcounted : Counted s.signers (s.votes ++ []) s.tally := by
    rw [append_nil]
    exact h.counted
  have hkept := counted_discardCastBy coinbase hcounted h.meaningful
  rwa [append_nil] at hkept

theorem lookup_of_passed
    (h : s.signers.card / 2 < ((s.tally.lookup coinbase).getD ⟨false, 0⟩).votes) :
    s.tally.lookup coinbase = some ((s.tally.lookup coinbase).getD ⟨false, 0⟩) := by
  cases hlookup : s.tally.lookup coinbase with
  | none =>
    rw [hlookup] at h
    exact absurd h (not_lt_zero _)
  | some tally => rfl

theorem Inv.authorize_eq (h : Inv s) {a : A} {tally : Tally} (ha : s.tally.lookup a = some tally) :
    tally.authorize = decide (a ∉ s.signers) := by
  rw [h.counted a, recount] at ha
  obtain ⟨-, ha⟩ := ite_none_left_eq_some.mp ha
  rw [← some.inj ha]

theorem inv_of_change (h : Inv s) (hsigners : ∀ a, a ≠ coinbase → (a ∈ s'.signers ↔ a ∈ s.signers))
    (hsub : s'.votes.Sublist s.votes) (haddress : ∀ v ∈ s'.votes, v.address ≠ coinbase)
    (hsigner : ∀ v ∈ s'.votes, v.signer ∈ s'.signers)
    (hcounted : Counted s'.signers s'.votes s'.tally) : Inv s' where
  counted := hcounted
  meaningful v hv := by
    have := h.meaningful v (hsub.subset hv)
    unfold Meaningful at this ⊢
    rw [this]
    simp only [hsigners _ (haddress v hv)]
  signer_mem := hsigner
  distinct := h.distinct.sublist hsub

theorem Inv.passVote (h : Inv s) (coinbase : A) (number : ℕ) :
    Inv (passVote coinbase number s) := by
  unfold Clique.passVote
  by_cases hpassed : s.signers.card / 2 < ((s.tally.lookup coinbase).getD ⟨false, 0⟩).votes
  swap
  · rw [if_neg hpassed]
    exact h
  rw [if_pos hpassed]
  have hauthorize := h.authorize_eq (lookup_of_passed hpassed)
  cases hcase : ((s.tally.lookup coinbase).getD ⟨false, 0⟩).authorize with
  | true =>
    have hsigners : ∀ a, a ≠ coinbase → (a ∈ insert coinbase s.signers ↔ a ∈ s.signers) :=
      fun a ha => by rw [Finset.mem_insert, or_iff_right ha]
    refine inv_of_change h hsigners filter_sublist (fun v hv => ?_) (fun v hv => ?_)
      (counted_change h.counted hsigners)
    · exact of_decide_eq_true (mem_filter.mp hv).2
    · exact Finset.mem_insert_of_mem (h.signer_mem v (mem_filter.mp hv).1)
  | false =>
    rw [if_neg (by decide)]
    obtain ⟨hsigners', hvotes, hcounted⟩ := deauthorize_spec h coinbase number
    have hsigners : ∀ a, a ≠ coinbase →
        (a ∈ (deauthorize coinbase number s).signers ↔ a ∈ s.signers) :=
      fun a ha => by rw [hsigners', Finset.mem_erase, and_iff_right ha]
    have hsub : (deauthorize coinbase number s).votes.Sublist s.votes := by
      rw [hvotes]
      exact filter_sublist
    refine inv_of_change h hsigners (filter_sublist.trans hsub) (fun v hv => ?_)
      (fun v hv => ?_) (counted_change hcounted hsigners)
    · exact of_decide_eq_true (mem_filter.mp hv).2
    · -- a vote that stays is not one of the dropped signer
      have hmem := (mem_filter.mp hv).1
      have hother : v.signer ≠ coinbase := by
        rw [hvotes] at hmem
        exact of_decide_eq_true (mem_filter.mp hmem).2
      exact (hsigners v.signer hother).mpr (h.signer_mem v (hsub.subset hmem))

variable {epoch : ℕ} {ecrecover : Header A H → Option A} {header : Header A H}

theorem authorizedSigner_mem {signer : A} (h : authorizedSigner ecrecover s header = .ok signer) :
    signer ∈ s.signers := by
  unfold authorizedSigner at h
  cases hrecover : ecrecover header with
  | none =>
    rw [hrecover] at h
    cases h
  | some recovered =>
    rw [hrecover] at h
    dsimp only at h
    split_ifs at h with hsigner
    cases h
    exact hsigner

theorem inv_applyHeader (h : Inv s) (happly : applyHeader epoch ecrecover s header = .ok s') :
    Inv s' := by
  unfold applyHeader at happly
  split_ifs at happly
  dsimp only at happly
  have hready := (h.checkpoint epoch (low header.number)).forgetRecent (low header.number)
  generalize forgetRecent (low header.number)
    (checkpoint epoch (low header.number) s) = ready at happly hready
  split at happly
  · cases happly
  · rename_i signer hsigner
    split at happly
    · cases happly
    · cases happly
      have hmem := authorizedSigner_mem hsigner
      have hrecent : Inv { ready with
          recents := ready.recents.insert (low header.number) signer } :=
        hready.congr rfl rfl rfl
      obtain ⟨hdiscard, hfresh⟩ := hrecent.discardVote signer header.coinbase
      refine Inv.passVote (hdiscard.castVote _ _ ?_ hfresh) _ _
      rw [discardVote_signers]
      exact hmem

end Rounds

/-! ## Headers that are accepted -/

section Accepted

structure Bookkeeping (s : Snapshot A H) : Prop where
  tally_iff : ∀ a, (∃ t, s.tally.lookup a = some t) ↔ ∃ v ∈ s.votes, v.address = a
  votes_eq : ∀ a t, s.tally.lookup a = some t →
    t.votes = s.votes.countP fun v => decide (v.address = a)
  authorize_iff : ∀ v ∈ s.votes, v.authorize = true ↔ v.address ∉ s.signers
  signer_mem : ∀ v ∈ s.votes, v.signer ∈ s.signers
  distinct : ∀ (i j : ℕ) (u v : Vote A), s.votes[i]? = some u → s.votes[j]? = some v →
    u.signer = v.signer → u.address = v.address → i = j

variable {s s' : Snapshot A H} {epoch : ℕ} {ecrecover : Header A H → Option A}

theorem Inv.bookkeeping (h : Inv s) : Bookkeeping s where
  tally_iff a := by
    rw [h.counted a]
    unfold recount
    by_cases hzero : votesOn s.votes a = 0
    · rw [if_pos hzero]
      refine iff_of_false (fun ⟨t, ht⟩ => by cases ht) ?_
      rintro ⟨v, hv, ha⟩
      exact absurd (decide_eq_true ha) (countP_eq_zero.mp hzero v hv)
    · rw [if_neg hzero]
      refine iff_of_true ⟨_, rfl⟩ ?_
      obtain ⟨v, hv, ha⟩ := countP_pos_iff.mp (Nat.pos_of_ne_zero hzero)
      exact ⟨v, hv, of_decide_eq_true ha⟩
  votes_eq a t ht := by
    rw [h.counted a, recount] at ht
    obtain ⟨-, ht⟩ := ite_none_left_eq_some.mp ht
    rw [← some.inj ht]
    rfl
  authorize_iff v hv := by
    rw [h.meaningful v hv, decide_eq_true_eq]
  signer_mem := h.signer_mem
  distinct i j u v hu hv hsigner haddress := by
    obtain ⟨hi, rfl⟩ := List.getElem?_eq_some_iff.mp hu
    obtain ⟨hj, rfl⟩ := List.getElem?_eq_some_iff.mp hv
    have hpair := pairwise_iff_getElem.mp h.distinct
    rcases lt_trichotomy i j with hlt | heq | hgt
    · exact absurd ⟨hsigner, haddress⟩ (hpair i j hi hj hlt)
    · exact heq
    · exact absurd ⟨hsigner.symm, haddress.symm⟩ (hpair j i hj hi hgt)

theorem inv_apply {headers : List (Header A H)} (h : Inv s)
    (happly : apply epoch ecrecover s headers = .ok s') : Inv s' := by
  unfold apply at happly
  cases headers with
  | nil =>
    cases happly
    exact h
  | cons first rest =>
    dsimp only at happly
    split_ifs at happly
    cases hfold : (first :: rest).foldlM (applyHeader epoch ecrecover) s with
    | error e =>
      rw [hfold] at happly
      cases happly
    | ok snap =>
      rw [hfold] at happly
      cases happly
      have := foldlM_invariant (fun _ _ _ => inv_applyHeader) h hfold
      exact this.congr rfl rfl rfl

/-- **Votes and tally agree after any headers that are accepted.** -/
theorem bookkeeping_apply {calls : List (List (Header A H))} (hvotes : s.votes = [])
    (htally : s.tally = ∅) (happly : applyAll epoch ecrecover s calls = .ok s') :
    Bookkeeping s' := by
  have hinv := foldlM_invariant (fun _ _ _ => inv_apply) (inv_of_empty hvotes htally) happly
  exact hinv.bookkeeping

def sampleHeader (number signer coinbase : ℕ) (authorize : Bool) : Header ℕ ℕ :=
  ⟨number, coinbase, if authorize then nonceAuthVote else nonceDropVote, signer⟩

def sampleCalls : List (List (Header ℕ ℕ)) :=
  [[sampleHeader 1 1 4 true, sampleHeader 2 2 4 true], [sampleHeader 3 3 1 false]]

theorem bookkeeping_sample : ∃ s' : Snapshot ℕ ℕ,
    applyAll 30000 (fun header => some header.hash) (newSnapshot 0 0 [1, 2, 3]) sampleCalls =
        .ok s' ∧
      s'.signers = {1, 2, 3, 4} ∧ s'.votes = [⟨3, 3, 1, false⟩] ∧ Bookkeeping s' := by
  have hrun : (applyAll 30000 (fun header => some header.hash) (newSnapshot 0 0 [1, 2, 3])
      sampleCalls).toOption.map (fun s' => decide (s'.signers = {1, 2, 3, 4} ∧
        s'.votes = [⟨3, 3, 1, false⟩])) = some true := by decide +kernel
  obtain ⟨s', happly, hs'⟩ := map_eq_some_iff.mp hrun
  cases hcalls : applyAll 30000 (fun header => some header.hash) (newSnapshot 0 0 [1, 2, 3])
    sampleCalls with
  | error e =>
    rw [hcalls] at happly
    cases happly
  | ok s =>
    rw [hcalls] at happly
    cases happly
    have hs := of_decide_eq_true hs'
    exact ⟨s', rfl, hs.1, hs.2, bookkeeping_apply rfl rfl hcalls⟩

end Accepted

end XChain.Clique
