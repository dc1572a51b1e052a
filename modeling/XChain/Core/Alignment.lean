import XChain.Core.PendingView

/-!
# Alignment of pending lists

* **`Aligned.changed`**, `Covered.changed`, `Blocked.changed`: what a change of a pending list
  keeps;
* **`demoteUnexecutables_settled`**: demotion cuts an aligned list where it cannot be paid, and
  empties one with a gap in front.
-/

namespace XChain

open List Nat TxLists Bool GoText

namespace TxPool

variable {env : PoolEnv} {p p' : TxPool} {a : Address} {tx : Transaction} {k : ℕ} {b : Address}
  {rest : List Transaction} {first : Transaction}

/-! ## Alignment -/

/-- The pending nonces are `k` from that of the account on, payable below the virtual nonce. -/
structure Aligned (p : TxPool) (a : Address) (k : ℕ) : Prop where
  slots : ∀ m, p.currentState.nonce a ≤ m → (p.Pends a m ↔ m < p.currentState.nonce a + k)
  low : p.pendingNonce a ≤ p.currentState.nonce a + k
  payable : ∀ tx ∈ p.pending.txs a, p.currentState.nonce a ≤ tx.nonce →
    tx.nonce < p.pendingNonce a → tx.exceeds (p.currentState.balance a) p.currentMaxGas = false

def Covered (p : TxPool) (a : Address) : Prop :=
  ∀ tx ∈ p.pending.txs a, p.currentState.nonce a ≤ tx.nonce ∧ tx.nonce < p.pendingNonce a

theorem ReadyRun.mem_nonce (h : ReadyRun p a (first :: rest)) (m : ℕ) :
    (∃ u ∈ first :: rest, u.nonce = m) ↔ first.nonce ≤ m ∧ m ≤ first.nonce + rest.length := by
  have hmem : m ∈ (first :: rest).map Transaction.nonce ↔ ∃ u ∈ first :: rest, u.nonce = m :=
    mem_map
  rw [← hmem, (h.run first rfl).2, mem_range'_1, length_cons]
  omega

theorem Aligned.first_nonce (hs : p.Slotted []) (h : p.Aligned a k)
    (hrun : ReadyRun p a (first :: rest)) :
    first.nonce = p.currentState.nonce a + k ∧ p.pendingNonce a = first.nonce := by
  have hle := (hrun.run first rfl).1
  obtain ⟨hqueue, hge, -⟩ := hrun.payable first mem_cons_self
  have hfree : ¬ p.Pends a first.nonce := by
    rintro ⟨u, hu, hun⟩
    exact hs.pending_ne_queue hu hqueue hun
  rw [h.slots first.nonce hge] at hfree
  have := h.low
  omega

/-- **A change keeps the list aligned.** -/
theorem Aligned.changed (hs : p.Slotted []) (hst : p'.currentState = p.currentState)
    (hgas : p'.currentMaxGas = p.currentMaxGas) (hc : Change p p' a) (h : p.Aligned a k) :
    ∃ k', p'.Aligned a k' := by
  cases hc with
  | same hp hn =>
    refine ⟨k, fun m hm => ?_, ?_, fun u hu hle hlt => ?_⟩
    · rw [hst] at hm ⊢
      rw [← h.slots m hm]
      exact exists_congr fun u => and_congr_left' (hp u)
    · rw [hn, hst]
      exact h.low
    · rw [hst] at hle
      rw [hn] at hlt
      rw [hst, hgas]
      exact h.payable u ((hp u).mp hu) hle hlt
  | cut nonce hp hn =>
    have hpends : ∀ m, p'.Pends a m ↔ p.Pends a m ∧ m < nonce := by
      intro m
      constructor
      · rintro ⟨u, hu, rfl⟩
        obtain ⟨hu, hlt⟩ := (hp u).mp hu
        exact ⟨⟨u, hu, rfl⟩, hlt⟩
      · rintro ⟨⟨u, hu, rfl⟩, hlt⟩
        exact ⟨u, (hp u).mpr ⟨hu, hlt⟩, rfl⟩
    refine ⟨min k (nonce - p.currentState.nonce a), fun m hm => ?_, ?_, fun u hu hle hlt => ?_⟩
    · rw [hst] at hm ⊢
      rw [hpends, h.slots m hm]
      omega
    · have := h.low
      rw [hn, hst]
      omega
    · rw [hst] at hle
      rw [hst, hgas]
      exact h.payable u ((hp u).mp hu).1 hle (by omega)
  | swap tx haddr hfits hpends hp hn =>
    refine ⟨k, fun m hm => ?_, ?_, fun u hu hle hlt => ?_⟩
    · rw [hst] at hm ⊢
      rw [← h.slots m hm]
      constructor
      · rintro ⟨u, hu, rfl⟩
        rcases (hp u).mp hu with rfl | ⟨hu, -⟩
        · exact hpends
        · exact ⟨u, hu, rfl⟩
      · rintro ⟨u, hu, rfl⟩
        by_cases hn : u.nonce = tx.nonce
        · exact ⟨tx, (hp tx).mpr (.inl rfl), hn.symm⟩
        · exact ⟨u, (hp u).mpr (.inr ⟨hu, hn⟩), rfl⟩
    · rw [hn, hst]
      exact h.low
    · rw [hst] at hle
      rw [hn] at hlt
      rw [hst, hgas]
      rcases (hp u).mp hu with rfl | ⟨hu, -⟩
      · exact haddr ▸ hfits.payable
      · exact h.payable u hu hle hlt
  | grow first rest hrun hp hn =>
    obtain ⟨hfirst, hpn⟩ := h.first_nonce hs hrun
    refine ⟨k + (rest.length + 1), fun m hm => ?_, ?_, fun u hu hle hlt => ?_⟩
    · rw [hst] at hm ⊢
      have hpends : p'.Pends a m ↔ p.Pends a m ∨ ∃ u ∈ first :: rest, u.nonce = m := by
        simp only [Pends, hp, or_and_right, exists_or]
      rw [hpends, h.slots m hm, hrun.mem_nonce]
      omega
    · have hmod : Word64.add (first.nonce + rest.length) 1 ≤ first.nonce + rest.length + 1 :=
        mod_le _ _
      rw [hn, hst]
      omega
    · rw [hst] at hle
      rw [hst, hgas]
      rcases (hp u).mp hu with hu | hu
      · -- what was pending lies below the run
        have := (h.slots u.nonce hle).mp ⟨u, hu, rfl⟩
        exact h.payable u hu hle (by omega)
      · exact (hrun.payable u hu).2.2

def HasSuccessor (tx : Transaction) : Prop := tx.nonce + 1 < Word64.size

theorem Covered.changed (hs : p.Slotted []) (hb : ∀ tx ∈ p.held [] a, HasSuccessor tx)
    (hst : p'.currentState = p.currentState) (hc : Change p p' a) (h : p.Aligned a k)
    (hcov : p.Covered a) : p'.Covered a := by
  cases hc with
  | same hp hn =>
    intro u hu
    rw [hst, hn]
    exact hcov u ((hp u).mp hu)
  | cut nonce hp hn =>
    intro u hu
    obtain ⟨hu, hlt⟩ := (hp u).mp hu
    have := hcov u hu
    rw [hst, hn]
    omega
  | swap tx haddr hfits hpends hp hn =>
    intro u hu
    rw [hst, hn]
    rcases (hp u).mp hu with rfl | ⟨hu, -⟩
    · obtain ⟨v, hv, hvn⟩ := hpends
      exact hvn ▸ hcov v hv
    · exact hcov u hu
  | grow first rest hrun hp hn =>
    obtain ⟨hfirst, hpn⟩ := h.first_nonce hs hrun
    -- the nonce after the last one of the run does not wrap around
    obtain ⟨last, hlast, hln⟩ := (hrun.mem_nonce (first.nonce + rest.length)).mpr (by omega)
    have hlt : last.nonce + 1 < Word64.size :=
      hb last (mem_held.mpr (.inr (.inl (hrun.payable last hlast).1)))
    have hadd : Word64.add (first.nonce + rest.length) 1 = first.nonce + rest.length + 1 :=
      mod_eq_of_lt (by omega)
    intro u hu
    rw [hst, hn, hadd]
    rcases (hp u).mp hu with hu | hu
    · have := hcov u hu
      omega
    · have := (hrun.mem_nonce u.nonce).mp ⟨u, hu, rfl⟩
      omega

/-- The account has no pending transaction with its nonce, and its virtual nonce is not ahead. -/
structure Blocked (p : TxPool) (a : Address) : Prop where
  front : ∀ tx ∈ p.pending.txs a, tx.nonce ≠ p.currentState.nonce a
  low : p.pendingNonce a ≤ p.currentState.nonce a

theorem Blocked.changed (hnone : ∀ tx ∈ p.held [] a, tx.nonce ≠ p.currentState.nonce a)
    (hst : p'.currentState = p.currentState) (hc : Change p p' a) (h : p.Blocked a) :
    p'.Blocked a := by
  cases hc with
  | same hp hn =>
    refine ⟨fun u hu => ?_, ?_⟩
    · rw [hst]
      exact h.front u ((hp u).mp hu)
    · rw [hn, hst]
      exact h.low
  | cut nonce hp hn =>
    refine ⟨fun u hu => ?_, ?_⟩
    · rw [hst]
      exact h.front u ((hp u).mp hu).1
    · have := h.low
      rw [hn, hst]
      omega
  | swap tx haddr hfits hpends hp hn =>
    refine ⟨fun u hu => ?_, ?_⟩
    · rw [hst]
      rcases (hp u).mp hu with rfl | ⟨hu, -⟩
      · obtain ⟨v, hv, hvn⟩ := hpends
        exact hvn ▸ h.front v hv
      · exact h.front u hu
    · rw [hn, hst]
      exact h.low
  | grow first rest hrun hp hn =>
    obtain ⟨hqueue, hge, -⟩ := hrun.payable first mem_cons_self
    have hne := hnone first (mem_held.mpr (.inr (.inl hqueue)))
    have hle := (hrun.run first rfl).1
    have := h.low
    omega

/-! ## Demotion -/

/-- Every pending transaction of the account is executable; without one the virtual nonce is not
ahead. -/
structure Settled (p : TxPool) (a : Address) (k : ℕ) : Prop where
  slots : ∀ m, p.Pends a m ↔ p.currentState.nonce a ≤ m ∧ m < p.currentState.nonce a + k
  payable : ∀ tx ∈ p.pending.txs a, tx.exceeds (p.currentState.balance a) p.currentMaxGas = false
  low : k = 0 → p.pendingNonce a ≤ p.currentState.nonce a

/-- What demotion leaves alone, apart from a gap in front: payable transactions below the first one
that is not. -/
structure Kept (p : TxPool) (a : Address) (tx : Transaction) : Prop where
  mem : tx ∈ p.pending.txs a
  nonce : p.currentState.nonce a ≤ tx.nonce
  payable : tx.exceeds (p.currentState.balance a) p.currentMaxGas = false
  below : ∀ u ∈ p.pending.txs a, p.currentState.nonce a ≤ u.nonce →
    u.exceeds (p.currentState.balance a) p.currentMaxGas = true → tx.nonce < u.nonce

theorem mem_demoteAccount (hs : p.Slotted []) : tx ∈ (p.demoteAccount env a).pending.txs a ↔
    p.Kept a tx ∧ ∃ v, p.Kept a v ∧ v.nonce = p.currentState.nonce a := by
  have hd₁ : Demotion p (p.forwardPending env a) a := forwardPending_demotion
  have hd₂ : Demotion (p.forwardPending env a) ((p.forwardPending env a).filterPending env a) a :=
    filterPending_demotion
  have hmoves : Moves env (fun _ => False) (p, []) (p.forwardPending env a, []) :=
    forwardPending_moves hs
  have hkept : ∀ u, u ∈ ((p.forwardPending env a).filterPending env a).pending.txs a ↔
      p.Kept a u := by
    intro u
    rw [mem_filterPending (hmoves.slotted hs).kinds, forwardPending_txs, hd₁.state, hd₁.maxGas]
    simp only [mem_filter, decide_eq_true_eq]
    constructor
    · rintro ⟨⟨hmem, hn⟩, hpay, hbelow⟩
      exact ⟨hmem, hn, hpay, fun v hv hvn hx => hbelow v ⟨hv, hvn⟩ hx⟩
    · intro h
      exact ⟨⟨h.mem, h.nonce⟩, h.payable, fun v hv hx => h.below v hv.1 hv.2 hx⟩
  have hstate := hd₂.state.trans hd₁.state
  rw [demoteAccount, deleteEmptyPending_txs, postponeGapped_txs, hstate]
  split
  · rename_i hfront
    obtain ⟨v, hv, hvn⟩ := hfront
    rw [hkept]
    exact ⟨fun h => ⟨h, v, (hkept v).mp hv, hvn⟩, fun h => h.1⟩
  · rename_i hgap
    refine ⟨nofun, ?_⟩
    rintro ⟨-, v, hv, hvn⟩
    exact absurd ⟨v, (hkept v).mpr hv, hvn⟩ hgap

theorem Aligned.kept (h : p.Aligned a k) : ∃ k', (∀ m, (∃ tx, p.Kept a tx ∧ tx.nonce = m) ↔
    p.currentState.nonce a ≤ m ∧ m < p.currentState.nonce a + k') ∧
      (k' = 0 → p.pendingNonce a ≤ p.currentState.nonce a) := by
  by_cases hex : ∃ m, ∃ u ∈ p.pending.txs a, u.nonce = m ∧ p.currentState.nonce a ≤ m ∧
      u.exceeds (p.currentState.balance a) p.currentMaxGas = true
  · -- the run ends before the lowest transaction that cannot be paid
    obtain ⟨w, hw, hwn, hge, hx⟩ := Nat.find_spec hex
    have hmin : ∀ u ∈ p.pending.txs a, p.currentState.nonce a ≤ u.nonce →
        u.exceeds (p.currentState.balance a) p.currentMaxGas = true → Nat.find hex ≤ u.nonce :=
      fun u hu hn hx => Nat.find_min' hex ⟨u, hu, rfl, hn, hx⟩
    generalize Nat.find hex = m₀ at hwn hge hmin
    have hm₀ := (h.slots m₀ hge).mp ⟨w, hw, hwn⟩
    refine ⟨m₀ - p.currentState.nonce a, fun m => ⟨?_, ?_⟩, fun hzero => ?_⟩
    · rintro ⟨u, hu, rfl⟩
      have := hu.below w hw (hwn ▸ hge) hx
      exact ⟨hu.nonce, by omega⟩
    · rintro ⟨hle, hlt⟩
      obtain ⟨u, hu, rfl⟩ := (h.slots m hle).mpr (by omega)
      refine ⟨u, ⟨hu, hle, eq_false_iff.mpr fun hux => ?_, fun v hv hvn hvx => ?_⟩, rfl⟩
      · have := hmin u hu hle hux
        omega
      · have := hmin v hv hvn hvx
        omega
    · by_contra hlow
      have hpay := h.payable w hw (hwn ▸ hge) (by omega)
      rw [hpay] at hx
      exact false_ne_true hx
  · refine ⟨k, fun m => ⟨?_, ?_⟩, fun hzero => ?_⟩
    · rintro ⟨u, hu, rfl⟩
      exact ⟨hu.nonce, (h.slots u.nonce hu.nonce).mp ⟨u, hu.mem, rfl⟩⟩
    · rintro ⟨hle, hlt⟩
      obtain ⟨u, hu, rfl⟩ := (h.slots m hle).mpr hlt
      refine ⟨u, ⟨hu, hle, eq_false_iff.mpr fun hux => ?_, fun v hv hvn hvx => ?_⟩, rfl⟩
      · exact hex ⟨u.nonce, u, hu, rfl, hle, hux⟩
      · exact absurd ⟨v.nonce, v, hv, rfl, hvn, hvx⟩ hex
    · have := h.low
      omega

/-- Before demotion a pending list is aligned or has a gap in front. -/
def Open (p : TxPool) (a : Address) : Prop := (∃ k, p.Aligned a k) ∨ p.Blocked a

theorem demoteAccount_settled (hs : p.Slotted []) (h : p.Open a) :
    ∃ k, (p.demoteAccount env a).Settled a k := by
  have hd : Demotion p (p.demoteAccount env a) a := demoteAccount_demotion
  have hn := pendingNonce_congr hd.nonces hd.state a
  have hmem : ∀ u, u ∈ (p.demoteAccount env a).pending.txs a ↔
      p.Kept a u ∧ ∃ v, p.Kept a v ∧ v.nonce = p.currentState.nonce a := fun u =>
    mem_demoteAccount hs
  have hpay : ∀ u ∈ (p.demoteAccount env a).pending.txs a,
      u.exceeds ((p.demoteAccount env a).currentState.balance a)
        (p.demoteAccount env a).currentMaxGas = false := by
    intro u hu
    rw [hd.state, hd.maxGas]
    exact ((hmem u).mp hu).1.payable
  rcases h with ⟨k, h⟩ | h
  · obtain ⟨k', hslots, hlow⟩ := h.kept
    refine ⟨k', fun m => ?_, hpay, fun hzero => ?_⟩
    · rw [hd.state, ← hslots m]
      constructor
      · rintro ⟨u, hu, rfl⟩
        exact ⟨u, ((hmem u).mp hu).1, rfl⟩
      · rintro ⟨u, hu, rfl⟩
        have hrange := (hslots u.nonce).mp ⟨u, hu, rfl⟩
        refine ⟨u, (hmem u).mpr ⟨hu, (hslots _).mpr ⟨le_refl _, ?_⟩⟩, rfl⟩
        omega
    · rw [hn, hd.state]
      exact hlow hzero
  · refine ⟨0, fun m => ?_, hpay, fun _ => ?_⟩
    · constructor
      · rintro ⟨u, hu, rfl⟩
        obtain ⟨-, v, hv, hvn⟩ := (hmem u).mp hu
        exact absurd hvn (h.front v hv.mem)
      · rintro ⟨hle, hlt⟩
        omega
    · rw [hn, hd.state]
      exact h.low

theorem Demotion.txs_eq (hd : Demotion p p' b) (hab : a ≠ b) :
    p'.pending.txs a = p.pending.txs a := by
  rw [txs, hd.other a hab, txs]

theorem Demotion.open_of_ne (hd : Demotion p p' b) (hab : a ≠ b) (h : p.Open a) : p'.Open a := by
  have htxs := hd.txs_eq hab
  have hn := pendingNonce_congr hd.nonces hd.state a
  rcases h with ⟨k, h⟩ | h
  · refine .inl ⟨k, ?_, ?_, ?_⟩
    · rw [hd.state]
      simp only [Pends, htxs]
      exact h.slots
    · rw [hn, hd.state]
      exact h.low
    · rw [htxs, hn, hd.state, hd.maxGas]
      exact h.payable
  · refine .inr ⟨?_, ?_⟩
    · rw [htxs, hd.state]
      exact h.front
    · rw [hn, hd.state]
      exact h.low

theorem Demotion.settled_of_ne (hd : Demotion p p' b) (hab : a ≠ b) (h : p.Settled a k) :
    p'.Settled a k := by
  have htxs := hd.txs_eq hab
  refine ⟨?_, ?_, fun hzero => ?_⟩
  · rw [hd.state]
    simp only [Pends, htxs]
    exact h.slots
  · rw [htxs, hd.state, hd.maxGas]
    exact h.payable
  · rw [pendingNonce_congr hd.nonces hd.state, hd.state]
    exact h.low hzero

variable {T : Transaction → Prop}

theorem demoteAccount_within (hw : p.Within T) : (p.demoteAccount env a).Within T := by
  have hmoves : Moves env (admitting T) (p, []) (p.demoteAccount env a, []) :=
    demoteAccount_moves hw.slotted fun _ => trivial
  exact hmoves.within hw

theorem Open.settled_of_nil (h : p.Open a) (hnil : p.pending.txs a = []) : p.Settled a 0 := by
  have hnone : ∀ m, ¬ p.Pends a m := by
    rintro m ⟨u, hu, -⟩
    rw [hnil] at hu
    cases hu
  refine ⟨fun m => ⟨fun hm => absurd hm (hnone m), fun hm => by omega⟩, fun u hu => ?_, fun _ => ?_⟩
  · rw [hnil] at hu
    cases hu
  · rcases h with ⟨k, h⟩ | h
    · have hk := (h.slots _ (le_refl _)).not.mp (hnone _)
      have := h.low
      omega
    · exact h.low

/-- **Demotion settles every account.** -/
theorem demoteUnexecutables_settled (hw : p.Within T) (h : p.Open a) :
    ∃ k, (p.demoteUnexecutables env).Settled a k := by
  have hfold : ∀ (accounts : List Address), accounts.Nodup → ∀ q : TxPool, q.Within T →
      (a ∈ accounts → q.Open a) → (a ∉ accounts → ∃ k, q.Settled a k) →
      ∃ k, (accounts.foldl (demoteAccount env) q).Settled a k := by
    intro accounts
    induction accounts with
    | nil => exact fun _ q _ _ hset => hset not_mem_nil
    | cons b accounts ih =>
      intro hnd q hq hopen hset
      rw [nodup_cons] at hnd
      have hd : Demotion q (q.demoteAccount env b) b := demoteAccount_demotion
      refine ih hnd.2 _ (demoteAccount_within hq) (fun ha => ?_) fun ha => ?_
      · have hab : a ≠ b := fun he => hnd.1 (he ▸ ha)
        exact hd.open_of_ne hab (hopen (mem_cons_of_mem _ ha))
      · by_cases hab : a = b
        · subst hab
          exact demoteAccount_settled hq.slotted (hopen mem_cons_self)
        · obtain ⟨k, hk⟩ := hset fun hmem => (mem_cons.mp hmem).elim hab ha
          exact ⟨k, hd.settled_of_ne hab hk⟩
  have htick : p.tick.Open a := by
    rcases h with ⟨k, h⟩ | h
    · exact .inl ⟨k, h.slots, h.low, h.payable⟩
    · exact .inr ⟨h.front, h.low⟩
  have hperm := (env.oracle.accounts p.clock).visit_perm p.pending.keys
  refine hfold _ (hperm.nodup_iff.mpr p.pending.keys_nodup) p.tick (tick_within hw) (fun _ => htick)
    fun ha => ⟨0, ?_⟩
  refine htick.settled_of_nil (txs_of_none ?_)
  rw [AList.lookup_eq_none, AList.mem_keys]
  exact fun hmem => ha (hperm.mem_iff.mpr hmem)

/-! ## The virtual nonces are restored -/

theorem nonce_le_getLast {last u : Transaction} (hlast : (p.pending.txs a).getLast? = some last)
    (hu : u ∈ p.pending.txs a) : u.nonce ≤ last.nonce := by
  rw [← dropLast_append_getLast? last hlast, mem_append, mem_singleton] at hu
  rcases hu with hu | rfl
  · exact le_of_lt ((mem_dropLast_iff (p.pending_sorted a) hlast).mp hu).2
  · exact le_refl _

theorem Settled.restored (hb : ∀ tx ∈ p.held [] a, HasSuccessor tx) (h : p.Settled a k) :
    p.restoreNonces.Aligned a k ∧ p.restoreNonces.Covered a := by
  have hpn : 0 < k ∧ p.restoreNonces.pendingNonce a = p.currentState.nonce a + k ∨
      k = 0 ∧ p.restoreNonces.pendingNonce a ≤ p.currentState.nonce a := by
    cases hlast : (p.pending.txs a).getLast? with
    | none =>
      have hzero : k = 0 := by
        by_contra hk
        obtain ⟨u, hu, -⟩ := (h.slots (p.currentState.nonce a)).mpr (by omega)
        rw [getLast?_eq_none_iff.mp hlast] at hu
        cases hu
      refine .inr ⟨hzero, ?_⟩
      have hsame : p.restoreNonces.pendingNonces a = p.pendingNonces a := by
        simp only [restoreNonces, hlast]
      rw [pendingNonce, hsame]
      exact h.low hzero
    | some last =>
      have hmem := mem_of_getLast? hlast
      obtain ⟨hge, hlt⟩ := (h.slots last.nonce).mp ⟨last, hmem, rfl⟩
      obtain ⟨top, htop, htn⟩ := (h.slots (p.currentState.nonce a + k - 1)).mpr (by omega)
      have hle := nonce_le_getLast hlast htop
      have hsucc : last.nonce + 1 < Word64.size := hb last (mem_held.mpr (.inl hmem))
      have hadd : Word64.add last.nonce 1 = last.nonce + 1 := mod_eq_of_lt hsucc
      refine .inl ⟨by omega, ?_⟩
      have hset : p.restoreNonces.pendingNonces a = some (Word64.add last.nonce 1) := by
        simp only [restoreNonces, hlast]
      rw [pendingNonce, hset, Option.getD_some, hadd]
      omega
  refine ⟨⟨fun m hm => ?_, ?_, fun u hu _ _ => h.payable u hu⟩, fun u hu => ?_⟩
  · exact (h.slots m).trans ⟨fun hm => hm.2, fun hlt => ⟨hm, hlt⟩⟩
  · change p.restoreNonces.pendingNonce a ≤ p.currentState.nonce a + k
    omega
  · have hrange := (h.slots u.nonce).mp ⟨u, hu, rfl⟩
    change p.currentState.nonce a ≤ u.nonce ∧ u.nonce < p.restoreNonces.pendingNonce a
    omega

end TxPool

end XChain
