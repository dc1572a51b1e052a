import XChain.Core.Refill

/-!
# Executable transactions

The pending list of an account is meant to be executable: its nonces follow one another from the
nonce of the account on, the account can pay for them, and the virtual nonce comes next.

* **`pool_gap`**: a nonce that goes back leaves a gap if only some of the transactions in between
  are reinjected;
* **`pool_executable`**: lists stay executable if all of them are, or none for the new nonce;
* **`pool_slotted`**: what holds in all runs.
-/

namespace XChain

open Transaction AList List Nat GoText

namespace TxPool

open StepMachine GoMap List

variable {env : PoolEnv} {p p' : TxPool} {a : Address} {tx : Transaction} {T : Transaction → Prop}

/-! ## Orderly accounts -/

/-- The pending list of the account is aligned, and the virtual nonce follows it. -/
structure Orderly (p : TxPool) (a : Address) : Prop where
  aligned : ∃ k, p.Aligned a k
  covered : p.Covered a

theorem Orderly.pends (h : p.Orderly a) : ∃ k, p.Aligned a k ∧ ∀ m, p.Pends a m ↔
    p.currentState.nonce a ≤ m ∧ m < p.currentState.nonce a + k := by
  obtain ⟨k, hk⟩ := h.aligned
  refine ⟨k, hk, fun m => ⟨fun hm => ?_, fun hm => (hk.slots m hm.1).mpr hm.2⟩⟩
  have hge : p.currentState.nonce a ≤ m := by
    obtain ⟨u, hu, rfl⟩ := hm
    exact (h.covered u hu).1
  exact ⟨hge, (hk.slots m hge).mp hm⟩

theorem Orderly.payable (h : p.Orderly a) (htx : tx ∈ p.pending.txs a) :
    tx.exceeds (p.currentState.balance a) p.currentMaxGas = false := by
  obtain ⟨k, hk⟩ := h.aligned
  obtain ⟨hge, hlt⟩ := h.covered tx htx
  exact hk.payable tx htx hge hlt

theorem Evolves.orderly (hT : ∀ tx, T tx → HasSuccessor tx) (h : Evolves T p p')
    (ho : p.Orderly a) : p'.Orderly a := by
  refine h.keeps (I := fun q => q.Orderly a) (fun q q' hq hc ho => ?_) ho
  obtain ⟨k, hk⟩ := ho.aligned
  refine ⟨hk.changed hq.slotted hc.state hc.maxGas (hc.change a), ?_⟩
  exact ho.covered.changed hq.slotted (fun tx htx => hT tx (hq.held a tx htx)) hc.state
    (hc.change a)
    hk

theorem demoteAccount_changed {b : Address} (hs : p.Slotted []) (ho : p.Orderly b) :
    Changed p (p.demoteAccount env b) := by
  have hd : Demotion p (p.demoteAccount env b) b := demoteAccount_demotion
  refine ⟨hd.toSameView, fun a =>
    .same (fun u => ?_) (pendingNonce_congr hd.nonces hd.state a)⟩
  by_cases hab : a = b
  swap
  · rw [hd.txs_eq hab]
  subst hab
  have hkept : ∀ v ∈ p.pending.txs a, p.Kept a v := fun v hv =>
    ⟨hv, (ho.covered v hv).1, ho.payable hv, fun w hw _ hx =>
      absurd ((ho.payable hw).symm.trans hx) Bool.false_ne_true⟩
  rw [mem_demoteAccount hs]
  refine ⟨fun h => h.1.mem, fun hu => ⟨hkept u hu, ?_⟩⟩
  obtain ⟨k, -, hpends⟩ := ho.pends
  have hrange := (hpends u.nonce).mp ⟨u, hu, rfl⟩
  obtain ⟨v, hv, hvn⟩ := (hpends (p.currentState.nonce a)).mpr (by omega)
  exact ⟨v, hkept v hv, hvn⟩

theorem demoteUnexecutables_evolves (hT : ∀ tx, T tx → HasSuccessor tx) (hw : p.Within T)
    (ho : ∀ a, p.Orderly a) : Evolves T p (p.demoteUnexecutables env) := by
  have hfold : ∀ (accounts : List Address) (q : TxPool), q.Within T → (∀ a, q.Orderly a) →
      Evolves T q (accounts.foldl (demoteAccount env) q) := by
    intro accounts
    induction accounts with
    | nil => exact fun q _ _ => Evolves.refl q
    | cons b accounts ih =>
      intro q hq ho
      have he : Evolves T q (q.demoteAccount env b) :=
        .single hq (demoteAccount_within hq) (demoteAccount_changed hq.slotted (ho b))
      exact he.trans (ih _ (he.within hq) fun a => he.orderly hT (ho a))
  have htick : Evolves T p p.tick := tick_evolves hw
  exact htick.trans (hfold _ _ (htick.within hw) fun a => htick.orderly hT (ho a))

/-! ## Transactions that are too old -/

def Current (p : TxPool) (a : Address) : Prop :=
  ∀ tx ∈ p.held [] a, p.currentState.nonce a ≤ tx.nonce

theorem Current.moves (hst : p'.currentState = p.currentState)
    (hm : Moves env (fun _ => False) (p, []) (p', [])) (h : p.Current a) : p'.Current a := by
  intro u hu
  rw [hst]
  exact h u ((hm.mem_held hu).resolve_right id)

theorem promoteAccount_current (hs : p.Slotted [])
    (hpend : ∀ tx ∈ p.pending.txs a, p.currentState.nonce a ≤ tx.nonce) :
    (p.promoteAccount env a).Current a := by
  have hsame : SamePending p (p.forwardQueue env a) := forwardQueue_same
  have hcurrent : (p.forwardQueue env a).Current a := by
    intro u hu
    rw [hsame.state]
    rcases mem_held.mp hu with hu | hu | ⟨hu, -⟩
    · rw [hsame.pending] at hu
      exact hpend u hu
    · rw [forwardQueue_txs, mem_filter, decide_eq_true_eq] at hu
      exact hu.2
    · cases hu
  have h₀ : Moves env (fun _ => False) (p, []) (p.forwardQueue env a, []) := forwardQueue_moves hs
  have hs₁ := h₀.slotted hs
  have hst : (p.promoteAccount env a).currentState = (p.forwardQueue env a).currentState :=
    (promoteAccount_changed hs).state.trans hsame.state.symm
  have h₁ : Moves env (fun _ => False) (p.forwardQueue env a, [])
      ((p.forwardQueue env a).filterQueue env a, []) := filterQueue_moves hs₁
  have h₂ := h₁.trans (promoteReady_moves (a := a) (h₁.slotted hs₁))
  have h₃ := h₂.trans (limitQueue_moves (a := a) (h₂.slotted hs₁))
  exact hcurrent.moves hst (h₃.trans deleteEmptyQueue_moves)

theorem promoteExecutables_current (hT : ∀ tx, T tx → HasSuccessor tx) (hw : p.Within T)
    (ho : p.Orderly a) : (p.promoteExecutables env none).Current a := by
  have hfold : ∀ (accounts : List Address) (q : TxPool), q.Within T → q.Orderly a →
      (a ∈ accounts ∨ q.Current a) → (accounts.foldl (promoteAccount env) q).Current a := by
    intro accounts
    induction accounts with
    | nil => exact fun q _ _ h => h.resolve_left not_mem_nil
    | cons b accounts ih =>
      intro q hq ho h
      have he : Evolves T q (q.promoteAccount env b) := promoteAccount_evolves hq
      have hm : Moves env (fun _ => False) (q, []) (q.promoteAccount env b, []) :=
        promoteAccount_moves hq.slotted
      refine ih _ (he.within hq) (he.orderly hT ho) ?_
      by_cases hab : a = b
      · subst hab
        exact .inr (promoteAccount_current hq.slotted fun tx htx => (ho.covered tx htx).1)
      · exact h.imp (fun ha => (mem_cons.mp ha).resolve_left hab) fun h => h.moves he.state hm
  have htick : Evolves T p p.tick := tick_evolves hw
  have hperm := (env.oracle.accounts p.clock).visit_perm p.queue.keys
  have hall := hfold ((env.oracle.accounts p.clock).visit p.queue.keys) p.tick (htick.within hw)
    (htick.orderly hT ho) (by
      by_cases ha : a ∈ p.queue.keys
      · exact .inl (hperm.mem_iff.mpr ha)
      · refine .inr fun u hu => ?_
        have hnil : p.queue.txs a = [] :=
          TxLists.txs_of_none (lookup_eq_none.mpr fun h => ha (mem_keys.mp h))
        rcases mem_held.mp hu with hu | hu | ⟨hu, -⟩
        · exact (ho.covered u hu).1
        · exact absurd (hnil ▸ hu) not_mem_nil
        · cases hu)
  have he : (((env.oracle.accounts p.clock).visit p.queue.keys).foldl (promoteAccount env)
      p.tick).Within T := (promoteAll_evolves _ (htick.within hw)).within (htick.within hw)
  have hm₁ : Moves env (fun _ => False) (_, []) (_, []) := capPending_moves he.slotted
  have hm := hm₁.trans (capQueue_moves (hm₁.slotted he.slotted))
  exact hall.moves (caps_evolve he).state hm

/-! ## A new head -/

variable (env) in
/-- For every account with pending transactions the nonce does not go back, none is reinjected at
the new nonce, or all up to the pending list are. -/
def Rejoins (p : TxPool) (state : AccountState) (maxGas : ℤ) (txs : List Transaction) : Prop :=
  (∀ tx ∈ txs, HasSuccessor tx) ∧ ∀ a, p.pending.txs a ≠ [] →
    p.currentState.nonce a ≤ state.nonce a ∨
    (∀ tx ∈ txs, tx.addr = a → tx.nonce ≠ state.nonce a) ∨
    (p.enterState state maxGas).Refilled env a (p.currentState.nonce a) txs

/-- What a pool with the head `state` holds: transactions with a successor that are not too old. -/
def Sound (state : AccountState) (tx : Transaction) : Prop :=
  HasSuccessor tx ∧ state.nonce tx.addr ≤ tx.nonce

/-- The nonce of the account goes back below its pending transactions, and none is reinjected for
it. -/
structure Stuck (p : TxPool) (state : AccountState) (txs : List Transaction) (a : Address) :
    Prop where
  back : state.nonce a < p.currentState.nonce a
  none : ∀ tx ∈ txs, tx.addr = a → tx.nonce ≠ state.nonce a

/-- What the pool holds under a new head: no stuck account gets a transaction for its nonce. -/
def Entering (p : TxPool) (state : AccountState) (txs : List Transaction) (tx : Transaction) :
    Prop := HasSuccessor tx ∧ (p.Stuck state txs tx.addr → tx.nonce ≠ state.nonce tx.addr)

section Reset

variable {state : AccountState} {maxGas : ℤ} {txs : List Transaction}

variable (hw : p.Within (Sound p.currentState))
include hw

theorem enterState_within : (p.enterState state maxGas).Within (p.Entering state txs) := by
  refine ⟨{ hw.slotted with },
    fun a tx htx => ?_⟩
  obtain ⟨hsucc, hge⟩ := hw.held a tx htx
  refine ⟨hsucc, fun hstuck => ?_⟩
  have := hstuck.back
  omega

omit hw in
theorem entering_of_mem (hre : p.Rejoins env state maxGas txs) :
    ∀ tx ∈ txs, p.Entering state txs tx := fun tx htx =>
  ⟨hre.1 tx htx, fun hstuck => hstuck.none tx htx rfl⟩

theorem addTxs_open (ho : p.Orderly a) (hre : p.Rejoins env state maxGas txs) :
    ((p.enterState state maxGas).addTxs env txs false).Open a := by
  have hw₀ : (p.enterState state maxGas).Within (p.Entering state txs) := enterState_within hw
  have hT : ∀ tx ∈ txs, (p.enterState state maxGas).currentState.nonce tx.addr ≤ tx.nonce →
      p.Entering state txs tx := fun tx htx _ => entering_of_mem hre tx htx
  have he : Evolves (p.Entering state txs) (p.enterState state maxGas)
      ((p.enterState state maxGas).addTxs env txs false) := addTxs_evolves txs false hT hw₀
  obtain ⟨k, -, hpends⟩ := ho.pends
  by_cases hforward : k = 0 ∨ p.currentState.nonce a ≤ state.nonce a
  · -- the list only loses transactions that are too old
    obtain ⟨k', hk'⟩ : ∃ k', ∀ m, state.nonce a ≤ m →
        (p.currentState.nonce a ≤ m ∧ m < p.currentState.nonce a + k ↔ m < state.nonce a + k') := by
      rcases hforward with rfl | hforward
      · exact ⟨0, fun m hm => by omega⟩
      · exact ⟨p.currentState.nonce a + k - state.nonce a, fun m hm => by omega⟩
    refine .inl (he.aligned ⟨k', fun m hm => (hpends m).trans (hk' m hm), ?_, ?_⟩)
    · exact le_add_right _ _
    · intro tx _ hle hlt
      exact absurd hlt (not_lt.mpr hle)
  · have hback : state.nonce a < p.currentState.nonce a := by omega
    have hne : p.pending.txs a ≠ [] := by
      obtain ⟨u, hu, -⟩ := (hpends (p.currentState.nonce a)).mpr (by omega)
      exact ne_nil_of_mem hu
    rcases hre.2 a hne with h | hnone | hfill
    · omega
    · refine .inr (he.keeps (I := fun q => q.currentState = state ∧ q.Blocked a)
        (fun q q' hq hc hI => ⟨hc.state.trans hI.1, hI.2.changed (fun tx htx => ?_) hc.state
          (hc.change a)⟩) ⟨rfl, fun tx htx => ?_, le_refl _⟩).2
      · have haddr := hq.slotted.addr_eq htx
        have hstuck := (hq.held a tx htx).2
        rw [haddr] at hstuck
        rw [hI.1]
        exact hstuck ⟨hback, hnone⟩
      · have := (hpends tx.nonce).mp ⟨tx, htx, rfl⟩
        change tx.nonce ≠ state.nonce a
        omega
    · refine .inl (addTxs_refilled hT hw₀ hback (k := k) (by omega) rfl hpends
        (fun u hu => ?_) hfill)
      have hheld : u ∈ p.held [] a := mem_held.mpr (.inr (.inl hu))
      have hge := (hw.held a u hheld).2
      rwa [hw.slotted.addr_eq hheld] at hge

/-- **A reset keeps the accounts orderly.** -/
theorem resetTo_orderly (ho : ∀ a, p.Orderly a) (hre : p.Rejoins env state maxGas txs) :
    (p.resetTo env state maxGas txs).Within (Sound (p.resetTo env state maxGas txs).currentState) ∧
      ∀ a, (p.resetTo env state maxGas txs).Orderly a := by
  have hsucc : ∀ tx, p.Entering state txs tx → HasSuccessor tx := fun _ h => h.1
  have hw₀ : (p.enterState state maxGas).Within (p.Entering state txs) := enterState_within hw
  have hw₁ : ((p.enterState state maxGas).addTxs env txs false).Within (p.Entering state txs) :=
    (addTxs_evolves txs false (fun tx htx _ => entering_of_mem hre tx htx) hw₀).within hw₀
  have hopen := fun a => addTxs_open hw (ho a) hre
  unfold resetTo
  generalize (p.enterState state maxGas).addTxs env txs false = q₁ at hw₁ hopen
  have hmoves : Moves env (admitting (p.Entering state txs)) (q₁, [])
      (q₁.demoteUnexecutables env, []) := demoteUnexecutables_moves hw₁.slotted fun _ _ => trivial
  have hw₂ := hmoves.within hw₁
  have hset : ∀ a, ∃ k, (q₁.demoteUnexecutables env).Settled a k := fun a =>
    demoteUnexecutables_settled hw₁ (hopen a)
  generalize q₁.demoteUnexecutables env = q₂ at hw₂ hset
  have ho₃ : ∀ a, q₂.restoreNonces.Orderly a := by
    intro a
    obtain ⟨k, hk⟩ := hset a
    obtain ⟨haligned, hcovered⟩ := hk.restored fun tx htx => (hw₂.held a tx htx).1
    exact ⟨⟨k, haligned⟩, hcovered⟩
  have hw₃ : q₂.restoreNonces.Within (p.Entering state txs) := ⟨{ hw₂.slotted with }, hw₂.held⟩
  generalize q₂.restoreNonces = q₃ at ho₃ hw₃
  have he : Evolves (p.Entering state txs) q₃ (q₃.promoteExecutables env none) :=
    promoteExecutables_evolves none hw₃
  refine ⟨⟨(he.within hw₃).slotted, fun a tx htx => ?_⟩, fun a => he.orderly hsucc (ho₃ a)⟩
  refine ⟨((he.within hw₃).held a tx htx).1, ?_⟩
  rw [(he.within hw₃).slotted.addr_eq htx]
  exact promoteExecutables_current hsucc hw₃ (ho₃ a) tx htx

end Reset

/-! ## Runs -/

/-- The nonces follow that of the account, are payable and not queued; the virtual nonce is next. -/
def Executable (p : TxPool) : Prop :=
  ∀ a, p.pending.txs a ≠ [] →
    (p.pending.txs a).map Transaction.nonce =
      List.range' (p.currentState.nonce a) (p.pending.txs a).length ∧
    (∀ tx ∈ p.pending.txs a, tx.cost ≤ p.currentState.balance a ∧ tx.gasLimit ≤ p.currentMaxGas) ∧
    (∀ tx ∈ p.queue.txs a, tx.nonce ∉ (p.pending.txs a).map Transaction.nonce) ∧
    ∃ last, (p.pending.txs a).getLast? = some last ∧ p.pendingNonce a = last.nonce + 1

theorem executable_of_orderly (hs : p.Slotted []) (ho : ∀ a, p.Orderly a) : p.Executable := by
  intro a hne
  obtain ⟨k, hk, hpends⟩ := (ho a).pends
  have hmap : (p.pending.txs a).map nonce = range' (p.currentState.nonce a) k := by
    refine List.Pairwise.eq_of_mem_iff (r := fun m n : ℕ => m < n)
      (pairwise_map.mpr (p.pending_sorted a)) pairwise_lt_range' fun m => ?_
    rw [mem_map, mem_range'_1]
    exact hpends m
  have hlen : (p.pending.txs a).length = k := by
    rw [← length_map (f := nonce), hmap, length_range']
  refine ⟨by rw [hlen, hmap], fun tx htx => ?_, fun tx htx hmem => ?_, ?_⟩
  · have hpay := (ho a).payable htx
    rw [exceeds, decide_eq_false_iff_not, not_or, not_lt, not_lt] at hpay
    exact hpay
  · obtain ⟨u, hu, hun⟩ := mem_map.mp hmem
    exact hs.pending_ne_queue hu htx hun
  · obtain ⟨last, hlast⟩ := Option.ne_none_iff_exists'.mp fun h => hne (getLast?_eq_none_iff.mp h)
    have hmem := mem_of_getLast? hlast
    obtain ⟨top, htop, htn⟩ := (hpends (p.currentState.nonce a + k - 1)).mpr (by
      have := (hpends last.nonce).mp ⟨last, hmem, rfl⟩
      omega)
    have hle := nonce_le_getLast hlast htop
    have hcov := (ho a).covered last hmem
    have hlow := hk.low
    exact ⟨last, hlast, by omega⟩

variable (env) in
/-- No transaction has the last nonce, and a reset keeps or rejoins the pending lists. -/
def Smooth (p : TxPool) : Op → Prop
  | .addTx tx _ => HasSuccessor tx
  | .addTxs txs _ => ∀ tx ∈ txs, HasSuccessor tx
  | .reset chain oldHead newHead => ∀ state, chain.stateAt newHead = some state →
      ∀ txs, (oldHead.elim (.reinject []) fun oldHead => walk chain oldHead newHead) =
        .reinject txs → p.Rejoins env state newHead.gasLimit txs
  | .chainHead chain oldHead newHead => ∀ state, chain.stateAt newHead = some state →
      ∀ txs, walk chain oldHead newHead = .reinject txs →
        ({ p with pangu := p.pangu || env.params.isPangu newHead.number } : TxPool).Rejoins
          env state
          newHead.gasLimit txs
  | _ => True

/-- What a smooth operation keeps: the pool holds sound transactions, and its accounts
are orderly. -/
structure Tidy (p : TxPool) : Prop where
  within : p.Within (Sound p.currentState)
  orderly : ∀ a, p.Orderly a

theorem Evolves.tidy (h : Evolves (Sound p.currentState) p p') (ht : p.Tidy) : p'.Tidy := by
  refine ⟨?_, fun a => h.orderly (fun _ hsound => hsound.1) (ht.orderly a)⟩
  rw [h.state]
  exact h.within ht.within

theorem reset_tidy {chain : PoolChain} {oldHead : Option PoolBlock} {newHead : PoolBlock}
    (ht : p.Tidy) (hok : ∀ state, chain.stateAt newHead = some state →
      ∀ txs, (oldHead.elim (.reinject []) fun oldHead => walk chain oldHead newHead) =
        .reinject txs → p.Rejoins env state newHead.gasLimit txs)
    (h : p.reset env chain oldHead newHead = some p') : p'.Tidy := by
  unfold reset at h
  split at h
  · cases h
  · cases h
    exact ht
  · rename_i txs hwalk
    cases h
    split
    · exact ht
    · rename_i state hstate
      obtain ⟨hw, ho⟩ := resetTo_orderly ht.within ht.orderly (hok state hstate txs hwalk)
      exact ⟨hw, ho⟩

theorem step_tidy {op : Op} (ht : p.Tidy) (hok : p.Smooth env op) (h : p.step env op = some p') :
    p'.Tidy := by
  have hsucc : ∀ tx, Sound p.currentState tx → HasSuccessor tx := fun _ hsound => hsound.1
  cases op with
  | addTx tx isLocal =>
    cases h
    exact (addTx_evolves (fun hvalid => ⟨hok, (fits_of_valid hvalid).nonce⟩) ht.within).tidy ht
  | addTxs txs isLocal =>
    cases h
    exact (addTxs_evolves txs isLocal (fun tx htx hn => ⟨hok tx htx, hn⟩) ht.within).tidy ht
  | removeTx tx =>
    cases h
    exact (removeTx_evolves ht.within).tidy ht
  | setGasPrice price =>
    cases h
    exact (setGasPrice_evolves price ht.within).tidy ht
  | promoteExecutables accounts =>
    cases h
    exact (promoteExecutables_evolves accounts ht.within).tidy ht
  | demoteUnexecutables =>
    cases h
    exact (demoteUnexecutables_evolves hsucc ht.within ht.orderly).tidy ht
  | reset chain oldHead newHead => exact reset_tidy ht hok h
  | chainHead chain oldHead newHead =>
    have ht' : ({ p with
        pangu := p.pangu || env.params.isPangu newHead.number } : TxPool).Tidy := by
      refine ⟨⟨{ ht.within.slotted with }, ht.within.held⟩, fun a => ?_⟩
      obtain ⟨⟨k, hk⟩, hcov⟩ := ht.orderly a
      exact ⟨⟨k, hk.slots, hk.low, hk.payable⟩, hcov⟩
    refine reset_tidy ht' (fun state hstate txs hwalk => ?_) h
    exact hok state hstate txs hwalk
  | evict =>
    cases h
    exact (evict_evolves ht.within).tidy ht

theorem new_tidy (env : PoolEnv) : (new env).Tidy := by
  refine ⟨⟨new_slotted env, fun a tx h => ?_⟩, fun a => ⟨⟨0, fun m _ => ⟨?_, fun hlt => ?_⟩,
    le_refl _, nofun⟩, nofun⟩⟩
  · rcases mem_held.mp h with h | h | ⟨h, -⟩ <;> cases h
  · rintro ⟨u, hu, -⟩
    cases hu
  · omega

/-- **Pending lists stay executable.** -/
theorem pool_executable (env : PoolEnv) {ops : List Op} {p : TxPool}
    (hrun : run (step env) (new env) ops = some p)
    (hok : Along (step env) (Smooth env) (new env) ops) : p.Executable := by
  have ht : p.Tidy := run_invariant_along (I := fun q : TxPool => q.Tidy)
    (fun _ _ _ hq hop hstep => step_tidy hq hop hstep) (new_tidy env) hok hrun
  exact executable_of_orderly ht.within.slotted ht.orderly

/-! ## A gap behind the front -/

def sampleBlock (id : UInt8) (txs : List Transaction) : PoolBlock where
  hash := .fill id
  parentHash := sampleHead.hash
  number := 1
  gasLimit := 1000
  transactions := txs

def forkedChain (txs : List Transaction) : PoolChain where
  getBlock := fun hash number => [sampleHead, sampleBlock 1 txs, sampleBlock 2 []].find? fun b =>
    decide (b.hash = hash ∧ b.number = number)
  stateAt := fun b =>
    some ⟨fun _ => if b.hash = (sampleBlock 1 []).hash then 5 else 3, fun _ => 1000⟩
  txDifference := List.removeAll
  mem_txDifference := mem_removeAll
  number_eq := by
    intro hash number b h
    have hb : decide (b.hash = hash ∧ b.number = number) = true := by simpa using find?_some h
    exact (of_decide_eq_true hb).2

def reorganized (txs : List Transaction) : List Op :=
  [.reset (forkedChain txs) none (sampleBlock 1 txs), .addTx (sampleTx 5 5) false,
    .addTx (sampleTx 6 5) false,
    .reset (forkedChain txs) (some (sampleBlock 1 txs)) (sampleBlock 2 [])]

/-- **A pending list has a gap**: of two reinjected transactions the second is too cheap. -/
theorem pool_gap : ∃ p, run (step sampleEnv) (new sampleEnv)
    (reorganized [sampleTx 3 5, sampleTx 4 0]) = some p ∧ ¬ p.Executable := by
  refine exists_run (by decide +kernel) fun _ hexec => ?_
  exact absurd (hexec someAccount (by decide +kernel)).1 (by decide +kernel)

/-- The account need not wait for a transaction: its nonce does not go back, or every nonce up to
its pending list is reinjected. -/
def continues (p : TxPool) (state : AccountState) (maxGas : ℤ) (txs : List Transaction)
    (a : Address) : Bool :=
  decide (p.currentState.nonce a ≤ state.nonce a) ||
    (decide (txs.Nodup) && decide (p.all.list.length + txs.length ≤ capacity sampleEnv) &&
      (List.range' (state.nonce a) (p.currentState.nonce a - state.nonce a)).all fun i =>
        txs.any fun tx => decide (tx.addr = a ∧ tx.nonce = i ∧ tx ∉ p.all ∧
          (p.enterState state maxGas).validateTx sampleEnv tx false = none))

def regular (p : TxPool) : Op → Bool
  | .addTx tx _ => decide (tx.nonce + 1 < Word64.size)
  | .reset chain oldHead newHead =>
    match chain.stateAt newHead, oldHead.elim (.reinject []) fun oldHead =>
        walk chain oldHead newHead with
    | some state, .reinject txs => (txs.all fun tx => decide (tx.nonce + 1 < Word64.size)) &&
        p.pending.keys.all (p.continues state newHead.gasLimit txs)
    | _, _ => false
  | _ => false

theorem refilled_of_continues {state : AccountState} {maxGas : ℤ} {txs : List Transaction}
    (h : p.continues state maxGas txs a = true) : p.currentState.nonce a ≤ state.nonce a ∨
      (p.enterState state maxGas).Refilled sampleEnv a (p.currentState.nonce a) txs := by
  simp only [continues, Bool.or_eq_true, Bool.and_eq_true, decide_eq_true_eq, all_eq_true,
    any_eq_true, mem_range'_1] at h
  refine h.imp_right fun ⟨⟨hnd, hroom⟩, hcovers⟩ => ⟨hnd, hroom, fun i hle hlt => ?_⟩
  have hle : state.nonce a ≤ i := hle
  obtain ⟨tx, htx, ha, hn, hnew, hvalid⟩ := hcovers i ⟨hle, by omega⟩
  -- the sample pool does not look at the number of the head block
  exact ⟨tx, htx, ha, hn, hnew, fun _ => hvalid⟩

theorem smooth_of_regular (p : TxPool) (op : Op) (h : regular p op = true) :
    p.Smooth sampleEnv op := by
  cases op with
  | addTx tx isLocal => exact (decide_eq_true_eq (p := tx.nonce + 1 < Word64.size)).mp h
  | reset chain oldHead newHead =>
    intro state hstate txs hwalk
    simp only [regular, hstate, hwalk, Bool.and_eq_true, all_eq_true, decide_eq_true_eq] at h
    refine ⟨h.1, fun a hne => ?_⟩
    have ha : a ∈ p.pending.keys := by
      by_contra hnot
      exact hne (TxLists.txs_of_none (lookup_eq_none.mpr fun h => hnot (mem_keys.mp h)))
    exact (refilled_of_continues (h.2 a ha)).imp_right .inr
  | _ => exact absurd h Bool.false_ne_true

/-- Both reinjected transactions are taken: the pending list starts with the new nonce of the
account. -/
theorem pool_executable_refilled : ∃ p, run (step sampleEnv) (new sampleEnv)
    (reorganized [sampleTx 3 5, sampleTx 4 5]) = some p ∧
      (p.pending.txs someAccount).map Transaction.nonce = [3, 4, 5, 6] ∧ p.Executable :=
  exists_run (by decide +kernel) fun hrun => ⟨by decide +kernel,
    pool_executable sampleEnv hrun (.mono smooth_of_regular (by decide +kernel))⟩

/-! ## What holds in all runs -/

theorem resetTo_anyone {state : AccountState} {maxGas : ℤ} {txs : List Transaction}
    (hw : p.Within anyone) : (p.resetTo env state maxGas txs).Within anyone := by
  have hw' : (p.enterState state maxGas).Within anyone := ⟨{ hw.slotted with }, hw.held⟩
  have hadd : ((p.enterState state maxGas).addTxs env txs false).Within anyone :=
    (addTxs_evolves txs false (fun _ _ _ => trivial) hw').within hw'
  have hdemote : Moves env (admitting anyone) _ _ :=
    demoteUnexecutables_moves hadd.slotted fun _ _ => trivial
  have hrestore := (hdemote.trans restoreNonces_moves).within hadd
  exact (promoteExecutables_evolves none hrestore).within hrestore

theorem reset_anyone {chain : PoolChain} {oldHead : Option PoolBlock} {newHead : PoolBlock}
    (hw : p.Within anyone) (h : p.reset env chain oldHead newHead = some p') :
    p'.Within anyone := by
  unfold reset at h
  split at h
  · cases h
  · cases h
    exact hw
  · cases h
    split
    · exact hw
    · exact resetTo_anyone hw

theorem step_anyone {op : Op} (hw : p.Within anyone) (h : p.step env op = some p') :
    p'.Within anyone := by
  cases op with
  | addTx tx isLocal =>
    cases h
    exact (addTx_evolves (fun _ => trivial) hw).within hw
  | addTxs txs isLocal =>
    cases h
    exact (addTxs_evolves txs isLocal (fun _ _ _ => trivial) hw).within hw
  | removeTx tx =>
    cases h
    exact removeTx_within hw
  | setGasPrice price =>
    cases h
    exact (setGasPrice_evolves price hw).within hw
  | promoteExecutables accounts =>
    cases h
    exact (promoteExecutables_evolves accounts hw).within hw
  | demoteUnexecutables =>
    cases h
    have hmoves : Moves env (admitting anyone) (p, []) (p.demoteUnexecutables env, []) :=
      demoteUnexecutables_moves hw.slotted fun _ _ => trivial
    exact hmoves.within hw
  | reset chain oldHead newHead => exact reset_anyone hw h
  | chainHead chain oldHead newHead =>
    have hpangu : ({ p with
        pangu := p.pangu || env.params.isPangu newHead.number } : TxPool).Within anyone :=
      ⟨{ hw.slotted with }, hw.held⟩
    exact reset_anyone hpangu h
  | evict =>
    cases h
    exact (evict_evolves hw).within hw

theorem run_anyone {ops : List Op} (hrun : run (step env) (new env) ops = some p) :
    p.Within anyone :=
  run_invariant (I := fun q : TxPool => q.Within anyone)
    (fun _ _ _ hq hstep => step_anyone hq hstep) ⟨new_slotted env, fun _ _ _ => trivial⟩ hrun

/-- **In every run** an account has its own transactions only, none of them twice, and one for each
nonce; all of them are in `all`. -/
theorem pool_slotted (env : PoolEnv) {ops : List Op} {p : TxPool}
    (hrun : run (step env) (new env) ops = some p) : p.Slotted [] := (run_anyone hrun).slotted

theorem pool_slotted_leaking : ∃ p, run (step sampleEnv) (new sampleEnv)
    [.reset sampleChain none sampleHead, .addTx (sampleTx 0 1) false, .addTx (sampleTx 1 5) false,
      .setGasPrice 2] = some p ∧ p.Slotted [] :=
  exists_run (by decide +kernel) fun hrun => pool_slotted sampleEnv hrun

end TxPool

end XChain
