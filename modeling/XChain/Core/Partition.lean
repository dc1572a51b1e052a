import XChain.Core.Admission

/-!
# The pool and its lists

`all` is meant to be the disjoint union of the pending and the queued transactions.

* **`pool_leaks`**: it is not; when the first of several pending transactions of an account is
  removed, the list is dropped together with the later ones, which stay in `all`;
* **`pool_partitioned`**: it is as long as no such removal occurs.
-/

namespace XChain

namespace TxPool

open StepMachine GoMap List Nat TxLists Bool SamePending Moves Move GoText

/-- `all` is the disjoint union of the pending lists and the queued lists. -/
def Partitioned (p : TxPool) : Prop :=
  (∀ tx, tx ∈ p.all ↔ (∃ a, tx ∈ p.pending.txs a) ∨ ∃ a, tx ∈ p.queue.txs a) ∧
    ∀ tx a b, tx ∈ p.pending.txs a → tx ∉ p.queue.txs b

/-- If the transaction is pending with later ones, it has earlier ones too. -/
def Guarded (p : TxPool) (tx : Transaction) : Prop :=
  p.HasNonce tx → p.HasLater tx → p.HasEarlier tx

variable (env : PoolEnv)

/-- There is room for `n` transactions, or no remote account has two pending ones. -/
def Room (p : TxPool) (n : ℕ) : Prop :=
  n = 0 ∨ p.all.list.length + n ≤ capacity env ∨ ∀ a, a ∉ p.locals → (p.pending.txs a).length ≤ 1

/-- An operation that removes no first one of several pending transactions of an account. -/
def Harmless (p : TxPool) : Op → Prop
  | .addTx _ _ => p.Room env 1
  | .addTxs txs _ => p.Room env txs.length
  | .removeTx tx => p.Guarded tx
  | .setGasPrice price => ∀ a, a ∉ p.locals → ∀ tx ∈ p.pending.txs a, tx.gasPrice < price →
      p.Guarded tx
  | .promoteExecutables _ => True
  | .demoteUnexecutables => True
  | .reset chain oldHead newHead => ∀ txs, (oldHead.elim (.reinject []) fun oldHead =>
      walk chain oldHead newHead) = .reinject txs → p.Room env txs.length
  | .chainHead chain oldHead newHead => ∀ txs, walk chain oldHead newHead = .reinject txs →
      p.Room env txs.length
  | .evict => True

variable {env} {p p' : TxPool} {tx : Transaction} {txs : List Transaction}

theorem Slotted.partitioned (hs : p.Slotted []) (hc : p.Complete []) : p.Partitioned := by
  refine ⟨fun tx => ⟨fun htx => ?_, ?_⟩, fun tx a b hp hq => ?_⟩
  · obtain ⟨a, ha⟩ := hc tx htx
    rcases mem_held.mp ha with h | h | ⟨h, -⟩
    · exact .inl ⟨a, h⟩
    · exact .inr ⟨a, h⟩
    · cases h
  · rintro (⟨a, h⟩ | ⟨a, h⟩)
    · exact hs.known a tx (mem_held.mpr (.inl h))
    · exact hs.known a tx (mem_held.mpr (.inr (.inl h)))
  · have ha : tx.addr = a := hs.addr_eq (mem_held.mpr (.inl hp))
    have hb : tx.addr = b := hs.addr_eq (mem_held.mpr (.inr (.inl hq)))
    rw [← hb, ha] at hq
    exact hs.pending_ne_queue hp hq rfl

def noLeak (e : Event) : Prop := e ≠ .leak

/-! ## Removals -/

theorem Guarded.removal (hc : p.Complete []) (hs : p.Slotted []) (hall : tx ∈ p.all)
    (hg : p.Guarded tx) : Removal noLeak p tx := by
  refine ⟨fun hph => ?_, fun hn hl he => absurd (hg hn hl) he, fun _ _ _ => nofun⟩
  obtain ⟨a, ha⟩ := hc tx hall
  exact absurd ha (hph.not_held hs a)

theorem removeTx_of_not_mem (h : tx ∉ p.all) : p.removeTx env tx = p := if_neg h

theorem Guarded.of_truncated {u : Transaction} (ht : Truncated p p' tx) (hg : p.Guarded u) :
    p'.Guarded u := by
  rcases ht.pending with ⟨hp, -⟩ | ⟨-, -, hself, hother⟩
  · rw [Guarded, HasNonce, HasLater, HasEarlier, hp]
    exact hg
  · by_cases ha : u.addr = tx.addr
    · rintro ⟨w, hw, hwn⟩ ⟨v, hv, hvn⟩
      rw [ha, hself, mem_filter, decide_eq_true_eq] at hw hv
      obtain ⟨e, he, hen⟩ := hg ⟨w, ha ▸ hw.1, hwn⟩ ⟨v, ha ▸ hv.1, hvn⟩
      refine ⟨e, ?_, hen⟩
      rw [ha, hself, mem_filter, decide_eq_true_eq]
      exact ⟨ha ▸ he, by omega⟩
    · rw [Guarded, HasNonce, HasLater, HasEarlier, hother _ ha]
      exact hg

theorem removeTx_noLeak (hs : p.Slotted []) (hc : p.Complete []) (hg : p.Guarded tx) :
    Moves env noLeak (p, []) (p.removeTx env tx, []) := by
  by_cases hall : tx ∈ p.all
  · exact removeTx_moves hs (hg.removal hc hs hall)
  · rw [removeTx_of_not_mem hall]
    exact refl _

theorem removeAll_noLeak (out : List Transaction) (hs : p.Slotted []) (hc : p.Complete [])
    (hg : ∀ tx ∈ out, p.Guarded tx) :
    Moves env noLeak (p, []) (out.foldl (removeTx env) p, []) := by
  induction out generalizing p with
  | nil => exact refl _
  | cons tx out ih =>
    have h : Moves env noLeak (p, []) (p.removeTx env tx, []) :=
      removeTx_noLeak hs hc (hg tx mem_cons_self)
    refine h.trans (ih (h.slotted hs) (h.complete (fun hl => hl rfl) hc) fun u hu => ?_)
    exact (hg u (mem_cons_of_mem _ hu)).of_truncated (removeTx_truncated hs.kinds tx)

/-! ## Room -/

theorem guarded_of_length (h : (p.pending.txs tx.addr).length ≤ 1) : p.Guarded tx := by
  rintro ⟨u, hu, hun⟩ ⟨v, hv, hvn⟩
  match hl : p.pending.txs tx.addr, h with
  | [], _ =>
    rw [hl] at hu
    cases hu
  | [w], _ =>
    rw [hl, mem_singleton] at hu hv
    rw [hu] at hun
    rw [hv] at hvn
    omega

/-- No pending list has grown. -/
structure Shrinks (p p' : TxPool) : Prop where
  length_le : ∀ a, (p'.pending.txs a).length ≤ (p.pending.txs a).length
  locals : p.locals ⊆ p'.locals

theorem Shrinks.trans {p p' p'' : TxPool} (h : Shrinks p p') (h' : Shrinks p' p'') :
    Shrinks p p'' :=
  ⟨fun a => (h'.length_le a).trans (h.length_le a), h.locals.trans h'.locals⟩

theorem SamePending.shrinks (h : SamePending p p') : Shrinks p p' :=
  ⟨fun a => by rw [h.pending], by rw [h.locals]⟩

theorem Truncated.shrinks (h : Truncated p p' tx) : Shrinks p p' := by
  refine ⟨fun a => ?_, by rw [h.locals]⟩
  rcases h.pending with ⟨hp, -⟩ | ⟨-, -, hself, hother⟩
  · rw [hp]
  · by_cases ha : a = tx.addr
    · rw [ha, hself]
      exact length_filter_le _ _
    · rw [hother a ha]

theorem removeAll_shrinks (out : List Transaction) (hs : p.Slotted []) :
    Shrinks p (out.foldl (removeTx env) p) := by
  induction out generalizing p with
  | nil => exact (refl p).shrinks
  | cons tx out ih =>
    exact (removeTx_truncated hs.kinds tx).shrinks.trans (ih (removeTx_slotted hs))

theorem place_shrinks (p : TxPool) (tx : Transaction) (isLocal : Bool) :
    Shrinks p (p.place env tx isLocal).1 ∧
      (p.place env tx isLocal).1.all.list.length ≤ p.all.list.length + 1 := by
  have hold : ∀ (q : TxPool) (old : Option Transaction),
      ((q.deleteOld env old).insertTx tx).all.list.length ≤ q.all.list.length + 1 := by
    intro q old
    refine (TxSet.length_insert_le _ tx).trans (succ_le_succ ?_)
    cases old with
    | none => exact le_refl _
    | some o => exact TxSet.length_erase_le _ o
  unfold place
  split
  · rename_i l hl
    obtain ⟨hl, hover⟩ := Option.filter_eq_some_iff.mp hl
    split
    · exact ⟨(refl p).shrinks, le_succ _⟩
    · rename_i old l' hadd
      refine ⟨⟨fun a => ?_, ?_⟩, hold (p.setPending tx.addr l') old⟩
      · have hsame : SamePending (p.setPending tx.addr l')
            (((p.setPending tx.addr l').deleteOld env old).insertTx tx) :=
          (deleteOld_same _ old).trans ⟨⟨rfl, rfl⟩, rfl, rfl, rfl⟩
        rw [hsame.pending]
        change (txs (p.pending.insert tx.addr l') a).length ≤ _
        by_cases ha : a = tx.addr
        · -- the slot was taken, so the list keeps its length
          obtain ⟨h₁, h₂⟩ := TxList.add_perm hadd
          obtain ⟨-, hget, -⟩ := TxList.mem_of_add hadd
          have hsome : old.isSome = true := by
            rw [hget]
            exact hover
          obtain ⟨o, rfl⟩ := Option.isSome_iff_exists.mp hsome
          rw [ha, txs_insert_self, txs_of_lookup hl, h₁.length_eq, h₂.length_eq]
          exact le_refl _
        · rw [txs_insert_ne ha]
      · cases old with
        | none | some o => exact subset_rfl
  · split
    · exact ⟨(refl p).shrinks, le_succ _⟩
    · rename_i replace p₁ henq
      have hsame := enqueueTx_same henq
      refine ⟨⟨fun a => ?_, ?_⟩, ?_⟩
      · rw [hsame.pending]
      · intro a ha
        have ha₁ : a ∈ p₁.locals := by rwa [hsame.locals]
        split
        · exact Finset.mem_insert_of_mem ha₁
        · exact ha₁
      · unfold enqueueTx at henq
        split at henq
        · cases henq
        · rename_i old l' _
          cases henq
          exact hold (p.setQueue tx.addr l') old

variable (hs : p.Slotted [])
include hs

theorem add_shrinks (tx : Transaction) (isLocal : Bool) : Shrinks p (p.add env tx isLocal).1 := by
  have hpriced : ∀ priced, Shrinks p { p with priced := priced } := fun priced =>
    ⟨fun _ => le_refl _, subset_rfl⟩
  have hadded : Added env p tx isLocal (p.add env tx isLocal).1 := add_added p tx isLocal
  generalize (p.add env tx isLocal).1 = q at hadded ⊢
  cases hadded with
  | refused => exact (refl p).shrinks
  | underpriced priced hcap => exact hpriced priced
  | placed hnew hvalid hroom => exact (place_shrinks p tx isLocal).1
  | evicted priced out hnew hvalid hcap hout =>
    exact ((hpriced priced).trans (removeAll_shrinks out (hs.withPriced priced))).trans
      (place_shrinks _ tx isLocal).1

omit hs in
theorem add_length_le (hroom : p.all.list.length < capacity env) (tx : Transaction)
    (isLocal : Bool) : (p.add env tx isLocal).1.all.list.length ≤ p.all.list.length + 1 := by
  have hadded : Added env p tx isLocal (p.add env tx isLocal).1 := add_added p tx isLocal
  generalize (p.add env tx isLocal).1 = q at hadded ⊢
  cases hadded with
  | refused | underpriced priced hcap => exact le_succ _
  | placed hnew hvalid hroom => exact (place_shrinks p tx isLocal).2
  | evicted priced out hnew hvalid hcap hout => exact absurd hroom (not_lt.mpr hcap)

variable (hc : p.Complete [])
include hc

theorem evictable_of_short (hshort : ∀ a, a ∉ p.locals → (p.pending.txs a).length ≤ 1) :
    Evictable env noLeak p := by
  refine ⟨nofun, nofun, fun priced out hout => ?_⟩
  refine removeAll_noLeak out (hs.withPriced priced) hc fun u hu => ?_
  obtain ⟨hall, hremote⟩ := hout u hu
  obtain ⟨a, ha⟩ := hc u hall
  refine guarded_of_length (hshort u.addr fun hlocal => ?_)
  rw [isLocalTx, hs.own a u ha, ← hs.addr_eq ha] at hremote
  simp [hlocal] at hremote

theorem add_noLeak {n : ℕ} (hroom : p.Room env (n + 1)) (tx : Transaction) (isLocal : Bool) :
    Moves env noLeak (p, []) ((p.add env tx isLocal).1, []) ∧
      (p.add env tx isLocal).1.Room env n := by
  rcases hroom with h | h | h
  · exact absurd h (succ_ne_zero n)
  · have hlt : p.all.list.length < capacity env := by omega
    refine ⟨add_moves hs (fun _ => nofun) (fun _ => nofun) fun hfull =>
      absurd hlt (not_lt.mpr hfull), .inr (.inl ?_)⟩
    have := add_length_le hlt tx isLocal
    omega
  · refine ⟨add_moves hs (fun _ => nofun) (fun _ => nofun) fun _ => evictable_of_short hs hc h,
      .inr (.inr fun a ha => ?_)⟩
    have hsh : Shrinks p (p.add env tx isLocal).1 := add_shrinks hs tx isLocal
    exact (hsh.length_le a).trans (h a fun hl => ha (hsh.locals hl))

theorem addAll_noLeak {isLocal : Bool} (hroom : p.Room env txs.length) (dirty : List Address) :
    Moves env noLeak (p, []) ((addAll env isLocal txs p dirty).1, []) := by
  refine (addAll_keeps_pool (C := fun rest q => Moves env noLeak (p, []) (q, []) ∧
    q.Room env rest.length) (fun tx rest q hC => ?_) txs dirty ⟨refl _, hroom⟩).1
  obtain ⟨hmoves, hroom'⟩ := add_noLeak (hC.1.slotted hs) (hC.1.complete (fun hl => hl rfl) hc)
    hC.2 tx isLocal
  exact ⟨hC.1.trans hmoves, hroom'⟩

theorem resetTo_noLeak {state : AccountState} {maxGas : ℤ} (hroom : p.Room env txs.length) :
    Moves env noLeak (p, []) (p.resetTo env state maxGas txs, []) := by
  have hs' : (p.enterState state maxGas).Slotted [] := { hs with }
  exact resetTo_moves hs (addTxs_moves hs' (addAll_noLeak hs' hc hroom [])) fun _ _ => nofun

theorem setGasPrice_noLeak {price : ℤ}
    (hok : ∀ a, a ∉ p.locals → ∀ tx ∈ p.pending.txs a, tx.gasPrice < price → p.Guarded tx) :
    Moves env noLeak (p, []) (p.setGasPrice env price, []) := by
  have hspec : PricedList.DropSpec p.isPooled p.isLocalTx (fun tx => tx.gasPrice < price) p.priced
      (p.priced.cap p.isPooled p.isLocalTx price) := PricedList.cap_spec _ _
  unfold setGasPrice
  generalize p.priced.cap p.isPooled p.isLocalTx price = res at hspec ⊢
  obtain ⟨drop, priced⟩ := res
  simp only
  have hpop : Moves env noLeak (p, []) ({ p with gasPrice := price, priced := priced }, []) := by
    refine (pop p priced [] nofun).moves.trans (moves ?_)
    apply idle <;> rfl
  refine hpop.trans (removeAll_noLeak drop (hpop.slotted hs) hc fun tx htx hn => ?_)
  obtain ⟨hpooled, hremote, hprice⟩ := hspec.drop tx htx
  obtain ⟨a, ha⟩ := hc tx (of_decide_eq_true hpooled)
  have haddr := hs.addr_eq ha
  -- the entry with the nonce is the transaction itself
  obtain ⟨u, hu, hun⟩ := hn
  have hu : u ∈ p.pending.txs tx.addr := hu
  have hutx : u = tx := hs.nonce_inj (mem_held.mpr (.inl hu)) (haddr ▸ ha) hun
  have hlocal : tx.addr ∉ p.locals := by
    intro hl
    rw [isLocalTx, hs.own a tx ha, ← haddr] at hremote
    simp [hl] at hremote
  exact hok tx.addr hlocal tx (hutx ▸ hu) hprice ⟨u, hu, hun⟩

theorem reset_noLeak {chain : PoolChain} {oldHead : Option PoolBlock} {newHead : PoolBlock} (hroom :
      ∀ txs, (oldHead.elim (.reinject []) fun oldHead => walk chain oldHead newHead) = .reinject txs
      → p.Room env txs.length) (h : p.reset env chain oldHead newHead = some p') :
    Moves env noLeak (p, []) (p', []) := by
  unfold reset at h
  split at h
  · cases h
  · cases h
    exact refl _
  · rename_i txs hwalk
    cases h
    split
    · exact refl _
    · exact resetTo_noLeak hs hc (hroom txs hwalk)

theorem step_noLeak {op : Op} (hok : p.Harmless env op) (h : p.step env op = some p') :
    Moves env noLeak (p, []) (p', []) := by
  cases op with
  | addTx tx isLocal =>
    cases h
    exact addTx_moves hs (add_noLeak (n := 0) hs hc hok tx isLocal).1
  | addTxs txs isLocal =>
    cases h
    exact addTxs_moves hs (addAll_noLeak hs hc hok [])
  | removeTx tx =>
    cases h
    exact removeTx_noLeak hs hc hok
  | setGasPrice price =>
    cases h
    exact setGasPrice_noLeak hs hc hok
  | promoteExecutables accounts =>
    cases h
    exact promoteExecutables_moves accounts hs
  | demoteUnexecutables =>
    cases h
    exact demoteUnexecutables_moves hs fun _ _ => nofun
  | reset chain oldHead newHead => exact reset_noLeak hs hc hok h
  | chainHead chain oldHead newHead =>
    have hidle : Moves env noLeak (p, [])
        ({ p with pangu := p.pangu || env.params.isPangu newHead.number }, []) := by
      refine moves ?_
      apply idle <;> rfl
    have hroom : ∀ txs, ((some oldHead).elim (.reinject []) fun oldHead =>
        walk chain oldHead newHead) = .reinject txs → Room env { p with
          pangu := p.pangu || env.params.isPangu newHead.number } txs.length := hok
    exact hidle.trans (reset_noLeak (hidle.slotted hs) hc hroom h)
  | evict =>
    cases h
    exact evict_moves hs

omit hc

omit hs

theorem new_slotted (env : PoolEnv) : (new env).Slotted [] := by
  have hheld : ∀ a tx, tx ∉ (new env).held [] a := by
    intro a tx h
    rcases mem_held.mp h with h | h | ⟨h, -⟩ <;> cases h
  have hkinds : (new env).Kinds := by
    refine ⟨fun a l h => ?_, fun a l h => ?_⟩ <;> cases h
  exact ⟨hkinds, fun a tx h => absurd h (hheld a tx), fun _ => nodup_nil,
    fun a tx h => absurd h (hheld a tx)⟩

theorem new_complete (env : PoolEnv) : (new env).Complete [] := nofun

/-- **The pool is partitioned** into pending and queued transactions in harmless runs. -/
theorem pool_partitioned (env : PoolEnv) {ops : List Op} {p : TxPool}
    (hrun : run (step env) (new env) ops = some p)
    (hok : Along (step env) (Harmless env) (new env) ops) : p.Partitioned := by
  have hinv : p.Slotted [] ∧ p.Complete [] := by
    refine run_invariant_along (I := fun q : TxPool => q.Slotted [] ∧ q.Complete [])
      (fun q op q' hq hop hstep => ?_) ⟨new_slotted env, new_complete env⟩ hok hrun
    have hmoves : Moves env noLeak (q, []) (q', []) := step_noLeak hq.1 hq.2 hop hstep
    exact ⟨hmoves.slotted hq.1, hmoves.complete (fun hl => hl rfl) hq.2⟩
  exact hinv.1.partitioned hinv.2

/-! ## The first of several pending transactions is removed -/

def someAccount : Address := .fill 1

instance : NeZero 16 := ⟨by decide⟩

def sampleTx (nonce : Fin 16) (gasPrice : ℤ) : Transaction where
  sender := some someAccount
  nonce := nonce
  gasPrice := gasPrice
  gasLimit := 1
  value := 0
  size := 0
  isClassic := false
  chainId := 0
  data := []
  recipient := some someAccount
  signature := []
  nonce_lt := nonce.isLt.trans (by decide)

def sampleEnv : PoolEnv where
  config := ⟨1, 10, 4, 8, 4, 8, 10⟩
  params := ⟨fun _ => false, 1000, 5, 0, 0, 0, 0, 0⟩
  oracle := ⟨fun _ => Ranging.listed, fun _ => Ranging.listed, fun _ => 0, fun _ => 0⟩

theorem mem_removeAll (a b : List Transaction) (tx : Transaction) :
    tx ∈ a.removeAll b ↔ tx ∈ a ∧ tx ∉ b := by
  simp [List.removeAll]

def sampleChain : PoolChain where
  getBlock := fun _ _ => none
  stateAt := fun _ => some ⟨fun _ => 0, fun _ => 1000⟩
  txDifference := removeAll
  number_eq := fun _ _ _ h => nomatch h
  mem_txDifference := mem_removeAll

def sampleHead : PoolBlock where
  hash := .fill 0
  parentHash := .fill 0
  number := 0
  gasLimit := 1000
  transactions := []

/-- The transaction is in `all`, and no account has a list. -/
def leaked (tx : Transaction) (p : TxPool) : Bool :=
  decide (tx ∈ p.all) && p.pending.keys.isEmpty && p.queue.keys.isEmpty

theorem txs_of_keys {m : TxLists} (h : m.keys.isEmpty = true) (a : Address) : m.txs a = [] := by
  refine txs_of_none (AList.lookup_eq_none.mpr fun ha => ?_)
  rw [AList.mem_keys, isEmpty_iff.mp h] at ha
  cases ha

theorem not_partitioned_of_leaked (h : leaked tx p = true) : ¬ p.Partitioned := by
  simp only [leaked, and_eq_true, decide_eq_true_eq] at h
  rintro ⟨hall, -⟩
  rcases (hall tx).mp h.1.1 with ⟨a, ha⟩ | ⟨a, ha⟩
  · rw [txs_of_keys h.1.2] at ha
    cases ha
  · rw [txs_of_keys h.2] at ha
    cases ha

/-- **A transaction leaks**: the first of two pending ones is removed for its price. -/
theorem pool_leaks : ∃ p, run (step sampleEnv) (new sampleEnv)
    [.reset sampleChain none sampleHead, .addTx (sampleTx 0 1) false, .addTx (sampleTx 1 5) false,
      .setGasPrice 2] = some p ∧ ¬ p.Partitioned :=
  exists_run (by decide +kernel) fun _ =>
    not_partitioned_of_leaked (show leaked (sampleTx 1 5) _ = true by decide +kernel)

def roomy (p : TxPool) : Op → Bool
  | .reset _ none _ => true
  | .addTx _ _ => decide (p.all.list.length + 1 ≤ capacity sampleEnv)
  | _ => false

theorem harmless_of_roomy (p : TxPool) (op : Op) (h : roomy p op = true) :
    p.Harmless sampleEnv op := by
  cases op with
  | addTx tx isLocal => exact .inr (.inl (of_decide_eq_true h))
  | reset chain oldHead newHead =>
    cases oldHead with
    | none =>
      intro txs htxs
      cases htxs
      exact .inl rfl
    | some _ => exact absurd h false_ne_true
  | _ => exact absurd h false_ne_true

/-- Two transactions of one account are added; both are pooled. -/
theorem pool_partitioned_two : ∃ p, run (step sampleEnv) (new sampleEnv)
    [.reset sampleChain none sampleHead, .addTx (sampleTx 0 1) false,
      .addTx (sampleTx 1 5) false] = some p ∧ sampleTx 1 5 ∈ p.all ∧ p.Partitioned :=
  exists_run (by decide +kernel) fun hrun => ⟨by decide +kernel,
    pool_partitioned sampleEnv hrun (.mono harmless_of_roomy (by decide +kernel))⟩

end TxPool

end XChain
