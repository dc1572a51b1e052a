import XChain.Core.Partition
import XChain.Core.PendingView

/-!
# The heap of prices

`priced` is meant to have one entry for every transaction of `all`; the other entries are stale, and
`stales` counts them.

* **`heap_miscounts`**: a postponed transaction gets a second entry;
* **`heap_accounted`**: the heap is right as long as no pending transaction is postponed, none is
  evicted for its price, and none comes back while its old entry is in the heap.
-/

namespace XChain

open PricedList Bool Nat GoHeap GoText

namespace TxPool

open StepMachine GoMap List

/-- Every pooled transaction has one entry, and the other entries are counted. -/
structure Accounted (p : TxPool) : Prop where
  once : ∀ tx ∈ p.all, p.priced.items.toList.count tx = 1
  stales : p.priced.stales = p.priced.items.toList.countP fun tx => decide (tx ∉ p.all)

variable {env : PoolEnv} {p p' : TxPool} {tx u : Transaction} {a : Address}

theorem Accounted.mem_items (h : p.Accounted) (htx : tx ∈ p.all) : tx ∈ p.priced.items.toList := by
  refine count_pos_iff.mp ?_
  rw [h.once tx htx]
  exact one_pos

/-! ## Moves -/

theorem countP_erase {s : TxSet} (htx : tx ∈ s) (l : List Transaction) :
    (l.countP fun u => decide (u ∉ s.erase tx)) =
      (l.countP fun u => decide (u ∉ s)) + l.count tx := by
  induction l with
  | nil => rfl
  | cons u l ih =>
    rw [countP_cons, countP_cons, count_cons, ih]
    by_cases hu : u = tx
    · have hmem : u ∈ s := hu ▸ htx
      simp [hu, htx]
      omega
    · simp [hu]
      omega

theorem Accounted.deleteTx (h : p.Accounted) (htx : tx ∈ p.all) :
    (p.deleteTx env tx).Accounted := by
  have hgone : ∀ r, ((p.priced.removed r (p.all.erase tx).list).items.toList.countP fun u =>
      decide (u ∉ p.all.erase tx)) = (p.priced.removed r (p.all.erase tx).list).stales ∧
      ∀ u ∈ p.all.erase tx,
        (p.priced.removed r (p.all.erase tx).list).items.toList.count u = 1 := by
    intro r
    unfold removed
    split
    · refine ⟨?_, fun u hu => h.once u (TxSet.mem_erase.mp hu).1⟩
      have hst := h.stales
      have hcount := countP_erase htx p.priced.items.toList
      rw [h.once tx htx] at hcount
      simp only
      omega
    · -- the heap is built anew from what is left
      have hperm : (heapify less
          (r.visit (p.all.erase tx).list).toArray).toList.Perm (p.all.erase tx).list :=
        (heapify_perm _ _).trans (r.visit_perm _)
      refine ⟨?_, fun u hu => ?_⟩
      · have hzero : ((p.all.erase tx).list.countP fun u => decide (u ∉ p.all.erase tx)) = 0 :=
          countP_eq_zero.mpr fun u hu => by simpa using TxSet.mem_erase.mp hu
        simp only
        rw [hperm.countP_eq, hzero]
        rfl
      · simp only
        rw [hperm.count_eq]
        exact count_eq_one_of_mem (p.all.erase tx).nodup hu
  obtain ⟨hst, honce⟩ := hgone (env.oracle.transactions p.clock)
  exact ⟨honce, hst.symm⟩

theorem Accounted.insertTx (h : p.Accounted) (hnew : tx ∉ p.priced.items.toList) :
    (p.insertTx tx).Accounted := by
  have hperm := p.priced.put_perm tx
  refine ⟨fun u hu => ?_, ?_⟩
  · change (p.priced.put tx).items.toList.count u = 1
    rw [hperm.count_eq]
    rcases TxSet.mem_insert.mp hu with rfl | hu
    · rw [count_cons_self, count_eq_zero.mpr hnew]
    · rw [count_cons_of_ne, h.once u hu]
      rintro rfl
      exact hnew (h.mem_items hu)
  · change p.priced.stales = _
    rw [h.stales]
    refine congrArg Nat.cast ?_
    change _ = (p.priced.put tx).items.toList.countP fun u => decide (u ∉ p.all.insert tx)
    rw [hperm.countP_eq, countP_cons_of_neg (by simp)]
    refine countP_congr fun u hu => ?_
    have hne : u ≠ tx := fun he => hnew (he ▸ hu)
    simp [hne]

theorem Accounted.popStale {priced : PricedList} {out : List Transaction} (h : p.Accounted)
    (hout : ∀ tx ∈ out, tx ∉ p.all) (hstales : priced.stales = p.priced.stales - out.length)
    (hperm : p.priced.items.toList.Perm (out ++ priced.items.toList)) :
    ({ p with priced := priced } : TxPool).Accounted := by
  refine ⟨fun u hu => ?_, ?_⟩
  · have hcount := hperm.count_eq u
    rw [h.once u hu, count_append, count_eq_zero.mpr fun hmem => hout u hmem hu,
      Nat.zero_add] at hcount
    exact hcount.symm
  · have hcount := hperm.countP_eq fun tx => decide (tx ∉ p.all)
    have hall : (out.countP fun tx => decide (tx ∉ p.all)) = out.length :=
      countP_eq_length.mpr fun tx htx => decide_eq_true (hout tx htx)
    have hst := h.stales
    rw [countP_append, hall] at hcount
    change priced.stales = priced.items.toList.countP fun tx => decide (tx ∉ p.all)
    omega

/-- Transactions of `T` may enter, and transactions may leak; nothing is postponed or evicted. -/
def entering (T : Transaction → Prop) : Event → Prop
  | .leak => True
  | .enter tx => T tx
  | _ => False

variable {T T' : Transaction → Prop} {s s' : TxPool × List Transaction}

theorem Moves.mono {allow allow' : Event → Prop} (hallow : ∀ e, allow e → allow' e)
    (h : Moves env allow s s') : Moves env allow' s s' := by
  refine Relation.ReflTransGen.mono (fun s s' hmove => ?_) _ _ h
  cases hmove with
  | shift hall hpriced hheld hkinds => exact .shift hall hpriced hheld hkinds
  | drop p tx F => exact .drop p tx F
  | forget p tx F hall hheld => exact .forget p tx F hall hheld
  | again p tx F hall h => exact .again p tx F hall (hallow _ h)
  | lose p tx F h => exact .lose p tx F (hallow _ h)
  | enter p tx F hnew hsender hfree h hre =>
    exact .enter p tx F hnew hsender hfree (hallow _ h) fun hmem => hallow _ (hre hmem)
  | popStale p priced F out hout hstales hperm => exact .popStale p priced F out hout hstales hperm
  | pop p priced F h => exact .pop p priced F (hallow _ h)

theorem Move.accounted (h : Move env (entering T) s s') (hs : s.1.Slotted s.2)
    (hacc : s.1.Accounted) : s'.1.Accounted := by
  cases h with
  | shift hall hpriced hheld hkinds =>
    refine ⟨fun u hu => ?_, ?_⟩
    · rw [hpriced]
      exact hacc.once u (hall ▸ hu)
    · rw [hpriced, hall]
      exact hacc.stales
  | drop p tx F => exact hacc.deleteTx hs.mem_all_head
  | forget p tx F hall hheld => exact hacc.deleteTx hall
  | again p tx F hall h | pop p priced F h => exact absurd h id
  | lose p tx F h => exact hacc
  | enter p tx F hnew hsender hfree h hre => exact hacc.insertTx hre
  | popStale p priced F out hout hstales hperm => exact hacc.popStale hout hstales hperm

theorem Moves.accounted (h : Moves env (entering T) s s') (hs : s.1.Slotted s.2)
    (hacc : s.1.Accounted) : s'.1.Accounted := by
  induction h with
  | refl => exact hacc
  | tail hmoves hmove ih => exact hmove.accounted (Moves.slotted hmoves hs) ih

theorem Moves.mem_items (h : Moves env (entering T) s s') (hu : u ∈ s'.1.priced.items.toList) :
    u ∈ s.1.priced.items.toList ∨ u ∈ s.1.all ∨ T u := by
  induction h with
  | refl => exact .inl hu
  | @tail s₁ s₂ hmoves hmove ih =>
    have hall : u ∈ s₁.1.all → u ∈ s.1.all ∨ T u := fun hmem => Moves.mem_all hmoves hmem
    cases hmove with
    | shift _ hpriced _ _ => exact ih (hpriced ▸ hu)
    | drop p tx F | forget p tx F _ _ =>
      exact (mem_items_deleteTx hu).elim ih fun h => .inr (hall h)
    | again p tx F _ h | pop p priced F h => exact absurd h id
    | lose p tx F h => exact ih hu
    | enter p tx F hnew hsender hfree h hre =>
      rcases mem_cons.mp ((p.priced.put_perm tx).mem_iff.mp hu) with rfl | hu
      · exact .inr (.inr h)
      · exact ih hu
    | popStale p priced F out hout hstales hperm =>
      exact ih (hperm.mem_iff.mpr (mem_append_right _ hu))

/-! ## A new head that demotes nothing -/

/-- The pending transactions are payable from the nonce of the account on. -/
structure Steady (p : TxPool) (a : Address) : Prop where
  payable : ∀ tx ∈ p.pending.txs a, p.currentState.nonce a ≤ tx.nonce →
    tx.exceeds (p.currentState.balance a) p.currentMaxGas = false
  front : ∀ tx ∈ p.pending.txs a, p.currentState.nonce a ≤ tx.nonce →
    p.Pends a (p.currentState.nonce a)
  low : ¬ p.Pends a (p.currentState.nonce a) → p.pendingNonce a ≤ p.currentState.nonce a

theorem Steady.not_demotes (h : p.Steady a) : ¬ p.Demotes a := by
  rintro (⟨tx, htx, hn, hx⟩ | ⟨⟨tx, htx, hn⟩, hgap⟩)
  · rw [h.payable tx htx hn] at hx
    exact false_ne_true hx
  · obtain ⟨u, hu, hun⟩ := h.front tx htx hn
    exact hgap u hu hun

theorem steady_of_enterState {state : AccountState} {maxGas : ℤ}
    (h : ¬ (p.enterState state maxGas).Demotes a) : (p.enterState state maxGas).Steady a := by
  refine ⟨fun tx htx hn => ?_, fun tx htx hn => ?_, fun _ => le_refl _⟩
  · exact eq_false_iff.mpr fun hx => h (.inl ⟨tx, htx, hn, hx⟩)
  · by_contra hgap
    exact h (.inr ⟨⟨tx, htx, hn⟩, fun u hu hun => hgap ⟨u, hu, hun⟩⟩)

theorem Steady.changed (hc : Changed p p') (h : p.Steady a) : p'.Steady a := by
  have hst := hc.state
  have hgas := hc.maxGas
  cases hc.change a with
  | same hp hn =>
    have hpends : ∀ m, p'.Pends a m ↔ p.Pends a m := fun m =>
      exists_congr fun u => and_congr_left' (hp u)
    refine ⟨fun u hu => ?_, fun u hu => ?_, fun hnot => ?_⟩
    · rw [hst, hgas]
      exact h.payable u ((hp u).mp hu)
    · rw [hst, hpends]
      exact h.front u ((hp u).mp hu)
    · rw [hst, hpends] at hnot
      rw [hn, hst]
      exact h.low hnot
  | cut nonce hp hn =>
    refine ⟨fun u hu hle => ?_, fun u hu hle => ?_, fun hnot => ?_⟩
    · rw [hst, hgas]
      exact h.payable u ((hp u).mp hu).1 (hst ▸ hle)
    · obtain ⟨hmem, hlt⟩ := (hp u).mp hu
      rw [hst] at hle ⊢
      obtain ⟨v, hv, hvn⟩ := h.front u hmem hle
      exact ⟨v, (hp v).mpr ⟨hv, by omega⟩, hvn⟩
    · rw [hst] at hnot ⊢
      by_cases hpends : p.Pends a (p.currentState.nonce a)
      · obtain ⟨v, hv, hvn⟩ := hpends
        have : ¬ v.nonce < nonce := fun hlt => hnot ⟨v, (hp v).mpr ⟨hv, hlt⟩, hvn⟩
        omega
      · have := h.low hpends
        omega
  | swap tx haddr hfits hv hp hn =>
    -- the slots are the same as before
    have hpends : ∀ m, p.Pends a m → p'.Pends a m := by
      rintro m ⟨w, hw, rfl⟩
      by_cases hwn : w.nonce = tx.nonce
      · exact ⟨tx, (hp tx).mpr (.inl rfl), hwn.symm⟩
      · exact ⟨w, (hp w).mpr (.inr ⟨hw, hwn⟩), rfl⟩
    obtain ⟨v, hv, hvn⟩ := hv
    refine ⟨fun w hw hle => ?_, fun w hw hle => ?_, fun hnot => ?_⟩
    · rw [hst, hgas]
      rcases (hp w).mp hw with rfl | ⟨hw, -⟩
      · exact haddr ▸ hfits.payable
      · exact h.payable w hw (hst ▸ hle)
    · rw [hst] at hle ⊢
      refine hpends _ ?_
      rcases (hp w).mp hw with rfl | ⟨hw, -⟩
      · exact h.front v hv (by omega)
      · exact h.front w hw hle
    · rw [hst] at hnot ⊢
      rw [hn]
      exact h.low fun hp => hnot (hpends _ hp)
  | grow first rest hrun hp hn =>
    have hfront : p'.Pends a (p.currentState.nonce a) := by
      by_cases hpends : p.Pends a (p.currentState.nonce a)
      · obtain ⟨v, hv, hvn⟩ := hpends
        exact ⟨v, (hp v).mpr (.inl hv), hvn⟩
      · have hlow := h.low hpends
        have hle := (hrun.run first rfl).1
        have hge := (hrun.payable first mem_cons_self).2.1
        exact ⟨first, (hp first).mpr (.inr mem_cons_self), by omega⟩
    refine ⟨fun u hu hle => ?_, fun u hu hle => ?_, fun hnot => ?_⟩
    · rw [hst, hgas]
      rcases (hp u).mp hu with hu | hu
      · exact h.payable u hu (hst ▸ hle)
      · exact (hrun.payable u hu).2.2
    · rw [hst]
      exact hfront
    · rw [hst] at hnot
      exact absurd hfront hnot

/-! ## Quiet operations -/

variable (env) in
/-- There is room for the transactions, which differ from one another and have no entry in the
heap. -/
structure Fresh (p : TxPool) (txs : List Transaction) : Prop where
  nodup : txs.Nodup
  unseen : ∀ tx ∈ txs, tx ∉ p.priced.items.toList
  room : txs ≠ [] → p.all.list.length + txs.length ≤ capacity env

variable (env) in
/-- No pending transaction is postponed or evicted, none is brought back over its old entry. -/
def Quiet (p : TxPool) : Op → Prop
  | .addTx tx _ => tx ∈ p.all ∨ p.Fresh env [tx]
  | .addTxs txs _ => p.Fresh env txs
  | .removeTx tx => p.HasNonce tx → p.HasLater tx → ¬ p.HasEarlier tx
  | .setGasPrice price => ∀ tx ∈ p.all, p.isLocalTx tx = false → price ≤ tx.gasPrice
  | .promoteExecutables _ => True
  | .demoteUnexecutables => ∀ a, ¬ p.Demotes a
  | .reset chain oldHead newHead => ∀ state, chain.stateAt newHead = some state →
      (∀ a, ¬ (p.enterState state newHead.gasLimit).Demotes a) ∧
        ∀ txs, (oldHead.elim (.reinject []) fun oldHead => walk chain oldHead newHead) =
          .reinject txs → p.Fresh env txs
  | .chainHead chain oldHead newHead => ∀ state, chain.stateAt newHead = some state →
      (∀ a, ¬ (p.enterState state newHead.gasLimit).Demotes a) ∧
        ∀ txs, walk chain oldHead newHead = .reinject txs → p.Fresh env txs
  | .evict => True

theorem entering_anyone {e : Event} (h : entering T e) : entering anyone e := by
  cases e with
  | enter tx | leak => exact trivial
  | _ => exact h

theorem add_quiet {rest : List Transaction} (hs : p.Slotted []) (hacc : p.Accounted)
    (hf : p.Fresh env (tx :: rest)) (isLocal : Bool) :
    Moves env (entering anyone) (p, []) ((p.add env tx isLocal).1, []) ∧
      (p.add env tx isLocal).1.Fresh env rest := by
  have hroom : p.all.list.length + 1 + rest.length ≤ capacity env := by
    have := hf.room (cons_ne_nil tx rest)
    rw [length_cons] at this
    omega
  have hfree : p.all.list.length < capacity env := by omega
  have hnew : tx ∉ p.priced.items.toList := hf.unseen tx mem_cons_self
  have henter : entering (fun u => u = tx) (.enter tx) := rfl
  have hmoves : Moves env (entering fun u => u = tx) (p, []) ((p.add env tx isLocal).1, []) :=
    add_moves hs (fun _ => henter) (fun hmem => absurd hmem hnew) fun hfull =>
      absurd hfree (not_lt.mpr hfull)
  refine ⟨hmoves.mono fun e => entering_anyone, ?_, fun u hu hmem => ?_, ?_⟩
  · exact (nodup_cons.mp hf.nodup).2
  · have hun := hf.unseen u (mem_cons_of_mem _ hu)
    rcases hmoves.mem_items hmem with h | h | h
    · exact hun h
    · exact hun (hacc.mem_items h)
    · exact (nodup_cons.mp hf.nodup).1 (h ▸ hu)
  · have := add_length_le hfree tx isLocal
    omega

theorem addAll_quiet {isLocal : Bool} {txs : List Transaction} (hs : p.Slotted [])
    (hacc : p.Accounted) (hf : p.Fresh env txs) (dirty : List Address) :
    Moves env (entering anyone) (p, []) ((addAll env isLocal txs p dirty).1, []) := by
  refine (addAll_keeps_pool (C := fun rest q => Moves env (entering anyone) (p, []) (q, []) ∧
    q.Fresh env rest) (fun tx rest q hC => ?_) txs dirty ⟨.refl _, hf⟩).1
  obtain ⟨hmoves, hf'⟩ := add_quiet (hC.1.slotted hs) (hC.1.accounted hs hacc) hC.2 isLocal
  exact ⟨hC.1.trans hmoves, hf'⟩

theorem setGasPrice_quiet {price : ℤ}
    (hok : ∀ tx ∈ p.all, p.isLocalTx tx = false → price ≤ tx.gasPrice) :
    Moves env (entering anyone) (p, []) (p.setGasPrice env price, []) := by
  have hspec : PricedList.DropSpec p.isPooled p.isLocalTx (fun tx => tx.gasPrice < price) p.priced
      (p.priced.cap p.isPooled p.isLocalTx price) := cap_spec _ _
  unfold setGasPrice
  generalize p.priced.cap p.isPooled p.isLocalTx price = res at hspec ⊢
  obtain ⟨drop, priced⟩ := res
  have hnil : drop = [] := by
    refine eq_nil_iff_forall_not_mem.mpr fun tx htx => ?_
    obtain ⟨hpooled, hremote, hprice⟩ := hspec.drop tx htx
    exact absurd (hok tx (of_decide_eq_true hpooled) hremote) (not_le.mpr hprice)
  obtain ⟨out, hout, hst, hperm⟩ := hspec.stale
  rw [hnil, nil_append] at hperm
  rw [hnil]
  refine (Move.popStale p priced [] out (fun tx htx => of_decide_eq_false (hout tx htx)) hst
    hperm).moves.trans (Move.moves ?_)
  apply Move.idle <;> rfl

theorem reset_quiet {chain : PoolChain} {oldHead : Option PoolBlock} {newHead : PoolBlock}
    (hs : p.Slotted []) (hacc : p.Accounted)
    (hok : ∀ state, chain.stateAt newHead = some state →
      (∀ a, ¬ (p.enterState state newHead.gasLimit).Demotes a) ∧
        ∀ txs, (oldHead.elim (.reinject []) fun oldHead => walk chain oldHead newHead) =
          .reinject txs → p.Fresh env txs)
    (h : p.reset env chain oldHead newHead = some p') :
    Moves env (entering anyone) (p, []) (p', []) := by
  unfold reset at h
  split at h
  · cases h
  · cases h
    exact .refl _
  · rename_i txs hwalk
    cases h
    split
    · exact .refl _
    · rename_i state hstate
      obtain ⟨hcalm, hfresh⟩ := hok state hstate
      have hs' : (p.enterState state newHead.gasLimit).Slotted [] :=
        { hs with }
      have hf := hfresh txs hwalk
      refine resetTo_moves hs (addTxs_moves hs' (addAll_quiet hs' ⟨hacc.once, hacc.stales⟩
        ⟨hf.nodup, hf.unseen, hf.room⟩ [])) fun a hd => absurd hd (Steady.not_demotes ?_)
      have hw : (p.enterState state newHead.gasLimit).Within anyone := ⟨hs', fun _ _ _ => trivial⟩
      exact (addTxs_evolves txs false (fun _ _ _ => trivial) hw).keeps (I := fun q => q.Steady a)
        (fun _ _ _ hc h => h.changed hc) (steady_of_enterState (hcalm a))

theorem step_quiet {op : Op} (hs : p.Slotted []) (hacc : p.Accounted) (hok : p.Quiet env op)
    (h : p.step env op = some p') : Moves env (entering anyone) (p, []) (p', []) := by
  cases op with
  | addTx tx isLocal =>
    cases h
    refine addTx_moves hs ?_
    rcases hok with hall | hf
    · rw [add, if_pos hall]
      exact .refl _
    · exact (add_quiet hs hacc hf isLocal).1
  | addTxs txs isLocal =>
    cases h
    exact addTxs_moves hs (addAll_quiet hs hacc hok [])
  | removeTx tx =>
    cases h
    exact removeTx_moves hs ⟨fun _ => trivial, fun _ _ _ => trivial, fun hn hl he => hok hn hl he⟩
  | setGasPrice price =>
    cases h
    exact setGasPrice_quiet hok
  | promoteExecutables accounts =>
    cases h
    exact promoteExecutables_moves accounts hs
  | demoteUnexecutables =>
    cases h
    exact demoteUnexecutables_moves hs fun a hd => absurd hd (hok a)
  | reset chain oldHead newHead => exact reset_quiet hs hacc hok h
  | chainHead chain oldHead newHead =>
    have hidle : Moves env (entering anyone) (p, [])
        ({ p with pangu := p.pangu || env.params.isPangu newHead.number }, []) := by
      refine Move.moves ?_
      apply Move.idle <;> rfl
    refine hidle.trans (reset_quiet (hidle.slotted hs) (hidle.accounted hs hacc) ?_ h)
    intro state hstate
    obtain ⟨hcalm, hfresh⟩ := hok state hstate
    refine ⟨hcalm, fun txs hwalk => ?_⟩
    have hf := hfresh txs hwalk
    exact ⟨hf.nodup, hf.unseen, hf.room⟩
  | evict =>
    cases h
    exact evict_moves hs

/-! ## What an accounted heap gives -/

theorem Accounted.pooled_perm (h : p.Accounted) :
    (p.priced.items.toList.filter fun tx => decide (tx ∈ p.all)).Perm p.all.list := by
  refine (perm_ext_iff_of_nodup ?_ p.all.nodup).mpr fun tx => ?_
  · refine nodup_iff_count_le_one.mpr fun tx => ?_
    by_cases htx : tx ∈ p.all
    · rw [count_filter (p := fun tx => decide (tx ∈ p.all)) (decide_eq_true htx), h.once tx htx]
    · refine (count_eq_zero.mpr fun hmem => htx ?_).trans_le (zero_le _)
      exact of_decide_eq_true (mem_filter.mp hmem).2
  · rw [mem_filter, decide_eq_true_eq]
    exact ⟨fun hmem => hmem.2, fun htx => ⟨h.mem_items htx, htx⟩⟩

theorem Accounted.size_sub_stales (h : p.Accounted) :
    (p.priced.items.size : ℤ) - p.priced.stales = p.all.list.length := by
  have hsplit := length_eq_countP_add_countP (l := p.priced.items.toList) fun tx =>
    decide (tx ∈ p.all)
  have hlen := h.pooled_perm.length_eq
  rw [← countP_eq_length_filter] at hlen
  have hst := h.stales
  simp only [Array.length_toList, decide_eq_true_eq] at hsplit
  omega

theorem discardLoop_length {isPooled isLocal : Transaction → Bool} (fuel : ℕ) (count : ℤ)
    (d : PricedList.Draining) (hfuel : d.priced.items.size ≤ fuel) :
    (discardLoop isPooled isLocal fuel count d).drop.length = d.drop.length +
      min count.toNat (d.priced.items.toList.countP fun tx => isPooled tx && !isLocal tx) := by
  induction fuel generalizing count d with
  | zero =>
    have hnil : d.priced.items.toList = [] := by
      rw [← length_eq_zero_iff, Array.length_toList]
      omega
    rw [discardLoop, hnil]
    simp
  | succ fuel ih =>
    rw [discardLoop]
    split
    · rename_i hcount
      rw [Int.toNat_of_nonpos hcount]
      simp
    rename_i hcount
    split
    · rename_i hpop
      rw [toList_of_pop_eq_none _ hpop]
      simp
    · rename_i tx items hpop
      have hperm := pop_perm _ hpop
      have hsize := hperm.length_eq
      rw [length_cons, Array.length_toList, Array.length_toList] at hsize
      rw [hperm.countP_eq, countP_cons]
      split
      · rename_i hstale
        rw [ih _ _ (by simp only; omega), hstale]
        simp
      · rename_i hpooled
        split
        · rename_i hlocal
          rw [ih _ _ (by simp only; omega), hlocal]
          simp
        · rename_i hremote
          rw [ih _ _ (by simp only; omega)]
          simp only [hpooled, hremote, length_append, length_singleton, Bool.not_false,
            Bool.and_true, if_true]
          omega

/-- **`Discard` finds what is there**: distinct pooled transactions, as many as asked for or all the
remote ones. -/
theorem Accounted.discard (h : p.Accounted) (count : ℤ) :
    (p.priced.discard p.isPooled p.isLocalTx count).1.Nodup ∧
      (∀ tx ∈ (p.priced.discard p.isPooled p.isLocalTx count).1, tx ∈ p.all) ∧
      (p.priced.discard p.isPooled p.isLocalTx count).1.length =
        min count.toNat (p.all.list.countP fun tx => !p.isLocalTx tx) := by
  have hspec : PricedList.DropSpec p.isPooled p.isLocalTx (fun _ => True) p.priced
      (p.priced.discard p.isPooled p.isLocalTx count) := discard_spec _ _
  have hpooled : ∀ tx ∈ (p.priced.discard p.isPooled p.isLocalTx count).1, tx ∈ p.all :=
    fun tx htx => of_decide_eq_true (hspec.drop tx htx).1
  refine ⟨nodup_iff_count_le_one.mpr fun tx => ?_, hpooled, ?_⟩
  · by_cases htx : tx ∈ (p.priced.discard p.isPooled p.isLocalTx count).1
    · -- what is dropped was in the heap, and there once
      obtain ⟨out, -, -, hperm⟩ := hspec.stale
      have hcount := hperm.count_eq tx
      rw [h.once tx (hpooled tx htx), count_append, count_append] at hcount
      omega
    · rw [count_eq_zero.mpr htx]
      exact zero_le _
  · have hlen : (p.priced.discard p.isPooled p.isLocalTx count).1.length = _ :=
      discardLoop_length p.priced.items.size count ⟨p.priced, [], []⟩ (le_refl _)
    rw [hlen, length_nil, Nat.zero_add, ← h.pooled_perm.countP_eq, countP_filter]
    simp only [isPooled, Bool.and_comm]

theorem new_accounted (env : PoolEnv) : (new env).Accounted :=
  ⟨nofun, rfl⟩

/-- **The heap is accounted** in quiet runs, and `Discard` finds what it is asked for. -/
theorem heap_accounted (env : PoolEnv) {ops : List Op} {p : TxPool}
    (hrun : run (step env) (new env) ops = some p)
    (hok : Along (step env) (Quiet env) (new env) ops) :
    p.Accounted ∧ (p.priced.items.size : ℤ) - p.priced.stales = p.all.list.length ∧
      ∀ count : ℤ, (p.priced.discard p.isPooled p.isLocalTx count).1.Nodup ∧
        (∀ tx ∈ (p.priced.discard p.isPooled p.isLocalTx count).1, tx ∈ p.all) ∧
        (p.priced.discard p.isPooled p.isLocalTx count).1.length =
          min count.toNat (p.all.list.countP fun tx => !p.isLocalTx tx) := by
  have hinv : p.Slotted [] ∧ p.Accounted := by
    refine run_invariant_along (I := fun q : TxPool => q.Slotted [] ∧ q.Accounted)
      (fun q op q' hq hop hstep => ?_) ⟨new_slotted env, new_accounted env⟩ hok hrun
    have hmoves : Moves env (entering anyone) (q, []) (q', []) := step_quiet hq.1 hq.2 hop hstep
    exact ⟨hmoves.slotted hq.1, hmoves.accounted hq.1 hq.2⟩
  exact ⟨hinv.2, hinv.2.size_sub_stales, hinv.2.discard⟩

/-! ## A postponed transaction has two entries -/

/-- **A transaction has two entries**: the second of three is removed, the third postponed. -/
theorem heap_miscounts : ∃ p, run (step sampleEnv) (new sampleEnv)
    [.reset sampleChain none sampleHead, .addTx (sampleTx 0 5) false, .addTx (sampleTx 1 1) false,
      .addTx (sampleTx 2 5) false, .setGasPrice 2] = some p ∧ sampleTx 2 5 ∈ p.all ∧
      p.priced.items.toList.count (sampleTx 2 5) = 2 :=
  exists_run (by decide +kernel) fun _ => by decide +kernel

def unobtrusive (p : TxPool) : Op → Bool
  | .reset _ none _ => p.pending.keys.isEmpty
  | .addTx tx _ => decide (tx ∉ p.priced.items.toList) &&
      decide (p.all.list.length + 1 ≤ capacity sampleEnv)
  | .removeTx tx => (p.pending.txs tx.addr).all fun u => decide (u.nonce ≤ tx.nonce)
  | _ => false

theorem quiet_of_unobtrusive (p : TxPool) (op : Op) (h : unobtrusive p op = true) :
    p.Quiet sampleEnv op := by
  cases op with
  | addTx tx isLocal =>
    obtain ⟨hnew, hroom⟩ := and_eq_true_iff.mp h
    refine .inr ⟨nodup_singleton tx, fun u hu => ?_, fun _ => of_decide_eq_true hroom⟩
    rw [mem_singleton.mp hu]
    exact of_decide_eq_true hnew
  | removeTx tx =>
    rintro - ⟨u, hu, hlt⟩
    have := of_decide_eq_true (all_eq_true.mp h u hu)
    omega
  | reset chain oldHead newHead =>
    cases oldHead with
    | some _ => exact absurd h false_ne_true
    | none =>
      intro state _
      refine ⟨fun a hd => ?_, fun txs htxs => ?_⟩
      · have hnil : (p.enterState state newHead.gasLimit).pending.txs a = [] := txs_of_keys h a
        rcases hd with ⟨tx, htx, -⟩ | ⟨⟨tx, htx, -⟩, -⟩ <;>
          exact absurd (hnil ▸ htx) not_mem_nil
      · cases htxs
        exact ⟨nodup_nil, nofun, fun hne => absurd rfl hne⟩
  | _ => exact absurd h false_ne_true

/-- Four transactions of one account are added and the last is removed: the heap has a stale entry,
and it is counted. -/
theorem heap_accounted_four : ∃ p, run (step sampleEnv) (new sampleEnv)
    [.reset sampleChain none sampleHead, .addTx (sampleTx 0 5) false, .addTx (sampleTx 1 1) false,
      .addTx (sampleTx 2 5) false, .addTx (sampleTx 3 5) false, .removeTx (sampleTx 3 5)] = some p ∧
      p.priced.stales = 1 ∧ p.Accounted ∧
      (p.priced.items.size : ℤ) - p.priced.stales = p.all.list.length := by
  refine exists_run (by decide +kernel) fun hrun => ⟨by decide +kernel, ?_⟩
  obtain ⟨hacc, hsize, -⟩ :=
    heap_accounted sampleEnv hrun (.mono quiet_of_unobtrusive (by decide +kernel))
  exact ⟨hacc, hsize⟩

end TxPool

end XChain
