import XChain.Core.Executable

/-!
# Transactions that are refused

A full pool evicts cheaper transactions before it looks at the slot of the new one.

* **`rejected_kept_iff`**: a refused transaction leaves the pool as it was unless others were
  evicted for it.
-/

namespace XChain

namespace TxPool

open StepMachine List TxLists Function GoText

def Unchanged (p q : TxPool) : Prop :=
  (∀ tx, tx ∈ q.all ↔ tx ∈ p.all) ∧
    ∀ a, q.pending.txs a = p.pending.txs a ∧ q.queue.txs a = p.queue.txs a

theorem unchanged_refl (p : TxPool) : Unchanged p p := ⟨fun _ => Iff.rfl, fun _ => ⟨rfl, rfl⟩⟩

variable (env : PoolEnv)

def evicted (p : TxPool) (tx : Transaction) : List Transaction × PricedList :=
  (p.priced.underpriced p.isPooled p.isLocalTx tx).2.discard p.isPooled p.isLocalTx
    (p.all.list.length - Word64.toInt64 (Word64.sub (capacity env) 1))

def afterEviction (p : TxPool) (tx : Transaction) : TxPool :=
  (p.evicted env tx).1.foldl (removeTx env) { p with priced := (p.evicted env tx).2 }

/-- What the removal of some transactions leaves to the account. -/
def leftTo (p : TxPool) (a : Address) (out : List Transaction) :
    List Transaction × Finset Transaction :=
  ((out.filter fun u => decide (u.addr = a)).map Transaction.nonce).foldl cutOut (p.lists a)

/-- A valid transaction that is not underpriced makes a full pool evict others, and the sender has
an older one left with its nonce that it does not outbid. -/
def Displaces (p : TxPool) (tx : Transaction) (isLocal : Bool) : Prop :=
  tx ∉ p.all ∧ p.validateTx env tx isLocal = none ∧ capacity env ≤ p.all.list.length ∧
    (p.priced.underpriced p.isPooled p.isLocalTx tx).1 = false ∧ (p.evicted env tx).1 ≠ [] ∧
    ∃ old, (old ∈ (p.leftTo tx.addr (p.evicted env tx).1).1 ∨
      old ∈ (p.leftTo tx.addr (p.evicted env tx).1).2) ∧
      old.nonce = tx.nonce ∧ tx.gasPrice ≤ old.threshold env.priceBump

variable {env} {p : TxPool} {tx u : Transaction} {isLocal : Bool}

/-! ## Removals -/

theorem mem_lists {a : Address} :
    u ∈ p.held [] a ↔ u ∈ (p.lists a).1 ∨ u ∈ (p.lists a).2 := by
  simp [held, lists]

theorem mem_cutOut {lists : List Transaction × Finset Transaction} {nonce : ℕ}
    (hdisj : ∀ x ∈ lists.1, ∀ y ∈ lists.2, x.nonce ≠ y.nonce)
    (h : u ∈ (cutOut lists nonce).1 ∨ u ∈ (cutOut lists nonce).2) :
    (u ∈ lists.1 ∨ u ∈ lists.2) ∧ u.nonce ≠ nonce := by
  unfold cutOut at h
  split at h
  · rename_i hslot
    obtain ⟨x, hx, hn⟩ := hslot
    have hqueue : u ∈ lists.2 → u.nonce ≠ nonce := fun hu heq =>
      hdisj x hx u hu (hn.trans heq.symm)
    dsimp only at h
    split at h <;> simp only [Finset.mem_union, mem_toFinset, mem_filter, decide_eq_true_eq] at h
    · grind
    · grind
  · rename_i hslot
    simp only [Finset.mem_filter] at h
    grind

theorem removeTx_held {b : Address} {w : Transaction} (hs : p.Slotted []) (hu : u ∈ p.all)
    (h : w ∈ (p.removeTx env u).held [] b) :
    w ∈ p.held [] b ∧ (u.addr = b → w.nonce ≠ u.nonce) := by
  have hlists : (p.removeTx env u).lists = _ := (removeTx_lists hs hu).2
  rw [mem_lists, hlists] at h
  rw [mem_lists]
  by_cases hb : u.addr = b
  · subst hb
    rw [update_self] at h
    obtain ⟨hw, hne⟩ := mem_cutOut
      (fun _ hx _ hy => hs.pending_ne_queue hx (mem_toFinset.mp hy)) h
    exact ⟨hw, fun _ => hne⟩
  · rw [update_of_ne (Ne.symm hb)] at h
    exact ⟨h, fun heq => absurd heq hb⟩

/-- **What a row of removals leaves.** A transaction may be in the row twice: the second time its
slot is free. -/
theorem removeAll_lists {a : Address} (out : List Transaction) (hs : p.Slotted [])
    (hout : ∀ u ∈ out, u ∈ p.all ∨ ∀ w ∈ p.held [] u.addr, w.nonce ≠ u.nonce) :
    (out.foldl (removeTx env) p).lists a = p.leftTo a out := by
  induction out generalizing p with
  | nil => rfl
  | cons u out ih =>
    obtain ⟨hu, hout⟩ := forall_mem_cons.mp hout
    -- the first removal cuts out the slot, if it is in the account
    suffices hfirst : (p.removeTx env u).lists a =
        (if u.addr = a then cutOut (p.lists a) u.nonce else p.lists a) ∧
          ∀ v ∈ out, v ∈ (p.removeTx env u).all ∨
            ∀ w ∈ (p.removeTx env u).held [] v.addr, w.nonce ≠ v.nonce by
      rw [foldl_cons, ih (removeTx_slotted hs) hfirst.2, leftTo, leftTo, hfirst.1]
      by_cases ha : u.addr = a
      · rw [if_pos ha, filter_cons_of_pos (by simpa using ha)]
        rfl
      · rw [if_neg ha, filter_cons_of_neg (by simpa using ha)]
    by_cases hall : u ∈ p.all
    · obtain ⟨hkept, hlists⟩ : (∀ w, w ∈ (p.removeTx env u).all ↔ _) ∧ _ = _ :=
        removeTx_lists hs hall
      have hheld : ∀ {b w}, w ∈ (p.removeTx env u).held [] b → _ ∧ _ := removeTx_held hs hall
      refine ⟨?_, fun v hv => ?_⟩
      · rw [hlists]
        split_ifs with ha
        · rw [← ha, update_self]
        · rw [update_of_ne (Ne.symm ha)]
      · rcases hout v hv with hmem | hfree
        · by_cases hvu : v = u
          · subst hvu
            exact .inr fun w hw => (hheld hw).2 rfl
          · exact .inl ((hkept v).mpr ⟨hmem, hvu⟩)
        · exact .inr fun w hw => hfree w (hheld hw).1
    · have hne := hu.resolve_left hall
      rw [show p.removeTx env u = p from if_neg hall]
      refine ⟨?_, hout⟩
      split_ifs with ha
      · subst ha
        have hslot : ¬ ∃ w ∈ (p.lists u.addr).1, w.nonce = u.nonce := by
          rintro ⟨w, hw, hn⟩
          exact hne w (mem_lists.mpr (.inl hw)) hn
        rw [cutOut, if_neg hslot,
          Finset.filter_true_of_mem fun w hw => hne w (mem_lists.mpr (.inr hw))]
      · rfl

/-- **A transaction is refused** if it does not outbid the one with its nonce. -/
theorem place_error_iff (hs : p.Slotted []) : (∃ e, (p.place env tx isLocal).2 = .error e) ↔
    ∃ old ∈ p.held [] tx.addr, old.nonce = tx.nonce ∧
      tx.gasPrice ≤ old.threshold env.priceBump := by
  unfold place
  split
  · rename_i list hl
    obtain ⟨hl, hover⟩ := Option.filter_eq_some_iff.mp hl
    obtain ⟨w, hw, hwn⟩ := TxList.overlaps_iff.mp hover
    rw [← txs_of_lookup hl] at hw
    have hadd : list.add tx env.priceBump = none ↔ ∃ old ∈ p.held [] tx.addr,
        old.nonce = tx.nonce ∧ tx.gasPrice ≤ old.threshold env.priceBump := by
      rw [TxList.add_eq_none, ← txs_of_lookup hl]
      constructor
      · rintro ⟨old, hold, h⟩
        exact ⟨old, mem_held.mpr (.inl hold), h⟩
      · rintro ⟨old, hold, hn, h⟩
        obtain rfl := hs.nonce_inj (mem_held.mpr (.inl hw)) hold (hwn.trans hn.symm)
        exact ⟨w, hw, hn, h⟩
    rw [← hadd]
    split <;> simp [*]
  · rename_i hl
    have hne : ∀ w ∈ p.pending.txs tx.addr, w.nonce ≠ tx.nonce := by
      intro w hw hn
      cases hlist : p.pending.lookup tx.addr with
      | none =>
        rw [txs_of_none hlist] at hw
        cases hw
      | some list =>
        rw [hlist, Option.filter_eq_none_iff] at hl
        exact hl list rfl (TxList.overlaps_iff.mpr ⟨w, txs_of_lookup hlist ▸ hw, hn⟩)
    have hadd : p.enqueueTx env tx = none ↔ ∃ old ∈ p.held [] tx.addr,
        old.nonce = tx.nonce ∧ tx.gasPrice ≤ old.threshold env.priceBump := by
      have hnone : p.enqueueTx env tx = none ↔
          ((p.queue.lookup tx.addr).getD (TxList.new false)).add tx env.priceBump = none := by
        unfold enqueueTx
        split <;> simp [*]
      rw [hnone, TxList.add_eq_none, items_getD]
      constructor
      · rintro ⟨old, hold, h⟩
        exact ⟨old, mem_held.mpr (.inr (.inl hold)), h⟩
      · rintro ⟨old, hold, hn, h⟩
        rcases mem_held.mp hold with hold | hold | hold
        · exact absurd hn (hne old hold)
        · exact ⟨old, hold, hn, h⟩
        · exact absurd hold.1 not_mem_nil
    rw [← hadd]
    split <;> simp [*]

theorem place_error {e : TxError} (h : (p.place env tx isLocal).2 = .error e) :
    (p.place env tx isLocal).1 = p := by
  unfold place at h ⊢
  repeat' split at h
  all_goals cases h
  all_goals rfl

theorem evicted_mem (h : u ∈ (p.evicted env tx).1) : u ∈ p.all := by
  have hspec : PricedList.DropSpec p.isPooled p.isLocalTx (fun _ => True) _ (p.evicted env tx) :=
    PricedList.discard_spec _ _
  exact of_decide_eq_true (hspec.drop u h).1

theorem removeAll_gone (hs : p.Slotted []) (hu : u ∈ p.all) (rest : List Transaction) :
    u ∉ ((u :: rest).foldl (removeTx env) p).all := fun hmem =>
  ((removeTx_lists hs hu).1 u).mp ((removeAll_slotted rest (removeTx_slotted hs)).2 u hmem) |>.2 rfl

theorem afterEviction_changed (hs : p.Slotted []) (h : (p.evicted env tx).1 ≠ []) :
    ¬ Unchanged p (p.afterEviction env tx) := by
  rintro ⟨hall, -⟩
  obtain ⟨u, rest, hout⟩ := exists_cons_of_ne_nil h
  have hu : u ∈ p.all := evicted_mem (hout ▸ mem_cons_self)
  have hmem := (hall u).mpr hu
  unfold afterEviction at hmem
  rw [hout] at hmem
  exact removeAll_gone (hs.withPriced (p.evicted env tx).2) hu rest hmem

theorem afterEviction_error_iff (hs : p.Slotted []) :
    (∃ e, ((p.afterEviction env tx).place env tx isLocal).2 = .error e) ↔
      ∃ old, (old ∈ (p.leftTo tx.addr (p.evicted env tx).1).1 ∨
        old ∈ (p.leftTo tx.addr (p.evicted env tx).1).2) ∧
        old.nonce = tx.nonce ∧ tx.gasPrice ≤ old.threshold env.priceBump := by
  have hout : ∀ u ∈ (p.evicted env tx).1, u ∈ p.all := fun u hu => evicted_mem hu
  unfold afterEviction
  generalize p.evicted env tx = r at hout ⊢
  obtain ⟨out, priced⟩ := r
  have hpriced : ({ p with priced := priced } : TxPool).Slotted [] := hs.withPriced priced
  have hlists : (out.foldl (removeTx env) { p with priced := priced }).lists tx.addr =
    p.leftTo tx.addr out := removeAll_lists out hpriced fun u hu => .inl (hout u hu)
  rw [place_error_iff (removeAll_slotted out hpriced).1, ← hlists]
  simp only [mem_lists]

theorem add_eq (hnew : tx ∉ p.all) (hvalid : p.validateTx env tx isLocal = none)
    (hfull : capacity env ≤ p.all.list.length) : p.add env tx isLocal =
      if (p.priced.underpriced p.isPooled p.isLocalTx tx).1 = true then
        ({ p with priced := (p.priced.underpriced p.isPooled p.isLocalTx tx).2 },
          .error .underpriced)
      else (p.afterEviction env tx).place env tx isLocal := by
  unfold add makeRoom
  rw [if_neg hnew, hvalid]
  dsimp only
  split_ifs <;> rfl

/-- **A refused transaction leaves the pool as it was**, unless it displaced others. -/
theorem rejected_kept_iff (hs : p.Slotted []) (tx : Transaction) (isLocal : Bool) :
    (∀ e, (p.add env tx isLocal).2 = .error e → Unchanged p (p.add env tx isLocal).1) ↔
      ¬ p.Displaces env tx isLocal := by
  constructor
  · rintro h ⟨hnew, hvalid, hfull, hprice, hout, hslot⟩
    obtain ⟨e, herr⟩ := (afterEviction_error_iff hs).mpr hslot
    rw [add_eq hnew hvalid hfull, if_neg (by rw [hprice]; decide)] at h
    have hkept := h e herr
    rw [place_error herr] at hkept
    exact afterEviction_changed hs hout hkept
  · intro h e he
    by_cases hnew : tx ∈ p.all
    · unfold add
      rw [if_pos hnew]
      exact unchanged_refl p
    cases hvalid : p.validateTx env tx isLocal with
    | some e =>
      unfold add
      rw [if_neg hnew, hvalid]
      exact unchanged_refl p
    | none =>
      by_cases hfull : capacity env ≤ p.all.list.length
      · rw [add_eq hnew hvalid hfull] at he ⊢
        split_ifs at he ⊢ with hprice
        · exact unchanged_refl p
        · rw [place_error he]
          by_cases hout : (p.evicted env tx).1 = []
          · unfold afterEviction
            rw [hout]
            exact unchanged_refl p
          · have hslot := (afterEviction_error_iff hs).mp ⟨e, he⟩
            exact absurd ⟨hnew, hvalid, hfull, by simpa using hprice, hout, hslot⟩ h
      · unfold add at he ⊢
        simp only [if_neg hnew, hvalid, if_neg hfull] at he ⊢
        rw [place_error he]
        exact unchanged_refl p

def tinyEnv : PoolEnv := { sampleEnv with config := ⟨1, 10, 1, 1, 1, 1, 10⟩ }

def otherTx (gasPrice : ℤ) : Transaction :=
  { sampleTx 0 gasPrice with sender := some (.fill 2) }

def fullRun : List Op :=
  [.reset sampleChain none sampleHead, .addTx (sampleTx 0 5) false, .addTx (otherTx 1) false]

/-- A full pool keeps its transactions when it refuses one at the price of the cheapest. -/
theorem rejected_kept_underpriced : ∃ p, run (step tinyEnv) (new tinyEnv) fullRun = some p ∧
    p.Slotted [] ∧ capacity tinyEnv ≤ p.all.list.length ∧
    (p.add tinyEnv (sampleTx 1 1) false).2 = .error .underpriced ∧
    Unchanged p (p.add tinyEnv (sampleTx 1 1) false).1 := by
  refine exists_run (by decide +kernel) fun hrun => ?_
  have hs := (run_anyone hrun).slotted
  refine ⟨hs, by decide +kernel, by decide +kernel,
    (rejected_kept_iff hs (sampleTx 1 1) false).mpr ?_ .underpriced (by decide +kernel)⟩
  exact fun h => absurd h.2.2.2.1 (by decide +kernel)

/-- The pool is full, and a second transaction of an account at the price of the first evicts the
one of another account before it is refused. -/
theorem rejected_displaces : ∃ p, run (step tinyEnv) (new tinyEnv) fullRun = some p ∧
    otherTx 1 ∈ p.all ∧
    (p.add tinyEnv { sampleTx 0 5 with value := 1 } false).2 = .error .replaceUnderpriced ∧
    otherTx 1 ∉ (p.add tinyEnv { sampleTx 0 5 with value := 1 } false).1.all :=
  exists_run (by decide +kernel) fun _ => by decide +kernel

end TxPool

end XChain
