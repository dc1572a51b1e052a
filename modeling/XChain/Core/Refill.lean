import XChain.Core.Alignment
import XChain.Core.Partition

/-!
# Refilling a pending list

At a reorganisation the nonce of an account may go back below its pending transactions. The ones in
between are reinjected into the queue, and promotion closes the gap.

* **`addTxs_refilled`**: then the list is aligned.
-/

namespace XChain

open List TxLists Nat GoText

namespace TxPool

variable {env : PoolEnv} {p p' : TxPool} {a : Address} {tx : Transaction} {k : ℕ}
  {T : Transaction → Prop}

/-! ## Placing a transaction -/

structure SameRules (p p' : TxPool) : Prop extends SameView p p' where
  gasPrice : p'.gasPrice = p.gasPrice
  locals : p'.locals = p.locals
  pangu : p'.pangu = p.pangu

theorem SameRules.trans {p p' p'' : TxPool} (h : SameRules p p') (h' : SameRules p' p'') :
    SameRules p p'' where
  toSameView := h.toSameView.trans h'.toSameView
  gasPrice := h'.gasPrice.trans h.gasPrice
  locals := h'.locals.trans h.locals
  pangu := h'.pangu.trans h.pangu

variable (env) in
/-- A remote transaction passes the checks, whatever the number of the head block. -/
def Acceptable (p : TxPool) (tx : Transaction) : Prop :=
  ∀ clock, ({ p with clock := clock } : TxPool).validateTx env tx false = none

theorem SameRules.valid (h : SameRules p p') (hacc : p.Acceptable env tx) :
    p'.validateTx env tx false = none := by
  have hvalid := hacc p'.clock
  unfold validateTx at hvalid ⊢
  rw [h.gasPrice, h.state, h.maxGas, h.locals, h.pangu]
  exact hvalid

theorem deleteOld_rules (p : TxPool) (old : Option Transaction) :
    SameRules p (p.deleteOld env old) := by
  cases old <;> exact ⟨⟨rfl, rfl⟩, rfl, rfl, rfl⟩

/-- No slot of the queue is lost, only the transaction is new, and a new slot is reported. -/
structure Enqueued (p p' : TxPool) (tx : Transaction) (result : Except TxError Bool) : Prop where
  slots : ∀ a, ∀ u ∈ p.queue.txs a, ∃ v ∈ p'.queue.txs a, v.nonce = u.nonce
  only : ∀ a, ∀ u ∈ p'.queue.txs a, u = tx ∨ u ∈ p.queue.txs a
  filled : ¬ p.Pends tx.addr tx.nonce → ∃ v ∈ p'.queue.txs tx.addr, v.nonce = tx.nonce
  reported : result ≠ .ok false → ∀ a, ∀ u ∈ p'.queue.txs a, ∃ v ∈ p.queue.txs a, v.nonce = u.nonce

theorem enqueueTx_enqueued (env : PoolEnv) (p : TxPool) (tx : Transaction) :
    match p.enqueueTx env tx with
    | none => ∃ v ∈ p.queue.txs tx.addr, v.nonce = tx.nonce
    | some (replace, p') => Enqueued p p' tx (.ok replace) ∧ SameRules p p' := by
  have hitems := items_getD p.queue tx.addr false
  unfold enqueueTx
  generalize (p.queue.lookup tx.addr).getD (TxList.new false) = l at hitems ⊢
  cases hadd : l.add tx env.priceBump with
  | none =>
    by_contra hfree
    obtain ⟨l', hsome, -⟩ := TxList.add_of_free (l := l)
      (fun u hu hn => hfree ⟨u, hitems ▸ hu, hn⟩) env.priceBump
    rw [hsome] at hadd
    cases hadd
  | some res =>
    obtain ⟨old, l'⟩ := res
    obtain ⟨-, hget, hmem⟩ := TxList.mem_of_add hadd
    rw [hitems] at hmem
    have hqueue : (((p.setQueue tx.addr l').deleteOld env old).insertTx tx).queue =
        p.queue.insert tx.addr l' := by
      cases old <;> rfl
    have hother : ∀ a, a ≠ tx.addr → txs (p.queue.insert tx.addr l') a = p.queue.txs a :=
      fun a ha => txs_insert_ne ha
    simp only
    refine ⟨⟨fun a u hu => ?_, fun a u hu => ?_, fun _ => ?_, fun hres a u hu => ?_⟩, ?_⟩
    · rw [hqueue]
      by_cases ha : a = tx.addr
      · subst ha
        rw [txs_insert_self]
        by_cases hn : u.nonce = tx.nonce
        · exact ⟨tx, (hmem tx).mpr (.inl rfl), hn.symm⟩
        · exact ⟨u, (hmem u).mpr (.inr ⟨hu, hn⟩), rfl⟩
      · rw [hother a ha]
        exact ⟨u, hu, rfl⟩
    · rw [hqueue] at hu
      by_cases ha : a = tx.addr
      · subst ha
        rw [txs_insert_self] at hu
        exact ((hmem u).mp hu).imp_right And.left
      · rw [hother a ha] at hu
        exact .inr hu
    · rw [hqueue, txs_insert_self]
      exact ⟨tx, (hmem tx).mpr (.inl rfl), rfl⟩
    · -- no new slot was reported, so the old one was taken
      have hsome : old.isSome = true := by
        cases hb : old.isSome with
        | true => rfl
        | false => exact absurd (congrArg Except.ok hb) hres
      obtain ⟨o, rfl⟩ := Option.isSome_iff_exists.mp hsome
      obtain ⟨ho, hon⟩ := TxSortedMap.get_eq_some hget.symm
      rw [hqueue] at hu
      by_cases ha : a = tx.addr
      · subst ha
        rw [txs_insert_self] at hu
        rcases (hmem u).mp hu with rfl | ⟨hu, -⟩
        · exact ⟨o, hitems ▸ ho, hon⟩
        · exact ⟨u, hu, rfl⟩
      · rw [hother a ha] at hu
        exact ⟨u, hu, rfl⟩
    · have h₁ : SameRules p (p.setQueue tx.addr l') := ⟨⟨rfl, rfl⟩, rfl, rfl, rfl⟩
      exact (h₁.trans (deleteOld_rules _ old)).trans ⟨⟨rfl, rfl⟩, rfl, rfl, rfl⟩

theorem place_enqueued (p : TxPool) (tx : Transaction) :
    Enqueued p (p.place env tx false).1 tx (p.place env tx false).2 ∧
      SameRules p (p.place env tx false).1 := by
  have hself : ∀ a, ∀ u ∈ p.queue.txs a, ∃ v ∈ p.queue.txs a, v.nonce = u.nonce :=
    fun a u hu => ⟨u, hu, rfl⟩
  unfold place
  split
  · rename_i l hl
    obtain ⟨hl, hover⟩ := Option.filter_eq_some_iff.mp hl
    have hpends : p.Pends tx.addr tx.nonce := by
      obtain ⟨u, hu, hn⟩ := TxList.overlaps_iff.mp hover
      exact ⟨u, txs_of_lookup hl ▸ hu, hn⟩
    split
    · exact ⟨⟨hself, fun _ _ hu => .inr hu, fun h => absurd hpends h, fun _ => hself⟩,
        ⟨⟨rfl, rfl⟩, rfl, rfl, rfl⟩⟩
    · rename_i old l' hadd
      have hrules : SameRules p (((p.setPending tx.addr l').deleteOld env old).insertTx tx) := by
        have h₁ : SameRules p (p.setPending tx.addr l') := ⟨⟨rfl, rfl⟩, rfl, rfl, rfl⟩
        exact (h₁.trans (deleteOld_rules _ old)).trans ⟨⟨rfl, rfl⟩, rfl, rfl, rfl⟩
      have hqueue :
          (((p.setPending tx.addr l').deleteOld env old).insertTx tx).queue = p.queue := by
        cases old <;> rfl
      refine ⟨⟨?_, ?_, fun h => absurd hpends h, fun _ => ?_⟩, hrules⟩
      · rw [hqueue]
        exact hself
      · rw [hqueue]
        exact fun _ _ hu => .inr hu
      · rw [hqueue]
        exact hself
  · have henq := enqueueTx_enqueued env p tx
    split
    · rename_i hnone
      rw [hnone] at henq
      exact ⟨⟨hself, fun _ _ hu => .inr hu, fun _ => henq, fun _ => hself⟩,
        ⟨⟨rfl, rfl⟩, rfl, rfl, rfl⟩⟩
    · rename_i replace p₁ hsome
      rw [hsome] at henq
      obtain ⟨h, hrules⟩ := henq
      exact ⟨{ h with }, hrules.trans ⟨⟨rfl, rfl⟩, rfl, rfl, rfl⟩⟩

theorem add_of_room (hroom : p.all.list.length < capacity env) (tx : Transaction)
    (isLocal : Bool) :
    (tx ∉ p.all ∧ p.validateTx env tx isLocal = none ∧
      p.add env tx isLocal = p.place env tx isLocal) ∨
    ¬ (tx ∉ p.all ∧ p.validateTx env tx isLocal = none) ∧
      ∃ e, p.add env tx isLocal = (p, .error e) := by
  unfold add
  split
  · rename_i hall
    exact .inr ⟨fun h => h.1 hall, _, rfl⟩
  rename_i hnew
  split
  · rename_i e hvalid
    refine .inr ⟨fun h => ?_, _, rfl⟩
    rw [h.2] at hvalid
    cases hvalid
  · rename_i hvalid
    rw [if_neg (not_le.mpr hroom)]
    exact .inl ⟨hnew, hvalid, rfl⟩

theorem Placed.pends_iff (h : Placed p p' tx) (m : ℕ) : p'.Pends a m ↔ p.Pends a m := by
  rcases h.pending with hp | ⟨⟨v, hv, hvn⟩, hother, hself⟩
  · unfold Pends
    rw [hp]
  by_cases ha : a = tx.addr
  swap
  · unfold Pends
    rw [hother a ha]
  subst ha
  constructor
  · rintro ⟨u, hu, rfl⟩
    rcases (hself u).mp hu with rfl | ⟨hu, -⟩
    · exact ⟨v, hv, hvn⟩
    · exact ⟨u, hu, rfl⟩
  · rintro ⟨u, hu, rfl⟩
    by_cases hn : u.nonce = tx.nonce
    · exact ⟨tx, (hself tx).mpr (.inl rfl), hn.symm⟩
    · exact ⟨u, (hself u).mpr (.inr ⟨hu, hn⟩), rfl⟩

/-! ## The loop fills the nonces -/

variable (env) in
/-- The transactions `txs` have one for every nonce from that of the account up to `n`, and the pool
takes them. -/
structure Refilled (p : TxPool) (a : Address) (n : ℕ) (txs : List Transaction) : Prop where
  nodup : txs.Nodup
  room : p.all.list.length + txs.length ≤ capacity env
  covers : ∀ i, p.currentState.nonce a ≤ i → i < n → ∃ tx ∈ txs, tx.addr = a ∧ tx.nonce = i ∧
    tx ∉ p.all ∧ p.Acceptable env tx

variable (env T) in
/-- The state between two additions. -/
structure Refilling (p : TxPool) (a : Address) (n : ℕ) (rest : List Transaction) (q : TxPool)
    (dirty : List Address) : Prop where
  within : q.Within T
  rules : SameRules p q
  nonces : q.pendingNonces = p.pendingNonces
  pends : ∀ m, q.Pends a m ↔ p.Pends a m
  nodup : rest.Nodup
  room : q.all.list.length + rest.length ≤ capacity env
  slots : ∀ i, p.currentState.nonce a ≤ i → i < n → (∃ u ∈ q.queue.txs a, u.nonce = i) ∨
    ∃ tx ∈ rest, tx.addr = a ∧ tx.nonce = i ∧ tx ∉ q.all ∧ p.Acceptable env tx
  payable : ∀ u ∈ q.queue.txs a, u.nonce < n → p.currentState.nonce a ≤ u.nonce ∧
    u.exceeds (p.currentState.balance a) p.currentMaxGas = false
  marked : (∃ u ∈ q.queue.txs a, u.nonce < n) → a ∈ dirty

variable {n : ℕ} {rest : List Transaction} {txs : List Transaction} {q : TxPool}

theorem Refilling.refused {dirty : List Address} (h : Refilling env T p a n (tx :: rest) q dirty)
    (hbad : ¬ (tx ∉ q.all ∧ q.validateTx env tx false = none)) :
    Refilling env T p a n rest q dirty where
  __ := h
  nodup := (nodup_cons.mp h.nodup).2
  room := by
    have := h.room
    rw [length_cons] at this
    omega
  slots := by
    intro i hle hlt
    rcases h.slots i hle hlt with h' | ⟨u, hu, ha, hn, hnew, hacc⟩
    · exact .inl h'
    · rcases mem_cons.mp hu with rfl | hu
      · exact absurd ⟨hnew, h.rules.valid hacc⟩ hbad
      · exact .inr ⟨u, hu, ha, hn, hnew, hacc⟩

theorem Refilling.placed {dirty dirty' : List Address} (hlow : ∀ m, p.Pends a m → n ≤ m)
    (h : Refilling env T p a n (tx :: rest) q dirty) (hT : T tx) (hnew : tx ∉ q.all)
    (hvalid : q.validateTx env tx false = none) (hdirty : a ∈ dirty → a ∈ dirty')
    (hmark : (q.place env tx false).2 = .ok false → tx.addr ∈ dirty') :
    Refilling env T p a n rest (q.place env tx false).1 dirty' := by
  have hroom := h.room
  rw [length_cons] at hroom
  have hpl : Placed q (q.place env tx false).1 tx := place_placed q tx false
  obtain ⟨henq, hrules⟩ : Enqueued q (q.place env tx false).1 tx (q.place env tx false).2 ∧
      SameRules q (q.place env tx false).1 := place_enqueued q tx
  have hlen : (q.place env tx false).1.all.list.length ≤ q.all.list.length + 1 :=
    (place_shrinks q tx false).2
  have hmoves : Moves env (admitting fun u => u = tx ∧ T u) (q, [])
    ((q.place env tx false).1, []) :=
    place_moves h.within.slotted hnew (sender_of_valid hvalid) ⟨rfl, hT⟩ (fun _ => trivial) false
  have hwithin : (q.place env tx false).1.Within T := by
    refine ⟨hmoves.slotted h.within.slotted, fun b u hu => ?_⟩
    exact (hmoves.mem_held hu).elim (h.within.held b u) And.right
  have hfits := fits_of_valid hvalid
  generalize (q.place env tx false).2 = result at henq hmark
  generalize (q.place env tx false).1 = q' at hpl henq hrules hlen hmoves hwithin
  -- the account of a queued transaction is its sender
  have haddr : tx ∈ q'.queue.txs a → tx.addr = a := fun hu =>
    hwithin.slotted.addr_eq (mem_held.mpr (.inr (.inl hu)))
  refine ⟨hwithin, h.rules.trans hrules, hpl.nonces.trans h.nonces, fun m => ?_,
    (nodup_cons.mp h.nodup).2, by omega, fun i hle hlt => ?_, fun u hu hlt => ?_, ?_⟩
  · rw [hpl.pends_iff]
    exact h.pends m
  · rcases h.slots i hle hlt with ⟨u, hu, hn⟩ | ⟨u, hu, ha, hn, hun, hacc⟩
    · obtain ⟨v, hv, hvn⟩ := henq.slots a u hu
      exact .inl ⟨v, hv, hvn.trans hn⟩
    · rcases mem_cons.mp hu with rfl | hu
      · subst ha
        obtain ⟨v, hv, hvn⟩ := henq.filled fun hp => by
          have := hlow _ ((h.pends _).mp hp)
          omega
        exact .inl ⟨v, hv, hvn.trans hn⟩
      · refine .inr ⟨u, hu, ha, hn, fun hmem => ?_, hacc⟩
        rcases hmoves.mem_all hmem with hmem | ⟨he, -⟩
        · exact hun hmem
        · exact (nodup_cons.mp h.nodup).1 (he ▸ hu)
  · rcases henq.only a u hu with rfl | hu
    · rw [← h.rules.state, ← h.rules.maxGas, ← haddr hu]
      exact ⟨hfits.nonce, hfits.payable⟩
    · exact h.payable u hu hlt
  · rintro ⟨u, hu, hlt⟩
    by_cases hres : result = .ok false
    · rcases henq.only a u hu with rfl | hu
      · exact haddr hu ▸ hmark hres
      · exact hdirty (h.marked ⟨u, hu, hlt⟩)
    · obtain ⟨v, hv, hvn⟩ := henq.reported hres a u hu
      exact hdirty (h.marked ⟨v, hv, by omega⟩)

theorem addAll_refilling (hlow : ∀ m, p.Pends a m → n ≤ m)
    (hT : ∀ tx ∈ txs, p.currentState.nonce tx.addr ≤ tx.nonce → T tx)
    (h : Refilling env T p a n txs p []) :
    Refilling env T p a n [] (addAll env false txs p []).1 (addAll env false txs p []).2 := by
  have hstep : ∀ (tx : Transaction) (rest : List Transaction) (q : TxPool)
      (dirty dirty' : List Address),
      (tx :: rest ⊆ txs ∧ Refilling env T p a n (tx :: rest) q dirty) →
      (a ∈ dirty → a ∈ dirty') → ((q.add env tx false).2 = .ok false → tx.addr ∈ dirty') →
      rest ⊆ txs ∧ Refilling env T p a n rest (q.add env tx false).1 dirty' := by
    intro tx rest q dirty dirty' hC hdirty hmark
    refine ⟨fun u hu => hC.1 (mem_cons_of_mem _ hu), ?_⟩
    have hroom := hC.2.room
    rw [length_cons] at hroom
    have hfree : q.all.list.length < capacity env := by omega
    rcases add_of_room hfree tx false with ⟨hnew, hvalid, hadd⟩ | ⟨hbad, e, hadd⟩
    · rw [hadd] at hmark ⊢
      refine hC.2.placed hlow (hT tx (hC.1 mem_cons_self) ?_) hnew hvalid hdirty hmark
      rw [← hC.2.rules.state]
      exact (fits_of_valid hvalid).nonce
    · rw [hadd]
      have h' := hC.2.refused hbad
      exact { h' with marked := fun hex => hdirty (h'.marked hex) }
  refine (addAll_keeps (C := fun rest q dirty => rest ⊆ txs ∧ Refilling env T p a n rest q dirty)
    (fun tx rest q dirty hC _ => hstep tx rest q dirty _ hC (fun ha => ?_) fun _ => ?_)
    (fun tx rest q dirty hC hr => hstep tx rest q dirty dirty hC id fun h => absurd h hr) txs []
    ⟨List.Subset.refl _, h⟩).2
  · split
    · exact ha
    · exact mem_append_left _ ha
  · split
    · assumption
    · exact mem_append_right _ (mem_singleton_self _)

/-! ## Promotion closes the gap -/

/-- The queue of the account leads from its nonce to its pending list. -/
structure Bridged (p : TxPool) (a : Address) (n k : ℕ) : Prop where
  low : p.pendingNonce a = p.currentState.nonce a
  pends : ∀ m, p.Pends a m ↔ n ≤ m ∧ m < n + k
  bridge : ∀ i, p.currentState.nonce a ≤ i → i < n → ∃ u, p.Payable a u ∧ u.nonce = i

theorem Bridged.promoted (hs : p.Slotted []) (hn : p.currentState.nonce a < n) (hk : 0 < k)
    (h : p.Bridged a n k) : ∃ k', (p.promoteAccount env a).Aligned a k' := by
  obtain ⟨ready, hrun, hpr⟩ : ∃ ready, ReadyRun p a ready ∧
      Promoted p (p.promoteAccount env a) a ready := promoteAccount_promoted hs
  generalize p.promoteAccount env a = p' at hpr
  obtain ⟨u, hu, hun⟩ := h.bridge _ (le_refl _) hn
  cases ready with
  | nil =>
    have hstart := hrun.starts rfl u hu
    have := h.low
    omega
  | cons first rest =>
    have hge := (hrun.payable first mem_cons_self).2.1
    have hle := hrun.lowest first rfl u hu
    have hfirst : first.nonce = p.currentState.nonce a := by omega
    -- the run does not stop before the pending list, and it does not reach into it
    have hlen : first.nonce + rest.length + 1 = n := by
      have hstop : n ≤ first.nonce + rest.length + 1 := by
        by_contra hlt
        obtain ⟨v, hv, hvn⟩ := h.bridge (first.nonce + rest.length + 1) (by omega) (by omega)
        exact hrun.stops first rfl v hv (by rw [length_cons]; omega)
      have hreach : ¬ n ≤ first.nonce + rest.length := by
        intro hle
        obtain ⟨w, hw, hwn⟩ := (hrun.mem_nonce n).mpr ⟨by omega, hle⟩
        obtain ⟨v, hv, hvn⟩ := (h.pends n).mpr ⟨le_refl _, by omega⟩
        exact hs.pending_ne_queue hv (hrun.payable w hw).1 (hvn.trans hwn.symm)
      omega
    have hpn : p'.pendingNonce a ≤ n := by
      rw [(hpr.pendingNonce hrun).1, ← hlen]
      exact mod_le _ _
    refine ⟨n - p.currentState.nonce a + k, fun m hm => ?_, ?_, fun v hv hle hlt => ?_⟩
    · rw [hpr.state] at hm ⊢
      have hpends : p'.Pends a m ↔ p.Pends a m ∨ ∃ u ∈ first :: rest, u.nonce = m := by
        simp only [Pends, hpr.mem, or_and_right, exists_or]
      rw [hpends, h.pends, hrun.mem_nonce]
      omega
    · rw [hpr.state]
      omega
    · rw [hpr.state, hpr.maxGas]
      rcases (hpr.mem v).mp hv with hv | hv
      · have := (h.pends v.nonce).mp ⟨v, hv, rfl⟩
        omega
      · exact (hrun.payable v hv).2.2

/-! ### Other accounts do not interfere -/

theorem takeQueued_queue_ne {b : Address} {take : TxList → List Transaction × TxList}
    {act : TxPool → Transaction → TxPool} (hact : ∀ p tx, (act p tx).queue = p.queue)
    (hab : a ≠ b) : (p.takeQueued b take act).queue.txs a = p.queue.txs a := by
  have hfold : ∀ (out : List Transaction) (q : TxPool), (out.foldl act q).queue = q.queue := by
    intro out
    induction out with
    | nil => exact fun _ => rfl
    | cons tx out ih => exact fun q => (ih _).trans (hact q tx)
  unfold takeQueued
  split
  · rfl
  · rw [hfold]
    exact txs_insert_ne hab

theorem promoteTx_queue (p : TxPool) (tx : Transaction) :
    (promoteTx env a p tx).queue = p.queue := by
  unfold promoteTx
  split
  · rfl
  · rename_i old l _
    simp only
    split
    · cases old <;> rfl
    · cases old <;> rfl

theorem promoteAccount_queue_ne {b : Address} (hab : a ≠ b) :
    (p.promoteAccount env b).queue.txs a = p.queue.txs a := by
  have hdelete : ∀ (q : TxPool) (tx : Transaction), (q.deleteTx env tx).queue = q.queue :=
    fun _ _ => rfl
  have hlimit : ∀ q : TxPool, (q.limitQueue env b).queue.txs a = q.queue.txs a := by
    intro q
    unfold limitQueue
    split
    · rfl
    · exact takeQueued_queue_ne hdelete hab
  have hempty : ∀ q : TxPool, (q.deleteEmptyQueue b).queue.txs a = q.queue.txs a := by
    intro q
    unfold deleteEmptyQueue
    split
    · exact txs_erase_ne hab
    · rfl
  rw [promoteAccount, hempty, hlimit, promoteReady, takeQueued_queue_ne promoteTx_queue hab,
    filterQueue, takeQueued_queue_ne hdelete hab]
  exact takeQueued_queue_ne hdelete hab

theorem Bridged.promoted_ne {b : Address} (hs : p.Slotted []) (hab : a ≠ b)
    (h : p.Bridged a n k) : (p.promoteAccount env b).Bridged a n k := by
  have hqueue : (p.promoteAccount env b).queue.txs a = p.queue.txs a := promoteAccount_queue_ne hab
  obtain ⟨ready, hrun, hpr⟩ : ∃ ready, ReadyRun p b ready ∧
      Promoted p (p.promoteAccount env b) b ready := promoteAccount_promoted hs
  generalize p.promoteAccount env b = p' at hpr hqueue
  have hn : p'.pendingNonce a = p.pendingNonce a := by
    cases ready with
    | nil => exact pendingNonce_congr hpr.nonces hpr.state a
    | cons first rest => exact (hpr.pendingNonce hrun).2 a hab
  refine ⟨?_, fun m => ?_, ?_⟩
  · rw [hn, hpr.state]
    exact h.low
  · unfold Pends
    rw [hpr.other a hab]
    exact h.pends m
  · simp only [Payable, hqueue, hpr.state, hpr.maxGas]
    exact h.bridge

theorem Evolves.aligned (h : Evolves T p p') (ha : ∃ k, p.Aligned a k) : ∃ k, p'.Aligned a k := by
  refine h.keeps (I := fun q => ∃ k, q.Aligned a k) (fun q q' hq hc h => ?_) ha
  obtain ⟨k, hk⟩ := h
  exact hk.changed hq.slotted hc.state hc.maxGas (hc.change a)

theorem promoteAll_bridged (accounts : List Address) (ha : a ∈ accounts)
    (hw : p.Within T) (hn : p.currentState.nonce a < n) (hk : 0 < k) (h : p.Bridged a n k) :
    ∃ k', (accounts.foldl (promoteAccount env) p).Aligned a k' := by
  induction accounts generalizing p with
  | nil => cases ha
  | cons b accounts ih =>
    have he : Evolves T p (p.promoteAccount env b) := promoteAccount_evolves hw
    by_cases hab : a = b
    · subst hab
      exact (promoteAll_evolves accounts (he.within hw)).aligned (h.promoted hw.slotted hn hk)
    · refine ih ((mem_cons.mp ha).resolve_left hab) (he.within hw) ?_ (h.promoted_ne hw.slotted hab)
      rw [he.state]
      exact hn

/-- **A refilled account is aligned**: the nonces up to its pending list are reinjected and
promoted. -/
theorem addTxs_refilled (hT : ∀ tx ∈ txs, p.currentState.nonce tx.addr ≤ tx.nonce → T tx)
    (hw : p.Within T) (hn : p.currentState.nonce a < n) (hk : 0 < k)
    (hnonce : p.pendingNonce a = p.currentState.nonce a)
    (hpends : ∀ m, p.Pends a m ↔ n ≤ m ∧ m < n + k) (hqueue : ∀ u ∈ p.queue.txs a, n ≤ u.nonce)
    (h : p.Refilled env a n txs) : ∃ k', (p.addTxs env txs false).Aligned a k' := by
  have hstart : Refilling env T p a n txs p [] := by
    refine ⟨hw, ⟨⟨rfl, rfl⟩, rfl, rfl, rfl⟩, rfl, fun _ => Iff.rfl, h.nodup, h.room,
      fun i hle hlt => .inr (h.covers i hle hlt), fun u hu hlt => ?_, ?_⟩
    · exact absurd (hqueue u hu) (by omega)
    · rintro ⟨u, hu, hlt⟩
      exact absurd (hqueue u hu) (by omega)
  have hend := addAll_refilling (fun m hm => ((hpends m).mp hm).1) hT hstart
  have hslots : ∀ i, p.currentState.nonce a ≤ i → i < n →
      ∃ u ∈ (addAll env false txs p []).1.queue.txs a, u.nonce = i := by
    intro i hle hlt
    refine (hend.slots i hle hlt).resolve_right ?_
    rintro ⟨u, hu, -⟩
    cases hu
  obtain ⟨u, hu, hun⟩ := hslots _ (le_refl _) hn
  have hmem : a ∈ (addAll env false txs p []).2 := hend.marked ⟨u, hu, by omega⟩
  unfold addTxs
  generalize addAll env false txs p [] = res at hend hslots hmem
  obtain ⟨q, dirty⟩ := res
  simp only at hend hslots hmem ⊢
  rw [if_neg (ne_nil_of_mem hmem)]
  have hb : q.Bridged a n k := by
    refine ⟨?_, fun m => (hend.pends m).trans (hpends m), fun i hle hlt => ?_⟩
    · rw [pendingNonce_congr hend.nonces hend.rules.state, hend.rules.state]
      exact hnonce
    · rw [hend.rules.state] at hle
      obtain ⟨v, hv, hvn⟩ := hslots i hle hlt
      obtain ⟨hge, hpay⟩ := hend.payable v hv (by omega)
      refine ⟨v, ⟨hv, ?_, ?_⟩, hvn⟩
      · rw [hend.rules.state]
        exact hge
      · rw [hend.rules.state, hend.rules.maxGas]
        exact hpay
  have hq := tick_within (tick_within hend.within)
  have hvisit : a ∈ (env.oracle.accounts q.clock).visit dirty :=
    ((env.oracle.accounts q.clock).visit_perm dirty).mem_iff.mpr hmem
  have haligned : ∃ k', (((env.oracle.accounts q.clock).visit dirty).foldl (promoteAccount env)
      q.tick.tick).Aligned a k' := by
    refine promoteAll_bridged _ hvisit hq ?_ hk { hb with }
    change q.currentState.nonce a < n
    rw [hend.rules.state]
    exact hn
  exact (caps_evolve ((promoteAll_evolves _ hq).within hq)).aligned haligned

end TxPool

end XChain
