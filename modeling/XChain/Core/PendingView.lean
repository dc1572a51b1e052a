import XChain.Core.Admission

/-!
# The pending lists after an operation

What the functions of the pool do to the pending lists and to the virtual nonces, for a slotted
pool.

* **`Evolves.keeps`**: every operation is a chain of such changes, and keeps what each one keeps.
-/

namespace XChain

open List Function Nat GoText

namespace TxPool

open TxLists (items_getD txs txs_insert_ne txs_insert_self txs_of_lookup txs_of_none)
open TxSortedMap (consecutive ready)

variable {env : PoolEnv} {p p' : TxPool} {F : List Transaction} {a b : Address} {l : TxList}
  {tx : Transaction} {take : TxList → List Transaction × TxList} {nonce : ℕ}

def Pends (p : TxPool) (a : Address) (nonce : ℕ) : Prop := ∃ tx ∈ p.pending.txs a, tx.nonce = nonce

/-! ## The virtual nonce -/

theorem pendingNonce_congr (hn : p'.pendingNonces = p.pendingNonces)
    (hst : p'.currentState = p.currentState) (b : Address) :
    p'.pendingNonce b = p.pendingNonce b := by
  rw [pendingNonce, hn, hst, pendingNonce]

theorem pendingNonce_lowered (hn : p'.pendingNonces = (p.lowerNonce a nonce).pendingNonces)
    (hst : p'.currentState = p.currentState) :
    p'.pendingNonce a = min (p.pendingNonce a) nonce ∧
      ∀ b, b ≠ a → p'.pendingNonce b = p.pendingNonce b := by
  unfold lowerNonce at hn
  split at hn
  · rename_i hlt
    refine ⟨?_, fun b hb => ?_⟩
    · rw [pendingNonce, hn]
      change (update p.pendingNonces a (some nonce) a).getD _ = _
      rw [update_self, Option.getD_some]
      omega
    · rw [pendingNonce, hn, hst]
      change (update p.pendingNonces a (some nonce) b).getD _ = _
      rw [update_of_ne hb]
      rfl
  · rename_i hle
    refine ⟨?_, fun b _ => pendingNonce_congr hn hst b⟩
    rw [pendingNonce_congr hn hst]
    omega

theorem pendingNonce_updated
    (hn : p'.pendingNonces = update p.pendingNonces a (some nonce))
    (hst : p'.currentState = p.currentState) :
    p'.pendingNonce a = nonce ∧ ∀ b, b ≠ a → p'.pendingNonce b = p.pendingNonce b := by
  refine ⟨?_, fun b hb => ?_⟩
  · rw [pendingNonce, hn, update_self, Option.getD_some]
  · rw [pendingNonce, hn, hst, update_of_ne hb, pendingNonce]

/-! ## Stages that leave the pending lists alone -/

theorem takeQueued_same {act : TxPool → Transaction → TxPool}
    (hact : ∀ p tx, SamePending p (act p tx)) : SamePending p (p.takeQueued a take act) := by
  unfold takeQueued
  split
  · exact SamePending.refl p
  · rename_i l _
    have hset : SamePending p (p.setQueue a (take l).2) := ⟨⟨rfl, rfl⟩, rfl, rfl, rfl⟩
    exact hset.trans (SamePending.foldl hact _ _)

theorem tick_same (p : TxPool) : SamePending p p.tick := ⟨⟨rfl, rfl⟩, rfl, rfl, rfl⟩

theorem forwardQueue_same : SamePending p (p.forwardQueue env a) := takeQueued_same deleteTx_same

theorem filterQueue_same : SamePending p (p.filterQueue env a) :=
  (tick_same p).trans (takeQueued_same deleteTx_same)

theorem limitQueue_same : SamePending p (p.limitQueue env a) := by
  unfold limitQueue
  split
  · exact SamePending.refl p
  · exact takeQueued_same deleteTx_same

theorem deleteEmptyQueue_same : SamePending p (p.deleteEmptyQueue a) := by
  unfold deleteEmptyQueue
  split <;> exact ⟨⟨rfl, rfl⟩, rfl, rfl, rfl⟩

theorem takeQueued_lookup :
    (p.takeQueued a take (deleteTx env)).queue.lookup a =
      (p.queue.lookup a).map fun l => (take l).2 := by
  have hfold : ∀ (out : List Transaction) (q : TxPool),
      (out.foldl (deleteTx env) q).queue = q.queue := by
    intro out
    induction out with
    | nil => exact fun _ => rfl
    | cons tx out ih => exact fun q => ih (q.deleteTx env tx)
  unfold takeQueued
  split
  · rename_i hl
    rw [hl]
    rfl
  · rename_i l hl
    rw [hfold, hl]
    exact AList.lookup_insert _

theorem forwardQueue_txs : (p.forwardQueue env a).queue.txs a =
    (p.queue.txs a).filter fun tx => decide (p.currentState.nonce a ≤ tx.nonce) := by
  have h : (p.forwardQueue env a).queue.lookup a =
      (p.queue.lookup a).map fun l => (l.forward (p.currentState.nonce a)).2 := takeQueued_lookup
  rw [txs, h, txs]
  cases p.queue.lookup a with
  | none | some l => rfl

theorem mem_filterQueue (hk : p.Kinds) : tx ∈ (p.filterQueue env a).queue.txs a ↔
    tx ∈ p.queue.txs a ∧ tx.exceeds (p.currentState.balance a) p.currentMaxGas = false := by
  have h : (p.filterQueue env a).queue.lookup a =
      (p.queue.lookup a).map fun l => (p.unpayable env a l).2 := takeQueued_lookup
  rw [txs, h]
  cases hl : p.queue.lookup a with
  | none =>
    rw [txs_of_none hl]
    simp
  | some l =>
    rw [txs_of_lookup hl]
    obtain ⟨_, rfl, hspec⟩ := exists_filter env p a l
    have hperm := hspec.perm
    rw [hspec.lost (hk.2 a l hl), nil_append] at hperm
    refine ⟨fun htx => ⟨hperm.mem_iff.mpr (mem_append_right _ htx), hspec.within tx htx⟩, ?_⟩
    rintro ⟨htx, hx⟩
    refine (mem_append.mp (hperm.mem_iff.mp htx)).resolve_left fun hrem => ?_
    rw [((hspec.removed tx).mp hrem).2] at hx
    exact absurd hx.symm Bool.false_ne_true

/-! ## Promotion -/

/-- The transactions `ready` join the pending list of the account, and the virtual nonce follows the
last of them. -/
structure Promoted (p p' : TxPool) (a : Address) (ready : List Transaction) : Prop
    extends SameView p p' where
  locals : p'.locals = p.locals
  other : ∀ b, b ≠ a → p'.pending.txs b = p.pending.txs b
  mem : ∀ tx, tx ∈ p'.pending.txs a ↔ tx ∈ p.pending.txs a ∨ tx ∈ ready
  nonces : p'.pendingNonces = ready.getLast?.elim p.pendingNonces fun tx =>
    Function.update p.pendingNonces a (some (Word64.add tx.nonce 1))

theorem Promoted.of_same {ready : List Transaction} {q q' : TxPool} (h : SamePending p q)
    (hpr : Promoted q q' a ready) (h' : SamePending q' p') : Promoted p p' a ready where
  toSameView := h.toSameView.trans (hpr.toSameView.trans h'.toSameView)
  locals := (h'.locals.trans hpr.locals).trans h.locals
  other := fun b hb => by rw [h'.pending, hpr.other b hb, h.pending]
  mem := fun tx => by rw [h'.pending, hpr.mem tx, h.pending]
  nonces := by rw [h'.nonces, hpr.nonces, h.nonces]

theorem promoteTx_promoted (ha : tx.addr = a) (hs : p.Slotted (tx :: F)) :
    Promoted p (promoteTx env a p tx) a [tx] := by
  subst ha
  have hfree : ∀ u ∈ ((p.pending.lookup tx.addr).getD (TxList.new true)).items,
      u.nonce ≠ tx.nonce := by
    rw [items_getD]
    exact fun u hu => hs.free u (mem_held.mpr (.inl hu))
  obtain ⟨l, hadd, -, hperm⟩ := TxList.add_of_free hfree env.priceBump
  rw [items_getD] at hperm
  rw [promoteTx_of_add hs.mem_all_head hadd]
  refine ⟨⟨rfl, rfl⟩, rfl, fun b hb => txs_insert_ne hb, fun u => ?_, rfl⟩
  change u ∈ txs (p.pending.insert tx.addr l) tx.addr ↔ _
  rw [txs_insert_self, hperm.mem_iff, mem_cons, mem_singleton]
  exact or_comm

theorem foldl_promoteTx_promoted (ready : List Transaction) (ha : ∀ tx ∈ ready, tx.addr = a)
    (hs : p.Slotted (ready ++ F)) : Promoted p (ready.foldl (promoteTx env a) p) a ready := by
  induction ready generalizing p with
  | nil => exact ⟨⟨rfl, rfl⟩, rfl, fun _ _ => rfl, fun tx => by simp, rfl⟩
  | cons tx ready ih =>
    have htx := ha tx mem_cons_self
    have h₁ : Promoted p (promoteTx env a p tx) a [tx] := promoteTx_promoted htx hs
    have hmoves : Moves env (fun _ => False) (p, tx :: (ready ++ F))
        (promoteTx env a p tx, ready ++ F) := promoteTx_moves htx hs
    have h₂ := ih (p := promoteTx env a p tx) (fun u hu => ha u (mem_cons_of_mem _ hu))
      (hmoves.slotted hs)
    refine ⟨h₁.toSameView.trans h₂.toSameView, h₂.locals.trans h₁.locals,
      fun b hb => (h₂.other b hb).trans (h₁.other b hb), fun u => ?_, ?_⟩
    · refine (h₂.mem u).trans ((or_congr_left (h₁.mem u)).trans ?_)
      rw [mem_singleton, mem_cons, or_assoc]
    · refine h₂.nonces.trans ?_
      rw [h₁.nonces]
      cases hlast : ready.getLast? with
      | none =>
        rw [getLast?_eq_none_iff.mp hlast]
        rfl
      | some last =>
        have hcons : (tx :: ready).getLast? = some last := by
          rw [getLast?_cons, hlast]
          rfl
        rw [hcons]
        exact update_idem _ _ _

def Payable (p : TxPool) (a : Address) (tx : Transaction) : Prop :=
  tx ∈ p.queue.txs a ∧ p.currentState.nonce a ≤ tx.nonce ∧
    tx.exceeds (p.currentState.balance a) p.currentMaxGas = false

/-- What list.Ready gives for the account. -/
structure ReadyRun (p : TxPool) (a : Address) (ready : List Transaction) : Prop where
  payable : ∀ tx ∈ ready, p.Payable a tx
  run : ∀ first, ready.head? = some first → first.nonce ≤ p.pendingNonce a ∧
    ready.map Transaction.nonce = List.range' first.nonce ready.length
  lowest : ∀ first, ready.head? = some first → ∀ tx, p.Payable a tx → first.nonce ≤ tx.nonce
  stops : ∀ first, ready.head? = some first → ∀ tx, p.Payable a tx →
    tx.nonce ≠ first.nonce + ready.length
  starts : ready = [] → ∀ tx, p.Payable a tx → p.pendingNonce a < tx.nonce

theorem readyRun_nil (h : ∀ tx, p.Payable a tx → p.pendingNonce a < tx.nonce) :
    ReadyRun p a [] where
  payable _ hmem := absurd hmem not_mem_nil
  run _ hhead := absurd hhead (Option.some_ne_none _).symm
  lowest _ hhead := absurd hhead (Option.some_ne_none _).symm
  stops _ hhead := absurd hhead (Option.some_ne_none _).symm
  starts _ := h

theorem consecutive_stops (next : ℕ) (txs : List Transaction)
    (hsorted : txs.Pairwise fun a b => a.nonce < b.nonce) (hge : ∀ tx ∈ txs, next ≤ tx.nonce) :
    ∀ tx ∈ txs, tx.nonce ≠ next + (consecutive next txs).length := by
  induction txs generalizing next with
  | nil => exact nofun
  | cons u txs ih =>
    rw [pairwise_cons] at hsorted
    intro tx htx
    rw [consecutive]
    split
    · rename_i hu
      rcases mem_cons.mp htx with rfl | htx
      · rw [length_cons]
        omega
      · have := ih (next + 1) hsorted.2 (fun w hw => by have := hsorted.1 w hw; omega) tx htx
        rw [length_cons]
        omega
    · rename_i hu
      have hlt := hge u mem_cons_self
      rw [length_nil]
      rcases mem_cons.mp htx with rfl | htx
      · omega
      · have := hsorted.1 tx htx
        omega

theorem ready_cases (l : TxList) (start : ℕ) :
    ((l.ready start).1 = [] ∧ ∀ tx ∈ l.items, start < tx.nonce) ∨
      ∃ first rest, l.items = first :: rest ∧ first.nonce ≤ start ∧
        (l.ready start).1 = consecutive first.nonce l.items := by
  change ((l.txs.ready start).1 = [] ∧ ∀ tx ∈ l.txs.items, start < tx.nonce) ∨
    ∃ first rest, l.txs.items = first :: rest ∧ first.nonce ≤ start ∧
      (l.txs.ready start).1 = consecutive first.nonce l.txs.items
  have hsorted := l.txs.sorted
  unfold ready
  split
  · rename_i hitems
    refine .inl ⟨rfl, fun tx htx => ?_⟩
    rw [hitems] at htx
    cases htx
  · rename_i first rest hitems
    rw [hitems, pairwise_cons] at hsorted
    split
    · rename_i hlt
      refine .inl ⟨rfl, fun tx htx => ?_⟩
      rw [hitems] at htx
      rcases mem_cons.mp htx with rfl | htx
      · exact hlt
      · have := hsorted.1 tx htx
        omega
    · rename_i hle
      exact .inr ⟨first, rest, hitems, Nat.le_of_not_lt hle, rfl⟩

theorem consecutive_head (first : Transaction) (rest : List Transaction) :
    (consecutive first.nonce (first :: rest)).head? = some first := by
  rw [consecutive, if_pos rfl, head?_cons]

variable {first : Transaction} {rest : List Transaction}

theorem first_nonce_le
    (h : l.items = first :: rest) (htx : tx ∈ l.items) : first.nonce ≤ tx.nonce := by
  have hsorted : l.items.Pairwise fun a b => a.nonce < b.nonce := l.txs.sorted
  rw [h, pairwise_cons] at hsorted
  rw [h] at htx
  rcases mem_cons.mp htx with rfl | htx
  · exact le_refl _
  · exact le_of_lt (hsorted.1 tx htx)

theorem readyRun_of_list (hpay : ∀ tx, p.Payable a tx ↔ tx ∈ l.items) :
    ReadyRun p a (l.ready (p.pendingNonce a)).1 := by
  have hpayable : ∀ tx ∈ (l.ready (p.pendingNonce a)).1, p.Payable a tx := by
    intro tx htx
    rw [hpay, ← l.ready_append (p.pendingNonce a)]
    exact mem_append_left _ htx
  rcases ready_cases l (p.pendingNonce a) with ⟨hnil, hlow⟩ | ⟨u, rest, hu, hle, hrun⟩
  · rw [hnil]
    exact readyRun_nil fun tx htx => hlow tx ((hpay tx).mp htx)
  · have hhead : ∀ first, (l.ready (p.pendingNonce a)).1.head? = some first → first = u := by
      intro first h
      rw [hrun, hu, consecutive_head] at h
      exact (Option.some.inj h).symm
    refine ⟨hpayable, fun first h => ?_, fun first h tx htx => ?_, fun first h tx htx => ?_,
      fun h => ?_⟩
    · rw [hhead first h, hrun]
      exact ⟨hle, TxSortedMap.consecutive_nonce _ _⟩
    · rw [hhead first h]
      exact first_nonce_le hu ((hpay tx).mp htx)
    · rw [hhead first h, hrun]
      exact consecutive_stops _ _ l.txs.sorted (fun w hw => first_nonce_le hu hw) tx
        ((hpay tx).mp htx)
    · rw [hrun, hu, consecutive, if_pos rfl] at h
      cases h

/-- **Promotion of one account** adds its executable transactions. -/
theorem promoteAccount_promoted (hs : p.Slotted []) :
    ∃ ready, ReadyRun p a ready ∧ Promoted p (p.promoteAccount env a) a ready := by
  have hm₁ : Moves env (fun _ => False) (p, []) (p.forwardQueue env a, []) := forwardQueue_moves hs
  have hm₂ := hm₁.trans (filterQueue_moves (a := a) (hm₁.slotted hs))
  have hs₂ : ((p.forwardQueue env a).filterQueue env a).Slotted [] := hm₂.slotted hs
  have hsame₁ : SamePending p (p.forwardQueue env a) := forwardQueue_same
  have hsame : SamePending p ((p.forwardQueue env a).filterQueue env a) :=
    hsame₁.trans filterQueue_same
  have hmem : ∀ tx, tx ∈ ((p.forwardQueue env a).filterQueue env a).queue.txs a ↔
      p.Payable a tx := by
    intro tx
    rw [mem_filterQueue (hm₁.slotted hs).kinds, forwardQueue_txs, mem_filter, hsame₁.state,
      hsame₁.maxGas, decide_eq_true_eq, and_assoc]
    rfl
  have hlast : SamePending (((p.forwardQueue env a).filterQueue env a).promoteReady env a)
      (p.promoteAccount env a) := limitQueue_same.trans deleteEmptyQueue_same
  have hnonce : ((p.forwardQueue env a).filterQueue env a).pendingNonce a = p.pendingNonce a := by
    rw [pendingNonce, hsame.nonces, hsame.state, pendingNonce]
  generalize (p.forwardQueue env a).filterQueue env a = q at hs₂ hsame hmem hlast hnonce
  cases hl : q.queue.lookup a with
  | none =>
    refine ⟨[], readyRun_nil fun tx htx => ?_, Promoted.of_same hsame
      (q := q) (a := a) ⟨⟨rfl, rfl⟩, rfl, fun _ _ => rfl, fun tx => by simp, rfl⟩ ?_⟩
    · rw [← hmem tx, txs_of_none hl] at htx
      cases htx
    · rw [promoteReady, takeQueued, hl] at hlast
      exact hlast
  | some l =>
    have hitems := txs_of_lookup hl
    have happend := l.ready_append (q.pendingNonce a)
    have haddr : ∀ tx ∈ (l.ready (q.pendingNonce a)).1, tx.addr = a := by
      intro tx htx
      refine hs₂.addr_eq (mem_held.mpr (.inr (.inl ?_)))
      rw [hitems, ← happend]
      exact mem_append_left _ htx
    have hout : Move env (fun _ => False) (q, []) (q.setQueue a (l.ready (q.pendingNonce a)).2,
        (l.ready (q.pendingNonce a)).1 ++ []) := by
      refine Move.outOfQueue haddr ?_ (hs₂.kinds.2 a l hl)
      rw [hitems, ← happend]
    have hset : SamePending q (q.setQueue a (l.ready (q.pendingNonce a)).2) :=
      ⟨⟨rfl, rfl⟩, rfl, rfl, rfl⟩
    have hpromoted : Promoted _ ((l.ready (q.pendingNonce a)).1.foldl (promoteTx env a)
        (q.setQueue a (l.ready (q.pendingNonce a)).2)) a _ :=
      foldl_promoteTx_promoted (F := []) _ haddr (hout.slotted hs₂)
    rw [promoteReady, takeQueued, hl] at hlast
    refine ⟨(l.ready (q.pendingNonce a)).1, ?_, Promoted.of_same (hsame.trans hset) hpromoted hlast⟩
    rw [hnonce]
    exact readyRun_of_list fun tx => by rw [← hmem tx, hitems]

/-! ## The highest transaction is lost -/

/-- The last transaction leaves the pending list of the account, and the virtual nonce falls back to
it. -/
structure Dropped (p p' : TxPool) (a : Address) : Prop extends SameView p p' where
  locals : p'.locals = p.locals
  other : ∀ b, b ≠ a → p'.pending.txs b = p.pending.txs b
  self : p'.pending.txs a = (p.pending.txs a).dropLast
  nonces : p'.pendingNonces = (p.pending.txs a).getLast?.elim p.pendingNonces fun tx =>
    (p.lowerNonce a tx.nonce).pendingNonces

theorem cap_last (l : TxList) : (l.cap (l.items.length - 1)).1 = l.items.getLast?.toList ∧
    (l.cap (l.items.length - 1)).2.items = l.items.dropLast := by
  change (l.items.drop (l.items.length - 1)).reverse = _ ∧ l.items.take (l.items.length - 1) = _
  rw [dropLast_eq_take]
  refine ⟨?_, rfl⟩
  rcases l.items.eq_nil_or_concat with h | ⟨xs, x, h⟩
  · rw [h]
    rfl
  · rw [h]
    simp

theorem dropHighest_dropped : Dropped p (p.dropHighest env a) a := by
  unfold dropHighest takePending
  split
  · rename_i hl
    have hnil := txs_of_none hl
    refine ⟨⟨rfl, rfl⟩, rfl, fun _ _ => rfl, ?_, ?_⟩
    · rw [hnil]
      rfl
    · rw [hnil]
      rfl
  · rename_i l hl
    have hitems := txs_of_lookup hl
    obtain ⟨hdrop, hrest⟩ := cap_last l
    simp only
    rw [hdrop]
    generalize (l.cap (l.items.length - 1)).2 = rest at hrest
    have hother : ∀ b, b ≠ a → txs (p.pending.insert a rest) b = p.pending.txs b :=
      fun b hb => txs_insert_ne hb
    have hself : txs (p.pending.insert a rest) a = (p.pending.txs a).dropLast := by
      rw [txs_insert_self, hrest, hitems]
    rw [← hitems]
    cases hlast : (p.pending.txs a).getLast? with
    | none => exact ⟨⟨rfl, rfl⟩, rfl, hother, hself, by rw [hlast]; rfl⟩
    | some tx =>
      rw [Option.toList_some, foldl_cons, foldl_nil, lowerNonce_eq]
      refine ⟨⟨rfl, rfl⟩, rfl, hother, hself, ?_⟩
      rw [hlast]
      apply lowerNonce_congr <;> rfl

theorem capPending_keeps {I : TxPool → Prop} (htick : ∀ p, I p → I p.tick)
    (hdrop : ∀ p a, I p → I (p.dropHighest env a)) (hI : I p) : I (p.capPending env) := by
  have hfold : ∀ (offenders : List Address) (p : TxPool), I p →
      I (offenders.foldl (dropHighest env) p) := by
    intro offenders
    induction offenders with
    | nil => exact fun _ h => h
    | cons a offenders ih => exact fun p h => ih _ (hdrop p a h)
  have hrounds : ∀ (offenders : List Address) (reference : Address) (threshold fuel : ℕ)
      (s : TxPool × ℕ), I s.1 → I (dropRounds env offenders reference threshold fuel s).1 := by
    intro offenders reference threshold fuel
    induction fuel with
    | zero => exact fun _ h => h
    | succ fuel ih =>
      rintro ⟨q, pending⟩ h
      rw [dropRounds]
      split
      · exact ih (_, _) (hfold offenders q h)
      · exact h
  have hequal : ∀ (spammers offenders : List Address) (s : TxPool × ℕ), I s.1 →
      I (equalize env spammers offenders s).1 := by
    intro spammers
    induction spammers with
    | nil => exact fun _ _ h => h
    | cons a spammers ih =>
      rintro offenders ⟨q, pending⟩ h
      rw [equalize]
      split
      · split
        · exact ih _ (q, pending) h
        · exact ih _ _ (hrounds _ _ _ _ (q, pending) h)
      · exact h
  unfold capPending
  split
  swap
  · exact hI
  have h := hequal (p.spammers env) [] (p.tick, count p.pending) (htick p hI)
  generalize equalize env (p.spammers env) [] (p.tick, count p.pending) = s at h ⊢
  obtain ⟨q, pending, offenders⟩ := s
  simp only
  split
  · exact h
  · exact hrounds _ _ _ _ (q, pending) h

/-! ## Queued transactions are removed -/

theorem removeTx_queued_same (hs : p.Slotted []) (h : tx ∈ p.queue.txs tx.addr) :
    SamePending p (p.removeTx env tx) := by
  have ht : Truncated p (p.removeTx env tx) tx := removeTx_truncated hs.kinds tx
  rcases ht.pending with ⟨hp, hn⟩ | ⟨⟨u, hu, hun⟩, -⟩
  · exact ⟨ht.toSameView, hp, hn, ht.locals⟩
  · exact absurd hun (hs.pending_ne_queue hu h)

theorem removeQueuedAll_same (out : List Transaction) (hnd : out.Nodup) (hs : p.Slotted [])
    (hout : ∀ tx ∈ out, tx ∈ p.queue.txs tx.addr) :
    SamePending p (out.foldl (removeTx env) p) := by
  induction out generalizing p with
  | nil => exact SamePending.refl p
  | cons tx out ih =>
    have htx := hout tx mem_cons_self
    rw [nodup_cons] at hnd
    refine (removeTx_queued_same hs htx).trans (ih hnd.2 (removeTx_slotted hs) fun u hu => ?_)
    refine removeTx_queued hs htx u (hout u (mem_cons_of_mem _ hu)) ?_
    rintro rfl
    exact hnd.1 hu

theorem dropQueued_same (addresses : List Address) (drop : ℕ) (hs : p.Slotted []) :
    SamePending p (dropQueued env addresses drop p) := by
  induction addresses generalizing drop p with
  | nil => exact SamePending.refl p
  | cons a addresses ih =>
    rw [dropQueued]
    split
    · exact SamePending.refl p
    · simp only
      split
      · have hsame : SamePending p ((p.queue.txs a).foldl (removeTx env) p) :=
          removeQueuedAll_same _ (hs.nodup_queue a) hs fun tx htx => hs.mem_queue_addr htx
        exact hsame.trans (ih _ (removeAll_slotted _ hs).1)
      · refine removeQueuedAll_same _ ?_ hs fun tx htx => ?_
        · exact (nodup_reverse.mpr (hs.nodup_queue a)).sublist (take_sublist _ _)
        · exact hs.mem_queue_addr (mem_reverse.mp (mem_of_mem_take htx))

theorem capQueue_same (hs : p.Slotted []) : SamePending p (p.capQueue env) := by
  have htick : p.tick.Slotted [] := { hs with }
  unfold capQueue
  simp only
  split
  · exact (tick_same p).trans (dropQueued_same _ _ htick)
  · exact SamePending.refl p

theorem evictAccount_same (hs : p.Slotted []) : SamePending p (p.evictAccount env a) := by
  have htick : p.tick.Slotted [] := { hs with }
  unfold evictAccount
  split
  · exact (tick_same p).trans (removeQueuedAll_same _ (hs.nodup_queue a) htick fun tx htx =>
      hs.mem_queue_addr htx)
  · exact tick_same p

/-! ## A new transaction -/

/-- A new transaction takes the slot of a pending one with its nonce, or leaves the pending lists
alone. -/
structure Placed (p p' : TxPool) (tx : Transaction) : Prop extends SameView p p' where
  nonces : p'.pendingNonces = p.pendingNonces
  pending : p'.pending = p.pending ∨ p.Pends tx.addr tx.nonce ∧
    (∀ b, b ≠ tx.addr → p'.pending.txs b = p.pending.txs b) ∧
    ∀ u, u ∈ p'.pending.txs tx.addr ↔ u = tx ∨ u ∈ p.pending.txs tx.addr ∧ u.nonce ≠ tx.nonce

theorem place_placed (p : TxPool) (tx : Transaction) (isLocal : Bool) :
    Placed p (p.place env tx isLocal).1 tx := by
  unfold place
  split
  · rename_i l hl
    obtain ⟨hl, hover⟩ := Option.filter_eq_some_iff.mp hl
    have hitems := txs_of_lookup hl
    split
    · exact ⟨⟨rfl, rfl⟩, rfl, .inl rfl⟩
    · rename_i old l' hadd
      have hsame : SamePending (p.setPending tx.addr l')
          (((p.setPending tx.addr l').deleteOld env old).insertTx tx) :=
        (deleteOld_same _ old).trans ⟨⟨rfl, rfl⟩, rfl, rfl, rfl⟩
      refine { hsame with pending := .inr ⟨?_, fun b hb => ?_, fun u => ?_⟩ }
      · obtain ⟨u, hu, hn⟩ := TxList.overlaps_iff.mp hover
        exact ⟨u, hitems ▸ hu, hn⟩
      · rw [hsame.pending]
        exact txs_insert_ne hb
      · rw [hsame.pending, hitems]
        change u ∈ txs (p.pending.insert tx.addr l') tx.addr ↔ _
        rw [txs_insert_self]
        exact (TxList.mem_of_add hadd).2.2 u
  · split
    · exact ⟨⟨rfl, rfl⟩, rfl, .inl rfl⟩
    · rename_i replace p₁ henq
      have hsame := enqueueTx_same henq
      exact { hsame with pending := .inl hsame.pending }

structure Fits (p : TxPool) (tx : Transaction) : Prop where
  nonce : p.currentState.nonce tx.addr ≤ tx.nonce
  payable : tx.exceeds (p.currentState.balance tx.addr) p.currentMaxGas = false

variable {isLocal : Bool}

theorem fits_of_valid (h : p.validateTx env tx isLocal = none) : p.Fits tx := by
  have hsender := sender_of_valid h
  rw [validateTx, hsender] at h
  simp only [check_eq_none] at h
  obtain ⟨-, -, -, -, hgas, -, hnonce, hcost, -⟩ := h
  refine ⟨Nat.le_of_not_lt hnonce, ?_⟩
  simp [Transaction.exceeds, not_lt.mp hgas, not_lt.mp hcost]

/-! ## How the pending lists evolve -/

/-- What one step does to an account's pending list. -/
inductive Change (p p' : TxPool) (a : Address) : Prop
  | same (hp : ∀ u, u ∈ p'.pending.txs a ↔ u ∈ p.pending.txs a)
      (hn : p'.pendingNonce a = p.pendingNonce a)
  | cut (nonce : ℕ) (hp : ∀ u, u ∈ p'.pending.txs a ↔ u ∈ p.pending.txs a ∧ u.nonce < nonce)
      (hn : p'.pendingNonce a = min (p.pendingNonce a) nonce)
  | swap (tx : Transaction) (haddr : tx.addr = a) (hfits : p.Fits tx)
      (hpends : p.Pends a tx.nonce)
      (hp : ∀ u, u ∈ p'.pending.txs a ↔ u = tx ∨ u ∈ p.pending.txs a ∧ u.nonce ≠ tx.nonce)
      (hn : p'.pendingNonce a = p.pendingNonce a)
  | grow (first : Transaction) (rest : List Transaction) (hrun : ReadyRun p a (first :: rest))
      (hp : ∀ u, u ∈ p'.pending.txs a ↔ u ∈ p.pending.txs a ∨ u ∈ first :: rest)
      (hn : p'.pendingNonce a = Word64.add (first.nonce + rest.length) 1)

structure Changed (p p' : TxPool) : Prop extends SameView p p' where
  change : ∀ a, Change p p' a

theorem SamePending.changed (h : SamePending p p') : Changed p p' where
  __ := h
  change := fun a => .same (fun u => by rw [h.pending]) (pendingNonce_congr h.nonces h.state a)

theorem Truncated.changed (h : Truncated p p' tx) : Changed p p' := by
  refine ⟨h.toSameView, fun a => ?_⟩
  rcases h.pending with ⟨hp, hn⟩ | ⟨-, hn, hself, hother⟩
  · exact .same (fun u => by rw [hp]) (pendingNonce_congr hn h.state a)
  · obtain ⟨hmin, hsame⟩ := pendingNonce_lowered hn h.state
    by_cases ha : a = tx.addr
    · subst ha
      refine .cut tx.nonce (fun u => ?_) hmin
      rw [hself, mem_filter, decide_eq_true_eq]
    · exact .same (fun u => by rw [hother a ha]) (hsame a ha)

theorem mem_dropLast_iff {u last : Transaction} {l : List Transaction}
    (hsorted : l.Pairwise fun a b => a.nonce < b.nonce) (hlast : l.getLast? = some last) :
    u ∈ l.dropLast ↔ u ∈ l ∧ u.nonce < last.nonce := by
  have happend : l.dropLast ++ [last] = l := dropLast_append_getLast? last hlast
  rw [← happend, pairwise_append] at hsorted
  constructor
  · intro hu
    exact ⟨mem_of_mem_dropLast hu, hsorted.2.2 u hu last (mem_singleton_self last)⟩
  · rintro ⟨hu, hlt⟩
    rw [← happend, mem_append, mem_singleton] at hu
    refine hu.resolve_right ?_
    rintro rfl
    exact lt_irrefl _ hlt

theorem pending_sorted (p : TxPool) (a : Address) :
    (p.pending.txs a).Pairwise fun a b => a.nonce < b.nonce := by
  cases hl : p.pending.lookup a with
  | none =>
    rw [txs_of_none hl]
    exact Pairwise.nil
  | some l =>
    rw [txs_of_lookup hl]
    exact l.txs.sorted

theorem Dropped.changed (h : Dropped p p' a) : Changed p p' := by
  refine ⟨h.toSameView, fun b => ?_⟩
  cases hlast : (p.pending.txs a).getLast? with
  | none =>
    have hn : p'.pendingNonces = p.pendingNonces := by
      rw [h.nonces, hlast]
      rfl
    refine .same (fun u => ?_) (pendingNonce_congr hn h.state b)
    by_cases hb : b = a
    · rw [hb, h.self, getLast?_eq_none_iff.mp hlast]
      rfl
    · rw [h.other b hb]
  | some last =>
    have hn : p'.pendingNonces = (p.lowerNonce a last.nonce).pendingNonces := by
      rw [h.nonces, hlast]
      rfl
    obtain ⟨hmin, hsame⟩ := pendingNonce_lowered hn h.state
    by_cases hb : b = a
    · subst hb
      refine .cut last.nonce (fun u => ?_) hmin
      rw [h.self]
      exact mem_dropLast_iff (p.pending_sorted b) hlast
    · exact .same (fun u => by rw [h.other b hb]) (hsame b hb)

theorem Placed.changed (hfits : p.Fits tx) (h : Placed p p' tx) : Changed p p' := by
  refine ⟨h.toSameView, fun a => ?_⟩
  have hn := pendingNonce_congr h.nonces h.state a
  rcases h.pending with hp | ⟨hpends, hother, hself⟩
  · exact .same (fun u => by rw [hp]) hn
  · by_cases ha : a = tx.addr
    · subst ha
      exact .swap tx rfl hfits hpends hself hn
    · exact .same (fun u => by rw [hother a ha]) hn

theorem getLast_nonce
    (h : (first :: rest).map Transaction.nonce = range' first.nonce (rest.length + 1)) :
    ((first :: rest).getLast (cons_ne_nil _ _)).nonce = first.nonce + rest.length := by
  have hmap : ((first :: rest).map Transaction.nonce).getLast? =
      some ((first :: rest).getLast (cons_ne_nil _ _)).nonce := by
    rw [getLast?_map, getLast?_eq_some_getLast (cons_ne_nil _ _)]
    rfl
  rw [h, range'_concat, getLast?_append, getLast?_singleton, Option.some_or] at hmap
  have := Option.some.inj hmap
  omega

theorem Promoted.pendingNonce
    (hrun : ReadyRun p a (first :: rest)) (h : Promoted p p' a (first :: rest)) :
    p'.pendingNonce a = Word64.add (first.nonce + rest.length) 1 ∧
      ∀ b, b ≠ a → p'.pendingNonce b = p.pendingNonce b := by
  have hn := h.nonces
  rw [getLast?_eq_some_getLast (cons_ne_nil _ _), Option.elim_some,
    getLast_nonce (hrun.run first rfl).2] at hn
  exact pendingNonce_updated hn h.state

theorem promoteAccount_changed (hs : p.Slotted []) : Changed p (p.promoteAccount env a) := by
  obtain ⟨ready, hrun, hpr⟩ : ∃ ready, ReadyRun p a ready ∧
      Promoted p (p.promoteAccount env a) a ready := promoteAccount_promoted hs
  generalize p.promoteAccount env a = p' at hpr
  refine ⟨hpr.toSameView, fun b => ?_⟩
  cases ready with
  | nil =>
    refine .same (fun u => ?_) (pendingNonce_congr hpr.nonces hpr.state b)
    by_cases hb : b = a
    · rw [hb, hpr.mem u]
      simp
    · rw [hpr.other b hb]
  | cons first rest =>
    obtain ⟨hself, hother⟩ := hpr.pendingNonce hrun
    by_cases hb : b = a
    · subst hb
      exact .grow first rest hrun hpr.mem hself
    · exact .same (fun u => by rw [hpr.other b hb]) (hother b hb)

/-- Every transaction the pool holds is one of T. -/
structure Within (T : Transaction → Prop) (p : TxPool) : Prop where
  slotted : p.Slotted []
  held : ∀ a, ∀ tx ∈ p.held [] a, T tx

def anyone (_ : Transaction) : Prop := True

variable {T : Transaction → Prop}

def admitting (T : Transaction → Prop) : Event → Prop
  | .enter tx => T tx
  | _ => True

theorem Moves.within (h : Moves env (admitting T) (p, []) (p', [])) (hw : p.Within T) :
    p'.Within T :=
  ⟨h.slotted hw.slotted, fun a u hu => (h.mem_held hu).elim (hw.held a u) id⟩

theorem removeTx_within (hw : p.Within T) : (p.removeTx env tx).Within T := by
  have hmoves : Moves env (admitting T) (p, []) (p.removeTx env tx, []) :=
    removeTx_moves hw.slotted ⟨fun _ => trivial, fun _ _ _ => trivial, fun _ _ _ => trivial⟩
  exact hmoves.within hw

theorem removeAll_admitting (out : List Transaction) (hs : p.Slotted []) :
    Moves env (admitting T) (p, []) (out.foldl (removeTx env) p, []) := by
  induction out generalizing p with
  | nil => exact .refl _
  | cons tx out ih =>
    have hmoves : Moves env (admitting T) (p, []) (p.removeTx env tx, []) :=
      removeTx_moves hs ⟨fun _ => trivial, fun _ _ _ => trivial, fun _ _ _ => trivial⟩
    exact hmoves.trans (ih (hmoves.slotted hs))

theorem add_within (hT : p.validateTx env tx isLocal = none → T tx)
    (hw : p.Within T) : (p.add env tx isLocal).1.Within T := by
  have hmoves : Moves env (admitting T) (p, []) ((p.add env tx isLocal).1, []) :=
    add_moves hw.slotted hT (fun _ => trivial) fun _ => ⟨trivial, trivial, fun priced out _ =>
      removeAll_admitting out (hw.slotted.withPriced priced)⟩
  exact hmoves.within hw

/-- Any number of changes of slotted pools that hold transactions of `T` only. -/
def Evolves (T : Transaction → Prop) : TxPool → TxPool → Prop :=
  Relation.ReflTransGen fun q q' => q.Within T ∧ q'.Within T ∧ Changed q q'

namespace Evolves

theorem refl (p : TxPool) : Evolves T p p := Relation.ReflTransGen.refl

theorem trans {p p' p'' : TxPool} (h : Evolves T p p') (h' : Evolves T p' p'') :
    Evolves T p p'' := Relation.ReflTransGen.trans h h'

theorem single (hw : p.Within T) (hw' : p'.Within T) (h : Changed p p') : Evolves T p p' :=
  Relation.ReflTransGen.single ⟨hw, hw', h⟩

theorem keeps {I : TxPool → Prop} (hI : ∀ q q', q.Within T → Changed q q' → I q → I q')
    (h : Evolves T p p') (hp : I p) : I p' := by
  induction h with
  | refl => exact hp
  | tail _ hchange ih => exact hI _ _ hchange.1 hchange.2.2 ih

theorem within (h : Evolves T p p') (hw : p.Within T) : p'.Within T := by
  cases h with
  | refl => exact hw
  | tail _ hchange => exact hchange.2.1

theorem state (h : Evolves T p p') : p'.currentState = p.currentState :=
  h.keeps (I := fun q => q.currentState = p.currentState) (fun _ _ _ hc hq => hc.state.trans hq) rfl

end Evolves

theorem Within.withPriced (hw : p.Within T) (priced : PricedList) :
    ({ p with priced := priced } : TxPool).Within T := ⟨hw.slotted.withPriced priced, hw.held⟩

variable (hw : p.Within T)
include hw

theorem tick_within : p.tick.Within T :=
  ⟨{ hw.slotted with }, hw.held⟩

theorem tick_evolves : Evolves T p p.tick :=
  .single hw (tick_within hw) (tick_same p).changed

theorem removeTx_evolves : Evolves T p (p.removeTx env tx) :=
  .single hw (removeTx_within hw) (removeTx_truncated hw.slotted.kinds tx).changed

omit hw

theorem removeAll_evolves (out : List Transaction) (hw : p.Within T) :
    Evolves T p (out.foldl (removeTx env) p) := by
  induction out generalizing p with
  | nil => exact Evolves.refl p
  | cons tx out ih => exact (removeTx_evolves hw).trans (ih (removeTx_within hw))

theorem Fits.of_changed (h : Changed p p') (hfits : p.Fits tx) : p'.Fits tx := by
  refine ⟨?_, ?_⟩
  · rw [h.state]
    exact hfits.nonce
  · rw [h.state, h.maxGas]
    exact hfits.payable

theorem add_evolves (hT : p.validateTx env tx isLocal = none → T tx)
    (hw : p.Within T) : Evolves T p (p.add env tx isLocal).1 := by
  have hw' : (p.add env tx isLocal).1.Within T := add_within hT hw
  have hadded : Added env p tx isLocal (p.add env tx isLocal).1 := add_added p tx isLocal
  have hpriced : ∀ priced, Evolves T p { p with priced := priced } := fun priced =>
    .single hw (hw.withPriced priced) (SamePending.changed ⟨⟨rfl, rfl⟩, rfl, rfl, rfl⟩)
  generalize (p.add env tx isLocal).1 = q at hadded hw' ⊢
  cases hadded with
  | refused => exact Evolves.refl p
  | underpriced priced hcap => exact hpriced priced
  | placed hnew hvalid hroom =>
    exact .single hw hw' ((place_placed p tx isLocal).changed (fits_of_valid hvalid))
  | evicted priced out hnew hvalid hcap hout =>
    have hfits : ({ p with priced := priced } : TxPool).Fits tx :=
      ⟨(fits_of_valid hvalid).nonce, (fits_of_valid hvalid).payable⟩
    have hremoved : Evolves T { p with priced := priced }
        (out.foldl (removeTx env) { p with priced := priced }) :=
      removeAll_evolves out (hw.withPriced priced)
    have hfits' := hremoved.keeps (I := fun q => q.Fits tx) (fun _ _ _ h => Fits.of_changed h) hfits
    refine ((hpriced priced).trans hremoved).trans (.single ?_ hw' ?_)
    · exact hremoved.within (hw.withPriced priced)
    · exact (place_placed _ tx isLocal).changed hfits'

theorem addAll_evolves (txs : List Transaction) (isLocal : Bool)
    (hT : ∀ tx ∈ txs, p.currentState.nonce tx.addr ≤ tx.nonce → T tx) (hw : p.Within T) :
    Evolves T p (addAll env isLocal txs p []).1 := by
  refine (addAll_keeps_pool (C := fun rest q => rest ⊆ txs ∧ Evolves T p q)
    (fun tx rest q hC => ?_) txs [] ⟨Subset.refl _, Evolves.refl p⟩).2
  obtain ⟨hsub, he⟩ := hC
  refine ⟨fun u hu => hsub (mem_cons_of_mem _ hu),
    he.trans (add_evolves (fun hvalid => ?_) (he.within hw))⟩
  refine hT tx (hsub mem_cons_self) ?_
  rw [← he.state]
  exact (fits_of_valid hvalid).nonce

include hw

theorem promoteAccount_evolves : Evolves T p (p.promoteAccount env a) := by
  have hmoves : Moves env (admitting T) (p, []) (p.promoteAccount env a, []) :=
    promoteAccount_moves hw.slotted
  exact .single hw (hmoves.within hw) (promoteAccount_changed hw.slotted)

omit hw in
theorem promoteAll_evolves (accounts : List Address) (hw : p.Within T) :
    Evolves T p (accounts.foldl (promoteAccount env) p) := by
  induction accounts generalizing p with
  | nil => exact Evolves.refl p
  | cons a accounts ih =>
    have h : Evolves T p (p.promoteAccount env a) := promoteAccount_evolves hw
    exact h.trans (ih (h.within hw))

theorem dropHighest_evolves : Evolves T p (p.dropHighest env a) := by
  have hmoves : Moves env (admitting T) (p, []) (p.dropHighest env a, []) :=
    dropHighest_moves hw.slotted
  exact .single hw (hmoves.within hw) dropHighest_dropped.changed

theorem caps_evolve : Evolves T p ((p.capPending env).capQueue env) := by
  have h : Evolves T p (p.capPending env) :=
    capPending_keeps (fun q hq => hq.trans (tick_evolves (hq.within hw)))
      (fun q a hq => hq.trans (dropHighest_evolves (hq.within hw))) (Evolves.refl p)
  have hmoves : Moves env (admitting T) (p.capPending env, [])
      ((p.capPending env).capQueue env, []) := capQueue_moves (h.within hw).slotted
  exact h.trans (.single (h.within hw) (hmoves.within (h.within hw))
    (capQueue_same (h.within hw).slotted).changed)

omit hw

theorem promoteExecutables_evolves (accounts : Option (List Address)) (hw : p.Within T) :
    Evolves T p (p.promoteExecutables env accounts) := by
  have h : ∀ accounts : List Address, Evolves T p (accounts.foldl (promoteAccount env) p.tick) :=
    fun accounts => (tick_evolves hw).trans (promoteAll_evolves accounts (tick_within hw))
  exact (h _).trans (caps_evolve ((h _).within hw))

theorem addTx_evolves (hT : p.validateTx env tx isLocal = none → T tx)
    (hw : p.Within T) : Evolves T p (p.addTx env tx isLocal).1 := by
  have h : Evolves T p (p.add env tx isLocal).1 := add_evolves hT hw
  unfold addTx
  generalize p.add env tx isLocal = res at h
  obtain ⟨q, e | replace⟩ := res
  · cases tx.sender with
    | none => exact Evolves.refl p
    | some a => exact h
  · cases tx.sender with
    | none => exact Evolves.refl p
    | some a =>
      cases replace with
      | true => exact h
      | false =>
        simp only at h ⊢
        exact h.trans (promoteExecutables_evolves (some [a]) (h.within hw))

theorem addTxs_evolves (txs : List Transaction) (isLocal : Bool)
    (hT : ∀ tx ∈ txs, p.currentState.nonce tx.addr ≤ tx.nonce → T tx) (hw : p.Within T) :
    Evolves T p (p.addTxs env txs isLocal) := by
  have h : Evolves T p (addAll env isLocal txs p []).1 := addAll_evolves txs isLocal hT hw
  unfold addTxs
  simp only
  split
  · exact h
  · exact (h.trans (tick_evolves (h.within hw))).trans
      (promoteExecutables_evolves _ (tick_within (h.within hw)))

theorem setGasPrice_evolves (price : ℤ) (hw : p.Within T) :
    Evolves T p (p.setGasPrice env price) := by
  unfold setGasPrice
  generalize p.priced.cap p.isPooled p.isLocalTx price = res
  have hw' : ({ p with gasPrice := price, priced := res.2 } : TxPool).Within T :=
    ⟨{ hw.slotted with }, hw.held⟩
  exact (Evolves.single hw hw' (SamePending.changed ⟨⟨rfl, rfl⟩, rfl, rfl, rfl⟩)).trans
    (removeAll_evolves res.1 hw')

include hw

theorem evictAccount_evolves : Evolves T p (p.evictAccount env a) := by
  have hmoves : Moves env (admitting T) (p, []) (p.evictAccount env a, []) :=
    evictAccount_moves hw.slotted
  exact .single hw (hmoves.within hw) (evictAccount_same hw.slotted).changed

theorem evict_evolves : Evolves T p (p.evict env) := by
  have h : ∀ (accounts : List Address) (q : TxPool), q.Within T →
      Evolves T q (accounts.foldl (evictAccount env) q) := by
    intro accounts
    induction accounts with
    | nil => exact fun q _ => Evolves.refl q
    | cons a accounts ih =>
      intro q hq
      have h : Evolves T q (q.evictAccount env a) := evictAccount_evolves hq
      exact h.trans (ih _ (h.within hq))
  exact (tick_evolves hw).trans (h _ _ (tick_within hw))

end TxPool

end XChain
