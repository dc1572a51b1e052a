import XChain.Core.PoolMoves

/-!
# Demotion as moves

* **`demoteUnexecutables_moves`**: demotion is a chain of moves that brings about no event but a
  postponed transaction.
-/

namespace XChain

open List TxLists Option AList TxSortedMap GoText

namespace TxPool

variable {env : PoolEnv} {allow : Event → Prop} {p p' : TxPool} {F F' out : List Transaction}
  {a b : Address} {l : TxList} {tx : Transaction} {take : TxList → List Transaction × TxList}
  {act : TxPool → Transaction → TxPool}

/-! ## What demotion leaves alone -/

def Demotes (p : TxPool) (a : Address) : Prop :=
  (∃ tx ∈ p.pending.txs a, p.currentState.nonce a ≤ tx.nonce ∧
    tx.exceeds (p.currentState.balance a) p.currentMaxGas = true) ∨
    (∃ tx ∈ p.pending.txs a, p.currentState.nonce a ≤ tx.nonce) ∧
      ∀ tx ∈ p.pending.txs a, tx.nonce ≠ p.currentState.nonce a

/-- The transactions are checked against the same state. -/
structure SameView (p p' : TxPool) : Prop where
  state : p'.currentState = p.currentState
  maxGas : p'.currentMaxGas = p.currentMaxGas

theorem SameView.trans {p p' p'' : TxPool} (h : SameView p p') (h' : SameView p' p'') :
    SameView p p'' :=
  ⟨h'.state.trans h.state, h'.maxGas.trans h.maxGas⟩

structure SamePending (p p' : TxPool) : Prop extends SameView p p' where
  pending : p'.pending = p.pending
  nonces : p'.pendingNonces = p.pendingNonces
  locals : p'.locals = p.locals

theorem SamePending.refl (p : TxPool) : SamePending p p := ⟨⟨rfl, rfl⟩, rfl, rfl, rfl⟩

theorem SamePending.trans {p p' p'' : TxPool} (h : SamePending p p') (h' : SamePending p' p'') :
    SamePending p p'' :=
  ⟨h.toSameView.trans h'.toSameView, h'.pending.trans h.pending, h'.nonces.trans h.nonces,
    h'.locals.trans h.locals⟩

theorem SamePending.foldl {α : Type} {act : TxPool → α → TxPool}
    (hact : ∀ p x, SamePending p (act p x)) (xs : List α) (p : TxPool) :
    SamePending p (xs.foldl act p) := by
  induction xs generalizing p with
  | nil => exact SamePending.refl p
  | cons x xs ih => exact (hact p x).trans (ih (act p x))

theorem deleteTx_same (p : TxPool) (tx : Transaction) : SamePending p (p.deleteTx env tx) :=
  ⟨⟨rfl, rfl⟩, rfl, rfl, rfl⟩

theorem deleteOld_same (p : TxPool) (old : Option Transaction) :
    SamePending p (p.deleteOld env old) := by
  cases old with
  | none => exact SamePending.refl p
  | some o => exact deleteTx_same p o

theorem enqueueTx_same {r : Bool} (h : p.enqueueTx env tx = some (r, p')) : SamePending p p' := by
  unfold enqueueTx at h
  split at h
  · cases h
  · rename_i old list _
    cases h
    have hset : SamePending p (p.setQueue tx.addr list) := ⟨⟨rfl, rfl⟩, rfl, rfl, rfl⟩
    exact (hset.trans (deleteOld_same _ old)).trans ⟨⟨rfl, rfl⟩, rfl, rfl, rfl⟩

theorem postpone_same (p : TxPool) (tx : Transaction) : SamePending p (p.postpone env tx) := by
  rw [postpone]
  cases h : p.enqueueTx env tx with
  | none => exact SamePending.refl p
  | some res => exact enqueueTx_same h

theorem takePending_lookup (hact : ∀ p tx, SamePending p (act p tx)) :
    (p.takePending a take act).pending.lookup a = (p.pending.lookup a).map fun l => (take l).2 := by
  unfold takePending
  split
  · rename_i hl
    rw [hl]
    rfl
  · rename_i l hl
    rw [(SamePending.foldl hact _ _).pending, hl]
    exact lookup_insert _

/-- An account of which `demoteAccount` leaves everything but the pending list alone. -/
structure Demotion (p p' : TxPool) (a : Address) : Prop extends SameView p p' where
  other : ∀ b, b ≠ a → p'.pending.lookup b = p.pending.lookup b
  nonces : p'.pendingNonces = p.pendingNonces

theorem Demotion.trans {p p' p'' : TxPool} (h : Demotion p p' a) (h' : Demotion p' p'' a) :
    Demotion p p'' a :=
  ⟨h.toSameView.trans h'.toSameView, fun b hb => (h'.other b hb).trans (h.other b hb),
    h'.nonces.trans h.nonces⟩

theorem takePending_demotion (hact : ∀ p tx, SamePending p (act p tx)) :
    Demotion p (p.takePending a take act) a := by
  unfold takePending
  split
  · exact ⟨⟨rfl, rfl⟩, fun _ _ => rfl, rfl⟩
  · rename_i l hl
    have h := SamePending.foldl hact (take l).1 (p.setPending a (take l).2)
    refine { h with other := fun b hb => ?_ }
    rw [h.pending]
    exact lookup_insert_ne hb

/-! ## The stages -/

theorem forwardPending_moves (hs : p.Slotted F) :
    Moves env allow (p, F) (p.forwardPending env a, F) :=
  takePending_moves (fun l => ⟨l.forward_perm _, rfl⟩) (fun _ _ tx _ p F _ => deleteTx_moves p tx F)
    hs

theorem forwardPending_demotion : Demotion p (p.forwardPending env a) a :=
  takePending_demotion deleteTx_same

theorem forwardPending_txs : (p.forwardPending env a).pending.txs a =
    (p.pending.txs a).filter fun tx => decide (p.currentState.nonce a ≤ tx.nonce) := by
  have h : (p.forwardPending env a).pending.lookup a =
      (p.pending.lookup a).map fun l => (l.forward (p.currentState.nonce a)).2 :=
    takePending_lookup deleteTx_same
  rw [txs, h, txs]
  cases p.pending.lookup a with
  | none | some l => rfl

theorem filterPending_moves (hs : p.Slotted F)
    (hpost : (∃ tx ∈ p.pending.txs a,
      tx.exceeds (p.currentState.balance a) p.currentMaxGas = true) → allow .postpone) :
    Moves env allow (p, F) (p.filterPending env a, F) := by
  unfold filterPending
  split
  · exact .refl _
  rename_i l hl
  obtain ⟨res, hres, hspec⟩ := exists_filter env p a l
  simp only [hres]
  have hitems := txs_of_lookup hl
  have hperm : (p.pending.txs a).Perm ((res.1 ++ res.2.1) ++ res.2.2.items) := by
    rw [hitems, append_assoc]
    exact hspec.perm
  have haddr : ∀ tx ∈ res.1 ++ res.2.1, tx.addr = a := fun tx htx =>
    hs.addr_eq (mem_held.mpr (.inl (hperm.mem_iff.mpr (mem_append_left _ htx))))
  have hout : Moves env allow (p.tick.tick, F)
      (p.tick.tick.setPending a res.2.2, (res.1 ++ res.2.1) ++ F) := by
    have hperm' : (p.tick.tick.pending.txs a).Perm ((res.1 ++ res.2.1) ++ res.2.2.items) := hperm
    exact (Move.outOfPending haddr hperm' (hspec.strict_eq.trans (hs.kinds.1 a l hl))).moves
  have h₁ := (tick_moves.trans tick_moves).trans hout
  rw [append_assoc] at h₁
  have h₂ := h₁.trans (Moves.foldl (Q := fun _ => True) (fun p tx F _ _ => deleteTx_moves p tx F)
    res.1 (res.2.1 ++ F) _ (fun _ _ => trivial) (h₁.slotted hs))
  refine h₂.trans (Moves.foldl (Q := fun tx => tx ∈ res.2.1) (fun p tx F htx hs => ?_) res.2.1 F _
    (fun _ h => h) (h₂.slotted hs))
  refine postpone_moves (hpost ?_) hs
  -- an entry is postponed only behind one that is removed
  obtain ⟨u, hu, -⟩ := hspec.above tx htx
  exact ⟨u, hitems ▸ ((hspec.removed u).mp hu).1, ((hspec.removed u).mp hu).2⟩

theorem filterPending_same (hl : p.pending.lookup a = some l) :
    SamePending (p.tick.tick.setPending a (l.filter (env.oracle.transactions p.clock)
      (env.oracle.transactions (p.clock + 1)) (p.currentState.balance a) p.currentMaxGas).2.2)
      (p.filterPending env a) := by
  rw [filterPending, hl]
  exact (SamePending.foldl deleteTx_same _ _).trans (SamePending.foldl postpone_same _ _)

theorem filterPending_demotion : Demotion p (p.filterPending env a) a := by
  cases hl : p.pending.lookup a with
  | none =>
    rw [filterPending, hl]
    exact ⟨⟨rfl, rfl⟩, fun _ _ => rfl, rfl⟩
  | some l =>
    have h : SamePending _ (p.filterPending env a) := filterPending_same hl
    refine { h with other := fun b hb => ?_ }
    rw [h.pending]
    exact lookup_insert_ne hb

theorem mem_filterPending (hk : p.Kinds) : tx ∈ (p.filterPending env a).pending.txs a ↔
    tx ∈ p.pending.txs a ∧ tx.exceeds (p.currentState.balance a) p.currentMaxGas = false ∧
      ∀ u ∈ p.pending.txs a, u.exceeds (p.currentState.balance a) p.currentMaxGas = true →
        tx.nonce < u.nonce := by
  cases hl : p.pending.lookup a with
  | none =>
    have htxs := txs_of_none hl
    rw [filterPending, hl, htxs]
    simp
  | some l =>
    have hitems := txs_of_lookup hl
    obtain ⟨res, hres, hspec⟩ := exists_filter env p a l
    have hafter : (p.filterPending env a).pending.txs a = res.2.2.items := by
      rw [(filterPending_same hl).pending, hres]
      exact txs_insert_self
    rw [hafter, hitems]
    constructor
    · intro htx
      refine ⟨hspec.perm.mem_iff.mpr (mem_append_right _ (mem_append_right _ htx)),
        hspec.within tx htx, fun u hu hx => ?_⟩
      exact hspec.below (hk.1 a l hl) tx htx u ((hspec.removed u).mpr ⟨hu, hx⟩)
    · rintro ⟨htx, hx, hlt⟩
      rcases mem_append.mp (hspec.perm.mem_iff.mp htx) with h | h
      · rw [((hspec.removed tx).mp h).2] at hx
        exact absurd hx.symm Bool.false_ne_true
      · rcases mem_append.mp h with h | h
        · obtain ⟨u, hu, hn⟩ := hspec.above tx h
          have := hlt u ((hspec.removed u).mp hu).1 ((hspec.removed u).mp hu).2
          omega
        · exact h

theorem gapped_perm (nonce : ℕ) (l : TxList) :
    l.items.Perm ((gapped nonce l).1 ++ (gapped nonce l).2.items) ∧
      (gapped nonce l).2.strict = l.strict := by
  unfold gapped
  split
  · exact ⟨l.cap_perm 0, rfl⟩
  · exact ⟨.refl _, rfl⟩

theorem postponeGapped_moves (hs : p.Slotted F)
    (hpost : p.pending.txs a ≠ [] →
      (∀ tx ∈ p.pending.txs a, tx.nonce ≠ p.currentState.nonce a) → allow .postpone) :
    Moves env allow (p, F) (p.postponeGapped env a, F) := by
  refine takePending_moves (gapped_perm _) (fun l hl tx htx p' F hs => postpone_moves ?_ hs) hs
  have hitems := txs_of_lookup hl
  unfold gapped at htx
  split at htx
  · rename_i hnone
    rw [hitems] at hpost
    refine hpost (ne_nil_of_mem ((l.cap_perm 0).mem_iff.mpr (mem_append_left _ htx))) ?_
    exact get_eq_none.mp (isNone_iff_eq_none.mp hnone)
  · cases htx

theorem postponeGapped_demotion : Demotion p (p.postponeGapped env a) a :=
  takePending_demotion postpone_same

theorem postponeGapped_txs : (p.postponeGapped env a).pending.txs a =
    if ∃ tx ∈ p.pending.txs a, tx.nonce = p.currentState.nonce a then p.pending.txs a else [] := by
  have h : (p.postponeGapped env a).pending.lookup a =
      (p.pending.lookup a).map fun l => (gapped (p.currentState.nonce a) l).2 :=
    takePending_lookup postpone_same
  rw [txs, h]
  cases hl : p.pending.lookup a with
  | none =>
    rw [txs_of_none hl]
    simp
  | some l =>
    rw [txs_of_lookup hl]
    simp only [map_some, elim_some, gapped, isNone_iff_eq_none, get_eq_none]
    by_cases hex : ∃ tx ∈ l.items, tx.nonce = p.currentState.nonce a
    · rw [if_pos hex, if_neg]
      obtain ⟨tx, htx, hn⟩ := hex
      exact fun hall => hall tx htx hn
    · rw [if_neg hex, if_pos]
      · rfl
      · exact fun tx htx hn => hex ⟨tx, htx, hn⟩

theorem deleteEmptyPending_txs (b : Address) :
    (p.deleteEmptyPending a).pending.txs b = p.pending.txs b := by
  unfold deleteEmptyPending
  split
  · rename_i h
    change txs (p.pending.erase a) b = _
    by_cases hb : b = a
    · rw [hb, txs_erase_self, txs_of_any_isEmpty h]
    · exact txs_erase_ne hb
  · rfl

theorem deleteEmptyPending_demotion : Demotion p (p.deleteEmptyPending a) a := by
  unfold deleteEmptyPending
  split
  · exact ⟨⟨rfl, rfl⟩, fun b hb => lookup_erase_ne hb, rfl⟩
  · exact ⟨⟨rfl, rfl⟩, fun _ _ => rfl, rfl⟩

theorem demoteAccount_demotion : Demotion p (p.demoteAccount env a) a :=
  ((forwardPending_demotion.trans filterPending_demotion).trans postponeGapped_demotion).trans
    deleteEmptyPending_demotion

theorem demoteAccount_moves (hs : p.Slotted F) (hpost : p.Demotes a → allow .postpone) :
    Moves env allow (p, F) (p.demoteAccount env a, F) := by
  have hd₁ : Demotion p (p.forwardPending env a) a := forwardPending_demotion
  have hd₂ : Demotion p ((p.forwardPending env a).filterPending env a) a :=
    hd₁.trans filterPending_demotion
  have hmem₁ : ∀ tx, tx ∈ (p.forwardPending env a).pending.txs a ↔
      tx ∈ p.pending.txs a ∧ p.currentState.nonce a ≤ tx.nonce := by
    intro tx
    rw [forwardPending_txs, mem_filter, decide_eq_true_eq]
  have hcostly : (∃ tx ∈ (p.forwardPending env a).pending.txs a,
      tx.exceeds (p.currentState.balance a) p.currentMaxGas = true) → p.Demotes a := by
    rintro ⟨tx, htx, hx⟩
    exact .inl ⟨tx, ((hmem₁ tx).mp htx).1, ((hmem₁ tx).mp htx).2, hx⟩
  have h₁ : Moves env allow (p, F) (p.forwardPending env a, F) := forwardPending_moves hs
  have h₂ : Moves env allow (p, F) ((p.forwardPending env a).filterPending env a, F) := by
    refine h₁.trans (filterPending_moves (h₁.slotted hs) fun hx => hpost (hcostly ?_))
    rwa [hd₁.state, hd₁.maxGas] at hx
  refine Moves.trans (h₂.trans (postponeGapped_moves (h₂.slotted hs) fun hne hgap => ?_))
    deleteEmptyPending_moves
  by_cases hx : ∃ tx ∈ (p.forwardPending env a).pending.txs a,
      tx.exceeds (p.currentState.balance a) p.currentMaxGas = true
  · exact hpost (hcostly hx)
  · -- nothing was filtered, so the gap was there before
    have hmem₂ : ∀ tx, tx ∈ ((p.forwardPending env a).filterPending env a).pending.txs a ↔
        tx ∈ (p.forwardPending env a).pending.txs a := by
      intro tx
      rw [mem_filterPending (h₁.slotted hs).kinds, hd₁.state, hd₁.maxGas]
      refine ⟨fun h => h.1, fun h => ⟨h, ?_, fun u hu hxu => absurd ⟨u, hu, hxu⟩ hx⟩⟩
      exact Bool.eq_false_iff.mpr fun hxt => hx ⟨tx, h, hxt⟩
    obtain ⟨tx, htx⟩ := exists_mem_of_ne_nil _ hne
    have htx' := (hmem₁ tx).mp ((hmem₂ tx).mp htx)
    refine hpost (.inr ⟨⟨tx, htx'⟩, fun u hu hn => ?_⟩)
    refine hgap u ((hmem₂ u).mpr ((hmem₁ u).mpr ⟨hu, ?_⟩)) ?_
    · exact Nat.le_of_eq hn.symm
    · rw [hd₂.state]
      exact hn

theorem Demotes.of_demotion (hd : Demotion p p' b) (hab : a ≠ b) (h : p'.Demotes a) :
    p.Demotes a := by
  have htxs : p'.pending.txs a = p.pending.txs a := by
    rw [txs, hd.other a hab]
    rfl
  rw [Demotes, htxs, hd.state, hd.maxGas] at h
  exact h

/-- **Demotion postpones** transactions that cannot be paid or come after a gap. -/
theorem demoteUnexecutables_moves (hs : p.Slotted F)
    (hpost : ∀ a, p.Demotes a → allow .postpone) :
    Moves env allow (p, F) (p.demoteUnexecutables env, F) := by
  have hfold : ∀ (accounts : List Address) (p : TxPool), accounts.Nodup → p.Slotted F →
      (∀ a ∈ accounts, p.Demotes a → allow .postpone) →
      Moves env allow (p, F) (accounts.foldl (demoteAccount env) p, F) := by
    intro accounts
    induction accounts with
    | nil => exact fun p _ _ _ => .refl _
    | cons a accounts ih =>
      intro p hnd hs hpost
      rw [nodup_cons] at hnd
      refine Moves.andThen hs (demoteAccount_moves hs (hpost a mem_cons_self)) fun hs' => ?_
      refine ih (p.demoteAccount env a) hnd.2 hs' fun b hb hdem => ?_
      refine hpost b (mem_cons_of_mem _ hb) (hdem.of_demotion demoteAccount_demotion ?_)
      rintro rfl
      exact hnd.1 hb
  have htick : Moves env allow (p, F) (p.tick, F) := tick_moves
  refine htick.trans (hfold _ p.tick ?_ (htick.slotted hs) fun a _ => hpost a)
  exact ((env.oracle.accounts p.clock).visit_perm _).nodup_iff.mpr p.pending.keys_nodup

end TxPool

end XChain
