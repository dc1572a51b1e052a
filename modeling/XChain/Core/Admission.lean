import XChain.Core.Demotion

/-!
# The operations that let transactions in, as moves

* **`addTx_moves`**, `addTxs_moves`, `resetTo_moves`: the operations are chains of moves.
-/

namespace XChain

open List TxLists TxList Option PricedList GoText

namespace TxPool

variable {env : PoolEnv} {allow : Event → Prop} {p p' : TxPool} {F F' out : List Transaction}
  {a b : Address} {l : TxList} {tx : Transaction} {u : Transaction}

/-! ## A transaction comes in -/

theorem mem_items_deleteTx (h : u ∈ (p.deleteTx env tx).priced.items.toList) :
    u ∈ p.priced.items.toList ∨ u ∈ p.all := by
  change u ∈ (p.priced.removed _ _).items.toList at h
  unfold removed at h
  split at h
  · exact .inl h
  · refine .inr ?_
    have hperm := (GoHeap.heapify_perm less
      ((env.oracle.transactions p.clock).visit (p.all.erase tx).list).toArray).mem_iff.mp h
    have hmem := ((env.oracle.transactions p.clock).visit_perm _).mem_iff.mp (by simpa using hperm)
    exact (TxSet.mem_erase.mp hmem).1

variable {old : Option Transaction} {l' : TxList}

def without (l : TxList) (nonce : ℕ) : TxList :=
  l.shrink (l.txs.keep fun u => decide (u.nonce ≠ nonce)) fun _ h => mem_of_mem_filter h

theorem toList_addr {priceBump : ℕ} (hadd : l.add tx priceBump = some (old, l'))
    (haddr : ∀ u ∈ l.items, u.addr = a) : ∀ u ∈ old.toList, u.addr = a := fun u hu =>
  haddr u ((add_perm hadd).1.mem_iff.mpr (mem_append_left _ hu))

variable (hs : p.Slotted [])

section Admit

variable (hnew : tx ∉ p.all) (hsender : tx.sender = some tx.addr) (henter : allow (.enter tx))
  (hre : tx ∈ p.priced.items.toList → allow .reenter)
include hnew hsender henter hre

/-- `q` has the list without the slot of the new transaction, `r` the list with it. -/
theorem admit_moves {q r : TxPool}
    (hout : Move env allow (p, []) ({ p with pending := q.pending, queue := q.queue }, old.toList))
    (hfree : ∀ u ∈ q.held [] tx.addr, u.nonce ≠ tx.nonce)
    (hinto : ∀ p' : TxPool, p'.pending = q.pending → p'.queue = q.queue →
      Move env allow (p', [tx]) ({ p' with pending := r.pending, queue := r.queue }, [])) :
    Moves env allow (p, []) ((({ p with
      pending := r.pending, queue := r.queue } : TxPool).deleteOld env old).insertTx tx, []) := by
  cases old with
  | none =>
    have h := hout.moves.trans (Move.enter { p with
      pending := q.pending, queue := q.queue } tx [] hnew hsender hfree henter hre).moves
    exact h.trans (hinto (({ p with
      pending := q.pending, queue := q.queue } : TxPool).insertTx tx) rfl rfl).moves
  | some o =>
    have hdrop := hout.moves.trans (deleteTx_moves { p with
      pending := q.pending, queue := q.queue } o [])
    have h := hdrop.trans (Move.enter (({ p with
      pending := q.pending, queue := q.queue } : TxPool).deleteTx env o) tx []
        (fun h => hnew (TxSet.mem_erase.mp h).1) hsender hfree henter
        fun h => hre ((mem_items_deleteTx h).resolve_right hnew)).moves
    exact h.trans (hinto ((({ p with
      pending := q.pending, queue := q.queue } : TxPool).deleteTx env o).insertTx tx) rfl rfl).moves

include hs

theorem enqueueTx_moves {replace : Bool}
    (hpend : ∀ u ∈ p.pending.txs tx.addr, u.nonce ≠ tx.nonce)
    (h : p.enqueueTx env tx = some (replace, p')) : Moves env allow (p, []) (p', []) := by
  unfold enqueueTx at h
  split at h
  · cases h
  rename_i old l' hadd
  cases h
  generalize hl : (p.queue.lookup tx.addr).getD (TxList.new false) = l at hadd
  have hitems : l.items = p.queue.txs tx.addr := hl ▸ items_getD _ _ _
  have hloose : l.strict = false := by
    rw [← hl]
    cases hq : p.queue.lookup tx.addr with
    | none => rfl
    | some l₀ => exact hs.kinds.2 _ l₀ hq
  have haddr : ∀ u ∈ old.toList, u.addr = tx.addr := toList_addr hadd fun u hu =>
    hs.addr_eq (mem_held.mpr (.inr (.inl (hitems ▸ hu))))
  refine admit_moves (q := p.setQueue tx.addr (without l tx.nonce)) (r := p.setQueue tx.addr l')
    hnew hsender henter hre ?_ ?_ fun p₁ hp hq => ?_
  · have hout : Move env allow (p, []) (p.setQueue tx.addr (without l tx.nonce),
        old.toList ++ []) := by
      refine Move.outOfQueue haddr ?_ hloose
      rw [← hitems]
      exact (add_perm hadd).1
    rwa [append_nil] at hout
  · intro u hu
    rcases mem_held.mp hu with hu | hu | ⟨hu, -⟩
    · exact hpend u hu
    · change u ∈ txs (p.queue.insert tx.addr _) tx.addr at hu
      rw [txs_insert_self] at hu
      simpa using (mem_filter.mp hu).2
    · cases hu
  · have heq : ({ p₁ with
        pending := (p.setQueue tx.addr l').pending
        queue := (p.setQueue tx.addr l').queue } : TxPool) = p₁.setQueue tx.addr l' := by
      simp only [setQueue] at hp hq ⊢
      rw [hq, AList.insert_insert, ← hp]
    rw [heq]
    refine Move.intoQueue ?_ ((mem_of_add hadd).1.trans hloose)
    rw [hq]
    change l'.items.Perm (tx :: txs (p.queue.insert tx.addr _) tx.addr)
    rw [txs_insert_self]
    exact (add_perm hadd).2

theorem replacePending_moves (hl : p.pending.lookup tx.addr = some l) (hover : l.overlaps tx = true)
    (hadd : l.add tx env.priceBump = some (old, l')) :
    Moves env allow (p, []) (((p.setPending tx.addr l').deleteOld env old).insertTx tx, []) := by
  have hitems := txs_of_lookup hl
  have hstrict := hs.kinds.1 _ l hl
  have haddr : ∀ u ∈ old.toList, u.addr = tx.addr := toList_addr hadd fun u hu =>
    hs.addr_eq (mem_held.mpr (.inl (hitems ▸ hu)))
  refine admit_moves (q := p.setPending tx.addr (without l tx.nonce))
    (r := p.setPending tx.addr l') hnew hsender henter hre ?_ ?_ fun p₁ hp hq => ?_
  · have hout : Move env allow (p, []) (p.setPending tx.addr (without l tx.nonce),
        old.toList ++ []) := by
      refine Move.outOfPending haddr ?_ hstrict
      rw [hitems]
      exact (add_perm hadd).1
    rwa [append_nil] at hout
  · intro u hu
    rcases mem_held.mp hu with hu | hu | ⟨hu, -⟩
    · change u ∈ txs (p.pending.insert tx.addr _) tx.addr at hu
      rw [txs_insert_self] at hu
      simpa using (mem_filter.mp hu).2
    · -- the slot is pending, so it is not queued
      obtain ⟨w, hw, hn⟩ := overlaps_iff.mp hover
      exact fun hun => hs.pending_ne_queue (hitems ▸ hw) hu (hn.trans hun.symm)
    · cases hu
  · have heq : ({ p₁ with
        pending := (p.setPending tx.addr l').pending
        queue := (p.setPending tx.addr l').queue } : TxPool) = p₁.setPending tx.addr l' := by
      simp only [setPending] at hp hq ⊢
      rw [hp, AList.insert_insert, ← hq]
    rw [heq]
    refine Move.intoPending ?_ ((mem_of_add hadd).1.trans hstrict)
    rw [hp]
    change l'.items.Perm (tx :: txs (p.pending.insert tx.addr _) tx.addr)
    rw [txs_insert_self]
    exact (add_perm hadd).2

theorem place_moves (isLocal : Bool) :
    Moves env allow (p, []) ((p.place env tx isLocal).1, []) := by
  unfold place
  split
  · rename_i l hl
    obtain ⟨hl, hover⟩ := filter_eq_some_iff.mp hl
    split
    · exact .refl _
    · rename_i old l' hadd
      exact replacePending_moves hs hnew hsender henter hre hl hover hadd
  · rename_i hnone
    have hpend : ∀ u ∈ p.pending.txs tx.addr, u.nonce ≠ tx.nonce := by
      intro u hu hn
      cases hl : p.pending.lookup tx.addr with
      | none =>
        rw [txs_of_none hl] at hu
        cases hu
      | some l =>
        rw [txs_of_lookup hl] at hu
        rw [hl] at hnone
        have hover := overlaps_iff.mpr ⟨u, hu, hn⟩
        simp [Option.filter, hover] at hnone
    split
    · exact .refl _
    · rename_i replace p₁ henq
      refine (enqueueTx_moves hs hnew hsender henter hre hpend henq).trans (Move.moves ?_)
      apply Move.idle <;> rfl

end Admit

def noEntry : Event → Prop
  | .enter _ => False
  | _ => True

theorem removal_noEntry (p : TxPool) (tx : Transaction) : Removal noEntry p tx :=
  ⟨fun _ => trivial, fun _ _ _ => trivial, fun _ _ _ => trivial⟩

include hs

theorem removeTx_noEntry :
    Moves env noEntry (p, []) (p.removeTx env tx, []) := removeTx_moves hs (removal_noEntry p tx)

theorem removeTx_slotted : (p.removeTx env tx).Slotted [] :=
  (removeTx_noEntry hs).slotted hs

theorem removeTx_all (hu : u ∈ (p.removeTx env tx).all) :
    u ∈ p.all := ((removeTx_noEntry hs).mem_all hu).resolve_right id

omit hs

theorem removeAll_slotted (out : List Transaction) (hs : p.Slotted []) :
    (out.foldl (removeTx env) p).Slotted [] ∧
      ∀ u ∈ (out.foldl (removeTx env) p).all, u ∈ p.all := by
  induction out generalizing p with
  | nil => exact ⟨hs, fun _ h => h⟩
  | cons tx out ih =>
    have hs' : (p.removeTx env tx).Slotted [] := removeTx_slotted hs
    obtain ⟨h₁, h₂⟩ := ih hs'
    exact ⟨h₁, fun u hu => removeTx_all hs (h₂ u hu)⟩

theorem check_eq_none {c : Prop} [Decidable c] {e : TxError} {r : Option TxError} :
    (if c then some e else r) = none ↔ ¬ c ∧ r = none := by
  by_cases h : c
  · simp [h]
  · simp [h]

variable {isLocal : Bool} {txs : List Transaction}

theorem sender_of_valid (h : p.validateTx env tx isLocal = none) : tx.sender = some tx.addr := by
  cases hsender : tx.sender with
  | some a => rw [Transaction.addr, hsender, getD_some]
  | none =>
    rw [validateTx, hsender] at h
    simp only [check_eq_none] at h
    exact absurd h.2.2.2.2.2 (some_ne_none _)

/-- A full pool makes room for a new transaction, with its events allowed. -/
structure Evictable (env : PoolEnv) (allow : Event → Prop) (p : TxPool) : Prop where
  evict : allow .evict
  reenter : allow .reenter
  remove : ∀ (priced : PricedList) (out : List Transaction),
    (∀ u ∈ out, u ∈ p.all ∧ p.isLocalTx u = false) →
    Moves env allow ({ p with priced := priced }, [])
      (out.foldl (removeTx env) { p with priced := priced }, [])

theorem Slotted.withPriced (hs : p.Slotted F) (priced : PricedList) :
    ({ p with priced := priced } : TxPool).Slotted F := { hs with }

/-- How `add` ends: unchanged, too cheap for a full pool, or placed after removals. -/
inductive Added (env : PoolEnv) (p : TxPool) (tx : Transaction) (isLocal : Bool) : TxPool → Prop
  | refused : Added env p tx isLocal p
  | underpriced (priced : PricedList) (hfull : capacity env ≤ p.all.list.length) :
      Added env p tx isLocal { p with priced := priced }
  | placed (hnew : tx ∉ p.all) (hvalid : p.validateTx env tx isLocal = none)
      (hroom : p.all.list.length < capacity env) : Added env p tx isLocal (p.place env tx isLocal).1
  | evicted (priced : PricedList) (out : List Transaction) (hnew : tx ∉ p.all)
      (hvalid : p.validateTx env tx isLocal = none) (hfull : capacity env ≤ p.all.list.length)
      (hout : ∀ u ∈ out, u ∈ p.all ∧ p.isLocalTx u = false) : Added env p tx isLocal
        ((out.foldl (removeTx env) { p with priced := priced }).place env tx isLocal).1

theorem add_added (p : TxPool) (tx : Transaction) (isLocal : Bool) :
    Added env p tx isLocal (p.add env tx isLocal).1 := by
  unfold add
  split
  · exact .refused
  rename_i hnew
  split
  · exact .refused
  rename_i hvalid
  split
  swap
  · rename_i hroom
    exact .placed hnew hvalid (Nat.lt_of_not_le hroom)
  rename_i hfull
  unfold makeRoom
  simp only
  split
  · rename_i heq
    split at heq
    · cases heq
      exact .underpriced _ hfull
    · cases heq
  · rename_i heq
    split at heq
    · cases heq
    · cases heq
      generalize hdrop : discard _ _ _ _ = res
      have hspec : PricedList.DropSpec p.isPooled p.isLocalTx (fun _ => True) _ res :=
        hdrop ▸ discard_spec _ _
      exact .evicted res.2 res.1 hnew hvalid hfull fun u hu =>
        ⟨of_decide_eq_true (hspec.drop u hu).1, (hspec.drop u hu).2.1⟩

include hs

theorem add_moves (henter : p.validateTx env tx isLocal = none → allow (.enter tx))
    (hre : tx ∈ p.priced.items.toList → allow .reenter)
    (hfull : capacity env ≤ p.all.list.length → Evictable env allow p) :
    Moves env allow (p, []) ((p.add env tx isLocal).1, []) := by
  have hadded : Added env p tx isLocal (p.add env tx isLocal).1 := add_added p tx isLocal
  generalize (p.add env tx isLocal).1 = q at hadded ⊢
  cases hadded with
  | refused => exact .refl _
  | underpriced priced hcap => exact (Move.pop p priced [] (hfull hcap).evict).moves
  | placed hnew hvalid hroom =>
    exact place_moves hs hnew (sender_of_valid hvalid) (henter hvalid) hre isLocal
  | evicted priced out hnew hvalid hcap hout =>
    obtain ⟨hevict, hreenter, hremove⟩ := hfull hcap
    obtain ⟨hslotted, hall⟩ := removeAll_slotted out (hs.withPriced priced)
    refine ((Move.pop p priced [] hevict).moves.trans (hremove priced out hout)).trans ?_
    exact place_moves hslotted (fun hmem => hnew (hall tx hmem)) (sender_of_valid hvalid)
      (henter hvalid) (fun _ => hreenter) isLocal

theorem addTx_moves (hadd : Moves env allow (p, []) ((p.add env tx isLocal).1, [])) :
    Moves env allow (p, []) ((p.addTx env tx isLocal).1, []) := by
  unfold addTx
  generalize p.add env tx isLocal = res at hadd
  obtain ⟨q, e | replace⟩ := res
  · cases tx.sender with
    | none => exact .refl _
    | some a => exact hadd
  · cases tx.sender with
    | none => exact .refl _
    | some a =>
      cases replace with
      | true => exact hadd
      | false =>
        simp only at hadd ⊢
        exact hadd.trans (promoteExecutables_moves (some [a]) (hadd.slotted hs))

omit hs

/-- The loop of `addTxs`: `C txs p dirty` holds before the transactions `txs` are added to `p`. -/
theorem addAll_keeps {C : List Transaction → TxPool → List Address → Prop}
    (hnew : ∀ tx rest q dirty, C (tx :: rest) q dirty → (q.add env tx isLocal).2 = .ok false →
      C rest (q.add env tx isLocal).1 (if tx.addr ∈ dirty then dirty else dirty ++ [tx.addr]))
    (hold : ∀ tx rest q dirty, C (tx :: rest) q dirty → (q.add env tx isLocal).2 ≠ .ok false →
      C rest (q.add env tx isLocal).1 dirty)
    (txs : List Transaction) (dirty : List Address) (hC : C txs p dirty) :
    C [] (addAll env isLocal txs p dirty).1 (addAll env isLocal txs p dirty).2 := by
  induction txs generalizing p dirty with
  | nil => exact hC
  | cons tx txs ih =>
    have hnew' := hnew tx txs p dirty hC
    have hold' := hold tx txs p dirty hC
    rw [addAll]
    split
    · rename_i heq
      rw [heq] at hnew'
      exact ih _ (hnew' rfl)
    · rename_i q r hr heq
      rw [heq] at hold'
      exact ih _ (hold' hr)

theorem addAll_keeps_pool {C : List Transaction → TxPool → Prop}
    (hstep : ∀ tx rest q, C (tx :: rest) q → C rest (q.add env tx isLocal).1)
    (txs : List Transaction) (dirty : List Address) (hC : C txs p) :
    C [] (addAll env isLocal txs p dirty).1 :=
  addAll_keeps (C := fun txs q _ => C txs q) (fun tx rest q _ h _ => hstep tx rest q h)
    (fun tx rest q _ h _ => hstep tx rest q h) txs dirty hC

include hs

theorem addTxs_moves (hadd : Moves env allow (p, []) ((addAll env isLocal txs p []).1, [])) :
    Moves env allow (p, []) (p.addTxs env txs isLocal, []) := by
  unfold addTxs
  simp only
  split
  · exact hadd
  · have htick := hadd.trans tick_moves
    exact htick.trans (promoteExecutables_moves _ (htick.slotted hs))

omit hs in
theorem restoreNonces_moves : Moves env allow (p, F) (p.restoreNonces, F) := by
  refine Move.moves ?_
  apply Move.idle <;> rfl

theorem resetTo_moves {state : AccountState} {maxGas : ℤ} (hadd : Moves env allow (p.enterState
      state maxGas, []) ((p.enterState state maxGas).addTxs env txs false, []))
    (hpost : ∀ a, ((p.enterState state maxGas).addTxs env txs false).Demotes a → allow .postpone) :
    Moves env allow (p, []) (p.resetTo env state maxGas txs, []) := by
  have henter : Moves env allow (p, []) (p.enterState state maxGas, []) := by
    refine Move.moves ?_
    apply Move.idle <;> rfl
  have h₁ := henter.trans hadd
  have h₂ := h₁.trans (demoteUnexecutables_moves (h₁.slotted hs) hpost)
  have h₃ := h₂.trans restoreNonces_moves
  exact h₃.trans (promoteExecutables_moves none (h₃.slotted hs))

omit hs

/-! ## What a removal leaves pending -/

/-- A removal truncates the pending list of the account at the nonce, or leaves all of
them alone. -/
structure Truncated (p p' : TxPool) (tx : Transaction) : Prop extends SameView p p' where
  locals : p'.locals = p.locals
  pending : (p'.pending = p.pending ∧ p'.pendingNonces = p.pendingNonces) ∨
    p.HasNonce tx ∧ p'.pendingNonces = (p.lowerNonce tx.addr tx.nonce).pendingNonces ∧
      (p'.pending.txs tx.addr =
        (p.pending.txs tx.addr).filter fun u => decide (u.nonce < tx.nonce)) ∧
      ∀ b, b ≠ tx.addr → p'.pending.txs b = p.pending.txs b

theorem lowerNonce_congr {q : TxPool} (hn : q.pendingNonces = p.pendingNonces)
    (hst : q.currentState = p.currentState) (nonce : ℕ) :
    (q.lowerNonce a nonce).pendingNonces = (p.lowerNonce a nonce).pendingNonces := by
  have hnonce : q.pendingNonce a = p.pendingNonce a := by rw [pendingNonce, hn, hst, pendingNonce]
  unfold lowerNonce
  rw [hnonce]
  split
  · rw [setPendingNonce, setPendingNonce, hn]
  · exact hn

theorem removeQueued_same (p : TxPool) (tx : Transaction) :
    SamePending p (p.removeQueued env tx) := by
  unfold removeQueued
  split
  · exact SamePending.refl p
  · simp only
    split <;> exact ⟨⟨rfl, rfl⟩, rfl, rfl, rfl⟩

/-- **A removal truncates a pending list.** -/
theorem removeTx_truncated (hk : p.Kinds) (tx : Transaction) :
    Truncated p (p.removeTx env tx) tx := by
  unfold removeTx
  split
  swap
  · exact ⟨⟨rfl, rfl⟩, rfl, .inl ⟨rfl, rfl⟩⟩
  simp only
  split
  · rename_i invalids list heq
    obtain ⟨l, hl, hrem⟩ := bind_eq_some_iff.mp heq
    have hl : p.pending.lookup tx.addr = some l := hl
    have hitems := txs_of_lookup hl
    obtain ⟨-, ⟨u, hu, hn, -⟩, hkeep, -⟩ := remove_spec hrem
    have hlist : list.items =
        (p.pending.txs tx.addr).filter fun u => decide (u.nonce < tx.nonce) := by
      rw [hitems]
      exact hkeep (hk.1 _ l hl)
    unfold removePending
    simp only
    split
    · rename_i hempty
      rw [lowerNonce_eq]
      refine ⟨⟨rfl, rfl⟩, rfl, .inr ⟨⟨u, hitems ▸ hu, hn⟩, ?_, ?_, fun b hb => txs_erase_ne hb⟩⟩
      · apply lowerNonce_congr <;> rfl
      · rw [← hlist, TxList.isEmpty_iff.mp hempty]
        exact txs_erase_self
    · have hsame : SamePending ((p.deleteTx env tx).tick.setPending tx.addr list)
          (invalids.foldl (postpone env) ((p.deleteTx env tx).tick.setPending tx.addr list)) :=
        SamePending.foldl postpone_same _ _
      rw [lowerNonce_eq]
      refine ⟨{ hsame with }, hsame.locals, .inr ⟨⟨u, hitems ▸ hu, hn⟩,
        lowerNonce_congr (p := p) hsame.nonces hsame.state _, ?_, fun b hb => ?_⟩⟩
      · rw [hsame.pending, ← hlist]
        exact txs_insert_self
      · rw [hsame.pending]
        exact txs_insert_ne hb
  · have hsame : SamePending (p.deleteTx env tx) ((p.deleteTx env tx).removeQueued env tx) :=
      removeQueued_same _ tx
    exact { hsame with pending := .inl ⟨hsame.pending, hsame.nonces⟩ }

end TxPool

end XChain
