import XChain.Core.Moves

/-!
# The functions of the pool as moves

Each function of the pool is a chain of moves on a slotted pool; its hypotheses say which events it
may bring about.

* **`removeTx_moves`**: a removal leaks the later transactions if it takes the first of a pending
  list;
* **`promoteExecutables_moves`**: promotion and the caps bring about no event.
-/

namespace XChain

open List AList Function GoText

namespace TxPool

open TxLists (items_getD txs txs_erase_ne txs_erase_self txs_insert_ne txs_insert_self txs_of_lookup
  txs_of_none)
open TxList (add_of_free remove_eq_none_iff remove_spec)

variable {env : PoolEnv} {allow : Event → Prop} {p p' : TxPool} {F F' out : List Transaction}
  {a b : Address} {l : TxList} {tx : Transaction} {m : TxLists} {xs ys zs : List Transaction}
  {strict : Bool}

theorem Moves.andThen {s s' s'' : TxPool × List Transaction} (hs : s.1.Slotted s.2)
    (h : Moves env allow s s') (h' : s'.1.Slotted s'.2 → Moves env allow s' s'') :
    Moves env allow s s'' := h.trans (h' (h.slotted hs))

/-! ## A list changes -/

theorem filter_addr_self (h : ∀ tx ∈ out, tx.addr = a) :
    ((out ++ F).filter fun tx => decide (tx.addr = a)) =
      out ++ F.filter fun tx => decide (tx.addr = a) := by
  rw [filter_append, filter_eq_self.mpr fun tx htx => decide_eq_true (h tx htx)]

theorem filter_addr_ne (h : ∀ tx ∈ out, tx.addr = a) (hb : b ≠ a) :
    ((out ++ F).filter fun tx => decide (tx.addr = b)) =
      F.filter fun tx => decide (tx.addr = b) := by
  rw [filter_append, filter_eq_nil_iff.mpr, nil_append]
  intro tx htx
  rw [h tx htx, decide_eq_true_eq]
  exact Ne.symm hb

theorem strict_insert (hl : l.strict = strict)
    (h : ∀ b l', m.lookup b = some l' → l'.strict = strict) (b : Address) (l' : TxList)
    (hb : (m.insert a l).lookup b = some l') : l'.strict = strict := by
  by_cases hne : b = a
  · rw [hne, lookup_insert] at hb
    cases hb
    exact hl
  · rw [lookup_insert_ne hne] at hb
    exact h b l' hb

theorem strict_erase (h : ∀ b l', m.lookup b = some l' → l'.strict = strict) (b : Address)
    (l' : TxList) (hb : (m.erase a).lookup b = some l') : l'.strict = strict := by
  by_cases hne : b = a
  · rw [hne, lookup_erase] at hb
    cases hb
  · rw [lookup_erase_ne hne] at hb
    exact h b l' hb

theorem txs_erase (h : m.txs a = []) (b : Address) : txs (m.erase a) b = m.txs b := by
  by_cases hb : b = a
  · rw [hb, TxLists.txs_erase_self, h]
  · exact txs_erase_ne hb

theorem Kinds.setPending (hk : p.Kinds) (hl : l.strict = true) : (p.setPending a l).Kinds :=
  ⟨strict_insert hl hk.1, hk.2⟩

theorem Kinds.setQueue (hk : p.Kinds) (hl : l.strict = false) : (p.setQueue a l).Kinds :=
  ⟨hk.1, strict_insert hl hk.2⟩

theorem held_setPending
    (hself : (l.items ++ F'.filter fun tx => decide (tx.addr = a)).Perm
      (p.pending.txs a ++ F.filter fun tx => decide (tx.addr = a)))
    (hne : ∀ b, b ≠ a → (F'.filter fun tx => decide (tx.addr = b)) =
      F.filter fun tx => decide (tx.addr = b)) (b : Address) :
    ((p.setPending a l).held F' b).Perm (p.held F b) := by
  change (txs (p.pending.insert a l) b ++ (p.queue.txs b ++ _)).Perm _
  by_cases hb : b = a
  · subst hb
    rw [txs_insert_self, held]
    refine (perm_append_comm_assoc _ _ _).trans ?_
    exact (hself.append_left _).trans (perm_append_comm_assoc _ _ _)
  · rw [txs_insert_ne hb, hne b hb, held]

theorem held_setQueue
    (hself : (l.items ++ F'.filter fun tx => decide (tx.addr = a)).Perm
      (p.queue.txs a ++ F.filter fun tx => decide (tx.addr = a)))
    (hne : ∀ b, b ≠ a → (F'.filter fun tx => decide (tx.addr = b)) =
      F.filter fun tx => decide (tx.addr = b)) (b : Address) :
    ((p.setQueue a l).held F' b).Perm (p.held F b) := by
  change (p.pending.txs b ++ (txs (p.queue.insert a l) b ++ _)).Perm _
  by_cases hb : b = a
  · subst hb
    rw [txs_insert_self, held]
    exact hself.append_left _
  · rw [txs_insert_ne hb, hne b hb, held]

theorem perm_out (h : xs.Perm (out ++ ys)) : (ys ++ (out ++ zs)).Perm (xs ++ zs) := by
  refine (perm_append_comm_assoc _ _ _).trans ?_
  rw [← append_assoc]
  exact h.symm.append_right _

theorem perm_into (h : ys.Perm (out ++ xs)) :
    (ys ++ zs).Perm (xs ++ (out ++ zs)) := (perm_out h).symm

variable (haddr : ∀ tx ∈ out, tx.addr = a)
include haddr

theorem Move.outOfPending (hperm : (p.pending.txs a).Perm (out ++ l.items)) (hl : l.strict = true) :
    Move env allow (p, F) (p.setPending a l, out ++ F) := by
  refine .shift rfl rfl (held_setPending ?_ fun b hb => filter_addr_ne haddr hb)
    fun hk => hk.setPending hl
  rw [filter_addr_self haddr]
  exact perm_out hperm

theorem Move.outOfQueue (hperm : (p.queue.txs a).Perm (out ++ l.items)) (hl : l.strict = false) :
    Move env allow (p, F) (p.setQueue a l, out ++ F) := by
  refine .shift rfl rfl (held_setQueue ?_ fun b hb => filter_addr_ne haddr hb)
    fun hk => hk.setQueue hl
  rw [filter_addr_self haddr]
  exact perm_out hperm

omit haddr

variable (tx : Transaction) in
theorem addr_singleton : ∀ u ∈ [tx], u.addr = tx.addr := fun u hu => by rw [mem_singleton.mp hu]

theorem Move.intoPending (hperm : l.items.Perm (tx :: p.pending.txs tx.addr))
    (hl : l.strict = true) : Move env allow (p, tx :: F) (p.setPending tx.addr l, F) := by
  refine .shift rfl rfl (held_setPending ?_
    fun b hb => (filter_addr_ne (addr_singleton tx) hb).symm) fun hk => hk.setPending hl
  rw [← singleton_append, filter_addr_self (addr_singleton tx)]
  exact perm_into hperm

theorem Move.intoQueue (hperm : l.items.Perm (tx :: p.queue.txs tx.addr))
    (hl : l.strict = false) : Move env allow (p, tx :: F) (p.setQueue tx.addr l, F) := by
  refine .shift rfl rfl (held_setQueue ?_
    fun b hb => (filter_addr_ne (addr_singleton tx) hb).symm) fun hk => hk.setQueue hl
  rw [← singleton_append, filter_addr_self (addr_singleton tx)]
  exact perm_into hperm

theorem Move.congr (hp : ∀ b, p'.pending.lookup b = p.pending.lookup b)
    (hq : ∀ b, p'.queue.lookup b = p.queue.lookup b) (hall : p'.all = p.all)
    (hpriced : p'.priced = p.priced) : Move env allow (p, F) (p', F) := by
  refine .shift hall hpriced (fun a => Perm.of_eq ?_) fun hk => ?_
  · rw [held, held, txs, txs, txs, txs, hp, hq]
  · exact ⟨fun b l hl => hk.1 b l (hp b ▸ hl), fun b l hl => hk.2 b l (hq b ▸ hl)⟩

theorem Move.idle (hp : p'.pending = p.pending) (hq : p'.queue = p.queue) (hall : p'.all = p.all)
    (hpriced : p'.priced = p.priced) : Move env allow (p, F) (p', F) :=
  Move.congr (fun _ => by rw [hp]) (fun _ => by rw [hq]) hall hpriced

theorem tick_moves : Moves env allow (p, F) (p.tick, F) := by
  refine Move.moves ?_
  apply Move.idle <;> rfl

theorem lowerNonce_moves (nonce : ℕ) : Moves env allow (p, F) (p.lowerNonce a nonce, F) := by
  unfold lowerNonce
  split
  · refine Move.moves ?_
    apply Move.idle <;> rfl
  · exact .refl _

theorem lookup_erase_insert (m : TxLists) (a : Address) (l : TxList) (b : Address) :
    ((m.insert a l).erase a).lookup b = (m.erase a).lookup b := by
  by_cases hb : b = a
  · rw [hb, lookup_erase, lookup_erase]
  · rw [lookup_erase_ne hb, lookup_erase_ne hb, lookup_insert_ne hb]

theorem Move.deletePending (h : p.pending.txs a = []) :
    Move env allow (p, F) (p.deletePending a, F) := by
  refine .shift rfl rfl (fun b => ?_) fun hk => ⟨strict_erase hk.1, hk.2⟩
  rw [held, held, ← txs_erase h b]
  exact .refl _

theorem Move.deleteQueue (h : p.queue.txs a = []) : Move env allow (p, F) (p.deleteQueue a, F) := by
  refine .shift rfl rfl (fun b => ?_) fun hk => ⟨hk.1, strict_erase hk.2⟩
  rw [held, held, ← txs_erase h b]
  exact .refl _

theorem txs_of_any_isEmpty (h : (m.lookup a).any TxList.isEmpty = true) : m.txs a = [] := by
  rw [txs]
  cases hl : m.lookup a with
  | none => rfl
  | some l =>
    rw [hl] at h
    exact TxList.isEmpty_iff.mp h

theorem deleteEmptyPending_moves : Moves env allow (p, F) (p.deleteEmptyPending a, F) := by
  unfold deleteEmptyPending
  split
  · rename_i h
    exact (Move.deletePending (txs_of_any_isEmpty h)).moves
  · exact .refl _

theorem deleteEmptyQueue_moves : Moves env allow (p, F) (p.deleteEmptyQueue a, F) := by
  unfold deleteEmptyQueue
  split
  · rename_i h
    exact (Move.deleteQueue (txs_of_any_isEmpty h)).moves
  · exact .refl _

/-! ## Transactions in flight are acted on -/

variable {act : TxPool → Transaction → TxPool} {take : TxList → List Transaction × TxList}
  {q : TxPool} {u : Transaction} {list : TxList}

theorem Moves.foldl {Q : Transaction → Prop}
    (hact : ∀ p tx F, Q tx → p.Slotted (tx :: F) → Moves env allow (p, tx :: F) (act p tx, F))
    (out F : List Transaction) (p : TxPool) (hQ : ∀ tx ∈ out, Q tx) (hs : p.Slotted (out ++ F)) :
    Moves env allow (p, out ++ F) (out.foldl act p, F) := by
  induction out generalizing p with
  | nil => exact .refl _
  | cons tx out ih =>
    refine Moves.andThen hs (hact p tx (out ++ F) (hQ tx mem_cons_self) hs) fun hs' => ?_
    exact ih (act p tx) (fun u hu => hQ u (mem_cons_of_mem _ hu)) hs'

theorem deleteTx_moves (p : TxPool) (tx : Transaction) (F : List Transaction) :
    Moves env allow (p, tx :: F) (p.deleteTx env tx, F) := (Move.drop p tx F).moves

theorem takeQueued_moves (htake : ∀ l : TxList, l.strict = false → l.items.Perm ((take l).1 ++ (take
      l).2.items) ∧ (take l).2.strict = l.strict) (hact : ∀ p tx F, tx.addr = a → p.Slotted (tx ::
      F) → Moves env allow (p, tx :: F) (act p tx, F)) (hs : p.Slotted F) :
    Moves env allow (p, F) (p.takeQueued a take act, F) := by
  unfold takeQueued
  split
  · exact .refl _
  · rename_i l hl
    have hloose := hs.kinds.2 a l hl
    obtain ⟨hperm, hstrict⟩ := htake l hloose
    have haddr : ∀ tx ∈ (take l).1, tx.addr = a := by
      intro tx htx
      refine hs.addr_eq (mem_held.mpr (.inr (.inl ?_)))
      rw [txs_of_lookup hl]
      exact hperm.mem_iff.mpr (mem_append_left _ htx)
    refine Moves.andThen hs (Move.outOfQueue haddr ?_ (hstrict.trans hloose)).moves fun hs' => ?_
    · rw [txs_of_lookup hl]
      exact hperm
    · exact Moves.foldl hact _ _ _ haddr hs'

theorem takePending_moves (htake : ∀ l : TxList, l.items.Perm ((take l).1 ++ (take l).2.items) ∧
      (take l).2.strict = l.strict) (hact : ∀ l, p.pending.lookup a = some l → ∀ tx ∈ (take l).1, ∀
      p F, p.Slotted (tx :: F) → Moves env allow (p, tx :: F) (act p tx, F)) (hs : p.Slotted F) :
    Moves env allow (p, F) (p.takePending a take act, F) := by
  unfold takePending
  split
  · exact .refl _
  · rename_i l hl
    have hstrict := hs.kinds.1 a l hl
    obtain ⟨hperm, hkept⟩ := htake l
    have haddr : ∀ tx ∈ (take l).1, tx.addr = a := by
      intro tx htx
      refine hs.addr_eq (mem_held.mpr (.inl ?_))
      rw [txs_of_lookup hl]
      exact hperm.mem_iff.mpr (mem_append_left _ htx)
    refine Moves.andThen hs (Move.outOfPending haddr ?_ (hkept.trans hstrict)).moves fun hs' => ?_
    · rw [txs_of_lookup hl]
      exact hperm
    · exact Moves.foldl (fun p tx F htx hs => hact l hl tx htx p F hs) _ _ _ (fun _ h => h) hs'

/-- A transaction whose slot is free is queued. -/
theorem postpone_of_free (hk : p.Kinds) (hfree : ∀ u ∈ p.queue.txs tx.addr, u.nonce ≠ tx.nonce) :
    ∃ l : TxList, p.postpone env tx = (p.setQueue tx.addr l).insertTx tx ∧ l.strict = false ∧
      l.items.Perm (tx :: p.queue.txs tx.addr) := by
  rw [← items_getD _ _ false] at hfree ⊢
  obtain ⟨l, hadd, hstrict, hperm⟩ := add_of_free hfree env.priceBump
  refine ⟨l, ?_, ?_, hperm⟩
  · rw [postpone, enqueueTx, hadd]
    rfl
  · rw [hstrict]
    cases hl : p.queue.lookup tx.addr with
    | none => rfl
    | some l' => exact hk.2 _ l' hl

theorem postpone_moves (hpost : allow .postpone) (hs : p.Slotted (tx :: F)) :
    Moves env allow (p, tx :: F) (p.postpone env tx, F) := by
  obtain ⟨l, hpool, hloose, hperm⟩ : ∃ l : TxList, p.postpone env tx = _ ∧ _ ∧ _ :=
    postpone_of_free hs.kinds fun u hu => hs.free u (mem_held.mpr (.inr (.inl hu)))
  rw [hpool]
  exact (Move.intoQueue hperm hloose).moves.trans
    (Move.again (p.setQueue tx.addr l) tx F hs.mem_all_head hpost).moves

theorem promoteTx_of_add (hall : tx ∈ p.all)
    (hadd : ((p.pending.lookup a).getD (TxList.new true)).add tx env.priceBump = some (none, l)) :
    promoteTx env a p tx =
      { p.setPending a l with
        beats := update p.beats a (some (env.oracle.now p.clock))
        pendingNonces := update p.pendingNonces a (some (Word64.add tx.nonce 1))
        clock := p.clock + 1 } := by
  simp only [promoteTx, hadd]
  rw [if_pos (show tx ∈ (deleteOld env (p.setPending a l) none).all from hall)]
  rfl

theorem promoteTx_moves (ha : tx.addr = a) (hs : p.Slotted (tx :: F)) :
    Moves env allow (p, tx :: F) (promoteTx env a p tx, F) := by
  subst ha
  have hfree : ∀ u ∈ ((p.pending.lookup tx.addr).getD (TxList.new true)).items,
      u.nonce ≠ tx.nonce := by
    rw [items_getD]
    exact fun u hu => hs.free u (mem_held.mpr (.inl hu))
  obtain ⟨l, hadd, hstrict, hperm⟩ := add_of_free hfree env.priceBump
  have hl : l.strict = true := by
    rw [hstrict]
    cases hl : p.pending.lookup tx.addr with
    | none => rfl
    | some l' => exact hs.kinds.1 _ l' hl
  rw [items_getD] at hperm
  rw [promoteTx_of_add hs.mem_all_head hadd]
  refine (Move.intoPending hperm hl).moves.trans (Move.moves ?_)
  apply Move.idle <;> rfl

/-! ## Removal -/

def Phantom (p : TxPool) (tx : Transaction) : Prop :=
  tx ∉ p.pending.txs tx.addr ∧ tx ∉ p.queue.txs tx.addr

def HasLater (p : TxPool) (tx : Transaction) : Prop :=
  ∃ u ∈ p.pending.txs tx.addr, tx.nonce < u.nonce

def HasEarlier (p : TxPool) (tx : Transaction) : Prop :=
  ∃ u ∈ p.pending.txs tx.addr, u.nonce < tx.nonce

theorem Slotted.mem_held_addr (hs : p.Slotted []) (h : tx ∈ p.held [] a) :
    tx ∈ p.pending.txs tx.addr ∨ tx ∈ p.queue.txs tx.addr := by
  rw [hs.addr_eq h]
  rcases mem_held.mp h with h | h | ⟨h, -⟩
  · exact .inl h
  · exact .inr h
  · cases h

theorem Slotted.phantom_of_ne (hs : p.Slotted []) (hu : u ∈ p.held [] tx.addr)
    (hn : u.nonce = tx.nonce) (hne : u ≠ tx) : p.Phantom tx := by
  refine ⟨fun h => hne ?_, fun h => hne ?_⟩
  · exact hs.nonce_inj hu (mem_held.mpr (.inl h)) hn
  · exact hs.nonce_inj hu (mem_held.mpr (.inr (.inl h))) hn

theorem Phantom.not_held (hs : p.Slotted []) (h : p.Phantom tx) (a : Address) :
    tx ∉ p.held [] a := fun hm => (hs.mem_held_addr hm).elim h.1 h.2

theorem loseAll_moves (hleak : allow .leak) (out F : List Transaction) (p : TxPool) :
    Moves env allow (p, out ++ F) (p, F) := by
  induction out with
  | nil => exact .refl _
  | cons tx out ih => exact (Move.lose p tx (out ++ F) hleak).moves.trans ih

/-- The entry with the nonce of `tx` leaves its list and `tx` is deleted; the entry is `tx`, unless
`tx` has leaked. -/
theorem deleteEntry_moves (hs : p.Slotted []) (hall : tx ∈ p.all)
    (hleak : p.Phantom tx → allow .leak) (hu : u ∈ p.held [] tx.addr) (hn : u.nonce = tx.nonce)
    (hout : ∀ p' : TxPool, p'.pending = p.pending → p'.queue = p.queue → ∀ F, Move env allow (p', F)
      ({ p' with pending := q.pending, queue := q.queue }, u :: (out ++ F))) :
    Moves env allow (p, [])
      ({ p.deleteTx env tx with pending := q.pending, queue := q.queue }, out) := by
  by_cases hne : u = tx
  · subst hne
    have h := (hout p rfl rfl []).moves
    rw [append_nil] at h
    exact h.trans (deleteTx_moves _ u out)
  · have hphantom := hs.phantom_of_ne hu hn hne
    have hforget : Move env allow (p, []) (p.deleteTx env tx, []) :=
      .forget p tx [] hall (hphantom.not_held hs)
    have h := (hout (p.deleteTx env tx) rfl rfl []).moves
    rw [append_nil] at h
    exact (hforget.moves.trans h).trans (Move.lose _ u out (hleak hphantom)).moves

def HasNonce (p : TxPool) (tx : Transaction) : Prop :=
  ∃ u ∈ p.pending.txs tx.addr, u.nonce = tx.nonce

/-- The later transactions leak if nothing stays in the pending list, and are postponed otherwise.
-/
structure Removal (allow : Event → Prop) (p : TxPool) (tx : Transaction) : Prop where
  phantom : p.Phantom tx → allow .leak
  sever : p.HasNonce tx → p.HasLater tx → ¬ p.HasEarlier tx → allow .leak
  cut : p.HasNonce tx → p.HasLater tx → p.HasEarlier tx → allow .postpone

theorem removePending_moves {invalids : List Transaction}
    (hs : (q.setPending tx.addr list).Slotted invalids)
    (hleak : invalids ≠ [] → list.items = [] → allow .leak)
    (hpost : invalids ≠ [] → list.items ≠ [] → allow .postpone) :
    Moves env allow (q.setPending tx.addr list, invalids)
      (q.removePending env tx invalids list, []) := by
  refine Moves.trans ?_ (lowerNonce_moves tx.nonce)
  split
  · rename_i hempty
    have hnil := TxList.isEmpty_iff.mp hempty
    have hlose : Moves env allow (q.setPending tx.addr list, invalids)
        (q.setPending tx.addr list, []) := by
      cases invalids with
      | nil => exact .refl _
      | cons u invalids =>
        have h : Moves env allow (q.setPending tx.addr list, (u :: invalids) ++ [])
            (q.setPending tx.addr list, []) :=
          loseAll_moves (hleak (cons_ne_nil _ _) hnil) _ _ _
        rw [append_nil] at h
        exact h
    have htxs : (q.setPending tx.addr list).pending.txs tx.addr = [] := by
      change txs (q.pending.insert tx.addr list) tx.addr = []
      rw [txs_insert_self, hnil]
    refine (hlose.trans (Move.deletePending htxs).moves).trans (Move.moves ?_)
    exact Move.congr (fun b => (lookup_erase_insert _ _ _ b).symm) (fun _ => rfl) rfl rfl
  · rename_i hne
    have hitems : list.items ≠ [] := fun h => hne (TxList.isEmpty_iff.mpr h)
    have hs' : (q.setPending tx.addr list).Slotted (invalids ++ []) := by
      rw [append_nil]
      exact hs
    have h : Moves env allow (q.setPending tx.addr list, invalids ++ [])
        (invalids.foldl (postpone env) (q.setPending tx.addr list), []) :=
      Moves.foldl (Q := fun u => u ∈ invalids)
        (fun p u F hu hs => postpone_moves (hpost (ne_nil_of_mem hu) hitems) hs) invalids []
        _ (fun _ h => h) hs'
    rw [append_nil] at h
    exact h

theorem storeQueue_moves :
    Moves env allow (q.setQueue a list, F)
      (if list.isEmpty then q.deleteQueue a else q.setQueue a list, F) := by
  split
  · rename_i hempty
    have htxs : (q.setQueue a list).queue.txs a = [] := by
      change txs (q.queue.insert a list) a = []
      rw [txs_insert_self, TxList.isEmpty_iff.mp hempty]
    refine (Move.deleteQueue htxs).moves.trans (Move.moves ?_)
    exact Move.congr (fun _ => rfl) (fun b => (lookup_erase_insert _ _ _ b).symm) rfl rfl
  · exact .refl _

theorem removeQueued_moves (hs : p.Slotted []) (hall : tx ∈ p.all)
    (hleak : p.Phantom tx → allow .leak)
    (hpend : ∀ u ∈ p.pending.txs tx.addr, u.nonce ≠ tx.nonce) :
    Moves env allow (p, []) ((p.deleteTx env tx).removeQueued env tx, []) := by
  -- a transaction without an entry in the queue has leaked before
  have hforget : (∀ u ∈ p.queue.txs tx.addr, u.nonce ≠ tx.nonce) →
      Moves env allow (p, []) (p.deleteTx env tx, []) := by
    intro hqueue
    have hphantom : p.Phantom tx := ⟨fun h => hpend tx h rfl, fun h => hqueue tx h rfl⟩
    exact (Move.forget p tx [] hall (hphantom.not_held hs)).moves
  unfold removeQueued
  split
  · rename_i hnone
    have hnone : p.queue.lookup tx.addr = none := hnone
    refine hforget fun u hu => ?_
    rw [txs_of_none hnone] at hu
    cases hu
  · rename_i future hf
    have hf : p.queue.lookup tx.addr = some future := hf
    have hitems := txs_of_lookup hf
    have hloose := hs.kinds.2 _ future hf
    simp only
    refine Moves.trans ?_ storeQueue_moves
    cases hrem : future.remove (env.oracle.transactions (p.deleteTx env tx).clock) tx with
    | none =>
      refine (hforget fun u hu => remove_eq_none_iff.mp hrem u (hitems ▸ hu)).trans ?_
      have hout : Move env allow (p.deleteTx env tx, []) ((p.deleteTx env tx).setQueue tx.addr
          future, [] ++ []) :=
        Move.outOfQueue (nofun) (Perm.of_eq hitems) hloose
      exact hout.moves
    | some res =>
      obtain ⟨invalids, list⟩ := res
      obtain ⟨hstrict, ⟨u, hu, hn, hperm⟩, -, hnil⟩ := remove_spec hrem
      rw [hnil hloose, nil_append] at hperm
      refine deleteEntry_moves (q := p.setQueue tx.addr list) hs hall hleak
        (mem_held.mpr (.inr (.inl (hitems ▸ hu)))) hn fun p' hp hq F => ?_
      have heq : ({ p' with
          pending := (p.setQueue tx.addr list).pending
          queue := (p.setQueue tx.addr list).queue } : TxPool) = p'.setQueue tx.addr list := by
        simp only [setQueue, ← hp, ← hq]
      rw [heq]
      have haddr : ∀ w ∈ [u], w.addr = tx.addr := by
        intro w hw
        rw [mem_singleton.mp hw]
        exact hs.addr_eq (mem_held.mpr (.inr (.inl (hitems ▸ hu))))
      have hout : Move env allow (p', F) (p'.setQueue tx.addr list, [u] ++ F) := by
        refine Move.outOfQueue haddr ?_ (hstrict.trans hloose)
        rw [hq, hitems]
        exact hperm
      exact hout

theorem txs_ne_of_remove {m : TxLists} {r : GoMap.Ranging Transaction}
    (h : ((m.lookup tx.addr).bind fun l => l.remove r tx) = none) :
    ∀ u ∈ m.txs tx.addr, u.nonce ≠ tx.nonce := by
  intro u hu
  cases hl : m.lookup tx.addr with
  | none =>
    rw [txs_of_none hl] at hu
    cases hu
  | some l =>
    rw [hl] at h
    exact TxList.remove_eq_none_iff.mp h u (txs_of_lookup hl ▸ hu)

/-- **A removal leaks or postpones the later transactions.** -/
theorem removeTx_moves (hs : p.Slotted []) (hr : Removal allow p tx) :
    Moves env allow (p, []) (p.removeTx env tx, []) := by
  unfold removeTx
  split
  swap
  · exact .refl _
  rename_i hall
  simp only
  split
  · -- the pending branch
    rename_i invalids list heq
    obtain ⟨l, hl, hrem⟩ := Option.bind_eq_some_iff.mp heq
    have hl : p.pending.lookup tx.addr = some l := hl
    have hitems := txs_of_lookup hl
    obtain ⟨hstrict, ⟨u, hu, hn, hperm⟩, hkeep, -⟩ := remove_spec hrem
    have hlstrict := hs.kinds.1 _ l hl
    have hheld : ∀ w ∈ l.items, w ∈ p.held [] tx.addr := fun w hw =>
      mem_held.mpr (.inl (hitems ▸ hw))
    have haddr : ∀ w ∈ u :: invalids, w.addr = tx.addr := by
      intro w hw
      have hmem : w ∈ (u :: invalids) ++ list.items := mem_append_left _ hw
      exact hs.addr_eq (hheld w (hperm.mem_iff.mpr hmem))
    have hnonce : p.HasNonce tx := ⟨u, hitems ▸ hu, hn⟩
    have hlater : invalids ≠ [] → p.HasLater tx := by
      intro hne
      obtain ⟨w, hw⟩ := exists_mem_of_ne_nil _ hne
      refine ⟨w, ?_, ((TxList.mem_invalids hrem).mp hw).2.2⟩
      rw [hitems]
      exact hperm.mem_iff.mpr (mem_cons_of_mem _ (mem_append_left _ hw))
    have hearlier : list.items ≠ [] ↔ p.HasEarlier tx := by
      rw [hkeep hlstrict, HasEarlier, hitems]
      simp
    have hentry : Moves env allow (p, [])
        ((p.deleteTx env tx).setPending tx.addr list, invalids) := by
      refine deleteEntry_moves (q := p.setPending tx.addr list) hs hall hr.phantom (hheld u hu) hn
        fun p' hp hq F => ?_
      have heq : ({ p' with
          pending := (p.setPending tx.addr list).pending
          queue := (p.setPending tx.addr list).queue } : TxPool) = p'.setPending tx.addr list := by
        simp only [setPending, ← hp, ← hq]
      rw [heq]
      have hout : Move env allow (p', F) (p'.setPending tx.addr list, (u :: invalids) ++ F) := by
        refine Move.outOfPending haddr ?_ (hstrict.trans hlstrict)
        rw [hp, hitems]
        exact hperm
      exact hout
    have hs' := hentry.slotted hs
    have htick : Moves env allow ((p.deleteTx env tx).setPending tx.addr list, invalids)
        ((p.deleteTx env tx).tick.setPending tx.addr list, invalids) := by
      refine Move.moves ?_
      apply Move.idle <;> rfl
    refine (hentry.trans htick).trans (removePending_moves (htick.slotted hs') ?_ ?_)
    · intro hne hnil
      exact hr.sever hnonce (hlater hne) fun h => hearlier.mpr h hnil
    · intro hne hitems
      exact hr.cut hnonce (hlater hne) (hearlier.mp hitems)
  · -- the queue branch
    rename_i heq
    exact removeQueued_moves hs hall hr.phantom (txs_ne_of_remove (m := p.pending) heq)

theorem Removal.of_queued (hs : p.Slotted []) (h : tx ∈ p.queue.txs tx.addr) :
    Removal allow p tx := by
  have hnonce : ¬ p.HasNonce tx := fun ⟨u, hu, hn⟩ => hs.pending_ne_queue hu h hn
  exact ⟨fun hph => absurd h hph.2, fun hn => absurd hn hnonce, fun hn => absurd hn hnonce⟩

theorem foldl_accounts_moves {act : TxPool → Address → TxPool}
    (hact : ∀ p a, p.Slotted F → Moves env allow (p, F) (act p a, F)) (accounts : List Address)
    (hs : p.Slotted F) : Moves env allow (p, F) (accounts.foldl act p, F) := by
  induction accounts generalizing p with
  | nil => exact .refl _
  | cons a accounts ih => exact Moves.andThen hs (hact p a hs) fun hs' => ih hs'

/-! ## Promotion -/

/-- What the pool filters a list by. -/
theorem exists_filter (env : PoolEnv) (p : TxPool) (a : Address) (l : TxList) :
    ∃ res, l.filter (env.oracle.transactions p.clock) (env.oracle.transactions (p.clock + 1))
      (p.currentState.balance a) p.currentMaxGas = res ∧
      TxList.FilterSpec l (p.currentState.balance a) p.currentMaxGas res :=
  ⟨_, rfl, l.filter_spec ..⟩

theorem unpayable_perm {p : TxPool} (hl : l.strict = false) :
    l.items.Perm ((p.unpayable env a l).1 ++ (p.unpayable env a l).2.items) ∧
      (p.unpayable env a l).2.strict = l.strict := by
  obtain ⟨_, rfl, hspec⟩ := exists_filter env p a l
  refine ⟨?_, hspec.strict_eq⟩
  have hperm := hspec.perm
  rw [hspec.lost hl, nil_append] at hperm
  exact hperm

variable (hs : p.Slotted F)
include hs

theorem forwardQueue_moves : Moves env allow (p, F) (p.forwardQueue env a, F) :=
  takeQueued_moves (fun l _ => ⟨l.forward_perm _, rfl⟩) (fun p tx F _ _ => deleteTx_moves p tx F) hs

theorem filterQueue_moves : Moves env allow (p, F) (p.filterQueue env a, F) :=
  Moves.andThen hs tick_moves fun hs => takeQueued_moves (fun _ hl => unpayable_perm hl)
    (fun p tx F _ _ => deleteTx_moves p tx F) hs

theorem promoteReady_moves : Moves env allow (p, F) (p.promoteReady env a, F) :=
  takeQueued_moves (fun l _ => ⟨Perm.of_eq (l.ready_append _).symm, rfl⟩)
    (fun _ _ _ ha hs => promoteTx_moves ha hs) hs

theorem limitQueue_moves : Moves env allow (p, F) (p.limitQueue env a, F) := by
  unfold limitQueue
  split
  · exact .refl _
  · exact takeQueued_moves (fun l _ => ⟨l.cap_perm _, rfl⟩)
      (fun p tx F _ _ => deleteTx_moves p tx F) hs

theorem promoteAccount_moves : Moves env allow (p, F) (p.promoteAccount env a, F) := by
  have h₁ : Moves env allow (p, F) (p.forwardQueue env a, F) := forwardQueue_moves hs
  have h₂ : Moves env allow (p, F) ((p.forwardQueue env a).filterQueue env a, F) :=
    h₁.trans (filterQueue_moves (h₁.slotted hs))
  have h₃ := h₂.trans (promoteReady_moves (a := a) (h₂.slotted hs))
  have h₄ := h₃.trans (limitQueue_moves (a := a) (h₃.slotted hs))
  exact h₄.trans deleteEmptyQueue_moves

theorem dropHighest_moves : Moves env allow (p, F) (p.dropHighest env a, F) :=
  takePending_moves (fun l => ⟨l.cap_perm _, rfl⟩)
    (fun _ _ tx _ p F _ => (deleteTx_moves p tx F).trans (lowerNonce_moves tx.nonce)) hs

omit hs

theorem dropRounds_moves (offenders : List Address) (reference : Address) (threshold fuel : ℕ)
    (s : TxPool × ℕ) (hs : s.1.Slotted F) :
    Moves env allow (s.1, F) ((dropRounds env offenders reference threshold fuel s).1, F) := by
  induction fuel generalizing s with
  | zero => exact .refl _
  | succ fuel ih =>
    rw [dropRounds]
    split
    · exact Moves.andThen hs
        (foldl_accounts_moves (fun p a hs => dropHighest_moves hs) offenders hs)
        fun hs' => ih (_, _) hs'
    · exact .refl _

theorem equalize_moves (spammers offenders : List Address) (s : TxPool × ℕ)
    (hs : s.1.Slotted F) :
    Moves env allow (s.1, F) ((equalize env spammers offenders s).1, F) := by
  induction spammers generalizing offenders s with
  | nil => exact .refl _
  | cons a spammers ih =>
    obtain ⟨p, pending⟩ := s
    rw [equalize]
    split
    · split
      · exact ih _ (p, pending) hs
      · exact Moves.andThen hs (dropRounds_moves _ _ _ _ (p, pending) hs) fun hs' => ih _ _ hs'
    · exact .refl _

theorem capPending_moves (hs : p.Slotted F) : Moves env allow (p, F) (p.capPending env, F) := by
  unfold capPending
  split
  swap
  · exact .refl _
  have htick : Moves env allow (p, F) (p.tick, F) := tick_moves
  have hequal := htick.trans (equalize_moves (p.spammers env) [] (p.tick, count p.pending)
    (htick.slotted hs))
  generalize equalize env (p.spammers env) [] (p.tick, count p.pending) = s at hequal ⊢
  obtain ⟨q, pending, offenders⟩ := s
  simp only at hequal ⊢
  split
  · exact hequal
  · exact hequal.trans (dropRounds_moves _ _ _ _ (q, pending) (hequal.slotted hs))

/-! ## What a removal leaves -/

/-- The pending and the queued transactions of an account. -/
def lists (p : TxPool) (a : Address) : List Transaction × Finset Transaction :=
  (p.pending.txs a, (p.queue.txs a).toFinset)

/-- The lists of an account without the slot of the nonce. After a pending transaction the later
ones are queued, or lost if nothing comes before it. -/
def cutOut (lists : List Transaction × Finset Transaction) (nonce : ℕ) :
    List Transaction × Finset Transaction :=
  if ∃ u ∈ lists.1, u.nonce = nonce then
    let earlier := lists.1.filter fun u => decide (u.nonce < nonce)
    (earlier, if earlier = [] then lists.2
      else lists.2 ∪ (lists.1.filter fun u => decide (nonce < u.nonce)).toFinset)
  else (lists.1, lists.2.filter fun u => u.nonce ≠ nonce)

theorem lists_postpone (hk : p.Kinds) (hfree : ∀ u ∈ p.queue.txs tx.addr, u.nonce ≠ tx.nonce) :
    (p.postpone env tx).Kinds ∧ (∀ w, w ∈ (p.postpone env tx).all ↔ w = tx ∨ w ∈ p.all) ∧
      (p.postpone env tx).lists =
        update p.lists tx.addr ((p.lists tx.addr).1, insert tx (p.lists tx.addr).2) := by
  obtain ⟨l, hpost, hloose, hperm⟩ : ∃ l : TxList, p.postpone env tx = _ ∧ _ ∧ _ :=
    postpone_of_free hk hfree
  rw [hpost]
  refine ⟨hk.setQueue hloose, fun w => TxSet.mem_insert, eq_update_iff.mpr ⟨?_, fun b hb => ?_⟩⟩
  · refine Prod.ext rfl ((congrArg toFinset txs_insert_self).trans ?_)
    rw [toFinset_eq_of_perm _ _ hperm, toFinset_cons]
    rfl
  · exact Prod.ext rfl (congrArg toFinset (txs_insert_ne hb))

/-- Transactions that find their slots free are all queued. -/
theorem lists_postponeAll {out : List Transaction} (hk : p.Kinds)
    (haddr : ∀ w ∈ out, w.addr = a) (hnodup : (out.map Transaction.nonce).Nodup)
    (hfree : ∀ w ∈ out, ∀ u ∈ (p.lists a).2, u.nonce ≠ w.nonce) :
    (∀ w, w ∈ (out.foldl (postpone env) p).all ↔ w ∈ out ∨ w ∈ p.all) ∧
      (out.foldl (postpone env) p).lists =
        update p.lists a ((p.lists a).1, (p.lists a).2 ∪ out.toFinset) := by
  induction out generalizing p with
  | nil => simp
  | cons v out ih =>
    obtain ⟨rfl, haddr⟩ := forall_mem_cons.mp haddr
    obtain ⟨hv, hnodup⟩ := nodup_cons.mp hnodup
    obtain ⟨hfirst, hfree⟩ := forall_mem_cons.mp hfree
    obtain ⟨hk', hall, hlists⟩ : (p.postpone env v).Kinds ∧ _ ∧ _ :=
      lists_postpone hk fun u hu => hfirst u (mem_toFinset.mpr hu)
    have hself := congrFun hlists v.addr
    rw [update_self] at hself
    obtain ⟨h₁, h₂⟩ : (∀ w, w ∈ (out.foldl (postpone env) (p.postpone env v)).all ↔ _) ∧ _ = _ := by
      refine ih hk' haddr hnodup fun w hw u hu => ?_
      rw [hself] at hu
      rcases Finset.mem_insert.mp hu with rfl | hu
      · exact fun heq => hv (heq ▸ mem_map_of_mem hw)
      · exact hfree w hw u hu
    refine ⟨fun w => ?_, h₂.trans ?_⟩
    · rw [foldl_cons, h₁, hall, mem_cons, or_left_comm, or_assoc]
    · rw [hself, hlists, update_idem, toFinset_cons, Finset.union_insert, Finset.insert_union]

theorem lists_removeQueued (hk : p.Kinds) (tx : Transaction) :
    (p.removeQueued env tx).all = p.all ∧ (p.removeQueued env tx).lists = update p.lists tx.addr
      ((p.lists tx.addr).1, (p.lists tx.addr).2.filter fun u => u.nonce ≠ tx.nonce) := by
  unfold removeQueued
  split
  · rename_i hnone
    refine ⟨rfl, (update_eq_self_iff.mpr ?_).symm⟩
    rw [lists, txs_of_none hnone]
    rfl
  · rename_i future hf
    dsimp only
    generalize hlist : ((future.remove (env.oracle.transactions p.clock) tx).map
      Prod.snd).getD future = list
    have hkept : list.items = future.items.filter fun u => decide (u.nonce ≠ tx.nonce) := by
      rw [← hlist]
      cases hrem : future.remove (env.oracle.transactions p.clock) tx with
      | none =>
        have hne := remove_eq_none_iff.mp hrem
        exact (filter_eq_self.mpr fun u hu => decide_eq_true (hne u hu)).symm
      | some res =>
        unfold TxList.remove at hrem
        rw [hk.2 _ future hf, if_neg Bool.false_ne_true] at hrem
        split_ifs at hrem
        cases hrem
        rfl
    have hleft : (p.lists tx.addr).2.filter (fun u => u.nonce ≠ tx.nonce) =
        list.items.toFinset := by
      rw [hkept, toFinset_filter, lists, txs_of_lookup hf]
      simp
    rw [hleft]
    split
    · rename_i hempty
      rw [TxList.isEmpty_iff.mp hempty]
      exact ⟨rfl, eq_update_iff.mpr ⟨Prod.ext rfl (congrArg toFinset txs_erase_self),
        fun b hb => Prod.ext rfl (congrArg toFinset (txs_erase_ne hb))⟩⟩
    · exact ⟨rfl, eq_update_iff.mpr ⟨Prod.ext rfl (congrArg toFinset txs_insert_self),
        fun b hb => Prod.ext rfl (congrArg toFinset (txs_insert_ne hb))⟩⟩

theorem lowerNonce_eq (p : TxPool) (a : Address) (nonce : ℕ) : p.lowerNonce a nonce =
    { p with pendingNonces := (p.lowerNonce a nonce).pendingNonces } := by
  unfold lowerNonce
  split <;> rfl

/-- **What a removal leaves**: the slot is cut out of the lists of its account. -/
theorem removeTx_lists (hs : p.Slotted []) (hu : u ∈ p.all) :
    (∀ w, w ∈ (p.removeTx env u).all ↔ w ∈ p.all ∧ w ≠ u) ∧ (p.removeTx env u).lists =
      update p.lists u.addr (cutOut (p.lists u.addr) u.nonce) := by
  have hdel : ∀ w, w ∈ (p.deleteTx env u).all ↔ w ∈ p.all ∧ w ≠ u := fun w => TxSet.mem_erase
  unfold removeTx
  rw [if_pos hu]
  dsimp only
  split
  · -- the pending branch
    rename_i invalids list heq
    obtain ⟨l, hl, hrem⟩ := Option.bind_eq_some_iff.mp heq
    have hl : p.pending.lookup u.addr = some l := hl
    have hitems : (p.lists u.addr).1 = l.items := txs_of_lookup hl
    have hstrict := hs.kinds.1 _ l hl
    obtain ⟨hst, ⟨e, he, hn, hperm⟩, hkeep, -⟩ := remove_spec hrem
    have hlater : ∀ w, w ∈ invalids ↔ w ∈ (p.lists u.addr).1 ∧ u.nonce < w.nonce := by
      simp [TxList.mem_invalids hrem, hitems, hstrict]
    have hcut : cutOut (p.lists u.addr) u.nonce = (list.items, if list.items = [] then
        (p.lists u.addr).2 else (p.lists u.addr).2 ∪ invalids.toFinset) := by
      have hqueued : ((p.lists u.addr).1.filter fun w => decide (u.nonce < w.nonce)).toFinset =
          invalids.toFinset := by
        ext w
        simp [hlater]
      rw [cutOut, if_pos ⟨e, hitems ▸ he, hn⟩, hqueued, hkeep hstrict, ← hitems]
    unfold removePending
    rw [hcut, lowerNonce_eq]
    dsimp only
    split
    · rename_i hempty
      rw [TxList.isEmpty_iff.mp hempty]
      exact ⟨hdel, eq_update_iff.mpr ⟨Prod.ext txs_erase_self rfl,
        fun b hb => Prod.ext (txs_erase_ne hb) rfl⟩⟩
    · rename_i hne
      have hset : ((p.deleteTx env u).tick.setPending u.addr list).lists =
          update p.lists u.addr (list.items, (p.lists u.addr).2) :=
        eq_update_iff.mpr ⟨Prod.ext txs_insert_self rfl,
          fun b hb => Prod.ext (txs_insert_ne hb) rfl⟩
      have hself := congrFun hset u.addr
      rw [update_self] at hself
      have hheld : ∀ w ∈ invalids, w ∈ p.held [] u.addr := fun w hw =>
        mem_held.mpr (.inl ((hlater w).mp hw).1)
      have hnonces : (l.items.map Transaction.nonce).Nodup := by
        rw [← hitems]
        exact (hs.slots u.addr).sublist ((sublist_append_left _ _).map _)
      obtain ⟨hall, hlists⟩ : (∀ w, w ∈ (invalids.foldl (postpone env)
          ((p.deleteTx env u).tick.setPending u.addr list)).all ↔ _) ∧ _ = _ := by
        refine lists_postponeAll (hs.kinds.setPending (hst.trans hstrict))
          (fun w hw => hs.addr_eq (hheld w hw)) (((hperm.map _).nodup_iff.mp hnonces).sublist
            (((sublist_append_left _ _).cons _).map _)) fun w hw x hx => ?_
        rw [hself] at hx
        exact (hs.pending_ne_queue ((hlater w).mp hw).1 (mem_toFinset.mp hx)).symm
      refine ⟨fun w => (hall w).trans ?_, hlists.trans ?_⟩
      · refine (or_iff_right_of_imp fun hw => (hdel w).mpr ⟨?_, ?_⟩).trans (hdel w)
        · exact hs.known u.addr w (hheld w hw)
        · rintro rfl
          exact lt_irrefl _ ((hlater w).mp hw).2
      · rw [hself, hset, update_idem, if_neg (mt TxList.isEmpty_iff.mpr hne)]
  · -- the queue branch
    rename_i heq
    have hk : (p.deleteTx env u).Kinds := hs.kinds
    obtain ⟨hall, hlists⟩ : (removeQueued env (p.deleteTx env u) u).all = _ ∧ _ :=
      lists_removeQueued hk u
    rw [hall, hlists]
    refine ⟨hdel, congrArg (update p.lists u.addr) (if_neg ?_).symm⟩
    exact fun ⟨w, hw, hn⟩ => txs_ne_of_remove (m := p.pending) heq w hw hn

theorem removeTx_queued (hs : p.Slotted []) (h : tx ∈ p.queue.txs tx.addr) :
    ∀ u ∈ p.queue.txs b, u ≠ tx → u ∈ (p.removeTx env tx).queue.txs b := by
  intro u hu hne
  have hall : tx ∈ p.all := hs.known _ tx (mem_held.mpr (.inr (.inl h)))
  have hlists : (p.removeTx env tx).lists = _ := (removeTx_lists hs hall).2
  refine mem_toFinset.mp (?_ : u ∈ ((p.removeTx env tx).lists b).2)
  rw [hlists]
  by_cases hb : b = tx.addr
  · subst hb
    rw [update_self, cutOut, if_neg fun ⟨w, hw, hn⟩ => hs.pending_ne_queue hw h hn]
    refine Finset.mem_filter.mpr ⟨mem_toFinset.mpr hu, fun hn => hne ?_⟩
    exact hs.nonce_inj (mem_held.mpr (.inr (.inl hu))) (mem_held.mpr (.inr (.inl h))) hn
  · rw [update_of_ne hb]
    exact mem_toFinset.mpr hu

theorem removeQueuedAll_moves (out : List Transaction) (hnd : out.Nodup) (hs : p.Slotted [])
    (hout : ∀ tx ∈ out, tx ∈ p.queue.txs tx.addr) :
    Moves env allow (p, []) (out.foldl (removeTx env) p, []) := by
  induction out generalizing p with
  | nil => exact .refl _
  | cons tx out ih =>
    have htx := hout tx mem_cons_self
    rw [nodup_cons] at hnd
    refine Moves.andThen hs (removeTx_moves hs (Removal.of_queued hs htx)) fun hs' => ?_
    refine ih hnd.2 hs' fun u hu => removeTx_queued hs htx u ?_ ?_
    · exact hout u (mem_cons_of_mem _ hu)
    · rintro rfl
      exact hnd.1 hu

include hs

theorem Slotted.nodup_queue (a : Address) : (p.queue.txs a).Nodup := by
  refine Nodup.of_map Transaction.nonce ((hs.slots a).sublist (Sublist.map _ ?_))
  exact (sublist_append_left _ _).trans (sublist_append_right _ _)

theorem Slotted.mem_queue_addr (h : tx ∈ p.queue.txs a) : tx ∈ p.queue.txs tx.addr := by
  rw [hs.addr_eq (mem_held.mpr (.inr (.inl h)))]
  exact h

omit hs

theorem dropQueued_moves (addresses : List Address) (drop : ℕ) (hs : p.Slotted []) :
    Moves env allow (p, []) (dropQueued env addresses drop p, []) := by
  induction addresses generalizing drop p with
  | nil => exact .refl _
  | cons a addresses ih =>
    rw [dropQueued]
    split
    · exact .refl _
    · simp only
      split
      · exact Moves.andThen hs (removeQueuedAll_moves _ (hs.nodup_queue a) hs
          fun tx htx => hs.mem_queue_addr htx) fun hs' => ih _ hs'
      · refine removeQueuedAll_moves _ ?_ hs fun tx htx => ?_
        · exact (nodup_reverse.mpr (hs.nodup_queue a)).sublist (take_sublist _ _)
        · exact hs.mem_queue_addr (mem_reverse.mp (mem_of_mem_take htx))

theorem capQueue_moves (hs : p.Slotted []) : Moves env allow (p, []) (p.capQueue env, []) := by
  unfold capQueue
  simp only
  split
  · exact Moves.andThen hs tick_moves fun hs => dropQueued_moves _ _ hs
  · exact .refl _

/-- **Promotion brings about no event.** -/
theorem promoteExecutables_moves (accounts : Option (List Address)) (hs : p.Slotted []) :
    Moves env allow (p, []) (p.promoteExecutables env accounts, []) := by
  have htick : Moves env allow (p, []) (p.tick, []) := tick_moves
  have hfold := htick.trans (foldl_accounts_moves (fun _ a hs => promoteAccount_moves (a := a) hs)
    (accounts.getD ((env.oracle.accounts p.clock).visit p.queue.keys)) (htick.slotted hs))
  have hpending := hfold.trans (capPending_moves (hfold.slotted hs))
  exact hpending.trans (capQueue_moves (hpending.slotted hs))

theorem evictAccount_moves (hs : p.Slotted []) :
    Moves env allow (p, []) (p.evictAccount env a, []) := by
  unfold evictAccount
  split
  · refine Moves.andThen hs tick_moves fun hs' => ?_
    exact removeQueuedAll_moves _ (hs.nodup_queue a) hs' fun tx htx => hs.mem_queue_addr htx
  · exact tick_moves

theorem evict_moves (hs : p.Slotted []) : Moves env allow (p, []) (p.evict env, []) :=
  Moves.andThen hs tick_moves fun hs =>
    foldl_accounts_moves (fun _ _ hs => evictAccount_moves hs) _ hs

end TxPool

end XChain
