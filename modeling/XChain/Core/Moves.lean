import XChain.Core.TxPool

/-!
# Moves of the pool

Every function of the pool takes transactions out of its lists, deletes some and puts the others
back. Between the two they are in flight: in `all`, but in no list. A `Move` is one such change of a
pool and of the list of transactions in flight. What can go wrong is an `Event`, and a move that
brings one about says so.

* **`Moves.slotted`**: moves keep the pool slotted, whatever the events.
-/

namespace XChain

open List TxSet TxLists AList TxSortedMap GoText

namespace TxLists

variable {m : TxLists} {a b : Address} {l : TxList}

theorem txs_of_lookup (h : m.lookup a = some l) : m.txs a = l.items := by
  rw [txs, h]
  rfl

theorem txs_of_none (h : m.lookup a = none) : m.txs a = [] := by
  rw [txs, h]
  rfl

@[simp] theorem txs_insert_self : txs (m.insert a l) a = l.items :=
  txs_of_lookup (lookup_insert m)

theorem txs_insert_ne (h : b ≠ a) : txs (m.insert a l) b = m.txs b := by
  rw [txs, lookup_insert_ne h]
  rfl

@[simp] theorem txs_erase_self : txs (m.erase a) a = [] :=
  txs_of_none (lookup_erase a m)

theorem txs_erase_ne (h : b ≠ a) : txs (m.erase a) b = m.txs b := by
  rw [txs, lookup_erase_ne h]
  rfl

theorem items_getD (m : TxLists) (a : Address) (strict : Bool) :
    ((m.lookup a).getD (TxList.new strict)).items = m.txs a := by
  rw [txs]
  cases m.lookup a with
  | none | some l => rfl

end TxLists

namespace TxList

theorem add_perm {l l' : TxList} {tx : Transaction} {priceBump : ℕ} {old : Option Transaction}
    (h : l.add tx priceBump = some (old, l')) :
    l.items.Perm (old.toList ++ l.items.filter fun u => decide (u.nonce ≠ tx.nonce)) ∧
      l'.items.Perm (tx :: l.items.filter fun u => decide (u.nonce ≠ tx.nonce)) := by
  obtain ⟨-, hold, hmem⟩ := mem_of_add h
  constructor
  · cases old with
    | none =>
      have hfree : ∀ u ∈ l.items, u.nonce ≠ tx.nonce := get_eq_none.mp hold.symm
      rw [filter_eq_self.mpr fun u hu => decide_eq_true (hfree u hu)]
      exact .refl _
    | some o =>
      obtain ⟨ho, hn⟩ := get_eq_some hold.symm
      have hslot := l.perm_slot ho
      rw [hn] at hslot
      exact hslot
  · have hnot : tx ∉ l.items.filter fun u => decide (u.nonce ≠ tx.nonce) := by
      intro htx
      simpa using (mem_filter.mp htx).2
    refine (perm_ext_iff_of_nodup l'.nodup_items
      (nodup_cons.mpr ⟨hnot, l.nodup_items.filter _⟩)).mpr fun u => ?_
    rw [hmem u, mem_cons, mem_filter, decide_eq_true_eq]

end TxList

namespace TxPool

/-! ## What a pool holds -/

/-- The transactions of an account: pending, queued and in flight. -/
def held (p : TxPool) (F : List Transaction) (a : Address) : List Transaction :=
  p.pending.txs a ++ (p.queue.txs a ++ F.filter fun tx => decide (tx.addr = a))

def Kinds (p : TxPool) : Prop :=
  (∀ a l, p.pending.lookup a = some l → l.strict = true) ∧
    ∀ a l, p.queue.lookup a = some l → l.strict = false

/-- Every account holds its own transactions, one a nonce, all of them in `all`. -/
structure Slotted (p : TxPool) (F : List Transaction) : Prop where
  kinds : p.Kinds
  own : ∀ a, ∀ tx ∈ p.held F a, tx.sender = some a
  slots : ∀ a, ((p.held F a).map Transaction.nonce).Nodup
  known : ∀ a, ∀ tx ∈ p.held F a, tx ∈ p.all

def Complete (p : TxPool) (F : List Transaction) : Prop := ∀ tx ∈ p.all, ∃ a, tx ∈ p.held F a

theorem addr_of_sender {tx : Transaction} {a : Address} (h : tx.sender = some a) : tx.addr = a := by
  rw [Transaction.addr, h]
  rfl

section Held

variable {p p' : TxPool} {F : List Transaction} {tx : Transaction} {a : Address}

theorem mem_held : tx ∈ p.held F a ↔
    tx ∈ p.pending.txs a ∨ tx ∈ p.queue.txs a ∨ tx ∈ F ∧ tx.addr = a := by
  simp [held]

theorem held_append (p : TxPool) (l F : List Transaction) (a : Address) :
    (p.held (l ++ F) a).Perm ((l.filter fun tx => decide (tx.addr = a)) ++ p.held F a) := by
  rw [held, held, filter_append]
  generalize l.filter (fun tx => decide (tx.addr = a)) = out
  -- `out` passes the queued list, then the pending one
  refine (Perm.append_left _ ?_).trans (perm_append_comm_assoc _ _ _)
  exact perm_append_comm_assoc _ _ _

theorem held_cons_self (p : TxPool) (tx : Transaction) (F : List Transaction) :
    (p.held (tx :: F) tx.addr).Perm (tx :: p.held F tx.addr) := by
  refine (p.held_append [tx] F tx.addr).trans ?_
  rw [filter_cons_of_pos (by simp), filter_nil]
  exact .refl _

theorem held_cons_ne (h : tx.addr ≠ a) : p.held (tx :: F) a = p.held F a := by
  rw [held, held, filter_cons_of_neg (by simpa using h)]

theorem mem_held_cons {u : Transaction} :
    u ∈ p.held (tx :: F) a ↔ u = tx ∧ tx.addr = a ∨ u ∈ p.held F a := by
  simp only [mem_held, mem_cons]
  constructor
  · rintro (h | h | ⟨rfl | h, ha⟩)
    · exact .inr (.inl h)
    · exact .inr (.inr (.inl h))
    · exact .inl ⟨rfl, ha⟩
    · exact .inr (.inr (.inr ⟨h, ha⟩))
  · rintro (⟨rfl, ha⟩ | h | h | ⟨h, ha⟩)
    · exact .inr (.inr ⟨.inl rfl, ha⟩)
    · exact .inl h
    · exact .inr (.inl h)
    · exact .inr (.inr ⟨.inr h, ha⟩)

end Held

namespace Slotted

variable {p : TxPool} {F : List Transaction} {tx u : Transaction} {a : Address}

theorem addr_eq (h : p.Slotted F) (htx : tx ∈ p.held F a) : tx.addr = a :=
  addr_of_sender (h.own a tx htx)

theorem nonce_inj (h : p.Slotted F) (htx : tx ∈ p.held F a) (hu : u ∈ p.held F a)
    (hn : tx.nonce = u.nonce) : tx = u := inj_on_of_nodup_map (h.slots a) htx hu hn

theorem free (h : p.Slotted (tx :: F)) : ∀ u ∈ p.held F tx.addr, u.nonce ≠ tx.nonce := by
  intro u hu hn
  have hnd := ((p.held_cons_self tx F).map Transaction.nonce).nodup_iff.mp (h.slots tx.addr)
  rw [map_cons, nodup_cons] at hnd
  exact hnd.1 (mem_map.mpr ⟨u, hu, hn⟩)

theorem pending_ne_queue (h : p.Slotted F) (htx : tx ∈ p.pending.txs a)
    (hu : u ∈ p.queue.txs a) : tx.nonce ≠ u.nonce := by
  have hnd := h.slots a
  rw [held, map_append, nodup_append] at hnd
  refine hnd.2.2 _ (mem_map_of_mem htx) _ (mem_map_of_mem ?_)
  exact mem_append_left _ hu

theorem mem_all_head (h : p.Slotted (tx :: F)) : tx ∈ p.all :=
  h.known tx.addr tx (mem_held_cons.mpr (.inl ⟨rfl, rfl⟩))

end Slotted

/-! ## The moves -/

/-- A transaction stays in `all` unheld, gets a second entry in the heap, loses its entry before it
leaves `all`, enters, or enters with an entry. -/
inductive Event
  | leak
  | postpone
  | evict
  | enter (tx : Transaction)
  | reenter

variable (env : PoolEnv) (allow : Event → Prop)

/-- One change of a pool and of what is in flight, with its events allowed. -/
inductive Move : TxPool × List Transaction → TxPool × List Transaction → Prop
  -- transactions change places, the rest of the pool is free
  | shift {p p' : TxPool} {F F' : List Transaction} (hall : p'.all = p.all)
      (hpriced : p'.priced = p.priced) (hheld : ∀ a, (p'.held F' a).Perm (p.held F a))
      (hkinds : p.Kinds → p'.Kinds) : Move (p, F) (p', F')
  | drop (p : TxPool) (tx : Transaction) (F : List Transaction) :
      Move (p, tx :: F) (p.deleteTx env tx, F)
  -- a transaction that leaked before is deleted
  | forget (p : TxPool) (tx : Transaction) (F : List Transaction) (hall : tx ∈ p.all)
      (hheld : ∀ a, tx ∉ p.held F a) : Move (p, F) (p.deleteTx env tx, F)
  | again (p : TxPool) (tx : Transaction) (F : List Transaction) (hall : tx ∈ p.all)
      (h : allow .postpone) : Move (p, F) (p.insertTx tx, F)
  | lose (p : TxPool) (tx : Transaction) (F : List Transaction) (h : allow .leak) :
      Move (p, tx :: F) (p, F)
  | enter (p : TxPool) (tx : Transaction) (F : List Transaction) (hnew : tx ∉ p.all)
      (hsender : tx.sender = some tx.addr) (hfree : ∀ u ∈ p.held F tx.addr, u.nonce ≠ tx.nonce)
      (h : allow (.enter tx)) (hre : tx ∈ p.priced.items.toList → allow .reenter) :
      Move (p, F) (p.insertTx tx, tx :: F)
  | popStale (p : TxPool) (priced : PricedList) (F out : List Transaction)
      (hout : ∀ tx ∈ out, tx ∉ p.all) (hstales : priced.stales = p.priced.stales - out.length)
      (hperm : p.priced.items.toList.Perm (out ++ priced.items.toList)) :
      Move (p, F) ({ p with priced := priced }, F)
  | pop (p : TxPool) (priced : PricedList) (F : List Transaction) (h : allow .evict) :
      Move (p, F) ({ p with priced := priced }, F)

def Moves : TxPool × List Transaction → TxPool × List Transaction → Prop :=
  Relation.ReflTransGen (Move env allow)

variable {env allow} {s s' s'' : TxPool × List Transaction} {u : Transaction}

theorem Moves.refl (s : TxPool × List Transaction) : Moves env allow s s :=
  Relation.ReflTransGen.refl

theorem Move.moves (h : Move env allow s s') : Moves env allow s s' :=
  Relation.ReflTransGen.single h

theorem Moves.trans (h : Moves env allow s s') (h' : Moves env allow s' s'') :
    Moves env allow s s'' := Relation.ReflTransGen.trans h h'

theorem Move.slotted (h : Move env allow s s') (hs : s.1.Slotted s.2) : s'.1.Slotted s'.2 := by
  cases h with
  | shift hall hpriced hheld hkinds =>
    refine ⟨hkinds hs.kinds, fun a tx htx => hs.own a tx ((hheld a).mem_iff.mp htx),
      fun a => ?_, ?_⟩
    · exact (((hheld a).map _).nodup_iff).mpr (hs.slots a)
    · intro a tx htx
      exact hall ▸ hs.known a tx ((hheld a).mem_iff.mp htx)
  | drop p tx F =>
    have hsub : ∀ a, ∀ u ∈ p.held F a, u ∈ p.held (tx :: F) a := fun a u hu =>
      mem_held_cons.mpr (.inr hu)
    refine ⟨hs.kinds, fun a u hu => hs.own a u (hsub a u hu), fun a => ?_, fun a u hu => ?_⟩
    · refine (hs.slots a).sublist (Sublist.map _ ?_)
      exact Sublist.append_left (Sublist.append_left
        ((sublist_cons_self tx F).filter _) _) _
    · refine mem_erase.mpr ⟨hs.known a u (hsub a u hu), ?_⟩
      rintro rfl
      -- the account of the transaction would have its slot twice
      have ha : u.addr = a := hs.addr_eq (hsub a u hu)
      exact hs.free u (ha ▸ hu) rfl
  | forget p tx F hall hheld =>
    refine { hs with known := fun a u hu => mem_erase.mpr ⟨hs.known a u hu, ?_⟩ }
    rintro rfl
    exact hheld a hu
  | again p tx F hall h =>
    exact { hs with known := fun a u hu => mem_insert.mpr (.inr (hs.known a u hu)) }
  | lose p tx F h =>
    have hsub : ∀ a, ∀ u ∈ p.held F a, u ∈ p.held (tx :: F) a := fun a u hu =>
      mem_held_cons.mpr (.inr hu)
    refine ⟨hs.kinds, fun a u hu => hs.own a u (hsub a u hu), fun a => ?_,
      fun a u hu => hs.known a u (hsub a u hu)⟩
    refine (hs.slots a).sublist (Sublist.map _ ?_)
    exact Sublist.append_left (Sublist.append_left
      ((sublist_cons_self tx F).filter _) _) _
  | enter p tx F hnew hsender hfree h hre =>
    refine ⟨hs.kinds, fun a u hu => ?_, fun a => ?_, fun a u hu => ?_⟩
    · rcases mem_held_cons.mp hu with ⟨rfl, ha⟩ | hu
      · rw [hsender, ha]
      · exact hs.own a u hu
    · by_cases ha : tx.addr = a
      · rw [← ha]
        refine (((p.insertTx tx).held_cons_self tx F).map _).nodup_iff.mpr ?_
        rw [map_cons, nodup_cons]
        refine ⟨fun hmem => ?_, hs.slots _⟩
        obtain ⟨u, hu, hn⟩ := mem_map.mp hmem
        exact hfree u hu hn
      · have hne : (p.insertTx tx).held (tx :: F) a = (p.insertTx tx).held F a := held_cons_ne ha
        exact hne ▸ hs.slots a
    · rcases mem_held_cons.mp hu with ⟨rfl, -⟩ | hu
      · exact mem_insert.mpr (.inl rfl)
      · exact mem_insert.mpr (.inr (hs.known a u hu))
  | popStale p priced F out hout hstales hperm | pop p priced F h =>
    exact { hs with }

/-- **Moves keep the pool slotted.** -/
theorem Moves.slotted (h : Moves env allow s s') (hs : s.1.Slotted s.2) : s'.1.Slotted s'.2 := by
  induction h with
  | refl => exact hs
  | tail _ hmove ih => exact hmove.slotted ih

theorem Move.complete (hleak : ¬ allow .leak) (h : Move env allow s s') (hs : s.1.Complete s.2) :
    s'.1.Complete s'.2 := by
  cases h with
  | shift hall hpriced hheld hkinds =>
    intro tx htx
    obtain ⟨a, ha⟩ := hs tx (hall ▸ htx)
    exact ⟨a, (hheld a).mem_iff.mpr ha⟩
  | drop p tx F =>
    intro u hu
    obtain ⟨hall, hne⟩ := mem_erase.mp hu
    obtain ⟨a, ha⟩ := hs u hall
    exact ⟨a, (mem_held_cons.mp ha).resolve_left fun h => hne h.1⟩
  | forget p tx F hall hheld => exact fun u hu => hs u (mem_erase.mp hu).1
  | again p tx F hall h =>
    intro u hu
    rcases mem_insert.mp hu with rfl | hu
    · exact hs u hall
    · exact hs u hu
  | lose p tx F h => exact absurd h hleak
  | enter p tx F hnew hsender hfree h hre =>
    intro u hu
    rcases mem_insert.mp hu with rfl | hu
    · exact ⟨u.addr, mem_held_cons.mpr (.inl ⟨rfl, rfl⟩)⟩
    · obtain ⟨a, ha⟩ := hs u hu
      exact ⟨a, mem_held_cons.mpr (.inr ha)⟩
  | popStale p priced F out hout hstales hperm | pop p priced F h => exact hs

theorem Moves.complete (hleak : ¬ allow .leak) (h : Moves env allow s s')
    (hs : s.1.Complete s.2) : s'.1.Complete s'.2 := by
  induction h with
  | refl => exact hs
  | tail _ hmove ih => exact hmove.complete hleak ih

theorem Moves.mem_all (h : Moves env allow s s') (hu : u ∈ s'.1.all) :
    u ∈ s.1.all ∨ allow (.enter u) := by
  induction h with
  | refl => exact .inl hu
  | tail _ hmove ih =>
    cases hmove with
    | shift hall hpriced hheld hkinds => exact ih (hall ▸ hu)
    | drop p tx F | forget p tx F hall hheld => exact ih (mem_erase.mp hu).1
    | again p tx F hall h =>
      rcases mem_insert.mp hu with rfl | hu
      · exact ih hall
      · exact ih hu
    | lose p tx F h | popStale p priced F out hout hstales hperm | pop p priced F h => exact ih hu
    | enter p tx F hnew hsender hfree h hre =>
      rcases mem_insert.mp hu with rfl | hu
      · exact .inr h
      · exact ih hu

theorem Moves.mem_held (h : Moves env allow s s') {a : Address} (hu : u ∈ s'.1.held s'.2 a) :
    u ∈ s.1.held s.2 a ∨ allow (.enter u) := by
  induction h with
  | refl => exact .inl hu
  | tail _ hmove ih =>
    cases hmove with
    | shift hall hpriced hheld hkinds => exact ih ((hheld a).mem_iff.mp hu)
    | drop p tx F | lose p tx F h => exact ih (mem_held_cons.mpr (.inr hu))
    | forget p tx F hall hheld | again p tx F hall h | popStale p priced F out hout hstales hperm
    | pop p priced F h => exact ih hu
    | enter p tx F hnew hsender hfree h hre =>
      rcases mem_held_cons.mp hu with ⟨rfl, -⟩ | hu
      · exact .inr h
      · exact ih hu

end TxPool

end XChain
