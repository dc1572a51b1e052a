import XChain.Lib.Assoc
import XChain.Lib.Heap
import XChain.Lib.Text
import XChain.Lib.Word

/-!
# Transaction lists

The transactions of one account, sorted by nonce, and the heap of all transactions by price. A
`txSortedMap` is given by its nonce-sorted content. A `txList` carries the two caps that `Filter`
uses to skip its work, with the fact that they bound every entry. The order in which `range` visits
a Go map is an argument. The fields of a transaction stand for its hash.
-/

namespace XChain

open GoText GoMap List GoHeap

/-- `types.Transaction`: what the pool reads, and what else its hash covers. `sender` is the result
of `types.Sender`, none for an invalid signature. -/
structure Transaction where
  sender : Option Address
  nonce : ℕ
  gasPrice : ℤ
  gasLimit : ℤ
  value : ℤ
  size : ℕ
  isClassic : Bool
  chainId : ℤ
  data : Bytes
  recipient : Option Address
  signature : Bytes
  nonce_lt : nonce < Word64.size
deriving DecidableEq

namespace Transaction

def addr (tx : Transaction) : Address := tx.sender.getD (.fill 0)

def cost (tx : Transaction) : ℤ := tx.value + tx.gasPrice * tx.gasLimit

/-- The price that a replacement has to exceed. -/
def threshold (tx : Transaction) (priceBump : ℕ) : ℤ :=
  tx.gasPrice * Word64.toInt64 (Word64.add 100 priceBump) / 100

end Transaction

/-! ## The sorted map -/

structure TxSortedMap where
  items : List Transaction
  sorted : items.Pairwise fun a b => a.nonce < b.nonce

namespace TxSortedMap

def empty : TxSortedMap := ⟨[], Pairwise.nil⟩

def keep (m : TxSortedMap) (p : Transaction → Bool) : TxSortedMap :=
  ⟨m.items.filter p, m.sorted.sublist filter_sublist⟩

def get (m : TxSortedMap) (nonce : ℕ) : Option Transaction :=
  m.items.find? fun tx => decide (tx.nonce = nonce)

def put (m : TxSortedMap) (tx : Transaction) : TxSortedMap where
  items := m.items.filter (fun u => decide (u.nonce < tx.nonce)) ++
    tx :: m.items.filter fun u => decide (tx.nonce < u.nonce)
  sorted := by
    refine pairwise_append.mpr ⟨m.sorted.sublist filter_sublist, ?_, ?_⟩
    · refine pairwise_cons.mpr ⟨fun u hu => ?_, m.sorted.sublist filter_sublist⟩
      simpa using (mem_filter.mp hu).2
    · intro u hu w hw
      have hut : u.nonce < tx.nonce := by simpa using (mem_filter.mp hu).2
      rcases mem_cons.mp hw with rfl | hw
      · exact hut
      · have htw : tx.nonce < w.nonce := by simpa using (mem_filter.mp hw).2
        omega

/-- `Forward`: the transactions below the threshold, and the rest. -/
def forward (m : TxSortedMap) (threshold : ℕ) : List Transaction × TxSortedMap :=
  (m.items.filter fun tx => decide (tx.nonce < threshold),
    m.keep fun tx => decide (threshold ≤ tx.nonce))

/-- `Cap`: the highest nonces beyond the limit from the top, and the rest. -/
def cap (m : TxSortedMap) (threshold : ℕ) : List Transaction × TxSortedMap :=
  ((m.items.drop threshold).reverse, ⟨m.items.take threshold, m.sorted.sublist (take_sublist _ _)⟩)

def consecutive : ℕ → List Transaction → List Transaction
  | _, [] => []
  | next, tx :: txs => if tx.nonce = next then tx :: consecutive (next + 1) txs else []

/-- `Ready`: the run from the lowest nonce, unless that is above `start`, and the rest. -/
def ready (m : TxSortedMap) (start : ℕ) : List Transaction × TxSortedMap :=
  match m.items with
  | [] => ([], m)
  | tx :: _ =>
    if start < tx.nonce then ([], m)
    else
      let run := consecutive tx.nonce m.items
      (run, ⟨m.items.drop run.length, m.sorted.sublist (drop_sublist _ _)⟩)

theorem nonce_inj (m : TxSortedMap) {a b : Transaction} (ha : a ∈ m.items) (hb : b ∈ m.items)
    (h : a.nonce = b.nonce) : a = b := by
  have hnd : (m.items.map Transaction.nonce).Nodup :=
    pairwise_map.mpr (m.sorted.imp fun h => ne_of_lt h)
  exact inj_on_of_nodup_map hnd ha hb h

variable {m : TxSortedMap}

theorem get_eq_some {n : ℕ} {tx : Transaction} (h : m.get n = some tx) :
    tx ∈ m.items ∧ tx.nonce = n :=
  ⟨mem_of_find?_eq_some h, by simpa using find?_some h⟩

theorem get_eq_none {n : ℕ} : m.get n = none ↔ ∀ tx ∈ m.items, tx.nonce ≠ n := by
  simp [get]

theorem mem_put {tx u : Transaction} :
    u ∈ (m.put tx).items ↔ u = tx ∨ u ∈ m.items ∧ u.nonce ≠ tx.nonce := by
  simp only [put, mem_append, mem_cons, mem_filter, decide_eq_true_eq]
  constructor
  · rintro (⟨hu, hlt⟩ | rfl | ⟨hu, hlt⟩)
    · exact .inr ⟨hu, Nat.ne_of_lt hlt⟩
    · exact .inl rfl
    · exact .inr ⟨hu, ne_of_gt hlt⟩
  · rintro (rfl | ⟨hu, hne⟩)
    · exact .inr (.inl rfl)
    · rcases lt_or_gt_of_ne hne with hlt | hlt
      · exact .inl ⟨hu, hlt⟩
      · exact .inr (.inr ⟨hu, hlt⟩)

theorem consecutive_prefix (next : ℕ) (txs : List Transaction) : consecutive next txs <+: txs := by
  induction txs generalizing next with
  | nil => exact prefix_rfl
  | cons tx txs ih =>
    rw [consecutive]
    split
    · exact cons_prefix_cons.mpr ⟨rfl, ih _⟩
    · exact nil_prefix

theorem ready_append (m : TxSortedMap) (start : ℕ) :
    (m.ready start).1 ++ (m.ready start).2.items = m.items := by
  unfold ready
  split
  · rename_i h
    exact h.symm ▸ rfl
  · split
    · rfl
    · rename_i tx txs hitems _
      obtain ⟨rest, hrest⟩ := consecutive_prefix tx.nonce m.items
      simp only
      generalize consecutive tx.nonce m.items = run at hrest ⊢
      rw [← hrest, drop_left]

theorem consecutive_nonce (next : ℕ) (txs : List Transaction) :
    (consecutive next txs).map Transaction.nonce =
      List.range' next (consecutive next txs).length := by
  induction txs generalizing next with
  | nil => rfl
  | cons tx txs ih =>
    rw [consecutive]
    split
    · rename_i h
      rw [map_cons, ih, length_cons, range'_succ, h]
    · rfl

end TxSortedMap

/-! ## The list of one account -/

/-- `txList`: the caps bound the cost and the gas limit of every entry. -/
structure TxList where
  strict : Bool
  txs : TxSortedMap
  costcap : ℤ
  gascap : ℤ
  cost_le : ∀ tx ∈ txs.items, tx.cost ≤ costcap
  gas_le : ∀ tx ∈ txs.items, tx.gasLimit ≤ gascap

def lowestNonce (removed : List Transaction) : ℕ :=
  removed.foldr (fun tx lowest => min tx.nonce lowest) (Word64.size - 1)

def Transaction.exceeds (tx : Transaction) (costLimit gasLimit : ℤ) : Bool :=
  decide (costLimit < tx.cost ∨ gasLimit < tx.gasLimit)

namespace TxList

/-- The entries, sorted by nonce: `Flatten`. -/
def items (l : TxList) : List Transaction := l.txs.items

def new (strict : Bool) : TxList :=
  ⟨strict, TxSortedMap.empty, 0, 0, nofun, nofun⟩

def shrink (l : TxList) (m : TxSortedMap) (h : ∀ tx ∈ m.items, tx ∈ l.items) : TxList :=
  { l with
    txs := m
    cost_le := fun tx htx => l.cost_le tx (h tx htx)
    gas_le := fun tx htx => l.gas_le tx (h tx htx) }

def overlaps (l : TxList) (tx : Transaction) : Bool := (l.txs.get tx.nonce).isSome

/-- `Add`: nothing if an older transaction is better, else the one that is replaced and the list. -/
def add (l : TxList) (tx : Transaction) (priceBump : ℕ) : Option (Option Transaction × TxList) :=
  let old := l.txs.get tx.nonce
  if old.any fun o => decide (tx.gasPrice ≤ o.threshold priceBump) then none
  else some (old, {
    strict := l.strict
    txs := l.txs.put tx
    costcap := max l.costcap tx.cost
    gascap := max l.gascap tx.gasLimit
    cost_le := fun u hu => by
      rcases TxSortedMap.mem_put.mp hu with rfl | ⟨hu, -⟩
      · exact le_max_right _ _
      · exact (l.cost_le u hu).trans (le_max_left _ _)
    gas_le := fun u hu => by
      rcases TxSortedMap.mem_put.mp hu with rfl | ⟨hu, -⟩
      · exact le_max_right _ _
      · exact (l.gas_le u hu).trans (le_max_left _ _) })

def forward (l : TxList) (threshold : ℕ) : List Transaction × TxList :=
  ((l.txs.forward threshold).1, l.shrink (l.txs.forward threshold).2 fun _ h => mem_of_mem_filter h)

/-- The entries within the limits and not above `lowest`, with the limits as the new caps. -/
def lower (l : TxList) (costLimit gasLimit : ℤ) (lowest : ℕ) : TxList where
  strict := l.strict
  txs := (l.txs.keep fun tx => !tx.exceeds costLimit gasLimit).keep fun tx =>
    decide (tx.nonce ≤ lowest)
  costcap := costLimit
  gascap := gasLimit
  cost_le := fun tx h => by
    have hx := (mem_filter.mp (mem_of_mem_filter h)).2
    simp only [Transaction.exceeds, Bool.not_eq_true', decide_eq_false_iff_not, not_or] at hx
    exact not_lt.mp hx.1
  gas_le := fun tx h => by
    have hx := (mem_filter.mp (mem_of_mem_filter h)).2
    simp only [Transaction.exceeds, Bool.not_eq_true', decide_eq_false_iff_not, not_or] at hx
    exact not_lt.mp hx.2

/-- `Filter`: what is above a limit, what a strict list loses with it, and the rest. -/
def filter (l : TxList) (r r' : Ranging Transaction) (costLimit gasLimit : ℤ) :
    List Transaction × List Transaction × TxList :=
  if l.costcap ≤ costLimit ∧ l.gascap ≤ gasLimit then ([], [], l)
  else
    let removed := l.items.filter fun tx => tx.exceeds costLimit gasLimit
    if l.strict = true ∧ removed ≠ [] then
      (r.visit removed,
        r'.visit ((l.txs.keep fun tx => !tx.exceeds costLimit gasLimit).items.filter fun tx =>
          decide (lowestNonce removed < tx.nonce)),
        l.lower costLimit gasLimit (lowestNonce removed))
    else (r.visit removed, [], l.lower costLimit gasLimit (Word64.size - 1))

def cap (l : TxList) (threshold : ℕ) : List Transaction × TxList :=
  ((l.txs.cap threshold).1, l.shrink (l.txs.cap threshold).2 fun _ h => mem_of_mem_take h)

/-- `Remove`: nothing if there is no entry with the nonce, else what a strict list loses with it,
and the rest. -/
def remove (l : TxList) (r : Ranging Transaction) (tx : Transaction) :
    Option (List Transaction × TxList) :=
  if l.overlaps tx then
    if l.strict then
      some (r.visit (l.items.filter fun u => decide (tx.nonce < u.nonce)),
        l.shrink (l.txs.keep fun u => decide (u.nonce < tx.nonce)) fun _ h =>
          mem_of_mem_filter h)
    else some ([], l.shrink (l.txs.keep fun u => decide (u.nonce ≠ tx.nonce)) fun _ h =>
      mem_of_mem_filter h)
  else none

variable {l : TxList} {tx : Transaction} {removed : List Transaction}

theorem mem_of_mem_ready {start : ℕ} (h : tx ∈ (l.txs.ready start).2.items) : tx ∈ l.items := by
  rw [items, ← l.txs.ready_append start]
  exact mem_append_right _ h

def ready (l : TxList) (start : ℕ) : List Transaction × TxList :=
  ((l.txs.ready start).1, l.shrink (l.txs.ready start).2 fun _ h => mem_of_mem_ready h)

def isEmpty (l : TxList) : Bool := l.items.isEmpty

/-! ### What the operations take out and leave -/

theorem isEmpty_iff : l.isEmpty = true ↔ l.items = [] := List.isEmpty_iff

theorem nonce_inj (l : TxList) {a b : Transaction} (ha : a ∈ l.items) (hb : b ∈ l.items)
    (h : a.nonce = b.nonce) : a = b := l.txs.nonce_inj ha hb h

theorem overlaps_iff : l.overlaps tx = true ↔ ∃ u ∈ l.items, u.nonce = tx.nonce := by
  rw [overlaps, Option.isSome_iff_exists]
  constructor
  · rintro ⟨u, hu⟩
    exact ⟨u, TxSortedMap.get_eq_some hu⟩
  · rintro ⟨u, hu, hn⟩
    rcases hget : l.txs.get tx.nonce with _ | v
    · exact absurd hn (TxSortedMap.get_eq_none.mp hget u hu)
    · exact ⟨v, rfl⟩

theorem nodup_items (l : TxList) : l.items.Nodup := by
  refine l.txs.sorted.imp ?_
  rintro a b hlt rfl
  exact lt_irrefl _ hlt

theorem filter_split {txs : List Transaction} {p q : Transaction → Bool}
    (h : ∀ tx ∈ txs, q tx = !p tx) : txs.Perm (txs.filter p ++ txs.filter q) := by
  rw [filter_congr h]
  exact (filter_append_perm p txs).symm

theorem add_of_free (h : ∀ u ∈ l.items, u.nonce ≠ tx.nonce)
    (priceBump : ℕ) : ∃ l', l.add tx priceBump = some (none, l') ∧ l'.strict = l.strict ∧
      l'.items.Perm (tx :: l.items) := by
  have hget : l.txs.get tx.nonce = none := TxSortedMap.get_eq_none.mpr h
  unfold add
  simp only [hget, Option.any_none, Bool.false_eq_true, if_false]
  refine ⟨_, rfl, rfl, ?_⟩
  refine (perm_ext_iff_of_nodup (nodup_items _) (nodup_cons.mpr
    ⟨fun htx => h tx htx rfl, l.nodup_items⟩)).mpr fun u => ?_
  refine TxSortedMap.mem_put.trans ?_
  rw [mem_cons]
  exact or_congr_right ⟨fun hu => hu.1, fun hu => ⟨hu, h u hu⟩⟩

theorem add_eq_none {priceBump : ℕ} : l.add tx priceBump = none ↔
    ∃ u ∈ l.items, u.nonce = tx.nonce ∧ tx.gasPrice ≤ u.threshold priceBump := by
  have hnone : l.add tx priceBump = none ↔
      ∃ o, l.txs.get tx.nonce = some o ∧ tx.gasPrice ≤ o.threshold priceBump := by
    simp [add, Option.any_eq_true]
  rw [hnone]
  constructor
  · rintro ⟨o, hget, hle⟩
    obtain ⟨ho, hn⟩ := TxSortedMap.get_eq_some hget
    exact ⟨o, ho, hn, hle⟩
  · rintro ⟨u, hu, hn, hle⟩
    obtain ⟨o, hget⟩ := Option.isSome_iff_exists.mp (overlaps_iff.mpr ⟨u, hu, hn⟩)
    obtain ⟨ho, hon⟩ := TxSortedMap.get_eq_some hget
    exact ⟨o, hget, l.nonce_inj hu ho (hn.trans hon.symm) ▸ hle⟩

theorem mem_of_add {l l' : TxList} {priceBump : ℕ} {old : Option Transaction}
    (h : l.add tx priceBump = some (old, l')) :
    l'.strict = l.strict ∧ old = l.txs.get tx.nonce ∧
      ∀ u, u ∈ l'.items ↔ u = tx ∨ u ∈ l.items ∧ u.nonce ≠ tx.nonce := by
  unfold add at h
  simp only at h
  split at h
  · cases h
  · cases h
    exact ⟨rfl, rfl, fun u => TxSortedMap.mem_put⟩

theorem forward_perm (l : TxList) (threshold : ℕ) :
    l.items.Perm ((l.forward threshold).1 ++ (l.forward threshold).2.items) := by
  refine filter_split fun tx _ => ?_
  rw [← decide_not]
  exact decide_eq_decide.mpr not_lt.symm

theorem cap_perm (l : TxList) (threshold : ℕ) :
    l.items.Perm ((l.cap threshold).1 ++ (l.cap threshold).2.items) := by
  refine (Perm.of_eq (take_append_drop threshold l.items).symm).trans ?_
  exact perm_append_comm.trans ((reverse_perm _).symm.append_right _)

theorem ready_append (l : TxList) (start : ℕ) :
    (l.ready start).1 ++ (l.ready start).2.items = l.items := l.txs.ready_append start

theorem lowestNonce_le (h : tx ∈ removed) : lowestNonce removed ≤ tx.nonce := by
  induction removed with
  | nil => cases h
  | cons u removed ih =>
    rcases mem_cons.mp h with rfl | h
    · exact min_le_left _ _
    · exact (min_le_right _ _).trans (ih h)

theorem exists_lowestNonce (h : removed ≠ []) : ∃ tx ∈ removed, tx.nonce = lowestNonce removed := by
  induction removed with
  | nil => exact absurd rfl h
  | cons u removed ih =>
    change ∃ tx ∈ u :: removed, tx.nonce = min u.nonce (lowestNonce removed)
    by_cases hle : u.nonce ≤ lowestNonce removed
    · exact ⟨u, mem_cons_self, (min_eq_left hle).symm⟩
    · rcases removed.eq_nil_or_concat with rfl | ⟨_, _, rfl⟩
      · have := u.nonce_lt
        exact absurd (Nat.le_sub_one_of_lt this) hle
      · obtain ⟨tx, htx, hn⟩ := ih (by simp)
        exact ⟨tx, mem_cons_of_mem _ htx, by rw [hn, min_eq_right (Nat.le_of_not_le hle)]⟩

/-- What exceeds a limit is removed; a strict list loses what is above the lowest removed nonce. -/
structure FilterSpec (l : TxList) (costLimit gasLimit : ℤ)
    (res : List Transaction × List Transaction × TxList) : Prop where
  perm : l.items.Perm (res.1 ++ (res.2.1 ++ res.2.2.items))
  strict_eq : res.2.2.strict = l.strict
  removed : ∀ tx, tx ∈ res.1 ↔ tx ∈ l.items ∧ tx.exceeds costLimit gasLimit = true
  within : ∀ tx ∈ res.2.2.items, tx.exceeds costLimit gasLimit = false
  below : l.strict = true → ∀ tx ∈ res.2.2.items, ∀ u ∈ res.1, tx.nonce < u.nonce
  above : ∀ tx ∈ res.2.1, ∃ u ∈ res.1, u.nonce < tx.nonce
  lost : l.strict = false → res.2.1 = []

theorem exceeds_eq_false_iff {costLimit gasLimit : ℤ} :
    tx.exceeds costLimit gasLimit = false ↔ tx.cost ≤ costLimit ∧ tx.gasLimit ≤ gasLimit := by
  simp [Transaction.exceeds]

theorem filter_spec (l : TxList) (r r' : Ranging Transaction) (costLimit gasLimit : ℤ) :
    FilterSpec l costLimit gasLimit (l.filter r r' costLimit gasLimit) := by
  unfold filter
  split
  · -- the caps are within the limits, so every entry is
    rename_i hcap
    have hwithin : ∀ tx ∈ l.items, tx.exceeds costLimit gasLimit = false := fun tx htx =>
      exceeds_eq_false_iff.mpr ⟨(l.cost_le tx htx).trans hcap.1, (l.gas_le tx htx).trans hcap.2⟩
    refine ⟨.refl _, rfl, fun tx => ?_, hwithin, fun _ _ _ _ => nofun, nofun, fun _ => rfl⟩
    refine ⟨nofun, fun h => ?_⟩
    rw [hwithin tx h.1] at h
    exact absurd h.2 Bool.false_ne_true
  · simp only
    generalize hrem : (l.items.filter fun tx => tx.exceeds costLimit gasLimit) = removed
    have hmem : ∀ tx, tx ∈ removed ↔ tx ∈ l.items ∧ tx.exceeds costLimit gasLimit = true := by
      intro tx
      rw [← hrem, mem_filter]
    have hsplit : l.items.Perm
        (removed ++ (l.txs.keep fun tx => !tx.exceeds costLimit gasLimit).items) := by
      rw [← hrem]
      exact (filter_append_perm _ l.items).symm
    split
    · rename_i hstrict
      refine ⟨?_, rfl, fun tx => ((r.visit_perm _).mem_iff).trans (hmem tx), ?_, ?_, ?_, ?_⟩
      · refine hsplit.trans ((r.visit_perm _).symm.append ?_)
        refine Perm.trans ?_ ((r'.visit_perm _).symm.append_right _)
        refine filter_split fun tx _ => ?_
        rw [← decide_not]
        exact decide_eq_decide.mpr not_lt.symm
      · intro tx htx
        have hx := (mem_filter.mp (mem_of_mem_filter htx)).2
        simpa using hx
      · intro _ tx htx u hu
        have hle : tx.nonce ≤ lowestNonce removed := by simpa using (mem_filter.mp htx).2
        have hu' := (r.visit_perm _).mem_iff.mp hu
        have hlow := lowestNonce_le hu'
        rcases lt_or_ge tx.nonce u.nonce with hlt | hge
        · exact hlt
        · -- the same nonce: one entry cannot be both within and above the limits
          have hkept := mem_filter.mp (mem_of_mem_filter htx)
          have heq := l.nonce_inj hkept.1 ((hmem u).mp hu').1 (by omega)
          rw [heq, ((hmem u).mp hu').2] at hkept
          exact absurd hkept.2 Bool.false_ne_true
      · intro tx htx
        have hlt : lowestNonce removed < tx.nonce := by
          simpa using (mem_filter.mp ((r'.visit_perm _).mem_iff.mp htx)).2
        obtain ⟨u, hu, hn⟩ := exists_lowestNonce hstrict.2
        exact ⟨u, (r.visit_perm _).mem_iff.mpr hu, by omega⟩
      · intro hfalse
        rw [hfalse] at hstrict
        exact absurd hstrict.1 Bool.false_ne_true
    · rename_i hstrict
      have hall : ((l.txs.keep fun tx => !tx.exceeds costLimit gasLimit).keep fun tx =>
          decide (tx.nonce ≤ Word64.size - 1)).items =
            (l.txs.keep fun tx => !tx.exceeds costLimit gasLimit).items := by
        refine filter_eq_self.mpr fun tx _ => ?_
        have := tx.nonce_lt
        simp only [decide_eq_true_eq]
        omega
      refine ⟨?_, rfl, fun tx => ((r.visit_perm _).mem_iff).trans (hmem tx), ?_, ?_,
        nofun, fun _ => rfl⟩
      · refine hsplit.trans ((r.visit_perm _).symm.append ?_)
        exact Perm.of_eq hall.symm
      · intro tx htx
        have hx := (mem_filter.mp (mem_of_mem_filter htx)).2
        simpa using hx
      · intro hs tx _ u hu
        -- a strict list reaches this branch only if nothing was removed
        have hnil : removed = [] := by
          by_contra hne
          exact hstrict ⟨hs, hne⟩
        rw [hnil] at hu
        exact absurd ((r.visit_perm _).mem_iff.mp hu) not_mem_nil

theorem perm_slot (l : TxList) {u : Transaction} (hu : u ∈ l.items) :
    l.items.Perm (u :: l.items.filter fun w => decide (w.nonce ≠ u.nonce)) := by
  have hone : (l.items.filter fun w => decide (w.nonce = u.nonce)).Perm [u] := by
    refine (perm_ext_iff_of_nodup (l.nodup_items.filter _) (nodup_singleton u)).mpr
      fun w => ?_
    rw [mem_filter, mem_singleton, decide_eq_true_eq]
    refine ⟨fun h => l.nonce_inj h.1 hu h.2, ?_⟩
    rintro rfl
    exact ⟨hu, rfl⟩
  refine (filter_split fun tx _ => ?_).trans (hone.append_right _)
  rw [← decide_not]

variable {r : Ranging Transaction} {invalids : List Transaction}

theorem remove_spec {l' : TxList} (h : l.remove r tx = some (invalids, l')) :
    l'.strict = l.strict ∧ (∃ u ∈ l.items, u.nonce = tx.nonce ∧
      l.items.Perm (u :: (invalids ++ l'.items))) ∧
      (l.strict = true → l'.items = l.items.filter fun u => decide (u.nonce < tx.nonce)) ∧
      (l.strict = false → invalids = []) := by
  unfold remove at h
  split at h
  · rename_i hover
    obtain ⟨u, hu, hn⟩ := overlaps_iff.mp hover
    have hslot := l.perm_slot hu
    rw [hn] at hslot
    split at h
    · rename_i hstrict
      cases h
      refine ⟨rfl, ⟨u, hu, hn, hslot.trans (Perm.cons u ?_)⟩, fun _ => rfl, fun hf => ?_⟩
      · refine Perm.trans ?_ ((r.visit_perm _).symm.append_right _)
        refine (filter_split (p := fun w => decide (tx.nonce < w.nonce))
          (q := fun w => decide (w.nonce < tx.nonce)) fun w hw => ?_).trans ?_
        · have hne : w.nonce ≠ tx.nonce := by simpa using (mem_filter.mp hw).2
          rw [← decide_not]
          exact decide_eq_decide.mpr (by omega)
        · rw [filter_filter, filter_filter]
          refine Perm.of_eq (congrArg₂ _ ?_ ?_)
          · refine filter_congr fun w _ => ?_
            rw [← Bool.decide_and]
            exact decide_eq_decide.mpr (by omega)
          · refine filter_congr fun w _ => ?_
            rw [← Bool.decide_and]
            exact decide_eq_decide.mpr (by omega)
      · rw [hf] at hstrict
        exact absurd hstrict Bool.false_ne_true
    · rename_i hstrict
      cases h
      exact ⟨rfl, ⟨u, hu, hn, hslot⟩, fun hs => absurd hs hstrict, fun _ => rfl⟩
  · cases h

theorem mem_invalids {l l' : TxList} {tx u : Transaction}
    (h : l.remove r tx = some (invalids, l')) :
    u ∈ invalids ↔ l.strict = true ∧ u ∈ l.items ∧ tx.nonce < u.nonce := by
  unfold remove at h
  split at h
  · split at h
    · rename_i hstrict
      cases h
      simp [(r.visit_perm _).mem_iff, hstrict]
    · rename_i hloose
      cases h
      simp [hloose]
  · cases h

theorem remove_eq_none_iff : l.remove r tx = none ↔ ∀ u ∈ l.items, u.nonce ≠ tx.nonce := by
  unfold remove
  by_cases hover : l.overlaps tx = true
  · rw [if_pos hover]
    obtain ⟨u, hu, hn⟩ := overlaps_iff.mp hover
    refine ⟨fun h => ?_, fun h => absurd hn (h u hu)⟩
    split at h <;> cases h
  · rw [if_neg hover]
    refine ⟨fun _ u hu hn => hover (overlaps_iff.mpr ⟨u, hu, hn⟩), fun _ => rfl⟩

/-- A call of a method of the list. -/
inductive Op
  | add (tx : Transaction) (priceBump : ℕ)
  | forward (threshold : ℕ)
  | filter (r r' : Ranging Transaction) (costLimit gasLimit : ℤ)
  | cap (threshold : ℕ)
  | remove (r : Ranging Transaction) (tx : Transaction)
  | ready (start : ℕ)

/-- The list after a call. -/
def step (l : TxList) : Op → TxList
  | .add tx priceBump => ((l.add tx priceBump).map Prod.snd).getD l
  | .forward threshold => (l.forward threshold).2
  | .filter r r' costLimit gasLimit => (l.filter r r' costLimit gasLimit).2.2
  | .cap threshold => (l.cap threshold).2
  | .remove r tx => ((l.remove r tx).map Prod.snd).getD l
  | .ready start => (l.ready start).2

/-- **The caps bound all entries, and `Filter` is exact**, after any calls: all results are lists
that carry their caps. -/
theorem filter_exact_run (strict : Bool) (ops : List Op) (r r' : Ranging Transaction)
    (costLimit gasLimit : ℤ) :
    let l := ops.foldl step (new strict)
    (∀ tx ∈ l.items, tx.cost ≤ l.costcap ∧ tx.gasLimit ≤ l.gascap) ∧
      FilterSpec l costLimit gasLimit (l.filter r r' costLimit gasLimit) := by
  intro l
  exact ⟨fun tx htx => ⟨l.cost_le tx htx, l.gas_le tx htx⟩, l.filter_spec r r' costLimit gasLimit⟩

end TxList

/-! ## The heap of prices -/

/-- `txPricedList`; the map of all transactions is an argument of its operations. -/
structure PricedList where
  items : Array Transaction
  stales : ℤ

namespace PricedList

def less (a b : Transaction) : Bool := decide (a.gasPrice < b.gasPrice)

def new : PricedList := ⟨#[], 0⟩

def put (l : PricedList) (tx : Transaction) : PricedList :=
  { l with items := GoHeap.push less l.items tx }

/-- `Removed`: with too many stale entries the heap is built anew, in the order `r`. -/
def removed (l : PricedList) (r : Ranging Transaction) (all : List Transaction) : PricedList :=
  if l.stales + 1 ≤ (l.items.size / 4 : ℕ) then { l with stales := l.stales + 1 }
  else ⟨GoHeap.heapify less (r.visit all).toArray, 0⟩

section Loops

variable (isPooled isLocal : Transaction → Bool)

/-- The state of a loop that pops entries: the heap, the transactions to drop and those to put
back. -/
structure Draining where
  priced : PricedList
  drop : List Transaction
  save : List Transaction

def Draining.finish (d : Draining) : List Transaction × PricedList :=
  (d.drop, d.save.foldl put d.priced)

def capLoop (threshold : ℤ) : ℕ → Draining → Draining
  | 0, d => d
  | fuel + 1, d =>
    match GoHeap.pop less d.priced.items with
    | none => d
    | some (tx, items) =>
      if isPooled tx = false then
        capLoop threshold fuel { d with priced := ⟨items, d.priced.stales - 1⟩ }
      else if threshold ≤ tx.gasPrice then
        { d with priced := ⟨items, d.priced.stales⟩, save := d.save ++ [tx] }
      else if isLocal tx then
        capLoop threshold fuel
          { d with priced := ⟨items, d.priced.stales⟩, save := d.save ++ [tx] }
      else
        capLoop threshold fuel
          { d with priced := ⟨items, d.priced.stales⟩, drop := d.drop ++ [tx] }

def cap (l : PricedList) (threshold : ℤ) : List Transaction × PricedList :=
  (capLoop isPooled isLocal threshold l.items.size ⟨l, [], []⟩).finish

/-- The loop of `Underpriced` that pops stale entries off the top. -/
def popStale : ℕ → PricedList → PricedList
  | 0, l => l
  | fuel + 1, l =>
    match l.items[0]? with
    | none => l
    | some head =>
      if isPooled head then l
      else
        match GoHeap.pop less l.items with
        | none => l
        | some (_, items) => popStale fuel ⟨items, l.stales - 1⟩

def underpriced (l : PricedList) (tx : Transaction) : Bool × PricedList :=
  if isLocal tx then (false, l)
  else
    let l' := popStale isPooled l.items.size l
    match l'.items[0]? with
    | none => (false, l')
    | some cheapest => (decide (tx.gasPrice ≤ cheapest.gasPrice), l')

def discardLoop : ℕ → ℤ → Draining → Draining
  | 0, _, d => d
  | fuel + 1, count, d =>
    if count ≤ 0 then d
    else
      match GoHeap.pop less d.priced.items with
      | none => d
      | some (tx, items) =>
        if isPooled tx = false then
          discardLoop fuel count { d with priced := ⟨items, d.priced.stales - 1⟩ }
        else if isLocal tx then
          discardLoop fuel count
            { d with priced := ⟨items, d.priced.stales⟩, save := d.save ++ [tx] }
        else
          discardLoop fuel (count - 1)
            { d with priced := ⟨items, d.priced.stales⟩, drop := d.drop ++ [tx] }

def discard (l : PricedList) (count : ℤ) : List Transaction × PricedList :=
  (discardLoop isPooled isLocal l.items.size count ⟨l, [], []⟩).finish

/-! ### What leaves the heap -/

/-- Stale entries disappear, each counted once; what is dropped is pooled, remote and meets `P`. -/
structure Drained (P : Transaction → Prop) (d d' : Draining) : Prop where
  stale : ∃ out : List Transaction, (∀ tx ∈ out, isPooled tx = false) ∧
    d'.priced.stales = d.priced.stales - out.length ∧
    (d.priced.items.toList ++ d.drop ++ d.save).Perm
      (out ++ (d'.priced.items.toList ++ d'.drop ++ d'.save))
  drop : ∀ tx ∈ d'.drop, tx ∈ d.drop ∨ isPooled tx = true ∧ isLocal tx = false ∧ P tx

variable {isPooled isLocal} {P : Transaction → Prop}

theorem Drained.refl (d : Draining) : Drained isPooled isLocal P d d where
  stale := ⟨[], nofun, by simp, .refl _⟩
  drop := fun _ h => .inl h

theorem Drained.trans {d d' d'' : Draining} (h : Drained isPooled isLocal P d d')
    (h' : Drained isPooled isLocal P d' d'') : Drained isPooled isLocal P d d'' where
  stale := by
    obtain ⟨out, hout, hst, hperm⟩ := h.stale
    obtain ⟨out', hout', hst', hperm'⟩ := h'.stale
    refine ⟨out ++ out', ?_, ?_, ?_⟩
    · intro tx htx
      exact (mem_append.mp htx).elim (hout tx) (hout' tx)
    · rw [hst', hst, length_append]
      omega
    · rw [append_assoc out]
      exact hperm.trans (hperm'.append_left out)
  drop := by
    intro tx htx
    rcases h'.drop tx htx with htx | htx
    · exact h.drop tx htx
    · exact .inr htx

variable {d : Draining} {tx : Transaction} {items : Array Transaction}

variable (hpop : GoHeap.pop less d.priced.items = some (tx, items))
include hpop

theorem Drained.stale_popped (hstale : isPooled tx = false) :
    Drained isPooled isLocal P d { d with priced := ⟨items, d.priced.stales - 1⟩ } where
  stale := by
    refine ⟨[tx], fun u hu => mem_singleton.mp hu ▸ hstale, by simp, ?_⟩
    simp only [append_assoc]
    exact (pop_perm less hpop).append_right _
  drop := fun _ h => .inl h

theorem Drained.saved :
    Drained isPooled isLocal P d
      { d with priced := ⟨items, d.priced.stales⟩, save := d.save ++ [tx] } where
  stale := by
    refine ⟨[], nofun, by simp, ?_⟩
    rw [nil_append, ← append_assoc]
    refine ((pop_perm less hpop).append_right _ |>.append_right _).trans ?_
    exact (perm_append_singleton _ _).symm
  drop := fun _ h => .inl h

theorem Drained.dropped (hpooled : isPooled tx = true) (hremote : isLocal tx = false) (hP : P tx) :
    Drained isPooled isLocal P d
      { d with priced := ⟨items, d.priced.stales⟩, drop := d.drop ++ [tx] } where
  stale := by
    refine ⟨[], nofun, by simp, ?_⟩
    refine Perm.append_right _ (((pop_perm less hpop).append_right _).trans ?_)
    rw [← append_assoc, cons_append]
    exact (perm_append_singleton _ _).symm
  drop := by
    intro u hu
    rcases mem_append.mp hu with hu | hu
    · exact .inl hu
    · rw [mem_singleton.mp hu]
      exact .inr ⟨hpooled, hremote, hP⟩

omit hpop

theorem capLoop_drained (threshold : ℤ) (fuel : ℕ) (d : Draining) :
    Drained isPooled isLocal (fun tx => tx.gasPrice < threshold) d
      (capLoop isPooled isLocal threshold fuel d) := by
  induction fuel generalizing d with
  | zero => exact Drained.refl d
  | succ fuel ih =>
    rw [capLoop]
    split
    · exact Drained.refl d
    · rename_i tx items hpop
      split
      · rename_i hstale
        exact (Drained.stale_popped hpop hstale).trans (ih _)
      · rename_i hpooled
        split
        · exact Drained.saved hpop
        · rename_i hprice
          split
          · exact (Drained.saved hpop).trans (ih _)
          · rename_i hremote
            refine Drained.trans (Drained.dropped hpop (by simpa using hpooled)
              (by simpa using hremote) ?_) (ih _)
            exact not_le.mp hprice

theorem discardLoop_drained (fuel : ℕ) (count : ℤ) (d : Draining) :
    Drained isPooled isLocal (fun _ => True) d (discardLoop isPooled isLocal fuel count d) := by
  induction fuel generalizing count d with
  | zero => exact Drained.refl d
  | succ fuel ih =>
    rw [discardLoop]
    split
    · exact Drained.refl d
    split
    · exact Drained.refl d
    · rename_i tx items hpop
      split
      · rename_i hstale
        exact (Drained.stale_popped hpop hstale).trans (ih _ _)
      · rename_i hpooled
        split
        · exact (Drained.saved hpop).trans (ih _ _)
        · rename_i hremote
          exact (Drained.dropped hpop (by simpa using hpooled) (by simpa using hremote)
            trivial).trans (ih _ _)

theorem put_perm (l : PricedList) (tx : Transaction) :
    (l.put tx).items.toList.Perm (tx :: l.items.toList) := push_perm less l.items tx

theorem foldl_put (save : List Transaction) (l : PricedList) :
    (save.foldl put l).stales = l.stales ∧
      (save.foldl put l).items.toList.Perm (l.items.toList ++ save) := by
  induction save generalizing l with
  | nil => exact ⟨rfl, by simp⟩
  | cons tx save ih =>
    obtain ⟨hst, hperm⟩ := ih (l.put tx)
    refine ⟨hst, hperm.trans (((put_perm l tx).append_right save).trans ?_)⟩
    exact perm_middle.symm

structure DropSpec (isPooled isLocal : Transaction → Bool) (P : Transaction → Prop) (l : PricedList)
    (res : List Transaction × PricedList) : Prop where
  stale : ∃ out : List Transaction, (∀ tx ∈ out, isPooled tx = false) ∧
    res.2.stales = l.stales - out.length ∧
    l.items.toList.Perm (out ++ (res.1 ++ res.2.items.toList))
  drop : ∀ tx ∈ res.1, isPooled tx = true ∧ isLocal tx = false ∧ P tx

theorem Drained.finish {l : PricedList}
    (h : Drained isPooled isLocal P ⟨l, [], []⟩ d) : DropSpec isPooled isLocal P l d.finish := by
  obtain ⟨hst, hperm⟩ := foldl_put d.save d.priced
  refine ⟨?_, fun tx htx => (h.drop tx htx).resolve_left not_mem_nil⟩
  obtain ⟨out, hout, hstales, hitems⟩ := h.stale
  refine ⟨out, hout, hst.trans hstales, ?_⟩
  simp only [append_nil] at hitems
  refine hitems.trans (Perm.append_left out ?_)
  refine Perm.trans ?_ (hperm.symm.append_left d.drop)
  rw [← append_assoc]
  exact perm_append_comm.append_right _

theorem cap_spec (l : PricedList) (threshold : ℤ) :
    DropSpec isPooled isLocal (fun tx => tx.gasPrice < threshold) l
      (l.cap isPooled isLocal threshold) := (capLoop_drained _ _ _).finish

theorem discard_spec (l : PricedList) (count : ℤ) :
    DropSpec isPooled isLocal (fun _ => True) l (l.discard isPooled isLocal count) :=
  (discardLoop_drained _ _ _).finish

end Loops

end PricedList

end XChain
