import XChain.Core.Partition

/-!
# Transactions of an abandoned branch

`reset` goes down from the old and the new head to their common ancestor. It takes it for granted
that the blocks of both heads are stored.

* **`reinject_exact_iff`**: between heads of similar height the walk is exact and safe only if they
  are, or if the old head is the parent of the new one.
-/

namespace XChain.TxPool

open List Option GoText

/-- A tree of blocks, of which the chain stores some under their hashes and numbers. -/
structure Tree (chain : PoolChain) (B : Set PoolBlock) : Prop where
  stored : ∀ h n b, chain.getBlock h n = some b → b ∈ B ∧ b.hash = h
  inj : ∀ b ∈ B, ∀ b' ∈ B, b.hash = b'.hash → b = b'
  number : ∀ b ∈ B, ∀ b' ∈ B, b'.parentHash = b.hash → b'.number = b.number + 1

/-- The blocks from `b` downwards, above its ancestor `c`. -/
def Branch (chain : PoolChain) : PoolBlock → List PoolBlock → PoolBlock → Prop
  | b, [], c => b = c
  | b, x :: l, c => x = b ∧ ∃ b', parentBlock chain b = some b' ∧ Branch chain b' l c

/-- The two branches above the common ancestor of two blocks. -/
def Fork (chain : PoolChain) (b b' : PoolBlock) (l l' : List PoolBlock) : Prop :=
  ∃ c, Branch chain b l c ∧ Branch chain b' l' c ∧ l.Disjoint l'

/-- The walk does not fail, and finds what is on the old branch only. -/
def Reinjects (chain : PoolChain) (oldHead newHead : PoolBlock) : Prop :=
  walk chain oldHead newHead ≠ .missing ∧ ∀ l l', Fork chain oldHead newHead l l' →
    ∃ txs, walk chain oldHead newHead = .reinject txs ∧ ∀ tx, tx ∈ txs ↔
      tx ∈ l.flatMap PoolBlock.transactions ∧ tx ∉ l'.flatMap PoolBlock.transactions

def Stored (chain : PoolChain) (b : PoolBlock) : Prop := chain.getBlock b.hash b.number ≠ none

variable {chain : PoolChain} {B : Set PoolBlock} (ht : Tree chain B)
  {b b' c rem add : PoolBlock} {l l' : List PoolBlock} {n k fuel : ℕ} {txs txs' : List Transaction}
include ht

theorem Tree.parent (hb : b ∈ B) (h : parentBlock chain b = some b') :
    b' ∈ B ∧ b'.hash = b.parentHash ∧ b.number = b'.number + 1 := by
  obtain ⟨hb', hhash⟩ := ht.stored _ _ _ h
  exact ⟨hb', hhash, ht.number b' hb' b hb hhash.symm⟩

theorem Tree.get (hb : b ∈ B) (h : Stored chain b) : chain.getBlock b.hash b.number = some b := by
  obtain ⟨b', hb'⟩ := ne_none_iff_exists'.mp h
  obtain ⟨hmem, hhash⟩ := ht.stored _ _ _ hb'
  rwa [ht.inj b' hmem b hb hhash] at hb'

theorem Tree.length (hb : b ∈ B) (h : Branch chain b l c) : b.number = c.number + l.length := by
  induction l generalizing b with
  | nil => simp [show b = c from h]
  | cons x l ih =>
    obtain ⟨-, b', hb', h⟩ := h
    obtain ⟨hmem, -, hnum⟩ := ht.parent hb hb'
    have := ih hmem h
    simp
    omega

/-- The loop of one branch, which stops `k` blocks further down. -/
theorem Tree.descend_number (hb : b ∈ B) (hk : k = 0 ∨ b.number = n + k)
    (h : descend chain n k b txs = some (b', txs')) : b' ∈ B ∧ b'.number + k = b.number := by
  induction k generalizing b txs with
  | zero =>
    cases h
    exact ⟨hb, rfl⟩
  | succ k ih =>
    rw [descend, if_pos (by omega)] at h
    obtain ⟨p, hp, h⟩ := bind_eq_some_iff.mp h
    obtain ⟨hmem, -, hnum⟩ := ht.parent hb hp
    have := ih hmem (by omega) h
    exact ⟨this.1, by omega⟩

theorem Tree.descend_branch (txs : List Transaction) (hb : b ∈ B)
    (hk : k = 0 ∨ b.number = n + k) (hle : k ≤ l.length) (h : Branch chain b l c) :
    ∃ b', Branch chain b' (l.drop k) c ∧
      descend chain n k b txs = some (b', txs ++ (l.take k).flatMap PoolBlock.transactions) := by
  induction k generalizing b l txs with
  | zero => exact ⟨b, h, by simp [descend]⟩
  | succ k ih =>
    cases l with
    | nil => simp at hle
    | cons x l =>
      obtain ⟨rfl, p, hp, h⟩ := h
      obtain ⟨hmem, -, hnum⟩ := ht.parent hb hp
      obtain ⟨b', hb', hd⟩ := ih (txs ++ x.transactions) hmem (by omega) (by simpa using hle) h
      refine ⟨b', hb', ?_⟩
      rw [descend, if_pos (by omega), hp, bind_some, hd]
      simp

theorem Tree.descendBoth_ne (hrem : rem ∈ B) (hfuel : rem.number < fuel) :
    descendBoth chain fuel rem add txs txs' ≠ .missing := by
  induction fuel generalizing rem add txs txs' with
  | zero => omega
  | succ fuel ih =>
    rw [descendBoth]
    split_ifs
    · simp
    · split
      · obtain ⟨hmem, -, hnum⟩ := ht.parent hrem ‹_›
        exact ih hmem (by omega)
      · simp

theorem Tree.descendBoth_eq (hrem : rem ∈ B) (hadd : add ∈ B) (h : Branch chain rem l c)
    (h' : Branch chain add l' c) (hlen : l.length = l'.length) (hfuel : l.length < fuel)
    (hdis : l.Disjoint l') : descendBoth chain fuel rem add txs txs' =
      .reinject (chain.txDifference (txs ++ l.flatMap PoolBlock.transactions)
        (txs' ++ l'.flatMap PoolBlock.transactions)) := by
  induction fuel generalizing rem add l l' txs txs' with
  | zero => omega
  | succ fuel ih =>
    rw [descendBoth]
    match l, l', hlen with
    | [], [], _ =>
      rw [if_pos (by rw [show rem = c from h, show add = c from h'])]
      simp
    | x :: l, y :: l', hlen =>
      obtain ⟨rfl, p, hp, h⟩ := h
      obtain ⟨rfl, q, hq, h'⟩ := h'
      have hne : x.hash ≠ y.hash := fun heq => hdis mem_cons_self
        (ht.inj x hrem y hadd heq ▸ mem_cons_self)
      rw [if_neg hne, hp, hq]
      dsimp only
      rw [ih (ht.parent hrem hp).1 (ht.parent hadd hq).1 h h' (by simpa using hlen)
        (by simpa using hfuel) fun b hb hb' => hdis (mem_cons_of_mem _ hb) (mem_cons_of_mem _ hb')]
      simp [append_assoc]

/-- The old head is not on the way down from a child of it to a common ancestor. -/
theorem Tree.fork_parent (hb : b ∈ B) (hb' : b' ∈ B) (hparent : b.hash = b'.parentHash)
    (h : Fork chain b b' l l') : l = [] := by
  obtain ⟨c, h, h', hdis⟩ := h
  have hnum := ht.number b hb b' hb' hparent.symm
  have hlen := ht.length hb h
  have hlen' := ht.length hb' h'
  match l, l' with
  | [], _ => rfl
  | x :: l, [] | x :: l, [y] => simp at hlen hlen'; omega
  | x :: l, y :: z :: l' =>
    obtain ⟨rfl, -⟩ := h
    obtain ⟨rfl, q, hq, rfl, -⟩ := h'
    obtain ⟨hmem, hhash, -⟩ := ht.parent hb' hq
    obtain rfl := ht.inj x hb z hmem (hparent.trans hhash.symm)
    exact (hdis mem_cons_self (mem_cons_of_mem _ mem_cons_self)).elim

/-- **When reinjection is exact and safe.** -/
theorem reinject_exact_iff {oldHead newHead : PoolBlock} (hold : oldHead ∈ B) (hnew : newHead ∈ B)
    (hdepth : max oldHead.number newHead.number - min oldHead.number newHead.number ≤ 64) :
    Reinjects chain oldHead newHead ↔ oldHead.hash = newHead.parentHash ∨
      Stored chain oldHead ∧ Stored chain newHead := by
  unfold Reinjects
  by_cases hparent : oldHead.hash = newHead.parentHash
  · simp only [walk, hparent, if_true, true_or, iff_true]
    exact ⟨nofun, fun l l' hfork => ⟨[], rfl, by simp [ht.fork_parent hold hnew hparent hfork]⟩⟩
  by_cases hstored : Stored chain oldHead ∧ Stored chain newHead
  swap
  · have hmissing : walk chain oldHead newHead = .missing := by
      rw [walk, if_neg hparent, if_neg (by omega)]
      split
      · exact absurd ⟨by simp [Stored, *], by simp [Stored, *]⟩ hstored
      · rfl
    simp [hmissing, hparent, hstored]
  refine iff_of_true ?_ (.inr hstored)
  have hk := le_total oldHead.number newHead.number
  simp only [walk, hparent, if_false, not_lt.mpr hdepth, ht.get hold hstored.1,
    ht.get hnew hstored.2]
  refine ⟨?_, ?_⟩
  · split
    · nofun
    · rename_i hd
      split
      · nofun
      · exact ht.descendBoth_ne (ht.descend_number hold (by omega) hd).1 (Nat.lt_succ_self _)
  · rintro l l' ⟨c, h, h', hdis⟩
    have hlen := ht.length hold h
    have hlen' := ht.length hnew h'
    obtain ⟨rem, hrem, hd⟩ := ht.descend_branch [] hold
      (show _ ∨ oldHead.number = newHead.number + (oldHead.number - newHead.number) by omega)
      (by omega) h
    have hnum := ht.descend_number hold (by omega) hd
    rw [hd]
    dsimp only
    obtain ⟨add, hadd, hd'⟩ := ht.descend_branch [] hnew
      (show _ ∨ newHead.number = rem.number + (newHead.number - rem.number) by omega)
      (by omega) h'
    have hnum' := ht.descend_number hnew (by omega) hd'
    rw [hd']
    have := ht.length hnum.1 hrem
    have := ht.length hnum'.1 hadd
    dsimp only
    rw [ht.descendBoth_eq hnum.1 hnum'.1 hrem hadd (by omega) (by omega)
      fun b hb hb' => hdis (mem_of_mem_drop hb) (mem_of_mem_drop hb')]
    simp only [nil_append, ← flatMap_append, take_append_drop]
    exact ⟨_, rfl, fun tx => chain.mem_txDifference _ _ tx⟩

omit ht

/-- A block 0 with the child 1, and with the child 2 and its child 3. -/
def forkBlock : Fin 4 → PoolBlock
  | 0 => ⟨.fill 1, .fill 0, 0, 0, []⟩
  | 1 => ⟨.fill 2, .fill 1, 1, 0, [sampleTx 0 5, sampleTx 1 5]⟩
  | 2 => ⟨.fill 3, .fill 1, 1, 0, [sampleTx 1 5]⟩
  | 3 => ⟨.fill 4, .fill 3, 2, 0, [sampleTx 2 5]⟩

/-- `GetBlock` of a chain that stores some of the blocks. -/
def getForkBlock (stored : List (Fin 4)) (h : Hash) (n : ℕ) : Option PoolBlock :=
  (stored.find? fun i => decide ((forkBlock i).hash = h ∧ (forkBlock i).number = n)).map forkBlock

theorem getForkBlock_eq_some {stored : List (Fin 4)} {h : Hash} {n : ℕ} {b : PoolBlock}
    (hb : getForkBlock stored h n = some b) : b ∈ Set.range forkBlock ∧ b.hash = h ∧
      b.number = n := by
  obtain ⟨i, hi, rfl⟩ := map_eq_some_iff.mp hb
  exact ⟨⟨i, rfl⟩, by simpa using find?_some hi⟩

/-- A chain that stores some of the blocks. -/
def forked (stored : List (Fin 4)) : PoolChain where
  getBlock := getForkBlock stored
  stateAt _ := none
  txDifference := List.removeAll
  number_eq _ _ _ hb := (getForkBlock_eq_some hb).2.2
  mem_txDifference := mem_removeAll

/-- The head moves from the block 1 to the block 3, whose branch has one of its two transactions. -/
theorem reinject_exact_fork : Reinjects (forked [0, 1, 2, 3]) (forkBlock 1) (forkBlock 3) ∧
    walk (forked [0, 1, 2, 3]) (forkBlock 1) (forkBlock 3) = .reinject [sampleTx 0 5] := by
  have ht : Tree (forked [0, 1, 2, 3]) (Set.range forkBlock) := by
    refine ⟨fun h n b hb => ?_, ?_, ?_⟩
    · obtain ⟨hmem, hhash, -⟩ := getForkBlock_eq_some hb
      exact ⟨hmem, hhash⟩
    · rintro _ ⟨i, rfl⟩ _ ⟨j, rfl⟩ h
      exact congrArg forkBlock (by decide +revert)
    · rintro _ ⟨i, rfl⟩ _ ⟨j, rfl⟩
      decide +revert
  exact ⟨(reinject_exact_iff ht ⟨1, rfl⟩ ⟨3, rfl⟩ (by decide)).mpr
    (.inr ⟨some_ne_none (forkBlock 1), some_ne_none (forkBlock 3)⟩), rfl⟩

/-- After `SetHead` the old head is gone, and is dereferenced. -/
theorem reinject_missing : ¬ Reinjects (forked [0]) (forkBlock 1) (forkBlock 0) :=
  fun h => h.1 rfl

end XChain.TxPool
