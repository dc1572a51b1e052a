import XChain.Core.BlockChain

/-!
# The canonical numbers follow the head block

Runs of `WriteBlockAndState` with a database that does not fail. Up to the head the canonical
numbers are always its ancestry, but nothing deletes the numbers of the old branch that are above
the new head: a heavier but shorter branch leaves them in place.

* **`run_indexed`**: every call returns, and this holds in all runs;
* **`canonicalIndex_exact`**: numbers above the head are unset if no block that wins is lower than
  the head it replaces.
-/

namespace XChain

open List Ancestry AList StepMachine Function ChainDb GoText

namespace BlockChain

open HeaderChain (OnBranch)

variable {t : BlockTree} {bc bc' : BlockChain} {block : Hash} {op : Op t}

/-! ## Where two branches meet -/

section Walks

variable {db : ChainDb} {blocks : Finset Hash}

variable (t) in
/-- Every block but the genesis block is one above its parent. -/
def Layered (blocks : Finset Hash) : Prop :=
  ∀ h ∈ blocks, h = t.genesis ∨ t.number h = t.number (t.parentHash h) + 1

theorem Layered.number_eq (h : Layered t blocks) {x : Hash} (hx : x ∈ blocks)
    (hpos : 0 < t.number x) : t.number x = t.number (t.parentHash x) + 1 := by
  refine (h x hx).resolve_left ?_
  rintro rfl
  have hgenesis : t.number t.genesis = 0 := t.genesis_number
  omega

theorem Layered.eq_genesis (h : Layered t blocks) {x : Hash} (hx : x ∈ blocks)
    (h0 : t.number x = 0) : x = t.genesis := by
  rcases h x hx with hgenesis | hnumber
  · exact hgenesis
  · omega

theorem rooted_connected (blocks : Finset Hash) :
    Ancestry.Rooted t.parentHash t.number t.genesis {x | t.Connected blocks x} :=
  Ancestry.rooted_connected (show t.number t.genesis = 0 from t.genesis_number) blocks

theorem reduce_ok (hdb : db.bodies ⊆ blocks) (hblocks : Layered t blocks) {n : ℕ} :
    ∀ {fuel : ℕ} {x y : Hash} {chain chain' : List Hash}, x ∈ blocks → t.number x = n + fuel →
      reduce t db n fuel x chain = some (y, chain') →
      y ∈ blocks ∧ t.number y = n ∧ y = t.ancestor x n ∧ chain' = chain ++ t.path x n ∧
        (t.Connected blocks y → t.Connected blocks x)
  | 0, x, y, chain, chain', hmem, hx, h => by
    obtain rfl : t.number x = n := hx
    cases h
    rw [BlockTree.path, path_self, append_nil, BlockTree.ancestor, ancestor_self]
    exact ⟨hmem, rfl, rfl, rfl, id⟩
  | fuel + 1, x, y, chain, chain', hmem, hx, h => by
    have hnumber := hblocks.number_eq hmem (by omega)
    rw [reduce, if_neg (by omega)] at h
    obtain ⟨p, hget, h⟩ := Option.bind_eq_some_iff.mp h
    obtain ⟨rfl, hp, -⟩ := mem_of_getBlock hget
    obtain ⟨hy, hyn, rfl, rfl, hconnected⟩ := reduce_ok hdb hblocks (hdb hp) (by omega) h
    have hpath : t.path x n = x :: t.path (t.parentHash x) n := path_cons hnumber (by omega)
    have hanc : t.ancestor x n = t.ancestor (t.parentHash x) n := ancestor_parent hnumber (by omega)
    refine ⟨hy, hyn, hanc.symm, ?_, fun h => .child hmem hnumber (hconnected h)⟩
    rw [hpath, append_assoc]
    rfl

theorem meet_ok (hdb : db.bodies ⊆ blocks) (hblocks : Layered t blocks) :
    ∀ {fuel : ℕ} {x y : Hash} {chain₁ chain₂ chain₁' chain₂' : List Hash}, x ∈ blocks → y ∈ blocks →
      t.number x = t.number y → t.Connected blocks x →
      meet t db fuel x y chain₁ chain₂ = .ok (chain₁', chain₂') →
      ∃ m ≤ t.number x, t.ancestor x m = t.ancestor y m ∧ chain₁' = chain₁ ++ t.path x m ∧
        chain₂' = chain₂ ++ t.path y m ∧ t.Connected blocks y
  | fuel + 1, x, y, chain₁, chain₂, chain₁', chain₂', hx, hy, hxy, hconnected, h => by
    rw [meet] at h
    split at h
    case isTrue heq =>
      subst heq
      cases h
      refine ⟨t.number x, le_rfl, rfl, ?_, ?_, hconnected⟩ <;>
        rw [BlockTree.path, path_self, append_nil]
    case isFalse hne =>
      -- only the genesis block is at height 0
      have hpos : 0 < t.number x := by
        by_contra h0
        have hx0 := hblocks.eq_genesis hx (by omega)
        have hy0 := hblocks.eq_genesis hy (by omega)
        exact hne (hx0.trans hy0.symm)
      have hxn := hblocks.number_eq hx hpos
      have hyn := hblocks.number_eq hy (by omega)
      split at h
      case h_1 => cases h
      case h_2 => cases h
      case h_3 x' y' hgetx hgety =>
        obtain ⟨rfl, hxp, -⟩ := mem_of_getBlock hgetx
        obtain ⟨rfl, hyp, -⟩ := mem_of_getBlock hgety
        have hxc : t.Connected blocks (t.parentHash x) :=
          (rooted_connected blocks).parent_mem x hconnected ((rooted_connected blocks).ne_root hpos)
        obtain ⟨m, hm, hanc, rfl, rfl, hyc⟩ :=
          meet_ok hdb hblocks (hdb hxp) (hdb hyp) (by omega) hxc h
        have hxpath : t.path x m = x :: t.path (t.parentHash x) m := path_cons hxn hm
        have hypath : t.path y m = y :: t.path (t.parentHash y) m :=
          path_cons hyn (show m ≤ t.number (t.parentHash y) by omega)
        have hxa : t.ancestor x m = t.ancestor (t.parentHash x) m := ancestor_parent hxn hm
        have hya : t.ancestor y m = t.ancestor (t.parentHash y) m :=
          ancestor_parent hyn (show m ≤ t.number (t.parentHash y) by omega)
        refine ⟨m, by omega, hxa.trans (hanc.trans hya.symm), ?_, ?_, .child hy hyn hyc⟩
        · rw [hxpath, append_assoc]
          rfl
        · rw [hypath, append_assoc]
          rfl

/-- **The chains of a reorganisation.** -/
theorem branches_ok (hdb : db.bodies ⊆ blocks) (hblocks : Layered t blocks) {old new : Hash}
    {oldChain newChain : List Hash} (hold : old ∈ blocks) (hnew : new ∈ blocks)
    (hconnected : t.Connected blocks old)
    (h : branches t db old new = .ok (oldChain, newChain)) :
    ∃ m, m ≤ t.number old ∧ m ≤ t.number new ∧ t.ancestor old m = t.ancestor new m ∧
      oldChain = t.path old m ∧ newChain = t.path new m ∧ t.Connected blocks new := by
  have hroot := rooted_connected (t := t) blocks
  rw [branches] at h
  split at h
  case isTrue hlt =>
    split at h
    case h_1 => cases h
    case h_2 old' chain hreduce =>
      obtain ⟨hmem, hnumber, rfl, rfl, -⟩ := reduce_ok hdb hblocks hold (by omega) hreduce
      have hconnected' := (hroot.ancestor_mem hconnected hlt.le).1
      obtain ⟨m, hm, hanc, rfl, rfl, hnewc⟩ := meet_ok hdb hblocks hmem hnew hnumber hconnected' h
      have hm' : m ≤ t.number new := hm.trans hnumber.le
      have hanc' : t.ancestor (t.ancestor old (t.number new)) m = t.ancestor old m :=
        hroot.ancestor_ancestor hconnected hlt.le hm'
      refine ⟨m, by omega, hm', hanc'.symm.trans hanc, ?_, nil_append _, hnewc⟩
      exact hroot.path_append hconnected hlt.le hm'
  case isFalse hle =>
    have hle : t.number old ≤ t.number new := Nat.not_lt.mp hle
    split at h
    case h_1 => cases h
    case h_2 new' chain hreduce =>
      obtain ⟨hmem, hnumber, rfl, rfl, hback⟩ := reduce_ok hdb hblocks hnew (by omega) hreduce
      obtain ⟨m, hm, hanc, rfl, rfl, hnewc⟩ :=
        meet_ok hdb hblocks hold hmem hnumber.symm hconnected h
      have hnewc := hback hnewc
      have hanc' : t.ancestor (t.ancestor new (t.number old)) m = t.ancestor new m :=
        hroot.ancestor_ancestor hnewc hle hm
      refine ⟨m, hm, hm.trans hle, hanc.trans hanc', nil_append _, ?_, hnewc⟩
      exact hroot.path_append hnewc hle hm

end Walks

/-! ## What the chain keeps -/

theorem lookup_foldl_of_ne {n : ℕ} : ∀ {l : List Hash} {canonical : AList fun _ : ℕ => Hash},
    (∀ b ∈ l, t.number b ≠ n) →
    (l.foldl (fun canonical b => canonical.insert (t.number b) b) canonical).lookup n =
      canonical.lookup n
  | [], _, _ => rfl
  | b :: l, canonical, h => by
    rw [foldl_cons, lookup_foldl_of_ne fun b' hb' => h b' (mem_cons_of_mem b hb')]
    exact lookup_insert_ne (h b mem_cons_self).symm

theorem lookup_foldl_of_mem {n : ℕ} {v : Hash} :
    ∀ {l : List Hash} {canonical : AList fun _ : ℕ => Hash}, v ∈ l → t.number v = n →
    (∀ b ∈ l, t.number b = n → b = v) →
    (l.foldl (fun canonical b => canonical.insert (t.number b) b) canonical).lookup n = some v
  | b :: l, canonical, hv, hn, h => by
    rw [foldl_cons]
    by_cases hvl : v ∈ l
    · exact lookup_foldl_of_mem hvl hn fun b' hb' => h b' (mem_cons_of_mem b hb')
    · obtain rfl : v = b := (mem_cons.mp hv).resolve_right hvl
      have hrest : ∀ b' ∈ l, t.number b' ≠ n := by
        rintro b' hb' hb'n
        exact hvl (h b' (mem_cons_of_mem v hb') hb'n ▸ hb')
      rw [lookup_foldl_of_ne hrest, ← hn]
      exact lookup_insert canonical

theorem lookup_foldl_path {blocks : Finset Hash} (hblock : t.Connected blocks block) {m n : ℕ}
    {canonical : AList fun _ : ℕ => Hash} :
    ((t.path block m).foldl (fun canonical b => canonical.insert (t.number b) b)
      canonical).lookup n =
      if m < n ∧ n ≤ t.number block then some (t.ancestor block n) else canonical.lookup n := by
  have hnumber : ∀ k ≤ t.number block, t.number (t.ancestor block k) = k := fun k hk =>
    ((rooted_connected blocks).ancestor_mem hblock hk).2
  split
  case isTrue hn =>
    refine lookup_foldl_of_mem (mem_path.mpr ⟨n, hn.1, hn.2, rfl⟩) (hnumber n hn.2) ?_
    rintro b hb hbn
    obtain ⟨k, -, hk, rfl⟩ := mem_path.mp hb
    obtain rfl : k = n := (hnumber k hk).symm.trans hbn
    rfl
  case isFalse hn =>
    refine lookup_foldl_of_ne ?_
    rintro b hb hbn
    obtain ⟨k, hmk, hk, rfl⟩ := mem_path.mp hb
    obtain rfl : k = n := (hnumber k hk).symm.trans hbn
    exact hn ⟨hmk, hk⟩

variable (t) in
/-- Stored blocks are layered, the canonical numbers are the ancestry of the current block. -/
structure Indexed (bc : BlockChain) : Prop where
  genesis_mem : t.genesis ∈ bc.db.bodies
  layered : Layered t bc.db.bodies
  no_zero : zeroHash ∉ bc.db.bodies
  td_isSome : ∀ h ∈ bc.db.bodies, (bc.db.td h).isSome
  connected : t.Connected bc.db.bodies bc.currentBlock
  below : ∀ n ≤ t.number bc.currentBlock,
    bc.db.canonical.lookup n = some (t.ancestor bc.currentBlock n)

theorem start_indexed : Indexed t (start t) := by
  have hnumber : t.number (start t).currentBlock = 0 := t.genesis_number
  refine ⟨Finset.mem_singleton_self _, ?_, ?_, ?_, .root, ?_⟩
  · intro h hmem
    exact .inl (Finset.mem_singleton.mp hmem)
  · intro hmem
    exact t.genesis_ne_zero (Finset.mem_singleton.mp hmem).symm
  · intro h hmem
    obtain rfl : h = t.genesis := Finset.mem_singleton.mp hmem
    have htd : (start t).db.td t.genesis = some (t.difficulty t.genesis) :=
      update_self t.genesis _ fun _ => none
    rw [htd]
    rfl
  · intro n hn
    obtain rfl : n = 0 := by omega
    have hanc : t.ancestor (start t).currentBlock 0 = t.genesis :=
      (rooted_connected ∅).ancestor_zero (x := t.genesis) .root
    rw [hanc]
    rfl

namespace Indexed

variable (h : Indexed t bc)
include h

theorem current_mem : bc.currentBlock ∈ bc.db.bodies :=
  Ancestry.Connected.mem h.connected h.genesis_mem

theorem layered_insert (block : t.Child) : Layered t (Insert.insert block.hash bc.db.bodies) := by
  intro x hx
  rcases Finset.mem_insert.mp hx with rfl | hx
  · exact .inr block.number_eq
  · exact h.layered x hx

theorem connected_insert (block : Hash) :
    t.Connected (Insert.insert block bc.db.bodies) bc.currentBlock :=
  Ancestry.Connected.mono (by exact_mod_cast Finset.subset_insert _ _) h.connected

theorem store (block : t.Child) (hstored : Stored block.hash bc bc')
    (hconnected : t.Connected (Insert.insert block.hash bc.db.bodies) bc'.currentBlock) (hbelow : ∀
      n ≤ t.number bc'.currentBlock, bc'.db.canonical.lookup n = some (t.ancestor bc'.currentBlock
      n)) : Indexed t bc' := by
  obtain ⟨td, htd⟩ := hstored.td
  have hbodies := hstored.bodies
  refine ⟨?_, ?_, ?_, ?_, ?_, hbelow⟩
  · rw [hbodies]
    exact Finset.mem_insert_of_mem h.genesis_mem
  · rw [hbodies]
    exact h.layered_insert block
  · rw [hbodies]
    intro hmem
    rcases Finset.mem_insert.mp hmem with hzero | hmem
    · exact block.hash_ne_zero hzero.symm
    · exact h.no_zero hmem
  · intro x hx
    rw [hbodies] at hx
    rw [htd]
    rcases Finset.mem_insert.mp hx with rfl | hx
    · rw [update_self]
      rfl
    · exact isSome_update (h.td_isSome x hx)
  · rw [hbodies]
    exact hconnected

theorem chains (block : t.Child) {td : ℤ} {oldChain newChain : List Hash} (hb : branches t
      (bc.db.put (.td block.hash td)) bc.currentBlock block.hash = .ok (oldChain, newChain)) :
    ∃ m, m ≤ t.number bc.currentBlock ∧ m ≤ t.number block.hash ∧
      t.ancestor bc.currentBlock m = t.ancestor block.hash m ∧
      oldChain = t.path bc.currentBlock m ∧ newChain = t.path block.hash m ∧
      t.Connected (Insert.insert block.hash bc.db.bodies) block.hash := by
  have hsub : (bc.db.put (.td block.hash td)).bodies ⊆ Insert.insert block.hash bc.db.bodies :=
    Finset.subset_insert block.hash bc.db.bodies
  exact branches_ok hsub (h.layered_insert block) (Finset.mem_insert_of_mem h.current_mem)
    (Finset.mem_insert_self _ _) (h.connected_insert block.hash) hb

theorem connected_child (block : t.Child) (hparent : t.parentHash block.hash = bc.currentBlock) :
    t.Connected (Insert.insert block.hash bc.db.bodies) block.hash := by
  refine .child (Finset.mem_coe.mpr (Finset.mem_insert_self _ _)) block.number_eq ?_
  rw [hparent]
  exact h.connected_insert block.hash

theorem lookup_reorganised {blocks : Finset Hash} (hcurrent : t.Connected blocks bc.currentBlock)
    (hblock : t.Connected blocks block) {m : ℕ} (hm : m ≤ t.number bc.currentBlock)
    (hm' : m ≤ t.number block) (hanc : t.ancestor bc.currentBlock m = t.ancestor block m) {n : ℕ}
    (hn : n ≤ t.number block) :
    ((t.path block m).foldl (fun canonical b => canonical.insert (t.number b) b)
      bc.db.canonical).lookup n = some (t.ancestor block n) := by
  rw [lookup_foldl_path hblock]
  split
  case isTrue => rfl
  case isFalse hnm =>
    have hle : n ≤ m := by omega
    have hsame : t.ancestor bc.currentBlock n = t.ancestor block n :=
      (rooted_connected blocks).ancestor_eq_of_le hcurrent hblock hm hm' hle hanc
    rw [h.below n (hle.trans hm), hsame]

/-- A new head is at its number; below it the index it is put into has to be right. -/
theorem adopt (block : t.Child) {canonical : AList fun _ : ℕ => Hash}
    {lookups : Hash → Option TxLookupEntry}
    (hadopted : Adopted t block.hash canonical lookups bc bc')
    (hblock : t.Connected (Insert.insert block.hash bc.db.bodies) block.hash)
    (hbelow : ∀ n < t.number block.hash, canonical.lookup n = some (t.ancestor block.hash n)) :
    Indexed t bc' := by
  refine h.store block hadopted.stored ?_ ?_
  · rw [hadopted.currentBlock]
    exact hblock
  · rw [hadopted.currentBlock, hadopted.canonical]
    intro n hn
    by_cases hneq : n = t.number block.hash
    · have hself : t.ancestor block.hash (t.number block.hash) = block.hash := ancestor_self
      rw [hneq, lookup_insert, hself]
    · rw [lookup_insert_ne hneq]
      exact hbelow n (by omega)

/-- **Every outcome of a call keeps the chain indexed.** -/
theorem outcome {block : t.Child} {coin : Bool} (ho : Outcome t bc block.hash coin bc') :
    Indexed t bc' := by
  cases ho with
  | kept hhead hbodies htd =>
    refine ⟨?_, ?_, ?_, ?_, ?_, ?_⟩
    · rw [hbodies]
      exact h.genesis_mem
    · rw [hbodies]
      exact h.layered
    · rw [hbodies]
      exact h.no_zero
    · rw [hbodies]
      exact fun x hx => htd x (h.td_isSome x hx)
    · rw [hbodies, hhead.currentBlock]
      exact h.connected
    · rw [hhead.currentBlock, hhead.canonical]
      exact h.below
  | aside hhead hstored =>
    refine h.store block hstored ?_ ?_
    · rw [hhead.currentBlock]
      exact h.connected_insert block.hash
    · rw [hhead.currentBlock, hhead.canonical]
      exact h.below
  | extended _ hparent hadopted =>
    have hnumber := block.number_eq
    refine h.adopt block hadopted (h.connected_child block hparent) fun n hn => ?_
    have hanc : t.ancestor block.hash n = t.ancestor bc.currentBlock n := by
      rw [← hparent]
      exact ancestor_parent hnumber (by omega)
    rw [hparent] at hnumber
    rw [h.below n (by omega), hanc]
  | reorganised td oldChain newChain _ hchains hadopted =>
    obtain ⟨m, hm, hm', hanc, -, rfl, hblock⟩ := h.chains block hchains
    exact h.adopt block hadopted hblock fun n hn =>
      h.lookup_reorganised (h.connected_insert block.hash) hblock hm hm' hanc hn.le

end Indexed

/-! ## Runs -/

/-- **Every call returns and keeps the chain indexed**, whatever blocks are written. -/
theorem step_indexed (h : Indexed t bc) (op : Op t) :
    ∃ bc', step t healthy bc op = some bc' ∧ Outcome t bc op.block.hash op.coin bc' ∧
      Indexed t bc' := by
  obtain ⟨bc', r, hrun, ho⟩ := writeBlockAndState_outcome t op.block.hash op.coin op.commits
    op.preimages (sound_healthy bc) (h.td_isSome _ h.current_mem)
  exact ⟨bc', congrArg (Option.map Prod.fst) hrun, ho, h.outcome ho⟩

variable (t) in
def ClearAbove (bc : BlockChain) : Prop :=
  ∀ n > t.number bc.currentBlock, bc.db.canonical.lookup n = none

variable (t) in
/-- The block is not lower than the current one, or it is stored already, or it does not win. -/
def Upward (bc : BlockChain) (op : Op t) : Prop :=
  t.number bc.currentBlock ≤ t.number op.block.hash ∨ op.block.hash ∈ bc.db.bodies ∨
    Loses t bc op.block.hash op.coin

theorem Upward.number_le (h : Upward t bc op) (hwon : Wins t bc op.block.hash op.coin) :
    t.number bc.currentBlock ≤ t.number op.block.hash := by
  rcases h with hle | hmem | hloses
  · exact hle
  · exact absurd hmem hwon.1
  · exact absurd hloses hwon.not_loses

theorem start_clearAbove : ClearAbove t (start t) := by
  intro n hn
  rw [AList.lookup_eq_none, AList.mem_keys]
  intro hmem
  obtain rfl : n = 0 := mem_singleton.mp hmem
  exact Nat.not_lt_zero _ hn

theorem ClearAbove.outcome (h : Indexed t bc) (habove : ClearAbove t bc) (hop : Upward t bc op)
    (ho : Outcome t bc op.block.hash op.coin bc') : ClearAbove t bc' := by
  intro n hn
  cases ho with
  | kept hhead _ _ | aside hhead _ =>
    rw [hhead.currentBlock] at hn
    rw [hhead.canonical]
    exact habove n hn
  | extended hwon _ hadopted =>
    have hle := hop.number_le hwon
    rw [hadopted.currentBlock] at hn
    rw [hadopted.canonical, lookup_insert_ne (by omega)]
    exact habove n (by omega)
  | reorganised td oldChain newChain hwon hchains hadopted =>
    have hle := hop.number_le hwon
    obtain ⟨m, -, -, -, -, rfl, hblock⟩ := h.chains op.block hchains
    rw [hadopted.currentBlock] at hn
    rw [hadopted.canonical, lookup_insert_ne (by omega), lookup_foldl_path hblock,
      if_neg (by omega)]
    exact habove n (by omega)

/-- **The canonical numbers are the ancestry of the head.** -/
theorem canonicalIndex_exact {ops : List (Op t)}
    (hok : Along (step t healthy) (Upward t) (start t) ops) :
    ∃ bc, run (step t healthy) (start t) ops = some bc ∧
      (∀ n ≤ t.number bc.currentBlock, bc.db.getCanonicalHash n = t.ancestor bc.currentBlock n) ∧
      ∀ n > t.number bc.currentBlock, bc.db.getCanonicalHash n = zeroHash := by
  have hstep : ∀ bc op, Indexed t bc ∧ ClearAbove t bc → Upward t bc op →
      ∃ bc', step t healthy bc op = some bc' ∧ Indexed t bc' ∧ ClearAbove t bc' := by
    rintro bc op ⟨h, habove⟩ hop
    obtain ⟨bc', hrun, ho, h'⟩ := step_indexed h op
    exact ⟨bc', hrun, h', habove.outcome h hop ho⟩
  obtain ⟨bc, hrun, h, habove⟩ := exists_run_along hstep ⟨start_indexed, start_clearAbove⟩ hok
  refine ⟨bc, hrun, fun n hn => ?_, fun n hn => ?_⟩
  · exact getCanonicalHash_of_lookup (h.below n hn)
  · exact getCanonicalHash_of_none (habove n hn)

/-- **Up to the head the canonical numbers are right in all runs.** -/
theorem run_indexed (ops : List (Op t)) :
    ∃ bc, run (step t healthy) (start t) ops = some bc ∧ Indexed t bc := by
  have hstep : ∀ bc op, Indexed t bc → True → ∃ bc', step t healthy bc op = some bc' ∧
      Indexed t bc' := by
    rintro bc op h -
    obtain ⟨bc', hrun, -, h'⟩ := step_indexed h op
    exact ⟨bc', hrun, h'⟩
  exact exists_run_along hstep start_indexed (along_of_forall (start t) fun _ _ => trivial)

open HeaderChain (blockOf forkTree hashOf treeOf)

/-- Block 4 replaces block 3 at the same height, and 5 extends it. -/
theorem canonicalIndex_exact_forked :
    ∃ bc, run (step forkTree healthy) (start forkTree) (straight ++
        [⟨⟨hashOf 4, by decide, rfl⟩, true, true, false⟩,
          ⟨⟨hashOf 5, by decide, rfl⟩, false, true, false⟩]) = some bc ∧
      (∀ n ≤ forkTree.number bc.currentBlock,
        bc.db.getCanonicalHash n = forkTree.ancestor bc.currentBlock n) ∧
      ∀ n > forkTree.number bc.currentBlock, bc.db.getCanonicalHash n = zeroHash := by
  have hheight : Along (step forkTree healthy)
      (fun bc op => forkTree.number bc.currentBlock ≤ forkTree.number op.block.hash)
      (start forkTree) (straight ++ [⟨⟨hashOf 4, by decide, rfl⟩, true, true, false⟩,
        ⟨⟨hashOf 5, by decide, rfl⟩, false, true, false⟩]) := by decide +kernel
  exact canonicalIndex_exact (hheight.mono fun _ _ h => .inl h)

/-! ## A shorter branch -/

def shortBlock (h : Hash) : Block :=
  match h.bytes.head? with
  | some 2 => blockOf (hashOf 1) 1 1 []
  | some 3 => blockOf (hashOf 2) 2 1 []
  | some 4 => blockOf (hashOf 1) 1 5 []
  | _ => blockOf zeroHash 0 1 []

def shortTree : BlockTree := treeOf shortBlock rfl rfl

/-- Block 4 replaces the blocks 2 and 3, and number 2 is still block 3. -/
theorem shorter_leaves_numbers :
    ∃ bc, run (step shortTree healthy) (start shortTree)
        [⟨⟨hashOf 2, by decide, rfl⟩, false, true, false⟩,
          ⟨⟨hashOf 3, by decide, rfl⟩, false, true, false⟩,
          ⟨⟨hashOf 4, by decide, rfl⟩, false, true, false⟩] = some bc ∧
      bc.currentBlock = hashOf 4 ∧ shortTree.number bc.currentBlock = 1 ∧
      bc.db.getCanonicalHash 2 = hashOf 3 :=
  exists_run (by decide +kernel) fun _ => by decide +kernel

end BlockChain

end XChain
