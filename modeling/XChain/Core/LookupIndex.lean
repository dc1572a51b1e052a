import XChain.Core.CanonicalIndex

/-!
# The lookup entries follow the head block

A block that extends the head adds its entries. A reorganisation writes the entries of all blocks of
the new branch and then removes those of the transactions that are on the old branch only. No
transaction may occur twice along a branch: the entry has room for one place.

* **`txLookup_canonical`**: in all runs they are those of the current block.
-/

namespace XChain

open List Ancestry Function StepMachine Nat GoText

namespace BlockChain

open HeaderChain (OnBranch)

variable {t : BlockTree} {bc bc' : BlockChain} {block : Hash}
  {lookups : Hash → Option TxLookupEntry} {tx : Hash} {blocks : Finset Hash}

/-! ## Entries of a list of blocks -/

variable (t) in
def Holds (block tx : Hash) (i : ℕ) : Prop := (t.transactions block)[i]? = some tx

theorem holds_mem {i : ℕ} (h : Holds t block tx i) : tx ∈ t.transactions block :=
  mem_of_getElem? h

theorem exists_holds (h : tx ∈ t.transactions block) : ∃ i, Holds t block tx i :=
  mem_iff_getElem?.mp h

section Entries

variable {f : ℕ → TxLookupEntry} {tx : Hash} {i : ℕ}

theorem foldl_update_of_not_mem : ∀ {l : List (Hash × ℕ)} {lookups : Hash → Option TxLookupEntry},
    (∀ j, (tx, j) ∉ l) →
    (l.foldl (fun (lookups : Hash → Option TxLookupEntry) e =>
      update lookups e.1 (some (f e.2))) lookups) tx = lookups tx
  | [], _, _ => rfl
  | (h, k) :: l, lookups, hl => by
    have hne : tx ≠ h := by
      rintro rfl
      exact hl k mem_cons_self
    rw [foldl_cons, foldl_update_of_not_mem fun j hj => hl j (mem_cons_of_mem _ hj),
      update_of_ne hne]

theorem foldl_update_of_mem :
    ∀ {l : List (Hash × ℕ)} {lookups : Hash → Option TxLookupEntry}, (tx, i) ∈ l →
      (∀ j, (tx, j) ∈ l → j = i) →
      (l.foldl (fun (lookups : Hash → Option TxLookupEntry) e =>
        update lookups e.1 (some (f e.2))) lookups) tx = some (f i)
  | (h, k) :: l, lookups, hmem, honly => by
    rw [foldl_cons]
    by_cases hl : (tx, i) ∈ l
    · exact foldl_update_of_mem hl fun j hj => honly j (mem_cons_of_mem _ hj)
    · obtain ⟨rfl, rfl⟩ : tx = h ∧ i = k := by
        rcases mem_cons.mp hmem with heq | hmem
        · cases heq
          exact ⟨rfl, rfl⟩
        · exact absurd hmem hl
      have hrest : ∀ j, (tx, j) ∉ l := fun j hj =>
        hl (honly j (mem_cons_of_mem _ hj) ▸ hj)
      rw [foldl_update_of_not_mem hrest, update_self]

theorem enter_of_not_mem (h : tx ∉ t.transactions block) :
    enter t lookups block tx = lookups tx := by
  refine foldl_update_of_not_mem (f := fun j => ⟨block, t.number block, j⟩) fun j hj => ?_
  exact h (mem_of_getElem? (mk_mem_zipIdx_iff_getElem?.mp hj))

theorem enter_of_holds (h : Holds t block tx i) (honly : ∀ j, Holds t block tx j → j = i) :
    enter t lookups block tx = some ⟨block, t.number block, i⟩ :=
  foldl_update_of_mem (f := fun j => ⟨block, t.number block, j⟩)
    (mk_mem_zipIdx_iff_getElem?.mpr h)
    fun j hj => honly j (mk_mem_zipIdx_iff_getElem?.mp hj)

theorem foldl_enter_of_not_mem : ∀ {blocks : List Hash} {lookups : Hash → Option TxLookupEntry},
    (∀ b ∈ blocks, tx ∉ t.transactions b) → blocks.foldl (enter t) lookups tx = lookups tx
  | [], _, _ => rfl
  | b :: blocks, lookups, h => by
    rw [foldl_cons, foldl_enter_of_not_mem fun b' hb' => h b' (mem_cons_of_mem b hb'),
      enter_of_not_mem (h b mem_cons_self)]

theorem foldl_enter_of_holds {b : Hash} :
    ∀ {blocks : List Hash} {lookups : Hash → Option TxLookupEntry}, b ∈ blocks → Holds t b tx i →
      (∀ b' ∈ blocks, ∀ j, Holds t b' tx j → b' = b ∧ j = i) →
      blocks.foldl (enter t) lookups tx = some ⟨b, t.number b, i⟩
  | b' :: blocks, lookups, hb, hi, honly => by
    rw [foldl_cons]
    by_cases hmem : b ∈ blocks
    · exact foldl_enter_of_holds hmem hi fun c hc => honly c (mem_cons_of_mem b' hc)
    · obtain rfl : b = b' := (mem_cons.mp hb).resolve_right hmem
      have hrest : ∀ c ∈ blocks, tx ∉ t.transactions c := by
        intro c hc htx
        obtain ⟨j, hj⟩ := exists_holds htx
        exact hmem ((honly c (mem_cons_of_mem b hc) j hj).1 ▸ hc)
      rw [foldl_enter_of_not_mem hrest, enter_of_holds hi fun j hj =>
        (honly b mem_cons_self j hj).2]

end Entries

/-! ## Branches without repeated transactions -/

variable (t) in
def branchTransactions (tip : Hash) : List Hash :=
  (range (t.number tip + 1)).flatMap fun n => t.transactions (t.ancestor tip n)

variable (t) in
def Distinct (tip : Hash) : Prop := (branchTransactions t tip).Nodup

instance (tip : Hash) : Decidable (Distinct t tip) := inferInstanceAs (Decidable (Nodup _))

theorem Distinct.eq {tip b b' tx : Hash} {i j : ℕ} (h : Distinct t tip) (hb : OnBranch t tip b)
    (hb' : OnBranch t tip b') (hi : Holds t b tx i) (hj : Holds t b' tx j) : b = b' ∧ i = j := by
  obtain ⟨hnodup, hpair⟩ := nodup_flatMap.mp h
  have hmem : t.number b ∈ range (t.number tip + 1) := mem_range.mpr (lt_succ_of_le hb.1)
  have hmem' : t.number b' ∈ range (t.number tip + 1) := mem_range.mpr (lt_succ_of_le hb'.1)
  have hnumber : t.number b = t.number b' := by
    by_contra hne
    have hsymm : Std.Symm (onFun Disjoint
        fun n => t.transactions (t.ancestor tip n)) := ⟨fun _ _ hd => hd.symm⟩
    have hdisjoint := hpair.forall hmem hmem' hne
    simp only [onFun, hb.2, hb'.2] at hdisjoint
    exact hdisjoint (holds_mem hi) (holds_mem hj)
  obtain rfl : b = b' := by rw [← hb.2, ← hb'.2, hnumber]
  have hbn := hnodup _ hmem
  rw [hb.2] at hbn
  have hlt : i < (t.transactions b).length := (List.getElem?_eq_some_iff.mp hi).1
  exact ⟨rfl, (getElem?_inj hlt hbn).mp (hi.trans hj.symm)⟩

variable (t) in
/-- The entries are the places of the transactions on the branch of a block. -/
def Located (lookups : Hash → Option TxLookupEntry) (tip : Hash) : Prop :=
  ∀ tx b n i, lookups tx = some ⟨b, n, i⟩ ↔ OnBranch t tip b ∧ n = t.number b ∧ Holds t b tx i

/-! ## Changing the branch -/

section Switch

variable {blocks : Finset Hash} {tip : Hash} {m : ℕ}

theorem mem_path_iff (h : t.Connected blocks tip) {b : Hash} :
    b ∈ t.path tip m ↔ OnBranch t tip b ∧ m < t.number b := by
  constructor
  · intro hb
    obtain ⟨k, hmk, hk, rfl⟩ := mem_path.mp hb
    have hnumber : t.number (t.ancestor tip k) = k :=
      ((rooted_connected blocks).ancestor_mem h hk).2
    exact ⟨⟨hnumber.le.trans hk, congrArg (t.ancestor tip) hnumber⟩, hmk.trans_eq hnumber.symm⟩
  · rintro ⟨⟨hle, hanc⟩, hlt⟩
    exact mem_path.mpr ⟨t.number b, hlt, hle, hanc⟩

theorem onBranch_of_le {tip' b : Hash} (h : t.Connected blocks tip) (h' : t.Connected blocks tip')
    (hm : m ≤ t.number tip) (hm' : m ≤ t.number tip') (hanc : t.ancestor tip m = t.ancestor tip' m)
    (hb : OnBranch t tip b) (hle : t.number b ≤ m) : OnBranch t tip' b :=
  ⟨hle.trans hm',
    ((rooted_connected blocks).ancestor_eq_of_le h h' hm hm' hle hanc).symm.trans hb.2⟩

/-- **Entries that are rewritten from one branch to another.** -/
theorem Located.switch {lookups' : Hash → Option TxLookupEntry} {tip' : Hash}
    (hlocated : Located t lookups tip) (hdistinct : Distinct t tip) (hdistinct' : Distinct t tip')
    (h : t.Connected blocks tip) (h' : t.Connected blocks tip') (hm : m ≤ t.number tip)
    (hm' : m ≤ t.number tip') (hanc : t.ancestor tip m = t.ancestor tip' m)
    (hnew : ∀ tx, ∀ b ∈ t.path tip' m, ∀ i, Holds t b tx i → lookups' tx = some ⟨b, t.number b, i⟩)
    (hold : ∀ tx, (∀ b ∈ t.path tip' m, tx ∉ t.transactions b) →
      (∃ b ∈ t.path tip m, tx ∈ t.transactions b) → lookups' tx = none)
    (hrest : ∀ tx, (∀ b ∈ t.path tip' m, tx ∉ t.transactions b) →
      (∀ b ∈ t.path tip m, tx ∉ t.transactions b) → lookups' tx = lookups tx) :
    Located t lookups' tip' := by
  intro tx b n i
  by_cases hn : ∃ b' ∈ t.path tip' m, tx ∈ t.transactions b'
  · -- the place on the new branch
    obtain ⟨b', hb', htx⟩ := hn
    obtain ⟨j, hj⟩ := exists_holds htx
    have hon := ((mem_path_iff h').mp hb').1
    rw [hnew tx b' hb' j hj]
    constructor
    · intro he
      cases he
      exact ⟨hon, rfl, hj⟩
    · rintro ⟨hb, rfl, hi⟩
      obtain ⟨rfl, rfl⟩ := hdistinct'.eq hon hb hj hi
      rfl
  · have hn : ∀ b' ∈ t.path tip' m, tx ∉ t.transactions b' := fun b' hb' htx => hn ⟨b', hb', htx⟩
    -- what the new branch has is below the common block
    have hlow : ∀ c k, OnBranch t tip' c → Holds t c tx k → t.number c ≤ m := by
      intro c k hc hk
      by_contra hlt
      exact hn c ((mem_path_iff h').mpr ⟨hc, by omega⟩) (holds_mem hk)
    by_cases ho : ∃ b' ∈ t.path tip m, tx ∈ t.transactions b'
    · rw [hold tx hn ho]
      obtain ⟨b', hb', htx⟩ := ho
      obtain ⟨j, hj⟩ := exists_holds htx
      obtain ⟨hon, hgt⟩ := (mem_path_iff h).mp hb'
      constructor
      · intro he
        cases he
      · rintro ⟨hb, -, hi⟩
        have hle := hlow b i hb hi
        have hb := onBranch_of_le h' h hm' hm hanc.symm hb hle
        obtain ⟨rfl, -⟩ := hdistinct.eq hb hon hi hj
        omega
    · have ho : ∀ b' ∈ t.path tip m, tx ∉ t.transactions b' := fun b' hb' htx => ho ⟨b', hb', htx⟩
      rw [hrest tx hn ho, hlocated tx b n i]
      constructor
      · rintro ⟨hb, hnb, hi⟩
        have hle : t.number b ≤ m := by
          by_contra hlt
          exact ho b ((mem_path_iff h).mpr ⟨hb, by omega⟩) (holds_mem hi)
        exact ⟨onBranch_of_le h h' hm hm' hanc hb hle, hnb, hi⟩
      · rintro ⟨hb, hnb, hi⟩
        exact ⟨onBranch_of_le h' h hm' hm hanc.symm hb (hlow b i hb hi), hnb, hi⟩

end Switch

/-! ## Calls -/

theorem Located.extend {tip : Hash} (hlocated : Located t lookups tip) (hdistinct : Distinct t tip)
    (hdistinct' : Distinct t block) (h : t.Connected blocks tip) (h' : t.Connected blocks block)
    (hparent : t.parentHash block = tip)
    (hnumber : t.number block = t.number (t.parentHash block) + 1) :
    Located t (enter t lookups block) block := by
  have hpath : t.path block (t.number tip) = [block] := by
    have hnil : t.path tip (t.number tip) = [] := path_self
    have hcons : t.path block (t.number tip) =
        block :: t.path (t.parentHash block) (t.number tip) :=
      path_cons hnumber (by rw [hparent])
    rw [hcons, hparent, hnil]
  have hanc : t.ancestor tip (t.number tip) = t.ancestor block (t.number tip) := by
    have hself : t.ancestor block (t.number tip) = t.ancestor (t.parentHash block) (t.number tip) :=
      ancestor_parent hnumber (by rw [hparent])
    rw [hself, hparent]
  have hself : OnBranch t block block := ⟨le_rfl, ancestor_self⟩
  have hle : t.number tip ≤ t.number block := by
    rw [← hparent]
    omega
  refine hlocated.switch hdistinct hdistinct' h h' le_rfl hle hanc ?_ ?_ ?_
  · intro tx b hb i hi
    rw [hpath] at hb
    obtain rfl := mem_singleton.mp hb
    exact enter_of_holds hi fun j hj => (hdistinct'.eq hself hself hj hi).2
  · rintro tx - ⟨b, hb, -⟩
    have hnil : t.path tip (t.number tip) = [] := path_self
    rw [hnil] at hb
    cases hb
  · intro tx hn _
    rw [hpath] at hn
    exact enter_of_not_mem (hn block mem_cons_self)

theorem relocate_of_holds (h : t.Connected blocks block) (hdistinct : Distinct t block)
    {oldChain : List Hash} {m i : ℕ} {b tx : Hash} (hb : b ∈ t.path block m) (hi : Holds t b tx i) :
    enter t (relocate t lookups oldChain (t.path block m)) block tx = some ⟨b, t.number b, i⟩ := by
  have hon : ∀ c ∈ t.path block m, OnBranch t block c := fun c hc => ((mem_path_iff h).mp hc).1
  have hself : OnBranch t block block := ⟨le_rfl, ancestor_self⟩
  by_cases htx : tx ∈ t.transactions block
  · obtain ⟨j, hj⟩ := exists_holds htx
    obtain ⟨rfl, rfl⟩ := hdistinct.eq (hon b hb) hself hi hj
    exact enter_of_holds hi fun k hk => (hdistinct.eq hself hself hk hi).2
  · have hadded : tx ∈ (t.path block m).flatMap t.transactions :=
      mem_flatMap.mpr ⟨b, hb, holds_mem hi⟩
    rw [enter_of_not_mem htx, relocate, forget, if_neg]
    · exact foldl_enter_of_holds hb hi fun c hc j hj => hdistinct.eq (hon c hc) (hon b hb) hj hi
    · intro hdiff
      exact ((t.mem_txDifference _ _ _).mp hdiff).2 hadded

theorem relocate_of_not_mem {oldChain newChain : List Hash} (hblock : block ∈ newChain)
    (hn : ∀ b ∈ newChain, tx ∉ t.transactions b) :
    enter t (relocate t lookups oldChain newChain) block tx =
      if tx ∈ oldChain.flatMap t.transactions then none else lookups tx := by
  have hnone : tx ∉ newChain.flatMap t.transactions := by
    intro hmem
    obtain ⟨b, hb, htx⟩ := mem_flatMap.mp hmem
    exact hn b hb htx
  rw [enter_of_not_mem (hn block hblock), relocate, forget, foldl_enter_of_not_mem hn]
  refine if_congr ?_ rfl rfl
  rw [t.mem_txDifference]
  exact ⟨And.left, fun hmem => ⟨hmem, hnone⟩⟩

/-- **Every outcome of a call keeps the entries** on the branch of the current block. -/
theorem Located.outcome (h : Indexed t bc) (hlocated : Located t bc.db.lookups bc.currentBlock)
    (hdistinct : Distinct t bc.currentBlock) {block : t.Child} {coin : Bool}
    (hdistinct' : Distinct t block.hash) (ho : Outcome t bc block.hash coin bc') :
    Located t bc'.db.lookups bc'.currentBlock ∧ Distinct t bc'.currentBlock := by
  cases ho with
  | kept hhead _ _ | aside hhead _ =>
    rw [hhead.lookups, hhead.currentBlock]
    exact ⟨hlocated, hdistinct⟩
  | extended _ hparent hadopted =>
    rw [hadopted.lookups, hadopted.currentBlock]
    exact ⟨hlocated.extend hdistinct hdistinct' (h.connected_insert block.hash)
      (h.connected_child block hparent) hparent block.number_eq, hdistinct'⟩
  | reorganised td oldChain newChain hwon hchains hadopted =>
    obtain ⟨m, hm, hm', hanc, rfl, rfl, hblock⟩ := h.chains block hchains
    have hcurrent := h.connected_insert block.hash
    -- the new block is above the common one, which is stored
    have hmem : block.hash ∈ t.path block.hash m := by
      refine (mem_path_iff hblock).mpr ⟨⟨le_rfl, ancestor_self⟩, lt_of_le_of_ne hm' ?_⟩
      rintro rfl
      have hself : t.ancestor block.hash (t.number block.hash) = block.hash := ancestor_self
      have hstored : t.Connected bc.db.bodies (t.ancestor bc.currentBlock (t.number block.hash)) :=
        ((rooted_connected bc.db.bodies).ancestor_mem h.connected hm).1
      rw [hanc, hself] at hstored
      exact hwon.1 (Ancestry.Connected.mem hstored h.genesis_mem)
    rw [hadopted.lookups, hadopted.currentBlock]
    refine ⟨hlocated.switch hdistinct hdistinct' hcurrent hblock hm hm' hanc ?_ ?_ ?_, hdistinct'⟩
    · intro tx b hb i hi
      exact relocate_of_holds hblock hdistinct' hb hi
    · rintro tx hn ⟨b, hb, htx⟩
      rw [relocate_of_not_mem hmem hn, if_pos (mem_flatMap.mpr ⟨b, hb, htx⟩)]
    · intro tx hn ho
      rw [relocate_of_not_mem hmem hn, if_neg]
      intro hmem
      obtain ⟨b, hb, htx⟩ := mem_flatMap.mp hmem
      exact ho b hb htx

theorem start_located : Located t (start t).db.lookups (start t).currentBlock ∧
    Distinct t (start t).currentBlock := by
  have hnumber : t.number t.genesis = 0 := t.genesis_number
  have htransactions : t.transactions t.genesis = [] := t.genesis_transactions
  have hanc : t.ancestor t.genesis 0 = t.genesis :=
    (rooted_connected ∅).ancestor_zero (x := t.genesis) .root
  constructor
  · intro tx b n i
    constructor
    · intro he
      cases he
    · rintro ⟨⟨hle, hb⟩, -, hi⟩
      have hb0 : t.number b = 0 := le_zero.mp (hle.trans_eq hnumber)
      have hgenesis : t.genesis = b := by
        rw [← hb, hb0]
        exact hanc.symm
      rw [Holds, ← hgenesis, htransactions] at hi
      cases hi
  · have hnone : branchTransactions t t.genesis = [] := by
      rw [branchTransactions, hnumber]
      simp only [zero_add, range_one, flatMap_singleton, hanc, htransactions]
    exact (congrArg Nodup hnone).mpr nodup_nil

/-- **The lookup entries are those of the canonical chain.** -/
theorem txLookup_canonical {ops : List (Op t)} (hops : ∀ op ∈ ops, Distinct t op.block.hash) :
    ∃ bc, run (step t healthy) (start t) ops = some bc ∧
      (∀ tx b n i, b ≠ zeroHash → (bc.db.getTxLookupEntry tx = ⟨b, n, i⟩ ↔
        OnBranch t bc.currentBlock b ∧ n = t.number b ∧ (t.transactions b)[i]? = some tx)) ∧
      ∀ tx, (∀ b, OnBranch t bc.currentBlock b → tx ∉ t.transactions b) →
        bc.db.getTxLookupEntry tx = ⟨zeroHash, 0, 0⟩ := by
  have hstep : ∀ bc op, Indexed t bc ∧ Located t bc.db.lookups bc.currentBlock ∧
      Distinct t bc.currentBlock → Distinct t op.block.hash →
      ∃ bc', step t healthy bc op = some bc' ∧ Indexed t bc' ∧
        Located t bc'.db.lookups bc'.currentBlock ∧ Distinct t bc'.currentBlock := by
    rintro bc op ⟨h, hlocated, hdistinct⟩ hop
    obtain ⟨bc', hrun, ho, h'⟩ := step_indexed h op
    exact ⟨bc', hrun, h', hlocated.outcome h hdistinct hop ho⟩
  obtain ⟨bc, hrun, h, hlocated, -⟩ := exists_run_along hstep
    ⟨start_indexed, start_located⟩ (along_of_forall (start t) hops)
  refine ⟨bc, hrun, fun tx b n i hb => ?_, fun tx htx => ?_⟩
  · refine Iff.trans ?_ (hlocated tx b n i)
    rw [ChainDb.getTxLookupEntry]
    cases hentry : bc.db.lookups tx with
    | none =>
      constructor
      · intro he
        cases he
        exact absurd rfl hb
      · intro he
        cases he
    | some e => exact ⟨congrArg some, Option.some.inj⟩
  · rw [ChainDb.getTxLookupEntry]
    cases hentry : bc.db.lookups tx with
    | none => rfl
    | some e =>
      obtain ⟨hon, -, hi⟩ := (hlocated tx e.blockHash e.blockIndex e.index).mp hentry
      exact absurd (holds_mem hi) (htx _ hon)

open HeaderChain (blockOf hashOf treeOf)

def sharedBlock (h : Hash) : Block :=
  match h.bytes.head? with
  | some 2 => blockOf (hashOf 1) 1 1 [hashOf 20, hashOf 21]
  | some 3 => blockOf (hashOf 1) 1 1 [hashOf 30, hashOf 20]
  | _ => blockOf zeroHash 0 1 []

def sharedTree : BlockTree := treeOf sharedBlock rfl rfl

/-- Block 3 replaces block 2. -/
theorem txLookup_canonical_shared :
    ∃ bc, run (step sharedTree healthy) (start sharedTree)
        [⟨⟨hashOf 2, by decide, rfl⟩, false, true, false⟩,
          ⟨⟨hashOf 3, by decide, rfl⟩, true, true, false⟩] = some bc ∧
      ∀ tx b n i, b ≠ zeroHash → (bc.db.getTxLookupEntry tx = ⟨b, n, i⟩ ↔
        OnBranch sharedTree bc.currentBlock b ∧ n = sharedTree.number b ∧
          (sharedTree.transactions b)[i]? = some tx) := by
  have hops : ∀ op ∈ ([⟨⟨hashOf 2, by decide, rfl⟩, false, true, false⟩,
      ⟨⟨hashOf 3, by decide, rfl⟩, true, true, false⟩] : List (Op sharedTree)),
      Distinct sharedTree op.block.hash := by decide +kernel
  obtain ⟨bc, hrun, hentry, -⟩ := txLookup_canonical hops
  exact ⟨bc, hrun, hentry⟩

end BlockChain

end XChain
