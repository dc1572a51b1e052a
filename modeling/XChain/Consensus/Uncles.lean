import XChain.Lib.Assoc
import XChain.Consensus.Header

/-!
# Uncles

`VerifyUncles` of `consensus/ethash/consensus.go`, and how the miner picks uncles for a new block:
`makeCurrent`, the loop of `commitNewWork` and `commitUncle` of `miner/worker.go`. Both look at the
last seven ancestors and at the uncles they list.

The verifier puts the block itself among the ancestors: an uncle that hangs on the block that lists
it is taken. The miner also takes uncles that hang on the parent of the new block, which the
verifier refuses.

* **`uncles_rewarded_once`**: along a chain no uncle is listed twice, none is on the chain, all are
  recent;
* **`selected_pass_iff`**: what the miner selects passes, exactly if it takes nothing that hangs on
  the parent of the new block.
-/

namespace XChain.Ethash

open List Word64 GoText

/-! ## The verifier -/

inductive UncleError
  | tooManyUncles
  | duplicateUncle
  | uncleIsAncestor
  | danglingUncle
  | badHeader (e : HeaderError)
deriving DecidableEq

def maxUncles : ℕ := 2

def blocksFrom (chain : ChainReader) : ℕ → Hash → ℕ → List Block
  | 0, _, _ => []
  | n + 1, hash, number =>
    match chain.getBlock hash number with
    | none => []
    | some block => block :: blocksFrom chain n block.header.parentHash (sub number 1)

section Verifier

variable (p : Params) (verifySeal : Header → Except SealError Unit) (now : ℤ) (chain : ChainReader)

def window (block : Block) : List Block :=
  blocksFrom chain 7 block.header.parentHash (sub (low block.header.number) 1)

/-- The map of the ancestors; the block itself is added last. -/
def ancestors (block : Block) : Hash → Option Header :=
  GoMap.ofPairs ((window chain block ++ [block]).map fun b => (chain.hash b.header, b.header))

/-- The hashes of the uncles that the ancestors list, and of the block itself. -/
def pastUncles (block : Block) : List Hash :=
  ((window chain block).flatMap Block.uncles).map chain.hash ++ [chain.hash block.header]

/-- The loop over the uncles of a block; `seen` are the hashes of the uncles so far. -/
def checkUncles (block : Block) : List Hash → List Header → Except UncleError Unit
  | _, [] => .ok ()
  | seen, uncle :: uncles =>
    if chain.hash uncle ∈ seen then .error .duplicateUncle
    else if (ancestors chain block (chain.hash uncle)).isSome then .error .uncleIsAncestor
    else
      match ancestors chain block uncle.parentHash with
      | none => .error .danglingUncle
      | some parent =>
        if uncle.parentHash = block.header.parentHash then .error .danglingUncle
        else
          match verifyHeader p verifySeal now uncle parent true true with
          | .error e => .error (.badHeader e)
          | .ok _ => checkUncles block (chain.hash uncle :: seen) uncles

def verifyUncles (block : Block) : Except UncleError Unit :=
  if maxUncles < block.uncles.length then .error .tooManyUncles
  else checkUncles p verifySeal now chain block (pastUncles chain block) block.uncles

/-- An uncle that the structural checks let pass: new, no ancestor, and on an ancestor other than
the parent. -/
structure Fits (block : Block) (seen : List Hash) (uncle parent : Header) : Prop where
  fresh : chain.hash uncle ∉ seen
  not_ancestor : ancestors chain block (chain.hash uncle) = none
  parent_eq : ancestors chain block uncle.parentHash = some parent
  not_sibling : uncle.parentHash ≠ block.header.parentHash

variable {p verifySeal now chain} {block : Block} {hash : Hash}

theorem fits_cons {seen : List Hash} {uncle u parent : Header}
    (hne : chain.hash u ≠ chain.hash uncle) :
    Fits chain block (chain.hash uncle :: seen) u parent ↔ Fits chain block seen u parent :=
  ⟨fun h => { h with fresh := fun hs => h.fresh (mem_cons_of_mem _ hs) },
    fun h => { h with fresh := fun hs => (mem_cons.mp hs).elim hne h.fresh }⟩

/-- **What the checks let pass.** -/
theorem checkUncles_eq_ok {uncles : List Header} {seen : List Hash} :
    checkUncles p verifySeal now chain block seen uncles = .ok () ↔
      (uncles.map chain.hash).Nodup ∧ ∀ u ∈ uncles, ∃ parent, Fits chain block seen u parent ∧
        verifyHeader p verifySeal now u parent true true = .ok () := by
  induction uncles generalizing seen with
  | nil => simp [checkUncles]
  | cons uncle uncles ih =>
    have hhead : checkUncles p verifySeal now chain block seen (uncle :: uncles) = .ok () ↔
        (∃ parent, Fits chain block seen uncle parent ∧
          verifyHeader p verifySeal now uncle parent true true = .ok ()) ∧
        checkUncles p verifySeal now chain block (chain.hash uncle :: seen) uncles = .ok () := by
      rw [checkUncles]
      constructor
      · intro h
        split at h
        · cases h
        split at h
        · cases h
        split at h
        · cases h
        split at h
        · cases h
        split at h
        · cases h
        rename_i hseen hanc _ parent hparent hsibling _ _ hheader
        exact ⟨⟨parent, ⟨hseen, by simpa using hanc, hparent, hsibling⟩, hheader⟩, h⟩
      · rintro ⟨⟨parent, hf, hheader⟩, hrest⟩
        rw [if_neg hf.fresh, if_neg (by simp [hf.not_ancestor])]
        simp only [hf.parent_eq, if_neg hf.not_sibling, hheader, hrest]
    rw [hhead, ih, map_cons, nodup_cons, forall_mem_cons]
    constructor
    · rintro ⟨hfirst, hnodup, hrest⟩
      have hnot : chain.hash uncle ∉ uncles.map chain.hash := by
        intro hmem
        obtain ⟨u, hu, heq⟩ := mem_map.mp hmem
        obtain ⟨_, hf, -⟩ := hrest u hu
        exact hf.fresh (by simp [heq])
      refine ⟨⟨hnot, hnodup⟩, hfirst, fun u hu => ?_⟩
      obtain ⟨q, hf, hq⟩ := hrest u hu
      exact ⟨q, (fits_cons fun heq => hnot (heq ▸ mem_map_of_mem hu)).mp hf, hq⟩
    · rintro ⟨⟨hnot, hnodup⟩, hfirst, hrest⟩
      refine ⟨hfirst, hnodup, fun u hu => ?_⟩
      obtain ⟨q, hf, hq⟩ := hrest u hu
      exact ⟨q, (fits_cons fun heq => hnot (heq ▸ mem_map_of_mem hu)).mpr hf, hq⟩

theorem ancestors_eq_some {header : Header} (h : ancestors chain block hash = some header) :
    ∃ b ∈ window chain block ++ [block], chain.hash b.header = hash ∧ b.header = header := by
  obtain ⟨b, hb, heq⟩ := mem_map.mp (GoMap.mem_of_ofPairs h)
  exact ⟨b, hb, congrArg Prod.fst heq, congrArg Prod.snd heq⟩

theorem ancestors_eq_none :
    ancestors chain block hash = none ↔
      ∀ b ∈ window chain block ++ [block], chain.hash b.header ≠ hash := by
  simp only [ancestors, GoMap.ofPairs, lookup_eq_none_iff, mem_reverse, mem_map]
  constructor
  · intro h b hb heq
    simpa [heq] using h _ ⟨b, hb, rfl⟩
  · rintro h _ ⟨b, hb, rfl⟩
    simpa using Ne.symm (h b hb)

end Verifier

/-! ## Chains -/

section Chain

variable (p : Params) (verifySeal : Header → Except SealError Unit) (chain : ChainReader)

/-- A chain down to the genesis block: each block is accepted on the stored one below. -/
inductive Accepted : List Block → Prop
  | genesis {g : Block} (number_eq : g.header.number = 0) (uncles_eq : g.uncles = [])
      (orphan : chain.getBlock g.header.parentHash (sub 0 1) = none) : Accepted [g]
  | extend {b parent : Block} {bs : List Block} (now : ℤ) (sealed : Bool)
      (below : Accepted (parent :: bs))
      (stored : chain.getBlock (chain.hash parent.header) (low parent.header.number) =
        some parent)
      (parentHash_eq : b.header.parentHash = chain.hash parent.header)
      (header_ok : verifyHeader p verifySeal now b.header parent.header false sealed = .ok ())
      (uncles_ok : verifyUncles p verifySeal now chain b = .ok ()) : Accepted (b :: parent :: bs)

variable {p verifySeal chain} {b parent : Block} {bs : List Block}

theorem Accepted.mem_take (h : Accepted p verifySeal chain (b :: bs)) {c : Block}
    (hc : c ∈ b :: bs) : c.header.number ≤ b.header.number ∧
      ∀ k, c ∈ (b :: bs).take k ↔ b.header.number < c.header.number + k := by
  generalize hl : b :: bs = l at h hc
  induction h generalizing b bs with
  | genesis _ _ _ =>
    cases hl
    cases mem_singleton.mp hc
    refine ⟨le_rfl, fun k => ?_⟩
    cases k <;> simp
  | @extend d parent rest _ _ _ _ _ header_ok _ ih =>
    cases hl
    have hnumber := (verifyHeader_eq_ok.mp header_ok).2.2.2.1.number_eq
    rcases mem_cons.mp hc with rfl | hc
    · refine ⟨le_rfl, fun k => ?_⟩
      cases k <;> simp
    · obtain ⟨hle, htake⟩ := ih rfl hc
      refine ⟨by omega, fun k => ?_⟩
      cases k with
      | zero =>
        simp only [take_zero, not_mem_nil, false_iff]
        omega
      | succ k =>
        have hne : c ≠ d := by
          rintro rfl
          omega
        rw [take_succ_cons, mem_cons, htake k]
        constructor
        · rintro (heq | hlt)
          · exact absurd heq hne
          · omega
        · intro hlt
          exact .inr (by omega)

theorem Accepted.blocksFrom_eq (h : Accepted p verifySeal chain (b :: bs))
    (hstored : chain.getBlock (chain.hash b.header) (low b.header.number) = some b) (n : ℕ) :
    blocksFrom chain n (chain.hash b.header) (low b.header.number) = (b :: bs).take n := by
  generalize hl : b :: bs = l at h
  induction h generalizing b bs n with
  | genesis number_eq _ orphan =>
    cases hl
    cases n with
    | zero => rfl
    | succ n =>
      rw [blocksFrom, hstored]
      simp only [number_eq, take_succ_cons, take_nil]
      cases n with
      | zero => rfl
      | succ n =>
        rw [blocksFrom, show low 0 = 0 from rfl, orphan]
  | @extend d parent rest _ _ _ stored parentHash_eq header_ok _ ih =>
    cases hl
    have hnumber := (verifyHeader_eq_ok.mp header_ok).2.2.2.1.number_eq
    cases n with
    | zero => rfl
    | succ n =>
      rw [blocksFrom, hstored]
      simp only [take_succ_cons]
      rw [parentHash_eq, hnumber, low_succ_sub_one, ih stored n rfl]

theorem Accepted.window_eq (below : Accepted p verifySeal chain (parent :: bs))
    (stored : chain.getBlock (chain.hash parent.header) (low parent.header.number) = some parent)
    (hhash : b.header.parentHash = chain.hash parent.header)
    (hnumber : b.header.number = parent.header.number + 1) :
    window chain b = (parent :: bs).take 7 := by
  rw [window, hhash, hnumber, low_succ_sub_one]
  exact below.blocksFrom_eq stored 7

/-- An uncle of the last six generations, not yet included. -/
structure Recent (chain : ChainReader) (b : Block) (below : List Block) (u : Header) : Prop where
  le_number : b.header.number ≤ u.number + 6
  number_lt : u.number + 1 ≤ b.header.number
  not_block : ∀ c ∈ below.take 7, chain.hash u ≠ chain.hash c.header
  not_listed : ∀ c ∈ below.take 7, u ∉ c.uncles

theorem Accepted.recent (below : Accepted p verifySeal chain (parent :: bs)) {now : ℤ}
    (stored : chain.getBlock (chain.hash parent.header) (low parent.header.number) = some parent)
    (hhash : b.header.parentHash = chain.hash parent.header)
    (hnumber : b.header.number = parent.header.number + 1)
    (uncles_ok : verifyUncles p verifySeal now chain b = .ok ())
    {u : Header} (hu : u ∈ b.uncles) (hown : u.parentHash ≠ chain.hash b.header) :
    Recent chain b (parent :: bs) u := by
  have hwindow := below.window_eq stored hhash hnumber
  unfold verifyUncles at uncles_ok
  split at uncles_ok
  · cases uncles_ok
  obtain ⟨_, hfits⟩ := checkUncles_eq_ok.mp uncles_ok
  obtain ⟨q, hf, hheader⟩ := hfits u hu
  have hunumber := (verifyHeader_eq_ok.mp hheader).2.2.2.1.number_eq
  -- the ancestor that the uncle hangs on
  obtain ⟨a, ha, hahash, rfl⟩ := ancestors_eq_some hf.parent_eq
  rw [hwindow] at ha
  have hane : a ≠ b := by
    rintro rfl
    exact hown hahash.symm
  have hatake : a ∈ (parent :: bs).take 7 := by
    rcases mem_append.mp ha with ha | ha
    · exact ha
    · exact absurd (mem_singleton.mp ha) hane
  obtain ⟨_, hdist⟩ := below.mem_take (mem_of_mem_take hatake)
  have hseven := (hdist 7).mp hatake
  have hlow : ¬ parent.header.number < a.header.number + 1 := by
    intro hlt
    have hmem := (hdist 1).mpr hlt
    cases mem_singleton.mp hmem
    exact hf.not_sibling (hahash.symm.trans hhash.symm)
  refine ⟨by omega, by omega, fun c hc heq => ?_, fun c hc hlisted => ?_⟩
  · refine ancestors_eq_none.mp hf.not_ancestor c ?_ heq.symm
    rw [hwindow]
    exact mem_append_left _ hc
  · apply hf.fresh
    rw [pastUncles, hwindow]
    exact mem_append_left _ (mem_map_of_mem (mem_flatMap.mpr ⟨c, hc, hlisted⟩))

structure RewardedOnce (blocks : List Block) : Prop where
  once : (blocks.flatMap Block.uncles).Nodup
  apart : ∀ b ∈ blocks, ∀ u ∈ b.uncles, ∀ c ∈ blocks, u ≠ c.header
  recent : ∀ b ∈ blocks, ∀ u ∈ b.uncles,
    b.header.number ≤ u.number + 6 ∧ u.number + 1 ≤ b.header.number

/-- **Every uncle is rewarded at most once.** -/
theorem uncles_rewarded_once {blocks : List Block} (h : Accepted p verifySeal chain blocks)
    (hown : ∀ b ∈ blocks, ∀ u ∈ b.uncles, u.parentHash ≠ chain.hash b.header) :
    RewardedOnce blocks := by
  induction h with
  | genesis _ uncles_eq _ => exact ⟨by simp [uncles_eq], by simp [uncles_eq], by simp [uncles_eq]⟩
  | @extend b parent bs now sealed below stored parentHash_eq header_ok uncles_ok ih =>
    obtain ⟨honce, hapart, hold⟩ := ih fun c hc => hown c (mem_cons_of_mem _ hc)
    have hnumber := (verifyHeader_eq_ok.mp header_ok).2.2.2.1.number_eq
    have hnew : ∀ u ∈ b.uncles, Recent chain b (parent :: bs) u := fun u hu =>
      below.recent stored parentHash_eq hnumber uncles_ok hu (hown b mem_cons_self u hu)
    have hnodup : b.uncles.Nodup := by
      unfold verifyUncles at uncles_ok
      split at uncles_ok
      · cases uncles_ok
      · exact (checkUncles_eq_ok.mp uncles_ok).1.of_map _
    refine ⟨?_, ?_, ?_⟩
    · -- an uncle that is listed below is listed within the window
      rw [flatMap_cons, nodup_append]
      refine ⟨hnodup, honce, fun u hu v hv => ?_⟩
      rintro rfl
      obtain ⟨c, hc, huc⟩ := mem_flatMap.mp hv
      have hr := hnew u hu
      have hnum := hr.le_number
      have hold' := (hold c hc u huc).2
      exact hr.not_listed c (((below.mem_take hc).2 7).mpr (by omega)) huc
    · intro c hc u hu d hd heq
      subst heq
      rcases mem_cons.mp hc with rfl | hbelow
      · -- an uncle of the new block: what is on the chain at its height is in the window
        have hr := hnew _ hu
        have hlow := hr.le_number
        have hhigh := hr.number_lt
        rcases mem_cons.mp hd with rfl | hd
        · omega
        · exact hr.not_block d (((below.mem_take hd).2 7).mpr (by omega)) rfl
      · rcases mem_cons.mp hd with rfl | hd
        · have hhigh := (hold c hbelow _ hu).2
          have hle := (below.mem_take hbelow).1
          omega
        · exact hapart c hbelow _ hu d hd rfl
    · intro c hc u hu
      rcases mem_cons.mp hc with rfl | hc
      · exact ⟨(hnew u hu).le_number, (hnew u hu).number_lt⟩
      · exact hold c hc u hu

end Chain

/-! ## Small chains -/

def named (name parent : UInt8) (number : ℕ) : Header where
  parentHash := digest parent
  uncleHash := digest 9
  number := number
  time := number
  difficulty := 16
  gasLimit := 6143
  gasUsed := 0
  extra := [name]
  mixDigest := digest 0
  nonce := 0

def nameHash (header : Header) : Hash := digest (header.extra.headD 0)

def storing (blocks : List Block) : ChainReader where
  hash := nameHash
  getHeader hash number := (blocks.find? fun b =>
    nameHash b.header = hash ∧ low b.header.number = number).map Block.header
  getBlock hash number := blocks.find? fun b =>
    nameHash b.header = hash ∧ low b.header.number = number
  getBlockNumber hash := ((blocks.find? fun b => nameHash b.header = hash).map fun b =>
    low b.header.number).getD (size - 1)

def anySeal : Header → Except SealError Unit := fun _ => .ok ()

def nephews : List Block :=
  [⟨named 3 2 2, [named 4 1 1]⟩, ⟨named 2 1 1, []⟩, ⟨named 1 0 0, []⟩]

theorem nephews_accepted : Accepted lowTarget anySeal (storing nephews) nephews :=
  .extend 9 true (.extend 9 true (.genesis rfl rfl (by decide +kernel)) (by decide +kernel) rfl
    (by decide +kernel) (by decide +kernel)) (by decide +kernel) rfl (by decide +kernel)
    (by decide +kernel)

/-- The sibling of a parent is listed and rewarded. -/
theorem uncles_rewarded_once_nephews :
    named 4 1 1 ∈ nephews.flatMap Block.uncles ∧ RewardedOnce nephews :=
  ⟨by decide, uncles_rewarded_once nephews_accepted (by decide +kernel)⟩

def ownChild : List Block :=
  [⟨named 3 2 2, []⟩, ⟨named 2 1 1, [named 3 2 2]⟩, ⟨named 1 0 0, []⟩]

/-- **A block lists its own child.** The uncle is newer than the block that lists it. -/
theorem own_child_listed : Accepted lowTarget anySeal (storing ownChild) ownChild ∧
    (∀ x ∈ ownChild.map Block.header, ∀ y ∈ ownChild.map Block.header,
      (storing ownChild).hash x = (storing ownChild).hash y → x = y) ∧
    ∃ b ∈ ownChild, ∃ u ∈ b.uncles, ∃ c ∈ ownChild, u = c.header ∧
      ¬ u.number + 1 ≤ b.header.number := by
  refine ⟨?_, by decide +kernel, by decide +kernel⟩
  exact .extend 9 true
    (.extend 9 true (.genesis rfl rfl (by decide +kernel)) (by decide +kernel) rfl
    (by decide +kernel) (by decide +kernel)) (by decide +kernel) rfl (by decide +kernel)
    (by decide +kernel)

/-! ## The miner -/

inductive CommitError
  | notUnique
  | parentUnknown (parentHash : Hash)
  | inFamily (hash : Hash)
deriving DecidableEq

structure Work where
  ancestors : List Hash
  family : List Hash
  uncles : List Hash

section Miner

variable (chain : ChainReader)

def getBlocksFromHash (hash : Hash) (n : ℕ) : List Block :=
  blocksFrom chain n hash (chain.getBlockNumber hash)

def makeCurrent (parent : Block) : Work where
  ancestors := (getBlocksFromHash chain (chain.hash parent.header) 7).map fun b =>
    chain.hash b.header
  family := (getBlocksFromHash chain (chain.hash parent.header) 7).flatMap fun b =>
    b.uncles.map chain.hash ++ [chain.hash b.header]
  uncles := []

def commitUncle (work : Work) (uncle : Header) : Except CommitError Work :=
  let hash := chain.hash uncle
  if hash ∈ work.uncles then .error .notUnique
  else if uncle.parentHash ∉ work.ancestors then .error (.parentUnknown uncle.parentHash)
  else if hash ∈ work.family then .error (.inFamily hash)
  else .ok { work with uncles := hash :: work.uncles }

/-- The loop of `commitNewWork` over the possible uncles: those listed and those forgotten. -/
def selectUncles : Work → List Header → List Header → List Header × List Hash
  | _, uncles, [] => (uncles, [])
  | work, uncles, uncle :: possible =>
    if uncles.length = 2 then (uncles, [])
    else
      match commitUncle chain work uncle with
      | .error _ =>
        let (selected, bad) := selectUncles work uncles possible
        (selected, chain.hash uncle :: bad)
      | .ok work => selectUncles work (uncles ++ [uncle]) possible

/-- The uncle hangs on one of the last blocks and is none of them and of their uncles. -/
def Work.hangs (work : Work) (uncle : Header) : Bool :=
  decide (uncle.parentHash ∈ work.ancestors ∧ chain.hash uncle ∉ work.family)

variable {chain}

/-- **The first two possible uncles that hang** are selected. -/
theorem selectUncles_eq : ∀ {possible : List Header} {work : Work} {uncles : List Header},
    uncles.length ≤ 2 → (possible.map chain.hash).Nodup →
      (∀ u ∈ possible, chain.hash u ∉ work.uncles) →
      (selectUncles chain work uncles possible).1 =
        uncles ++ (possible.filter (work.hangs chain)).take (2 - uncles.length)
  | [], _, _, _, _, _ => by simp [selectUncles]
  | uncle :: possible, work, uncles, hlen, hnodup, hnew => by
    obtain ⟨hnot, hnodup⟩ := nodup_cons.mp hnodup
    obtain ⟨hfree, hnew⟩ := forall_mem_cons.mp hnew
    rw [selectUncles]
    split
    · rename_i hfull
      simp [hfull]
    rename_i hroom
    by_cases hhangs : work.hangs chain uncle = true
    · obtain ⟨hparent, hfamily⟩ := of_decide_eq_true hhangs
      have hcommit : commitUncle chain work uncle =
          .ok { work with uncles := chain.hash uncle :: work.uncles } := by
        simp only [commitUncle, if_neg hfree, if_neg (not_not.mpr hparent), if_neg hfamily]
      have hnew' : ∀ u ∈ possible, chain.hash u ∉ chain.hash uncle :: work.uncles := by
        intro u hu hmem
        rcases mem_cons.mp hmem with heq | hmem
        · exact hnot (heq ▸ mem_map_of_mem hu)
        · exact hnew u hu hmem
      rw [hcommit]
      dsimp only
      rw [selectUncles_eq (by simp; omega) hnodup hnew', filter_cons_of_pos hhangs,
        show 2 - uncles.length = 2 - (uncles ++ [uncle]).length + 1 by simp; omega,
        take_succ_cons, append_assoc]
      rfl
    · obtain ⟨e, hcommit⟩ : ∃ e, commitUncle chain work uncle = .error e := by
        simp only [Work.hangs, decide_eq_true_eq, not_and, not_not] at hhangs
        simp only [commitUncle, if_neg hfree]
        split
        · exact ⟨_, rfl⟩
        · rename_i hparent
          exact ⟨_, if_pos (hhangs (not_not.mp hparent))⟩
      rw [hcommit]
      dsimp only
      rw [selectUncles_eq hlen hnodup hnew, filter_cons_of_neg hhangs]

def newUncles (chain : ChainReader) (parent : Block) (possible : List Header) : List Header :=
  (selectUncles chain (makeCurrent chain parent) [] possible).1

theorem newUncles_eq (parent : Block) {possible : List Header}
    (hkeys : (possible.map chain.hash).Nodup) : newUncles chain parent possible =
      (possible.filter ((makeCurrent chain parent).hangs chain)).take 2 :=
  selectUncles_eq (Nat.zero_le _) hkeys fun _ _ => not_mem_nil

/-- **What the miner selects passes the verifier** if and only if none of the first two that hang is
a sibling of the new block. -/
theorem selected_pass_iff (p : Params) (verifySeal : Header → Except SealError Unit) (now : ℤ)
    (chain : ChainReader) (parent block : Block) (possible : List Header)
    (hnumber : chain.getBlockNumber (chain.hash parent.header) = low parent.header.number)
    (hhash : block.header.parentHash = chain.hash parent.header)
    (hnext : block.header.number = parent.header.number + 1)
    (huncles : block.uncles = newUncles chain parent possible)
    (hkeys : (possible.map chain.hash).Nodup)
    (hcollision : ∀ u ∈ possible, chain.hash u = chain.hash block.header → u = block.header)
    (hvalid : ∀ u ∈ possible, ∀ q ∈ ancestors chain block u.parentHash,
      verifyHeader p verifySeal now u q true true = .ok ()) :
    verifyUncles p verifySeal now chain block = .ok () ↔
      ∀ u ∈ (possible.filter ((makeCurrent chain parent).hangs chain)).take 2,
        u.parentHash ≠ chain.hash parent.header := by
  have hwindow : getBlocksFromHash chain (chain.hash parent.header) 7 = window chain block := by
    rw [window, hhash, hnext, low_succ_sub_one, getBlocksFromHash, hnumber]
  rw [verifyUncles, huncles, newUncles_eq parent hkeys,
    if_neg (not_lt.mpr (show _ ≤ maxUncles from length_take_le 2 _)), checkUncles_eq_ok]
  constructor
  · rintro ⟨-, h⟩ u hu
    obtain ⟨_, hf, -⟩ := h u hu
    exact hhash ▸ hf.not_sibling
  intro h
  refine ⟨hkeys.sublist (((take_sublist _ _).trans filter_sublist).map _), fun u hu => ?_⟩
  obtain ⟨hposs, hhangs⟩ := mem_filter.mp (mem_of_mem_take hu)
  obtain ⟨hparent, hfamily⟩ := of_decide_eq_true hhangs
  simp only [makeCurrent, hwindow, mem_flatMap, mem_append, mem_singleton] at hfamily
  simp only [makeCurrent, hwindow, mem_map] at hparent
  obtain ⟨a, ha, hahash⟩ := hparent
  have hown : chain.hash u ≠ chain.hash block.header := by
    intro heq
    apply h u hu
    rw [hcollision u hposs heq, hhash]
  obtain ⟨q, hq⟩ : ∃ q, ancestors chain block u.parentHash = some q := by
    apply Option.ne_none_iff_exists'.mp
    intro hnone
    exact ancestors_eq_none.mp hnone a (mem_append_left _ ha) hahash
  refine ⟨q, ⟨?_, ?_, hq, hhash ▸ h u hu⟩, hvalid u hposs q hq⟩
  · intro hmem
    rcases mem_append.mp hmem with hmem | hmem
    · obtain ⟨v, hv, heq⟩ := mem_map.mp hmem
      obtain ⟨c, hc, hvc⟩ := mem_flatMap.mp hv
      exact hfamily ⟨c, hc, .inl (heq ▸ mem_map_of_mem hvc)⟩
    · exact hown (mem_singleton.mp hmem)
  · apply ancestors_eq_none.mpr
    intro c hc heq
    rcases mem_append.mp hc with hc | hc
    · exact hfamily ⟨c, hc, .inr heq.symm⟩
    · cases mem_singleton.mp hc
      exact hown heq.symm

end Miner

def twoBlocks : List Block := [⟨named 2 1 1, []⟩, ⟨named 1 0 0, []⟩]

/-- Two siblings of block 2 are selected for a new block on it and pass; block 1 is dropped, and the
sibling of the new block comes too late. -/
theorem selected_pass_nephews :
    newUncles (storing twoBlocks) ⟨named 2 1 1, []⟩
      [named 1 0 0, named 4 1 1, named 5 1 1, named 6 2 2] = [named 4 1 1, named 5 1 1] ∧
    verifyUncles lowTarget anySeal 9 (storing twoBlocks)
      ⟨named 3 2 2, [named 4 1 1, named 5 1 1]⟩ = .ok () :=
  ⟨by decide +kernel, (selected_pass_iff lowTarget anySeal 9 (storing twoBlocks)
    ⟨named 2 1 1, []⟩ ⟨named 3 2 2, [named 4 1 1, named 5 1 1]⟩
    [named 1 0 0, named 4 1 1, named 5 1 1, named 6 2 2] (by decide +kernel) rfl rfl
    (by decide +kernel) (by decide +kernel) (by decide +kernel) (by decide +kernel)).mpr
      (by decide +kernel)⟩

/-- **A sibling of the new block is selected and refused** as dangling. -/
theorem sibling_refused :
    verifyHeader lowTarget anySeal 9 (named 4 2 2) (named 2 1 1) true true = .ok () ∧
    newUncles (storing twoBlocks) ⟨named 2 1 1, []⟩ [named 4 2 2] = [named 4 2 2] ∧
    verifyUncles lowTarget anySeal 9 (storing twoBlocks) ⟨named 3 2 2, [named 4 2 2]⟩ =
      .error .danglingUncle := by
  decide +kernel

end XChain.Ethash
