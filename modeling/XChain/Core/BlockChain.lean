import XChain.Core.HeaderChain

/-!
# Writing blocks

`WriteBlockAndState`, `reorg` and `insert` of `core/blockchain.go`. Each write asked of the database
or of a batch may fail: `fails k` says whether the `k`-th one does. A write the code checks with
`log.Crit` ends the process when it fails; the others are returned as errors. The batch is stored
when it is written; the total difficulty, the blocks a reorganisation inserts, their lookup entries
and the preimages are stored at once. So a reorganisation moves the head before the last writes that
can fail.

* **`writeBlockAndState_untouched_iff`**: an error leaves the chain as it was, whatever writes fail,
  unless the block reorganises the chain.
-/

namespace XChain

open List Option Function ChainDb Nat GoText
open HeaderChain (wins)

/-- The chain of blocks; `writes` counts the writes asked of the database so far. -/
structure BlockChain extends HeaderChain where
  currentBlock : Hash
  currentFastBlock : Hash
  writes : ℕ

inductive ChainError
  | unknownAncestor
  | stateCommit
  | invalidOldChain
  | invalidNewChain
  | lookupWrite
  | preimageWrite
  | batchWrite
deriving DecidableEq

namespace BlockChain

open ChainDb (Put)

variable (t : BlockTree) (fails : ℕ → Bool)

def start : BlockChain := ⟨HeaderChain.start t, t.genesis, t.genesis, 0⟩

/-! ## Writes -/

/-- Write records in order, up to the first failure; a record of a batch is not yet readable. -/
def putAll : List Put → BlockChain → BlockChain × Bool
  | [], bc => (bc, true)
  | p :: ps, bc =>
    if fails bc.writes then ({ bc with writes := bc.writes + 1 }, false)
    else putAll ps { bc with db := bc.db.put p, writes := bc.writes + 1 }

def mustPut (ps : List Put) (bc : BlockChain) : Option BlockChain :=
  match putAll fails ps bc with
  | (bc, true) => some bc
  | (_, false) => none

def writeBatch (ps : List Put) (bc : BlockChain) : BlockChain × Bool :=
  if fails bc.writes then ({ bc with writes := bc.writes + 1 }, false)
  else ({ bc with db := ps.foldl ChainDb.put bc.db, writes := bc.writes + 1 }, true)

def blockRecords (block : Hash) : List Put := [.body block, .unread, .header block, .unread]

def lookupEntries (block : Hash) : List Put :=
  (t.transactions block).zipIdx.map fun (tx, i) => .lookupEntry tx ⟨block, t.number block, i⟩

/-! ## The head -/

def updateHeads (block : Hash) (bc : BlockChain) : Option BlockChain :=
  (mustPut fails [.headHeaderHash block] bc).bind fun bc =>
    (mustPut fails [.headFastBlockHash block] { bc with currentHeader := block }).map fun bc =>
      { bc with currentFastBlock := block }

def insert (block : Hash) (forceUpdateHead : Bool) (bc : BlockChain) : Option BlockChain :=
  let update := decide (bc.db.getCanonicalHash (t.number block) ≠ block)
  (mustPut fails [.canonicalHash (t.number block) block, .headBlockHash block] bc).bind fun bc =>
    let bc := { bc with currentBlock := block }
    if update || forceUpdateHead then updateHeads fails block bc else some bc

/-! ## Reorganisation -/

def reduce (db : ChainDb) (n : ℕ) : ℕ → Hash → List Hash → Option (Hash × List Hash)
  | 0, block, chain => some (block, chain)
  | fuel + 1, block, chain =>
    if t.number block = n then some (block, chain)
    else
      (db.getBlock t (t.parentHash block) (Word64.sub (t.number block) 1)).bind fun parent =>
        reduce db n fuel parent (chain ++ [block])

def meet (db : ChainDb) :
    ℕ → Hash → Hash → List Hash → List Hash → Except ChainError (List Hash × List Hash)
  | 0, _, _, _, _ => .error .invalidOldChain
  | fuel + 1, old, new, oldChain, newChain =>
    if old = new then .ok (oldChain, newChain)
    else
      match db.getBlock t (t.parentHash old) (Word64.sub (t.number old) 1),
        db.getBlock t (t.parentHash new) (Word64.sub (t.number new) 1) with
      | none, _ => .error .invalidOldChain
      | some _, none => .error .invalidNewChain
      | some old', some new' => meet db fuel old' new' (oldChain ++ [old]) (newChain ++ [new])

/-- The blocks that leave the chain and those that join it, from the tips downwards. -/
def branches (db : ChainDb) (old new : Hash) : Except ChainError (List Hash × List Hash) :=
  if t.number new < t.number old then
    match reduce t db (t.number new) (t.number old - t.number new) old [] with
    | none => .error .invalidOldChain
    | some (old, oldChain) => meet t db (t.number old + 1) old new oldChain []
  else
    match reduce t db (t.number old) (t.number new - t.number old) new [] with
    | none => .error .invalidNewChain
    | some (new, newChain) => meet t db (t.number old + 1) old new [] newChain

def insertAll : List Hash → BlockChain → Option (BlockChain × Bool)
  | [], bc => some (bc, true)
  | block :: blocks, bc =>
    (insert t fails block false bc).bind fun bc =>
      match putAll fails (lookupEntries t block) bc with
      | (bc, true) => insertAll blocks bc
      | (bc, false) => some (bc, false)

def reorg (old new : Hash) (bc : BlockChain) : Option (BlockChain × Option ChainError) :=
  match branches t bc.db old new with
  | .error e => some (bc, some e)
  | .ok (oldChain, newChain) =>
    (insertAll t fails newChain bc).map fun
      | (bc, false) => (bc, some .lookupWrite)
      | (bc, true) =>
        let diff := t.txDifference (oldChain.flatMap t.transactions)
          (newChain.flatMap t.transactions)
        ({ bc with db := diff.foldl ChainDb.deleteTxLookupEntry bc.db }, none)

/-! ## Writing a block -/

def finish (block : Hash) (preimages : Bool) (bc : BlockChain) :
    Option (BlockChain × Except ChainError WriteStatus) :=
  match putAll fails ((t.transactions block).map fun _ => .unread) bc with
  | (bc, false) => some (bc, .error .lookupWrite)
  | (bc, true) =>
    match putAll fails (if preimages then [.unread] else []) bc with
    | (bc, false) => some (bc, .error .preimageWrite)
    | (bc, true) =>
      match writeBatch fails (blockRecords block ++ lookupEntries t block) bc with
      | (bc, false) => some (bc, .error .batchWrite)
      | (bc, true) => (insert t fails block false bc).map fun bc => (bc, .ok .canonStatTy)

/-- The block wins: reorganise the chain if the block is not on the head, then write it. -/
def adopt (block : Hash) (preimages : Bool) (bc : BlockChain) :
    Option (BlockChain × Except ChainError WriteStatus) :=
  if t.parentHash block = bc.currentBlock then finish t fails block preimages bc
  else
    (reorg t fails bc.currentBlock block bc).bind fun
      | (bc, some e) => some (bc, .error e)
      | (bc, none) => finish t fails block preimages bc

def setAside (block : Hash) (bc : BlockChain) : BlockChain × Except ChainError WriteStatus :=
  match writeBatch fails (blockRecords block) bc with
  | (bc, false) => (bc, .error .batchWrite)
  | (bc, true) => (bc, .ok .sideStatTy)

/-- `WriteBlockAndState`. The state either commits to the root in the header or not; `none` if the
process ends. -/
def writeBlockAndState (block : Hash) (coin commits preimages : Bool) (bc : BlockChain) :
    Option (BlockChain × Except ChainError WriteStatus) :=
  match bc.db.getTd t (t.parentHash block) (Word64.sub (t.number block) 1) with
  | none => some (bc, .error .unknownAncestor)
  | some ptd =>
    if bc.db.hasBlock t block (t.number block) then some (bc, .ok .nonStatTy)
    else
      let localTd := bc.db.getTd t bc.currentBlock (t.number bc.currentBlock)
      let externTd := t.difficulty block + ptd
      -- the total difficulty at once, then body, number and header into the batch
      (mustPut fails [.td block externTd, .unread, .unread, .unread] bc).bind fun bc =>
        if commits then
          (mustPut fails [.unread] bc).bind fun bc =>
            localTd.bind fun localTd =>
              if wins externTd localTd coin then adopt t fails block preimages bc
              else some (setAside fails block bc)
        else some (bc, .error .stateCommit)

/-- A call, with the coin toss and the writes that succeed. -/
structure Op where
  block : t.Child
  coin : Bool
  commits : Bool
  preimages : Bool

def step (bc : BlockChain) (op : Op t) : Option BlockChain :=
  (writeBlockAndState t fails op.block.hash op.coin op.commits op.preimages bc).map Prod.fst

variable {t fails} {bc bc' : BlockChain} {block : Hash} {bc₁ bc₂ bc₃ : BlockChain} {old new : Hash}
  {ps : List Put} {coin : Bool}

/-! ## Writes that do not fail -/

variable (fails) in
def Sound (bc : BlockChain) : Prop := ∀ k, bc.writes ≤ k → fails k = false

variable (fails) in
/-- No write between the two states fails. -/
def Clear (bc bc' : BlockChain) : Prop := ∀ k, bc.writes ≤ k → k < bc'.writes → fails k = false

def healthy : ℕ → Bool := fun _ => false

theorem sound_healthy (bc : BlockChain) : Sound healthy bc := fun _ _ => rfl

def written (ps : List Put) (bc : BlockChain) : BlockChain :=
  { bc with db := ps.foldl ChainDb.put bc.db, writes := bc.writes + ps.length }

theorem Sound.later (h : Sound fails bc) (hle : bc.writes ≤ bc'.writes) : Sound fails bc' :=
  fun k hk => h k (le_trans hle hk)

theorem Sound.written (h : Sound fails bc) (ps : List Put) : Sound fails (bc.written ps) :=
  h.later (le_add_right _ _)

theorem Sound.clear (h : Sound fails bc) : Clear fails bc bc' := fun k hk _ => h k hk

theorem Clear.left (h : Clear fails bc₁ bc₃) (hle : bc₂.writes ≤ bc₃.writes) :
    Clear fails bc₁ bc₂ := fun k hk hlt => h k hk (lt_of_lt_of_le hlt hle)

theorem Clear.right (h : Clear fails bc₁ bc₃) (hle : bc₁.writes ≤ bc₂.writes) :
    Clear fails bc₂ bc₃ := fun k hk => h k (le_trans hle hk)

theorem written_cons (p : Put) (ps : List Put) (bc : BlockChain) :
    written ps { bc with db := bc.db.put p, writes := bc.writes + 1 } = bc.written (p :: ps) := by
  simp only [written, foldl_cons, length_cons, add_assoc, add_comm 1]

theorem putAll_clear : ∀ (ps : List Put) {bc : BlockChain}, Clear fails bc (bc.written ps) →
    putAll fails ps bc = (bc.written ps, true)
  | [], _, _ => rfl
  | p :: ps, bc, h => by
    have hfirst : fails bc.writes = false := h _ le_rfl (Nat.lt_add_of_pos_right (Nat.succ_pos _))
    rw [← written_cons] at h ⊢
    rw [putAll, if_neg (Bool.eq_false_iff.mp hfirst), putAll_clear ps (h.right (le_succ _))]

theorem mustPut_clear (ps : List Put) (h : Clear fails bc (bc.written ps)) :
    mustPut fails ps bc = some (bc.written ps) := by
  rw [mustPut, putAll_clear ps h]

theorem putAll_eq : ∀ {ps : List Put} {bc : BlockChain}, putAll fails ps bc = (bc', true) →
    bc' = bc.written ps
  | [], _, h => by
    cases h
    rfl
  | p :: ps, bc, h => by
    rw [putAll] at h
    split at h
    · cases h
    · rw [← written_cons]
      exact putAll_eq h

theorem mustPut_eq (h : mustPut fails ps bc = some bc') : bc' = bc.written ps := by
  rw [mustPut] at h
  split at h
  · rename_i heq
    cases h
    exact putAll_eq heq
  · cases h

theorem writeBatch_sound (ps : List Put) (h : Sound fails bc) :
    ∃ bc', writeBatch fails ps bc = (bc', true) ∧ bc.writes ≤ bc'.writes ∧
      bc'.currentBlock = bc.currentBlock ∧ bc'.db = ps.foldl put bc.db := by
  rw [writeBatch, if_neg (Bool.eq_false_iff.mp (h _ le_rfl))]
  exact ⟨_, rfl, le_succ _, rfl, rfl⟩

/-- What is stored by hash is the same. -/
structure SameStore (bc bc' : BlockChain) : Prop where
  headers : bc'.db.headers = bc.db.headers
  bodies : bc'.db.bodies = bc.db.bodies
  td : bc'.db.td = bc.db.td

theorem SameStore.trans (h : SameStore bc₁ bc₂) (h' : SameStore bc₂ bc₃) : SameStore bc₁ bc₃ :=
  ⟨h'.headers.trans h.headers, h'.bodies.trans h.bodies, h'.td.trans h.td⟩

/-- What insert leaves. -/
structure Inserted (t : BlockTree) (block : Hash) (bc bc' : BlockChain) : Prop where
  writes_le : bc.writes ≤ bc'.writes
  store : SameStore bc bc'
  currentBlock : bc'.currentBlock = block
  canonical : bc'.db.canonical = bc.db.canonical.insert (t.number block) block
  lookups : bc'.db.lookups = bc.db.lookups

theorem updateHeads_clear (block : Hash) (bc : BlockChain) :
    ∃ bc', bc.writes ≤ bc'.writes ∧ bc'.currentBlock = bc.currentBlock ∧
      bc'.db = { bc.db with headHeaderHash := block, headFastBlockHash := block } ∧
      ∀ fails, Clear fails bc bc' → updateHeads fails block bc = some bc' := by
  refine ⟨{ written [.headFastBlockHash block]
    { bc.written [.headHeaderHash block] with currentHeader := block } with
      currentFastBlock := block }, le_add_right _ 2, rfl, rfl, fun fails h => ?_⟩
  rw [updateHeads, mustPut_clear _ (h.left (le_succ _)), bind_some,
    mustPut_clear _ (h.right (le_succ _))]
  rfl

variable (t) in
def headRecords (block : Hash) : List Put :=
  [.canonicalHash (t.number block) block, .headBlockHash block]

theorem insert_clear (t : BlockTree) (block : Hash) (force : Bool) (bc : BlockChain) :
    ∃ bc', Inserted t block bc bc' ∧
      ∀ fails, Clear fails bc bc' → insert t fails block force bc = some bc' := by
  obtain ⟨bc', hwrites, hcurrent, hdb, hrun⟩ := updateHeads_clear block
    { bc.written (headRecords t block) with currentBlock := block }
  have hle : (bc.written (headRecords t block)).writes ≤ bc'.writes := hwrites
  have hput : ∀ {fails bc''}, Clear fails bc bc'' →
      (bc.written (headRecords t block)).writes ≤ bc''.writes → mustPut fails
        [.canonicalHash (t.number block) block, .headBlockHash block] bc = _ :=
    fun h hle => mustPut_clear (headRecords t block) (h.left hle)
  by_cases hupdate : (decide (bc.db.getCanonicalHash (t.number block) ≠ block) || force) = true
  · refine ⟨bc', ⟨le_trans (le_add_right _ _) hle, ⟨?_, ?_, ?_⟩, hcurrent, ?_, ?_⟩,
      fun fails h => ?_⟩
    rotate_right
    · rw [insert, hput h hle, bind_some]
      exact (if_pos hupdate).trans (hrun fails (h.right (le_add_right _ _)))
    all_goals rw [hdb]; rfl
  · refine ⟨{ bc.written (headRecords t block) with currentBlock := block },
      ⟨le_add_right _ _, ⟨rfl, rfl, rfl⟩, rfl, rfl, rfl⟩, fun fails h => ?_⟩
    rw [insert, hput h le_rfl, bind_some]
    exact if_neg hupdate

variable (t) in
def enter (lookups : Hash → Option TxLookupEntry) (block : Hash) : Hash → Option TxLookupEntry :=
  (t.transactions block).zipIdx.foldl
    (fun lookups e => update lookups e.1 (some ⟨block, t.number block, e.2⟩)) lookups

theorem lookupEntries_put (t : BlockTree) (block : Hash) (db : ChainDb) :
    (lookupEntries t block).foldl put db =
      { db with lookups := enter t db.lookups block } := by
  rw [lookupEntries, enter]
  generalize (t.transactions block).zipIdx = entries
  induction entries generalizing db with
  | nil => rfl
  | cons e entries ih => exact ih (db.put (.lookupEntry e.1 ⟨block, t.number block, e.2⟩))

def forget (lookups : Hash → Option TxLookupEntry) (txs : List Hash) :
    Hash → Option TxLookupEntry :=
  fun tx => if tx ∈ txs then none else lookups tx

theorem deleteTxLookupEntry_forget : ∀ (txs : List Hash) (db : ChainDb),
    txs.foldl deleteTxLookupEntry db = { db with lookups := forget db.lookups txs }
  | [], _ => rfl
  | tx :: txs, db => by
    rw [foldl_cons, deleteTxLookupEntry_forget txs]
    have hforget : forget (update db.lookups tx none) txs =
        forget db.lookups (tx :: txs) := by
      funext h
      by_cases htx : h = tx
      · subst htx
        simp only [forget, update_self, ite_self, mem_cons_self, if_true]
      · simp only [forget, update_of_ne htx, mem_cons, htx, false_or]
    exact congrArg (fun lookups => ({ db with lookups := lookups } : ChainDb)) hforget

structure Replaced (t : BlockTree) (blocks : List Hash) (bc bc' : BlockChain) : Prop where
  writes_le : bc.writes ≤ bc'.writes
  store : SameStore bc bc'
  currentBlock : bc'.currentBlock = blocks.getLastD bc.currentBlock
  canonical : bc'.db.canonical =
    blocks.foldl (fun canonical b => canonical.insert (t.number b) b) bc.db.canonical

theorem insertAll_clear (t : BlockTree) : ∀ (blocks : List Hash) (bc : BlockChain),
    ∃ bc', Replaced t blocks bc bc' ∧ bc'.db.lookups = blocks.foldl (enter t) bc.db.lookups ∧
      ∀ fails, Clear fails bc bc' → insertAll t fails blocks bc = some (bc', true)
  | [], bc => ⟨bc, ⟨le_rfl, ⟨rfl, rfl, rfl⟩, rfl, rfl⟩, rfl, fun _ _ => rfl⟩
  | b :: blocks, bc => by
    obtain ⟨bc₁, h₁, hinsert⟩ := insert_clear t b false bc
    have hdb : (bc₁.written (lookupEntries t b)).db =
      { bc₁.db with lookups := enter t bc₁.db.lookups b } := lookupEntries_put t b bc₁.db
    have hstore : SameStore bc₁ (bc₁.written (lookupEntries t b)) := by
      refine ⟨?_, ?_, ?_⟩ <;> rw [hdb]
    obtain ⟨bc', h', hlookups, hrun⟩ := insertAll_clear t blocks (bc₁.written (lookupEntries t b))
    have hle : bc₁.writes ≤ bc'.writes := le_trans (le_add_right _ _) h'.writes_le
    refine ⟨bc', ⟨le_trans h₁.writes_le hle, h₁.store.trans (hstore.trans h'.store), ?_, ?_⟩, ?_,
      fun fails h => ?_⟩
    · rw [h'.currentBlock, getLastD_cons, ← h₁.currentBlock]
      rfl
    · rw [h'.canonical, hdb, foldl_cons, ← h₁.canonical]
    · rw [hlookups, hdb, foldl_cons, ← h₁.lookups]
    · have hrest := h.right h₁.writes_le
      rw [insertAll, hinsert fails (h.left hle), bind_some,
        putAll_clear (lookupEntries t b) (hrest.left h'.writes_le)]
      exact hrun fails (hrest.right (le_add_right _ _))

variable (t) in
def relocate (lookups : Hash → Option TxLookupEntry) (oldChain newChain : List Hash) :
    Hash → Option TxLookupEntry :=
  forget (newChain.foldl (enter t) lookups)
    (t.txDifference (oldChain.flatMap t.transactions) (newChain.flatMap t.transactions))

theorem reorg_clear {oldChain newChain : List Hash} (bc : BlockChain)
    (hbranches : branches t bc.db old new = .ok (oldChain, newChain)) :
    ∃ bc', Replaced t newChain bc bc' ∧
      bc'.db.lookups = relocate t bc.db.lookups oldChain newChain ∧
      ∀ fails, Clear fails bc bc' → reorg t fails old new bc = some (bc', none) := by
  obtain ⟨bc₁, h₁, hlookups, hrun⟩ := insertAll_clear t newChain bc
  refine ⟨{ bc₁ with db := { bc₁.db with lookups := relocate t bc.db.lookups oldChain newChain } },
    ⟨h₁.writes_le, ⟨h₁.store.headers, h₁.store.bodies, h₁.store.td⟩, h₁.currentBlock,
      h₁.canonical⟩, rfl, fun fails h => ?_⟩
  rw [reorg, hbranches]
  simp only
  rw [hrun fails h, map_some]
  simp only
  rw [deleteTxLookupEntry_forget, hlookups]
  rfl

structure Extended (t : BlockTree) (block : Hash) (bc bc' : BlockChain) : Prop where
  currentBlock : bc'.currentBlock = block
  canonical : bc'.db.canonical = bc.db.canonical.insert (t.number block) block
  bodies : bc'.db.bodies = Insert.insert block bc.db.bodies
  td : bc'.db.td = bc.db.td
  lookups : bc'.db.lookups = enter t bc.db.lookups block

theorem unread_put : ∀ (l : List Hash) (db : ChainDb), (l.map fun _ => Put.unread).foldl put db = db
  | [], _ => rfl
  | _ :: l, db => unread_put l db

theorem finish_sound (t : BlockTree) (block : Hash) (preimages : Bool) (h : Sound fails bc) :
    ∃ bc', finish t fails block preimages bc = some (bc', .ok .canonStatTy) ∧
      Extended t block bc bc' := by
  set entries : List Put := (t.transactions block).map fun _ => .unread with hentries
  set images : List Put := if preimages then [.unread] else [] with himages
  have h₁ := h.written entries
  have h₂ := h₁.written images
  have hdb : ((bc.written entries).written images).db = bc.db := by
    change images.foldl put (entries.foldl put bc.db) = bc.db
    rw [hentries, unread_put, himages]
    cases preimages <;> rfl
  obtain ⟨bc₁, hwrite, hle, -, hdb₁⟩ :=
    writeBatch_sound (blockRecords block ++ lookupEntries t block) h₂
  rw [hdb, foldl_append, lookupEntries_put] at hdb₁
  obtain ⟨bc', h', hrun⟩ := insert_clear t block false bc₁
  refine ⟨bc', ?_, h'.currentBlock, ?_, ?_, ?_, ?_⟩
  · rw [finish, putAll_clear entries h.clear]
    simp only
    rw [putAll_clear images h₁.clear]
    simp only
    rw [hwrite]
    simp only
    rw [hrun fails (h₂.later hle).clear, map_some]
  · rw [h'.canonical, hdb₁]
    rfl
  · rw [h'.store.bodies, hdb₁]
    rfl
  · rw [h'.store.td, hdb₁]
    rfl
  · rw [h'.lookups, hdb₁]
    rfl

/-! ## Calls without a failing write -/

structure SameHead (bc bc' : BlockChain) : Prop where
  currentBlock : bc'.currentBlock = bc.currentBlock
  canonical : bc'.db.canonical = bc.db.canonical
  lookups : bc'.db.lookups = bc.db.lookups

structure Stored (block : Hash) (bc bc' : BlockChain) : Prop where
  bodies : bc'.db.bodies = Insert.insert block bc.db.bodies
  td : ∃ td, bc'.db.td = update bc.db.td block (some td)

variable (t) in
/-- The block is new, and its total difficulty is above that of the current block, or equal and the
coin decides for it. -/
def Wins (bc : BlockChain) (block : Hash) (coin : Bool) : Prop :=
  block ∉ bc.db.bodies ∧ ∃ ptd localTd, bc.db.td (t.parentHash block) = some ptd ∧
    bc.db.td bc.currentBlock = some localTd ∧
    wins (t.difficulty block + ptd) localTd coin = true

variable (t) in
def Loses (bc : BlockChain) (block : Hash) (coin : Bool) : Prop :=
  ∀ ptd localTd, bc.db.td (t.parentHash block) = some ptd →
    bc.db.td bc.currentBlock = some localTd →
    t.difficulty block + ptd < localTd ∨ t.difficulty block + ptd = localTd ∧ coin = false

theorem wins_eq_false {externTd localTd : ℤ}
    (h : externTd < localTd ∨ externTd = localTd ∧ coin = false) :
    wins externTd localTd coin = false := by
  rw [wins, Bool.or_eq_false_iff, Bool.and_eq_false_iff, decide_eq_false_iff_not,
    decide_eq_false_iff_not]
  rcases h with h | ⟨h, hcoin⟩
  · exact ⟨by omega, .inl (by omega)⟩
  · exact ⟨by omega, .inr hcoin⟩

theorem Wins.not_loses (h : Wins t bc block coin) : ¬ Loses t bc block coin := by
  obtain ⟨-, ptd, localTd, hptd, hlocal, hwins⟩ := h
  intro hloses
  rw [wins_eq_false (hloses ptd localTd hptd hlocal)] at hwins
  cases hwins

/-- The block becomes the head, over numbers and entries that are already rewritten. -/
structure Adopted (t : BlockTree) (block : Hash) (canonical : AList fun _ : ℕ => Hash)
    (lookups : Hash → Option TxLookupEntry) (bc bc' : BlockChain) : Prop where
  stored : Stored block bc bc'
  currentBlock : bc'.currentBlock = block
  canonical : bc'.db.canonical = canonical.insert (t.number block) block
  lookups : bc'.db.lookups = enter t lookups block

/-- The ways a call can end. -/
inductive Outcome (t : BlockTree) (bc : BlockChain) (block : Hash) (coin : Bool) : BlockChain → Prop
  /-- Only a total difficulty may be written. -/
  | kept {bc' : BlockChain} (head : SameHead bc bc') (bodies : bc'.db.bodies = bc.db.bodies)
      (td : ∀ h, (bc.db.td h).isSome → (bc'.db.td h).isSome) : Outcome t bc block coin bc'
  | aside {bc' : BlockChain} (head : SameHead bc bc') (stored : Stored block bc bc') :
      Outcome t bc block coin bc'
  | extended {bc' : BlockChain} (won : Wins t bc block coin)
      (parent : t.parentHash block = bc.currentBlock)
      (adopted : Adopted t block bc.db.canonical bc.db.lookups bc bc') : Outcome t bc block coin bc'
  | reorganised {bc' : BlockChain} (td : ℤ) (oldChain newChain : List Hash)
      (won : Wins t bc block coin)
      (chains : branches t (bc.db.put (.td block td)) bc.currentBlock block =
        .ok (oldChain, newChain))
      (adopted : Adopted t block
        (newChain.foldl (fun canonical b => canonical.insert (t.number b) b) bc.db.canonical)
        (relocate t bc.db.lookups oldChain newChain) bc bc') : Outcome t bc block coin bc'

theorem isSome_update {td : Hash → Option ℤ} {v : ℤ} {h : Hash} (hsome : (td h).isSome) :
    (update td block (some v) h).isSome := by
  rw [update_apply]
  split
  · rfl
  · exact hsome

theorem adopt_outcome {bc₁ : BlockChain} {coin preimages : Bool} {td : ℤ} (hsound : Sound fails bc₁)
    (hwins : Wins t bc block coin) (hcurrent : bc₁.currentBlock = bc.currentBlock)
    (hdb : bc₁.db = bc.db.put (.td block td)) :
    ∃ bc' r, adopt t fails block preimages bc₁ = some (bc', r) ∧ Outcome t bc block coin bc' := by
  rw [adopt, hcurrent]
  split
  case isTrue hparent =>
    obtain ⟨bc', hrun, h'⟩ := finish_sound t block preimages hsound
    refine ⟨bc', _, hrun, .extended hwins hparent ⟨⟨?_, td, ?_⟩, h'.currentBlock, ?_, ?_⟩⟩
    · rw [h'.bodies, hdb]
      rfl
    · rw [h'.td, hdb]
      rfl
    · rw [h'.canonical, hdb]
      rfl
    · rw [h'.lookups, hdb]
      rfl
  case isFalse hparent =>
    cases hb : branches t bc₁.db bc.currentBlock block with
    | error e =>
      -- the chain is left as it is
      refine ⟨bc₁, .error e, ?_, .kept ⟨hcurrent, ?_, ?_⟩ ?_ ?_⟩
      · rw [reorg, hb]
        rfl
      · rw [hdb]
        rfl
      · rw [hdb]
        rfl
      · rw [hdb]
        rfl
      · intro h hsome
        rw [hdb]
        exact isSome_update hsome
    | ok chains =>
      obtain ⟨bc₂, h₂, hlookups, hreorg⟩ := reorg_clear bc₁ hb
      obtain ⟨bc', hrun, h'⟩ := finish_sound t block preimages (hsound.later h₂.writes_le)
      refine ⟨bc', .ok .canonStatTy, ?_, .reorganised td chains.1 chains.2 hwins ?_
        ⟨⟨?_, td, ?_⟩, h'.currentBlock, ?_, ?_⟩⟩
      · rw [hreorg fails hsound.clear, bind_some]
        exact hrun
      · rw [← hdb]
        exact hb
      · rw [h'.bodies, h₂.store.bodies, hdb]
        rfl
      · rw [h'.td, h₂.store.td, hdb]
        rfl
      · rw [h'.canonical, h₂.canonical, hdb]
        rfl
      · rw [h'.lookups, hlookups, hdb]
        rfl

/-- **Without a failing write every call returns** and does one of four things. -/
theorem writeBlockAndState_outcome (t : BlockTree) (block : Hash) (coin commits preimages : Bool)
    (hsound : Sound fails bc) (hcurrent : (bc.db.td bc.currentBlock).isSome) :
    ∃ bc' r, writeBlockAndState t fails block coin commits preimages bc = some (bc', r) ∧
      Outcome t bc block coin bc' := by
  obtain ⟨localTd, hlocal⟩ := isSome_iff_exists.mp hcurrent
  rw [writeBlockAndState]
  split
  case h_1 =>
    exact ⟨bc, _, rfl, .kept ⟨rfl, rfl, rfl⟩ rfl fun _ h => h⟩
  case h_2 ptd hptd =>
    split
    case isTrue => exact ⟨bc, _, rfl, .kept ⟨rfl, rfl, rfl⟩ rfl fun _ h => h⟩
    case isFalse hnew =>
      have hnew : block ∉ bc.db.bodies := by
        rw [hasBlock, decide_eq_true_eq] at hnew
        exact fun hmem => hnew ⟨rfl, hmem⟩
      set td := t.difficulty block + ptd with htd
      have hsound₁ := hsound.written [.td block td, .unread, .unread, .unread]
      simp only
      rw [mustPut_clear _ hsound.clear, bind_some]
      split
      case isFalse =>
        exact ⟨_, _, rfl, .kept ⟨rfl, rfl, rfl⟩ rfl fun _ h => isSome_update h⟩
      case isTrue =>
        have hsound₂ := hsound₁.written [.unread]
        rw [mustPut_clear _ hsound₁.clear, bind_some, getTd_self, hlocal, bind_some]
        split
        case isTrue hwins =>
          have hwon : Wins t bc block coin := ⟨hnew, ptd, localTd, td_of_getTd hptd, hlocal, hwins⟩
          exact adopt_outcome hsound₂ hwon rfl rfl
        case isFalse =>
          obtain ⟨bc', hwrite, -, hbc', hdb⟩ := writeBatch_sound (blockRecords block) hsound₂
          rw [setAside, hwrite]
          refine ⟨bc', _, rfl, .aside ⟨hbc', ?_, ?_⟩ ⟨?_, td, ?_⟩⟩
          all_goals rw [hdb]; rfl

/-! ## Errors -/

/-- The head and the canonical chain are as they were. -/
structure Untouched (bc bc' : BlockChain) : Prop where
  currentBlock : bc'.currentBlock = bc.currentBlock
  headBlockHash : bc'.db.headBlockHash = bc.db.headBlockHash
  canonical : bc'.db.canonical = bc.db.canonical

theorem Untouched.refl (bc : BlockChain) : Untouched bc bc := ⟨rfl, rfl, rfl⟩

theorem Untouched.trans (h : Untouched bc₁ bc₂) (h' : Untouched bc₂ bc₃) : Untouched bc₁ bc₃ :=
  ⟨h'.currentBlock.trans h.currentBlock, h'.headBlockHash.trans h.headBlockHash,
    h'.canonical.trans h.canonical⟩

/-- Records other than canonical numbers and the head block. -/
def Aside (p : Put) : Prop :=
  ∀ db : ChainDb, (db.put p).headBlockHash = db.headBlockHash ∧ (db.put p).canonical = db.canonical

theorem aside_unread : Aside .unread := fun _ => ⟨rfl, rfl⟩

theorem putAll_untouched : ∀ {ps : List Put} {bc : BlockChain}, (∀ p ∈ ps, Aside p) →
    Untouched bc (putAll fails ps bc).1
  | [], bc, _ => .refl bc
  | p :: ps, bc, h => by
    rw [putAll]
    split
    · exact ⟨rfl, rfl, rfl⟩
    · obtain ⟨hhead, hcanonical⟩ := h p mem_cons_self bc.db
      have hput : Untouched bc { bc with db := bc.db.put p, writes := bc.writes + 1 } :=
        ⟨rfl, hhead, hcanonical⟩
      exact hput.trans (putAll_untouched fun q hq => h q (mem_cons_of_mem p hq))

theorem writeBatch_untouched (h : writeBatch fails ps bc = (bc', false)) : Untouched bc bc' := by
  rw [writeBatch] at h
  split at h
  · cases h
    exact ⟨rfl, rfl, rfl⟩
  · cases h

variable {e : ChainError} {preimages : Bool}

theorem setAside_untouched (h : setAside fails block bc = (bc', .error e)) : Untouched bc bc' := by
  rw [setAside] at h
  split at h
  · rename_i heq
    cases h
    exact writeBatch_untouched heq
  · cases h

theorem finish_untouched (h : finish t fails block preimages bc = some (bc', .error e)) :
    Untouched bc bc' := by
  have hentries : Untouched bc
      (putAll fails ((t.transactions block).map fun _ => Put.unread) bc).1 := by
    refine putAll_untouched fun p hp => ?_
    obtain ⟨_, _, rfl⟩ := mem_map.mp hp
    exact aside_unread
  have himages : ∀ bc : BlockChain,
      Untouched bc (putAll fails (if preimages then [Put.unread] else []) bc).1 := by
    intro bc
    refine putAll_untouched fun p hp => ?_
    cases preimages with
    | false => cases hp
    | true => exact mem_singleton.mp hp ▸ aside_unread
  rw [finish] at h
  split at h
  case h_1 bc₁ heq =>
    rw [heq] at hentries
    cases h
    exact hentries
  case h_2 bc₁ heq =>
    rw [heq] at hentries
    have himages := himages bc₁
    split at h
    case h_1 bc₂ heq =>
      rw [heq] at himages
      cases h
      exact hentries.trans himages
    case h_2 bc₂ heq =>
      rw [heq] at himages
      split at h
      case h_1 bc₃ heq =>
        cases h
        exact (hentries.trans himages).trans (writeBatch_untouched heq)
      case h_2 bc₃ heq =>
        obtain ⟨_, _, hr⟩ := map_eq_some_iff.mp h
        cases hr

/-! ## Reorganisations -/

section Branches

variable {db db' : ChainDb}

theorem reduce_spec {n : ℕ} : ∀ {fuel : ℕ} {b b' : Hash} {chain chain' : List Hash},
    t.number b = n + fuel → reduce t db n fuel b chain = some (b', chain') →
      t.number b' = n ∧ ∀ x ∈ chain', x ∈ chain ∨ n < t.number x
  | 0, b, _, _, _, hn, h => by
    cases h
    exact ⟨hn, fun x hx => .inl hx⟩
  | fuel + 1, b, b', chain, chain', hn, h => by
    rw [reduce, if_neg (by omega)] at h
    obtain ⟨p, hget, h⟩ := bind_eq_some_iff.mp h
    obtain ⟨rfl, -, hp⟩ := mem_of_getBlock hget
    rw [Word64.sub_of_le (by omega) (BlockTree.number_lt b)] at hp
    obtain ⟨hb', hchain⟩ := reduce_spec (by omega) h
    refine ⟨hb', fun x hx => ?_⟩
    rcases hchain x hx with hx | hx
    · rcases mem_append.mp hx with hx | hx
      · exact .inl hx
      · rw [mem_singleton.mp hx]
        exact .inr (by omega)
    · exact .inr hx

/-- The blocks that join the chain are below the first one, or it is one of them. -/
theorem meet_spec : ∀ {fuel : ℕ} {old new : Hash} {chain₁ chain₂ chain₁' chain₂' : List Hash},
    fuel ≤ t.number new + 1 →
    meet t db fuel old new chain₁ chain₂ = .ok (chain₁', chain₂') → ∀ x ∈ chain₂',
      x ∈ chain₂ ∨ x = new ∧ old ≠ new ∨ t.number x < t.number new
  | fuel + 1, old, new, chain₁, chain₂, chain₁', chain₂', hfuel, h => by
    rw [meet] at h
    split at h
    case isTrue =>
      cases h
      exact fun x hx => .inl hx
    case isFalse hne =>
      split at h
      case h_1 => cases h
      case h_2 => cases h
      case h_3 old' new' _ hget =>
        obtain ⟨rfl, -, hnumber⟩ := mem_of_getBlock hget
        intro x hx
        have hfuel' : 0 < fuel := by
          by_contra h0
          rw [Nat.eq_zero_of_not_pos h0] at h
          cases h
        rw [Word64.sub_of_le (by omega) (BlockTree.number_lt new)] at hnumber
        rcases meet_spec (by omega) h x hx with hx | ⟨rfl, -⟩ | hx
        · rcases mem_append.mp hx with hx | hx
          · exact .inl hx
          · exact .inr (.inl ⟨mem_singleton.mp hx, hne⟩)
        · exact .inr (.inr (by omega))
        · exact .inr (.inr (by omega))

/-- **The old head does not join the chain.** -/
theorem branches_ne {oldChain newChain : List Hash}
    (h : branches t db old new = .ok (oldChain, newChain)) : ∀ x ∈ newChain, x ≠ old := by
  rw [branches] at h
  intro x hx
  split at h
  case isTrue hlt =>
    split at h
    case h_1 => cases h
    case h_2 old' chain hreduce =>
      obtain ⟨hnumber, -⟩ := reduce_spec (by omega) hreduce
      rcases meet_spec (by omega) h x hx with hx | ⟨rfl, -⟩ | hx
      · cases hx
      · rintro rfl
        omega
      · rintro rfl
        omega
  case isFalse hle =>
    split at h
    case h_1 => cases h
    case h_2 new' chain hreduce =>
      obtain ⟨hnumber, hchain⟩ := reduce_spec (by omega) hreduce
      rcases meet_spec (by omega) h x hx with hx | ⟨rfl, hne⟩ | hx
      · rcases hchain x hx with hx | hx
        · cases hx
        · rintro rfl
          omega
      · exact hne.symm
      · rintro rfl
        omega

theorem getBlock_td (block : Hash) (td : ℤ) :
    (db.put (.td block td)).getBlock t = db.getBlock t := rfl

theorem reduce_td (td : ℤ) (n fuel : ℕ) (b : Hash) (chain : List Hash) :
    reduce t (db.put (.td block td)) n fuel b chain = reduce t db n fuel b chain := by
  induction fuel generalizing b chain with
  | zero => rfl
  | succ fuel ih => simp only [reduce, getBlock_td, ih]

theorem meet_td (td : ℤ) (fuel : ℕ) (old new : Hash) (chain₁ chain₂ : List Hash) :
    meet t (db.put (.td block td)) fuel old new chain₁ chain₂ =
      meet t db fuel old new chain₁ chain₂ := by
  induction fuel generalizing old new chain₁ chain₂ with
  | zero => rfl
  | succ fuel ih => simp only [meet, getBlock_td, ih]

/-- The walk to the common block does not read total difficulties. -/
theorem branches_td (td : ℤ) :
    branches t (db.put (.td block td)) old new = branches t db old new := by
  simp only [branches, reduce_td, meet_td]

end Branches

variable (t) in
/-- The state of the block commits, the block is one above its parent and wins, and it is on a
branch that joins the chain. -/
def Reorganises (bc : BlockChain) (block : Hash) (coin commits : Bool) : Prop :=
  commits = true ∧ t.number (t.parentHash block) = Word64.sub (t.number block) 1 ∧
    Wins t bc block coin ∧ t.parentHash block ≠ bc.currentBlock ∧
    ∃ oldChain newChain, newChain ≠ [] ∧
      branches t bc.db bc.currentBlock block = .ok (oldChain, newChain)

theorem adopt_untouched (hchains : t.parentHash block = bc.currentBlock ∨ ∀ oldChain newChain,
      branches t bc.db bc.currentBlock block = .ok (oldChain, newChain) → newChain = [])
    (h : adopt t fails block preimages bc = some (bc', .error e)) : Untouched bc bc' := by
  rw [adopt] at h
  split at h
  case isTrue => exact finish_untouched h
  case isFalse hparent =>
    obtain ⟨⟨bc₁, e'⟩, hreorg, h⟩ := bind_eq_some_iff.mp h
    rw [reorg] at hreorg
    split at hreorg
    case h_1 =>
      cases hreorg
      cases h
      exact .refl bc
    case h_2 oldChain newChain hb =>
      -- nothing is inserted, only lookup entries are deleted
      obtain rfl := hchains.resolve_left hparent oldChain newChain hb
      cases hreorg
      have hfinish := finish_untouched h
      rw [deleteTxLookupEntry_forget] at hfinish
      exact ⟨hfinish.currentBlock, hfinish.headBlockHash, hfinish.canonical⟩

theorem untouched_of_not_reorganises {commits : Bool} (hnot : ¬ Reorganises t bc block coin commits)
    (h : writeBlockAndState t fails block coin commits preimages bc = some (bc', .error e)) :
    Untouched bc bc' := by
  rw [writeBlockAndState] at h
  split at h
  case h_1 =>
    cases h
    exact .refl bc
  case h_2 ptd hptd =>
    split at h
    case isTrue => cases h
    case isFalse hnew =>
      obtain ⟨bc₁, hput, h⟩ := bind_eq_some_iff.mp h
      obtain rfl := mustPut_eq hput
      split at h
      case isFalse =>
        cases h
        exact ⟨rfl, rfl, rfl⟩
      case isTrue hcommits =>
        obtain ⟨bc₁, hput, h⟩ := bind_eq_some_iff.mp h
        obtain rfl := mustPut_eq hput
        have hsame : Untouched bc (written [.unread]
            (bc.written [.td block (t.difficulty block + ptd), .unread, .unread, .unread])) :=
          ⟨rfl, rfl, rfl⟩
        obtain ⟨localTd, hlocal, h⟩ := bind_eq_some_iff.mp h
        split at h
        case isFalse =>
          exact hsame.trans (setAside_untouched (some.inj h))
        case isTrue hwins =>
          refine hsame.trans (adopt_untouched (or_iff_not_imp_left.mpr fun hparent => ?_) h)
          intro oldChain newChain hb
          by_contra hne
          rw [hasBlock, decide_eq_true_eq] at hnew
          refine hnot ⟨hcommits, number_of_getTd hptd, ⟨fun hmem => hnew ⟨rfl, hmem⟩, ptd, localTd,
            td_of_getTd hptd, td_of_getTd hlocal, hwins⟩, hparent, oldChain, newChain, hne, ?_⟩
          exact (branches_td _).symm.trans hb

theorem finish_fails (t : BlockTree) (block : Hash) (preimages : Bool)
    (hfails : fails bc.writes = true) :
    ∃ bc' e, finish t fails block preimages bc = some (bc', .error e) := by
  rw [finish]
  cases t.transactions block <;> cases preimages <;> simp [putAll, writeBatch, hfails]

theorem mem_of_getLastD {blocks : List Hash} (h : blocks ≠ []) (b : Hash) :
    blocks.getLastD b ∈ blocks := by
  rw [getLastD_eq_getLast?, getLast?_eq_some_getLast h]
  exact getLast_mem h

/-- If the writes fail once the chain is reorganised, the head has moved. -/
theorem Reorganises.moves {commits : Bool} (h : Reorganises t bc block coin commits)
    (preimages : Bool) : ∃ fails bc' e,
      writeBlockAndState t fails block coin commits preimages bc = some (bc', .error e) ∧
        bc'.currentBlock ≠ bc.currentBlock := by
  obtain ⟨rfl, hnumber, ⟨hnew, ptd, localTd, hptd, hlocal, hwins⟩, hparent, oldChain, newChain, hne,
    hb⟩ := h
  obtain ⟨bc₂, h₂, -, hreorg⟩ := reorg_clear (written [.unread]
    (bc.written [.td block (t.difficulty block + ptd), .unread, .unread, .unread]))
    ((branches_td (t.difficulty block + ptd)).trans hb)
  obtain ⟨fails, hfails⟩ : ∃ fails : ℕ → Bool, ∀ k, fails k = decide (bc₂.writes ≤ k) :=
    ⟨_, fun _ => rfl⟩
  have hclear : ∀ {bc bc' : BlockChain}, bc'.writes ≤ bc₂.writes → Clear fails bc bc' :=
    fun hle k _ hk => (hfails k).trans (decide_eq_false (by omega))
  obtain ⟨bc', e, hfinish⟩ : ∃ bc' e, finish t fails block preimages bc₂ = some (bc', .error e) :=
    finish_fails t block preimages ((hfails _).trans (decide_eq_true le_rfl))
  refine ⟨fails, bc', e, ?_, ?_⟩
  · have hgetTd : bc.db.getTd t (t.parentHash block) (Word64.sub (t.number block) 1) = some ptd :=
      (if_pos hnumber).trans hptd
    have hstored : ¬ bc.db.hasBlock t block (t.number block) = true := by
      simpa [hasBlock] using hnew
    rw [writeBlockAndState, hgetTd]
    simp only
    rw [if_neg hstored, mustPut_clear _ (hclear (le_trans (le_succ _) h₂.writes_le)),
      bind_some, if_pos trivial, mustPut_clear _ (hclear h₂.writes_le), bind_some, getTd_self,
      hlocal, bind_some, if_pos hwins, adopt]
    refine (if_neg hparent).trans ?_
    exact bind_eq_some_iff.mpr ⟨_, hreorg fails (hclear le_rfl), hfinish⟩
  · rw [(finish_untouched hfinish).currentBlock, h₂.currentBlock]
    exact branches_ne hb _ (mem_of_getLastD hne _)

/-- **An error leaves the chain as it was**, whatever writes fail, unless the block reorganises the
chain; then some writes can fail so that it does not. -/
theorem writeBlockAndState_untouched_iff (t : BlockTree) (bc : BlockChain) (block : Hash)
    (coin commits preimages : Bool) :
    (∀ fails bc' e,
      writeBlockAndState t fails block coin commits preimages bc = some (bc', .error e) →
        bc'.currentBlock = bc.currentBlock ∧ bc'.db.headBlockHash = bc.db.headBlockHash ∧
          ∀ n, bc'.db.getCanonicalHash n = bc.db.getCanonicalHash n) ↔
      ¬ Reorganises t bc block coin commits := by
  constructor
  · intro h hreorganises
    obtain ⟨fails, bc', e, hrun, hmoved⟩ := hreorganises.moves preimages
    exact hmoved (h fails bc' e hrun).1
  · intro hnot fails bc' e hrun
    have hsame : Untouched bc bc' := untouched_of_not_reorganises hnot hrun
    refine ⟨hsame.currentBlock, hsame.headBlockHash, fun n => ?_⟩
    rw [getCanonicalHash, getCanonicalHash, hsame.canonical]

open HeaderChain (forkTree hashOf second third)

/-! ## A write that fails in a reorganisation -/

def straight : List (Op forkTree) :=
  [⟨second, false, true, false⟩, ⟨third, false, true, false⟩]

/-- The chain is reorganised to block 4, then the batch with the block is not written. -/
theorem batchWrite_moves_head :
    ∃ bc bc', StepMachine.run (step forkTree fun k => decide (k = 29)) (start forkTree) straight =
        some bc ∧
      writeBlockAndState forkTree (fun k => decide (k = 29)) (hashOf 4) true true false bc =
        some (bc', .error .batchWrite) ∧
      (bc.currentBlock = hashOf 3 ∧ bc'.currentBlock = hashOf 4) ∧
      (bc.db.headBlockHash = hashOf 3 ∧ bc'.db.headBlockHash = hashOf 4) ∧
      (bc.db.getCanonicalHash 2 = hashOf 3 ∧ bc'.db.getCanonicalHash 2 = hashOf 4) ∧
      hashOf 4 ∉ bc'.db.bodies := by
  obtain ⟨bc, hrun, h⟩ : ∃ bc, StepMachine.run (step forkTree fun k => decide (k = 29))
      (start forkTree) straight = some bc ∧
      (writeBlockAndState forkTree (fun k => decide (k = 29)) (hashOf 4) true true false
        bc).any fun r : BlockChain × Except ChainError WriteStatus => decide (
          r.2 = .error .batchWrite ∧
          (bc.currentBlock = hashOf 3 ∧ r.1.currentBlock = hashOf 4) ∧
          (bc.db.headBlockHash = hashOf 3 ∧ r.1.db.headBlockHash = hashOf 4) ∧
          (bc.db.getCanonicalHash 2 = hashOf 3 ∧ r.1.db.getCanonicalHash 2 = hashOf 4) ∧
          hashOf 4 ∉ r.1.db.bodies) :=
    StepMachine.exists_run (by decide +kernel) fun _ => by decide +kernel
  obtain ⟨⟨bc', r⟩, hwrite, hr⟩ := (any_eq_true _ _).mp h
  obtain ⟨rfl, hmoved⟩ := of_decide_eq_true hr
  exact ⟨bc, bc', hrun, hwrite, hmoved⟩

end BlockChain

end XChain
