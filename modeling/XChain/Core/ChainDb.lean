import XChain.Lib.Ancestry
import XChain.Lib.Text
import XChain.Lib.Word

/-!
# The chain database

What `core/database_util.go` keeps of the chain. The records that nothing here reads (receipts,
preimages, the number of a hash) are written and forgotten.

A header or a block is named by its hash, and a `BlockTree` says what the hashes stand for, so that
two blocks never share one. The caches in front of the database answer as the database does for the
blocks of a tree, and they are left out.
-/

namespace XChain

open Word64 Function GoText

/-- `common.Hash{}`, the answer for what is not stored. -/
def zeroHash : Hash := .fill 0

structure Header where
  parentHash : Hash
  number : ℕ
  difficulty : ℤ
  number_lt : number < Word64.size

structure Block extends Header where
  transactions : List Hash

/-- The blocks the hashes stand for, and the genesis block; `txDifference` is
`types.TxDifference`. -/
structure BlockTree where
  block : Hash → Block
  genesis : Hash
  txDifference : List Hash → List Hash → List Hash
  genesis_ne_zero : genesis ≠ zeroHash
  genesis_number : (block genesis).number = 0
  genesis_transactions : (block genesis).transactions = []
  mem_txDifference : ∀ a b tx, tx ∈ txDifference a b ↔ tx ∈ a ∧ tx ∉ b

namespace BlockTree

variable (t : BlockTree)

def parentHash (hash : Hash) : Hash := (t.block hash).parentHash

def number (hash : Hash) : ℕ := (t.block hash).number

def difficulty (hash : Hash) : ℤ := (t.block hash).difficulty

def transactions (hash : Hash) : List Hash := (t.block hash).transactions

def ancestor (hash : Hash) (n : ℕ) : Hash := Ancestry.ancestor t.parentHash t.number hash n

def totalDifficulty (hash : Hash) : ℤ :=
  Ancestry.total t.parentHash t.number t.difficulty hash

def path (hash : Hash) (n : ℕ) : List Hash := Ancestry.path t.parentHash t.number hash n

def Rooted (blocks : Finset Hash) : Prop :=
  Ancestry.Rooted t.parentHash t.number t.genesis blocks

def Connected (blocks : Finset Hash) (hash : Hash) : Prop :=
  Ancestry.Connected t.parentHash t.number t.genesis blocks hash

/-- A block one above its parent; no block has the zero hash. -/
structure Child where
  hash : Hash
  hash_ne_zero : hash ≠ zeroHash
  number_eq : t.number hash = t.number (t.parentHash hash) + 1

variable {t}

theorem number_lt (hash : Hash) : t.number hash < size := (t.block hash).number_lt

theorem sub_number {hash : Hash} (h : t.number hash = t.number (t.parentHash hash) + 1) :
    sub (t.number hash) 1 = t.number (t.parentHash hash) := by
  rw [sub_of_le (by omega) (number_lt hash)]
  omega

end BlockTree

structure TxLookupEntry where
  blockHash : Hash
  blockIndex : ℕ
  index : ℕ
deriving DecidableEq

structure ChainDb where
  headers : Finset Hash
  bodies : Finset Hash
  td : Hash → Option ℤ
  canonical : AList fun _ : ℕ => Hash
  lookups : Hash → Option TxLookupEntry
  headHeaderHash : Hash
  headBlockHash : Hash
  headFastBlockHash : Hash

inductive WriteStatus
  | nonStatTy
  | canonStatTy
  | sideStatTy
deriving DecidableEq

namespace ChainDb

variable (t : BlockTree) (db : ChainDb)

def getCanonicalHash (number : ℕ) : Hash := (db.canonical.lookup number).getD zeroHash

def getTd (hash : Hash) (number : ℕ) : Option ℤ :=
  if t.number hash = number then db.td hash else none

def getHeader (hash : Hash) (number : ℕ) : Option Hash :=
  if t.number hash = number ∧ hash ∈ db.headers then some hash else none

def getBlock (hash : Hash) (number : ℕ) : Option Hash :=
  if t.number hash = number ∧ hash ∈ db.headers ∧ hash ∈ db.bodies then some hash else none

def hasBlock (hash : Hash) (number : ℕ) : Bool :=
  decide (t.number hash = number ∧ hash ∈ db.bodies)

def getTxLookupEntry (tx : Hash) : TxLookupEntry := (db.lookups tx).getD ⟨zeroHash, 0, 0⟩

/-- The database with the genesis block alone (`Genesis.Commit`). -/
def commitGenesis : ChainDb where
  headers := {t.genesis}
  bodies := {t.genesis}
  td := update (fun _ => none) t.genesis (some (t.difficulty t.genesis))
  canonical := AList.singleton 0 t.genesis
  lookups := fun _ => none
  headHeaderHash := t.genesis
  headBlockHash := t.genesis
  headFastBlockHash := zeroHash

inductive Put
  | td (hash : Hash) (td : ℤ)
  | body (hash : Hash)
  | header (hash : Hash)
  | canonicalHash (number : ℕ) (hash : Hash)
  | lookupEntry (tx : Hash) (entry : TxLookupEntry)
  | headHeaderHash (hash : Hash)
  | headBlockHash (hash : Hash)
  | headFastBlockHash (hash : Hash)
  /-- The number of a hash, the receipts of a block. -/
  | unread

def put : Put → ChainDb
  | .td hash td => { db with td := update db.td hash (some td) }
  | .body hash => { db with bodies := insert hash db.bodies }
  | .header hash => { db with headers := insert hash db.headers }
  | .canonicalHash number hash => { db with canonical := db.canonical.insert number hash }
  | .lookupEntry tx entry => { db with lookups := update db.lookups tx (some entry) }
  | .headHeaderHash hash => { db with headHeaderHash := hash }
  | .headBlockHash hash => { db with headBlockHash := hash }
  | .headFastBlockHash hash => { db with headFastBlockHash := hash }
  | .unread => db

def deleteCanonicalHash (number : ℕ) : ChainDb :=
  { db with canonical := db.canonical.erase number }

def deleteHeader (hash : Hash) : ChainDb := { db with headers := db.headers.erase hash }

def deleteTd (hash : Hash) : ChainDb := { db with td := update db.td hash none }

def deleteTxLookupEntry (tx : Hash) : ChainDb :=
  { db with lookups := update db.lookups tx none }

variable {t db} {hash : Hash} {n : ℕ}

theorem getCanonicalHash_of_lookup (h : db.canonical.lookup n = some hash) :
    db.getCanonicalHash n = hash := by
  rw [getCanonicalHash, h]
  rfl

theorem getCanonicalHash_of_none (h : db.canonical.lookup n = none) :
    db.getCanonicalHash n = zeroHash := by
  rw [getCanonicalHash, h]
  rfl

theorem getHeader_parent (hmem : t.parentHash hash ∈ db.headers)
    (h : t.number hash = t.number (t.parentHash hash) + 1) :
    db.getHeader t (t.parentHash hash) (sub (t.number hash) 1) = some (t.parentHash hash) := by
  rw [BlockTree.sub_number h]
  exact if_pos ⟨rfl, hmem⟩

theorem mem_of_getBlock {hash b : Hash} (h : db.getBlock t hash n = some b) :
    b = hash ∧ hash ∈ db.bodies ∧ t.number hash = n := by
  rw [getBlock] at h
  split at h
  case isTrue hstored =>
    cases h
    exact ⟨rfl, hstored.2.2, hstored.1⟩
  case isFalse => cases h

theorem getTd_parent (h : t.number hash = t.number (t.parentHash hash) + 1) :
    db.getTd t (t.parentHash hash) (sub (t.number hash) 1) = db.td (t.parentHash hash) := by
  rw [BlockTree.sub_number h]
  exact if_pos rfl

theorem getTd_self (hash : Hash) : db.getTd t hash (t.number hash) = db.td hash := if_pos rfl

theorem number_of_getTd {td : ℤ} (h : db.getTd t hash n = some td) : t.number hash = n := by
  rw [getTd] at h
  split at h
  · assumption
  · cases h

theorem td_of_getTd {td : ℤ} (h : db.getTd t hash n = some td) : db.td hash = some td := by
  rw [getTd] at h
  split at h
  · exact h
  · cases h

end ChainDb

end XChain
