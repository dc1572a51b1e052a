import XChain.Core.ChainDb
import XChain.Lib.Machine

/-!
# The header chain

`WriteHeader` and `SetHead` of `core/headerchain.go`. A header that wins against the current one
becomes the current header: the canonical numbers above it are deleted up to the first gap, those
below it are overwritten down to the first match. `SetHead` deletes the headers of the current
branch above a number, also those other branches stand on; a later header of such a branch runs the
overwriting loop into a missing header.

* **`headerChain_canonical`**: all of it holds in every run that never cuts a branch off, and every
  step of such a run goes through.
-/

namespace XChain

open Function ChainDb Nat Option Finset StepMachine Ancestry Word64 GoText
open Finset (mem_coe mem_erase mem_insert mem_insert_of_mem mem_singleton)
open Ancestry (ancestor_parent ancestor_self)

structure HeaderChain where
  db : ChainDb
  currentHeader : Hash

namespace HeaderChain

variable (t : BlockTree)

def start : HeaderChain := ⟨ChainDb.commitGenesis t, t.genesis⟩

/-- Delete canonical numbers from `i` up to the first gap. Every round removes an entry, so the
number of entries is enough fuel. -/
def deleteAbove : ℕ → ℕ → ChainDb → ChainDb
  | 0, _, db => db
  | fuel + 1, i, db =>
    if db.getCanonicalHash i = zeroHash then db
    else deleteAbove fuel (add i 1) (db.deleteCanonicalHash i)

/-- Overwrite canonical numbers from a header downwards until one is right. A missing header is
dereferenced in the next round. -/
def overwriteCanonical : ℕ → Hash → ℕ → Option Hash → ChainDb → Option ChainDb
  | 0, _, _, _, _ => none
  | fuel + 1, headHash, headNumber, headHeader, db =>
    if db.getCanonicalHash headNumber = headHash then some db
    else
      headHeader.bind fun header =>
        let db' := db.put (.canonicalHash headNumber headHash)
        let parent := t.parentHash header
        let number := sub (t.number header) 1
        overwriteCanonical fuel parent number (db'.getHeader t parent number) db'

def reroute (hash : Hash) (db : ChainDb) : Option HeaderChain :=
  let number := t.number hash
  let db := deleteAbove db.canonical.keys.length (add number 1) db
  let parent := t.parentHash hash
  let parentNumber := sub number 1
  (overwriteCanonical t (number + 1) parent parentNumber (db.getHeader t parent parentNumber)
    db).map fun db => ⟨(db.put (.canonicalHash number hash)).put (.headHeaderHash hash), hash⟩

def wins (externTd localTd : ℤ) (coin : Bool) : Bool :=
  decide (localTd < externTd) || (decide (externTd = localTd) && coin)

/-- `WriteHeader`; `none` in the result stands for `ErrUnknownAncestor`. A missing header that is
dereferenced ends the program. -/
def writeHeader (hc : HeaderChain) (hash : Hash) (coin : Bool) :
    Option (HeaderChain × Option WriteStatus) :=
  match hc.db.getTd t (t.parentHash hash) (sub (t.number hash) 1) with
  | none => some (hc, none)
  | some ptd =>
    (hc.db.getTd t hc.currentHeader (t.number hc.currentHeader)).bind fun localTd =>
      let externTd := t.difficulty hash + ptd
      let db := (hc.db.put (.td hash externTd)).put (.header hash)
      if wins externTd localTd coin then
        (reroute t hash db).map fun hc => (hc, some .canonStatTy)
      else some (⟨db, hc.currentHeader⟩, some .sideStatTy)

def deleteBranch (head : ℕ) : ℕ → Option Hash → ChainDb → ChainDb × Option Hash
  | 0, current, db => (db, current)
  | _ + 1, none, db => (db, none)
  | fuel + 1, some current, db =>
    if head < t.number current then
      let db := (db.deleteHeader current).deleteTd current
      deleteBranch head fuel
        (db.getHeader t (t.parentHash current) (sub (t.number current) 1)) db
    else (db, some current)

def deleteNumbers (head : ℕ) : ℕ → ChainDb → ChainDb
  | 0, db => db
  | i + 1, db => if head < i + 1 then deleteNumbers head i (db.deleteCanonicalHash (i + 1)) else db

/-- `SetHead`. The numbers on the branch fall, so the number of the current header is
enough fuel. -/
def setHead (hc : HeaderChain) (head : ℕ) : HeaderChain :=
  let height := t.number hc.currentHeader
  let (db, current) := deleteBranch t head height (some hc.currentHeader) hc.db
  let db := deleteNumbers head height db
  let current := current.getD t.genesis
  ⟨db.put (.headHeaderHash current), current⟩

inductive Op
  | writeHeader (header : t.Child) (coin : Bool)
  | setHead (head : ℕ)

def step (hc : HeaderChain) : Op t → Option HeaderChain
  | .writeHeader header coin => (hc.writeHeader t header.hash coin).map Prod.fst
  | .setHead head => some (hc.setHead t head)

variable {t} {headers : Finset Hash} {hc : HeaderChain}

/-! ## The loops -/

theorem lookup_deleteCanonicalHash (db : ChainDb) (i n : ℕ) :
    (db.deleteCanonicalHash i).canonical.lookup n =
      if n = i then none else db.canonical.lookup n := by
  by_cases h : n = i
  · subst h
    rw [if_pos rfl]
    exact AList.lookup_erase n db.canonical
  · rw [if_neg h]
    exact AList.lookup_erase_ne h

theorem lookup_putCanonicalHash (db : ChainDb) (i n : ℕ) (hash : Hash) :
    (db.put (.canonicalHash i hash)).canonical.lookup n =
      if n = i then some hash else db.canonical.lookup n := by
  by_cases h : n = i
  · subst h
    rw [if_pos rfl]
    exact AList.lookup_insert db.canonical
  · rw [if_neg h]
    exact AList.lookup_insert_ne h

def Contiguous (db : ChainDb) (i N : ℕ) : Prop :=
  ∀ n, i ≤ n → (db.getCanonicalHash n ≠ zeroHash ↔ n ≤ N)

/-- **The deleting loop** clears all numbers from `i` on. -/
theorem lookup_deleteAbove {N : ℕ} (hN : N + 1 < Word64.size) :
    ∀ {fuel i : ℕ} {db : ChainDb}, Contiguous db i N → N + 1 - i ≤ fuel → ∀ n,
      (deleteAbove fuel i db).canonical.lookup n =
        if i ≤ n ∧ n ≤ N then none else db.canonical.lookup n
  | 0, i, db, _, hfuel, n => by
    rw [if_neg (by omega)]
    rfl
  | fuel + 1, i, db, hdb, hfuel, n => by
    rw [deleteAbove]
    split
    case isTrue hgap =>
      have hi : ¬ i ≤ N := fun h => (hdb i le_rfl).mpr h hgap
      rw [if_neg (by omega)]
    case isFalse htaken =>
      have hi : i ≤ N := (hdb i le_rfl).mp htaken
      have hadd : add i 1 = i + 1 := mod_eq_of_lt (by omega)
      have hnext : Contiguous (db.deleteCanonicalHash i) (i + 1) N := by
        intro m hm
        have hlookup := lookup_deleteCanonicalHash db i m
        rw [if_neg (by omega)] at hlookup
        rw [getCanonicalHash, hlookup]
        exact hdb m (by omega)
      rw [hadd, lookup_deleteAbove hN hnext (by omega), lookup_deleteCanonicalHash]
      split_ifs <;> first | rfl | omega

theorem deleteAbove_frame : ∀ (fuel i : ℕ) (db : ChainDb),
    ∃ canonical, deleteAbove fuel i db = { db with canonical := canonical }
  | 0, _, db => ⟨db.canonical, rfl⟩
  | fuel + 1, i, db => by
    rw [deleteAbove]
    split
    · exact ⟨db.canonical, rfl⟩
    · exact deleteAbove_frame fuel _ (db.deleteCanonicalHash i)

/-- The canonical numbers up to `M` are the ancestors of `cur`, those from there to `N` are free. -/
def Follows (t : BlockTree) (db : ChainDb) (cur : Hash) (M N : ℕ) : Prop :=
  ∀ n, n ≤ N → db.canonical.lookup n = if n ≤ M then some (t.ancestor cur n) else none

/-- **The overwriting loop** ends where the branches meet, with the ancestry of its header. -/
theorem overwriteCanonical_spec {cur : Hash} {M : ℕ} (hroot : t.Rooted headers)
    (hzero : zeroHash ∉ headers) (hcur : cur ∈ headers) (hM : M ≤ t.number cur) :
    ∀ {fuel : ℕ} {x : Hash} {db : ChainDb}, db.headers = headers → x ∈ headers →
      t.number x < fuel → Follows t db cur M (t.number x) →
      ∃ canonical, overwriteCanonical t fuel x (t.number x) (some x) db =
          some { db with canonical := canonical } ∧
        ∀ n, canonical.lookup n =
          if n ≤ t.number x then some (t.ancestor x n) else db.canonical.lookup n
  | fuel + 1, x, db, hdb, hx, hfuel, hfollows => by
    have hself := hfollows (t.number x) le_rfl
    rw [overwriteCanonical]
    split
    case isTrue hmatch =>
      -- the number is not free: the zero hash is not a header
      have hle : t.number x ≤ M := by
        by_contra hle
        rw [if_neg hle] at hself
        rw [getCanonicalHash_of_none hself] at hmatch
        exact hzero (hmatch ▸ hx)
      rw [if_pos hle] at hself
      rw [getCanonicalHash_of_lookup hself] at hmatch
      refine ⟨db.canonical, rfl, fun n => ?_⟩
      split
      case isTrue hn =>
        have hmeet : t.ancestor (t.ancestor cur (t.number x)) n = t.ancestor cur n :=
          hroot.ancestor_ancestor hcur (by omega) hn
        rw [hfollows n hn, if_pos (by omega), ← hmeet, hmatch]
      case isFalse => rfl
    case isFalse hstale =>
      have hne : x ≠ t.genesis := by
        rintro rfl
        have hnumber : t.number t.genesis = 0 := t.genesis_number
        rw [hnumber, if_pos (zero_le M)] at hself
        have hgen : t.ancestor cur 0 = t.genesis := hroot.ancestor_zero hcur
        rw [hgen] at hself
        rw [hnumber, getCanonicalHash_of_lookup hself] at hstale
        exact hstale rfl
      have hp : t.parentHash x ∈ headers := hroot.parent_mem x hx hne
      have hnumber : t.number x = t.number (t.parentHash x) + 1 := hroot.height_eq x hx hne
      have hlookup := fun n => lookup_putCanonicalHash db (t.number x) n x
      set db' := db.put (.canonicalHash (t.number x) x)
      have hget : db'.getHeader t (t.parentHash x) (sub (t.number x) 1) =
          some (t.parentHash x) := getHeader_parent (hdb ▸ hp : _ ∈ db.headers) hnumber
      have hfollows' : Follows t db' cur M (t.number (t.parentHash x)) := by
        intro n hn
        rw [hlookup n, if_neg (by omega)]
        exact hfollows n (by omega)
      obtain ⟨canonical, hrun, hcanonical⟩ := overwriteCanonical_spec hroot hzero hcur hM
        (show db'.headers = headers from hdb) hp (show _ < fuel by omega) hfollows'
      refine ⟨canonical, ?_, fun n => ?_⟩
      · rw [bind_some]
        simp only
        rw [hget, BlockTree.sub_number hnumber]
        exact hrun
      · rw [hcanonical n, hlookup n]
        rcases lt_trichotomy n (t.number x) with hn | rfl | hn
        · have hpar : t.ancestor x n = t.ancestor (t.parentHash x) n :=
            ancestor_parent hnumber (by omega)
          rw [if_pos (by omega), if_pos hn.le, hpar]
        · have hanc : t.ancestor x (t.number x) = x := ancestor_self
          rw [if_neg (by omega), if_pos rfl, if_pos le_rfl, hanc]
        · rw [if_neg (by omega), if_neg (by omega), if_neg (by omega)]

/-! ## What the chain keeps -/

variable (t) in
/-- Stored headers have their parents; the canonical numbers are the ancestry of the current one. -/
structure Canonical (hc : HeaderChain) : Prop where
  rooted : t.Rooted hc.db.headers
  no_zero : zeroHash ∉ hc.db.headers
  bounded : ∀ h ∈ hc.db.headers, t.number h + 1 < Word64.size
  td_eq : ∀ h ∈ hc.db.headers, hc.db.td h = some (t.totalDifficulty h)
  td_none : ∀ h, h ∉ hc.db.headers → hc.db.td h = none
  current_mem : hc.currentHeader ∈ hc.db.headers
  lookup_eq : ∀ n, hc.db.canonical.lookup n =
    if n ≤ t.number hc.currentHeader then some (t.ancestor hc.currentHeader n) else none

theorem start_canonical : Canonical t (start t) := by
  have hnumber : t.number t.genesis = 0 := t.genesis_number
  have hroot : t.Rooted {t.genesis} := by
    refine ⟨?_, hnumber, ?_, ?_⟩
    · exact mem_coe.mpr (mem_singleton_self _)
    · intro x hx hne
      exact absurd (mem_singleton.mp (mem_coe.mp hx)) hne
    · intro x hx hne
      exact absurd (mem_singleton.mp (mem_coe.mp hx)) hne
  refine ⟨hroot, ?_, ?_, ?_, ?_, mem_singleton_self _, ?_⟩
  · intro h
    exact t.genesis_ne_zero (mem_singleton.mp h).symm
  · intro h hmem
    rw [mem_singleton.mp hmem, hnumber]
    decide
  · intro h hmem
    rw [mem_singleton.mp hmem]
    have htotal : t.totalDifficulty t.genesis = t.difficulty t.genesis := total_root hroot
    rw [htotal]
    exact update_self t.genesis _ fun _ => none
  · intro h hmem
    have hne : h ≠ t.genesis := fun e => hmem (mem_singleton.mpr e)
    exact update_of_ne hne _ fun _ => none
  · intro n
    have hcur : t.number (start t).currentHeader = 0 := hnumber
    rw [hcur]
    by_cases hn : n = 0
    · subst hn
      have hanc : t.ancestor (start t).currentHeader 0 = t.genesis :=
        hroot.ancestor_zero hroot.root_mem
      rw [if_pos le_rfl, hanc]
      rfl
    · rw [if_neg (by omega), AList.lookup_eq_none, AList.mem_keys]
      intro hmem
      exact hn (List.mem_singleton.mp hmem)

namespace Canonical

variable {hc : HeaderChain} {hash : Hash}

variable (h : Canonical t hc)
include h

theorem contiguous {db : ChainDb} (hdb : db.canonical = hc.db.canonical)
    (i : ℕ) : Contiguous db i (t.number hc.currentHeader) := by
  intro n _
  have hlookup := h.lookup_eq n
  rw [← hdb] at hlookup
  by_cases hn : n ≤ t.number hc.currentHeader
  · rw [if_pos hn] at hlookup
    rw [getCanonicalHash_of_lookup hlookup]
    have hmem := (h.rooted.ancestor_mem h.current_mem hn).1
    exact ⟨fun _ => hn, fun _ e => h.no_zero (e ▸ hmem)⟩
  · rw [if_neg hn] at hlookup
    rw [getCanonicalHash_of_none hlookup]
    exact ⟨fun e => absurd rfl e, fun e => absurd e hn⟩

theorem length_keys : t.number hc.currentHeader + 1 ≤ hc.db.canonical.keys.length := by
  have hsub : List.range (t.number hc.currentHeader + 1) ⊆ hc.db.canonical.keys := by
    intro n hn
    have hn : n ≤ t.number hc.currentHeader := Nat.lt_succ_iff.mp (List.mem_range.mp hn)
    have hlookup := h.lookup_eq n
    rw [if_pos hn] at hlookup
    rw [← AList.mem_keys, ← AList.lookup_isSome, hlookup]
    rfl
  have hle := (List.nodup_range.subperm hsub).length_le
  rwa [List.length_range] at hle

theorem side (hne : hash ≠ zeroHash)
    (hnumber : t.number hash = t.number (t.parentHash hash) + 1)
    (hlt : t.number hash + 1 < Word64.size) (hp : t.parentHash hash ∈ hc.db.headers) :
    Canonical t ⟨(hc.db.put (.td hash (t.totalDifficulty hash))).put (.header hash),
      hc.currentHeader⟩ where
  rooted := by
    have hroot := h.rooted.insert hp hnumber
    rw [← coe_insert] at hroot
    exact hroot
  no_zero hmem := by
    rcases mem_insert.mp hmem with e | hmem
    · exact hne e.symm
    · exact h.no_zero hmem
  bounded x hx := by
    rcases mem_insert.mp hx with rfl | hx
    · exact hlt
    · exact h.bounded x hx
  td_eq x hx := by
    change update hc.db.td hash _ x = _
    by_cases hxh : x = hash
    · subst hxh
      exact update_self _ _ _
    · rw [update_of_ne hxh]
      exact h.td_eq x ((mem_insert.mp hx).resolve_left hxh)
  td_none x hx := by
    change update hc.db.td hash _ x = _
    have hxh : x ≠ hash := by
      rintro rfl
      exact hx (mem_insert_self _ _)
    rw [update_of_ne hxh]
    exact h.td_none x fun hmem => hx (mem_insert_of_mem hmem)
  current_mem := mem_insert_of_mem h.current_mem
  lookup_eq := h.lookup_eq

/-- **The chain is rerouted to a stored header.** -/
theorem reroute (hmem : hash ∈ hc.db.headers) (hne : hash ≠ t.genesis) :
    ∃ hc', reroute t hash hc.db = some hc' ∧ Canonical t hc' := by
  have hp : t.parentHash hash ∈ hc.db.headers := h.rooted.parent_mem hash hmem hne
  have hnumber : t.number hash = t.number (t.parentHash hash) + 1 :=
    h.rooted.height_eq hash hmem hne
  have hadd : add (t.number hash) 1 = t.number hash + 1 := mod_eq_of_lt (h.bounded hash hmem)
  have hdel := lookup_deleteAbove (h.bounded _ h.current_mem)
    (h.contiguous rfl (t.number hash + 1)) (le_trans (sub_le _ _) h.length_keys)
  obtain ⟨canonical₁, hframe⟩ :=
    deleteAbove_frame hc.db.canonical.keys.length (t.number hash + 1) hc.db
  rw [hframe] at hdel
  set db₁ : ChainDb := { hc.db with canonical := canonical₁ } with hdb₁
  have hfollows : Follows t db₁ hc.currentHeader (t.number hc.currentHeader)
      (t.number (t.parentHash hash)) := by
    intro n hn
    rw [hdel n, if_neg (by omega), h.lookup_eq n]
  have hget : db₁.getHeader t (t.parentHash hash) (sub (t.number hash) 1) =
      some (t.parentHash hash) := getHeader_parent (hp : _ ∈ hc.db.headers) hnumber
  obtain ⟨canonical₂, hrun, hover⟩ :=
    overwriteCanonical_spec h.rooted h.no_zero h.current_mem le_rfl
    (show db₁.headers = hc.db.headers from rfl) hp (show _ < t.number hash + 1 by omega) hfollows
  refine ⟨⟨(({ db₁ with canonical := canonical₂ } : ChainDb).put
    (.canonicalHash (t.number hash) hash)).put (.headHeaderHash hash), hash⟩, ?_, ?_⟩
  · rw [HeaderChain.reroute, hadd, hframe, hget, BlockTree.sub_number hnumber, hrun, map_some]
  refine { h with current_mem := hmem, lookup_eq := fun n => ?_ }
  have hput := lookup_putCanonicalHash { db₁ with canonical := canonical₂ } (t.number hash) n hash
  refine hput.trans ?_
  rw [hover n, hdel n, h.lookup_eq n]
  rcases lt_trichotomy n (t.number hash) with hn | rfl | hn
  · have hpar : t.ancestor hash n = t.ancestor (t.parentHash hash) n :=
      ancestor_parent hnumber (by omega)
    rw [if_neg (by omega), if_pos (by omega), if_pos hn.le, hpar]
  · have hanc : t.ancestor hash (t.number hash) = hash := ancestor_self
    rw [if_pos rfl, if_pos le_rfl, hanc]
  · rw [if_neg (by omega), if_neg (by omega), if_neg (show ¬ n ≤ t.number hash by omega)]
    split_ifs <;> first | rfl | omega

/-- **Writing a header goes through** and keeps the chain canonical. -/
theorem writeHeader (header : t.Child) (coin : Bool)
    (hlt : t.number header.hash + 1 < Word64.size) :
    ∃ r, hc.writeHeader t header.hash coin = some r ∧ Canonical t r.1 := by
  have hnumber := header.number_eq
  rw [HeaderChain.writeHeader, getTd_parent hnumber]
  by_cases hp : t.parentHash header.hash ∈ hc.db.headers
  · rw [h.td_eq _ hp, getTd_self, h.td_eq _ h.current_mem]
    have htotal : t.totalDifficulty header.hash =
      t.difficulty header.hash + t.totalDifficulty (t.parentHash header.hash) :=
      total_eq hnumber
    have hside := h.side header.hash_ne_zero hnumber hlt hp
    simp only [bind_some]
    rw [← htotal]
    split
    · have hne : header.hash ≠ t.genesis := h.rooted.ne_root (by rw [hnumber]; exact succ_pos _)
      obtain ⟨hc', hrun, hc'_ok⟩ := hside.reroute (mem_insert_self _ _) hne
      rw [hrun]
      exact ⟨_, rfl, hc'_ok⟩
    · exact ⟨_, rfl, hside⟩
  · rw [h.td_none _ hp]
    exact ⟨_, rfl, h⟩

end Canonical

/-! ## Rewinding -/

variable (t) in
def OnBranch (tip h : Hash) : Prop := t.number h ≤ t.number tip ∧ t.ancestor tip (t.number h) = h

instance (tip h : Hash) : Decidable (OnBranch t tip h) :=
  inferInstanceAs (Decidable (_ ∧ _))

theorem onBranch_iff {x y : Hash} (hx : t.number x = t.number (t.parentHash x) + 1) :
    OnBranch t x y ↔ y = x ∨ OnBranch t (t.parentHash x) y := by
  rcases lt_trichotomy (t.number y) (t.number x) with hy | hy | hy
  · have hpar : t.ancestor x (t.number y) = t.ancestor (t.parentHash x) (t.number y) :=
      ancestor_parent hx (by omega)
    have hne : y ≠ x := by
      rintro rfl
      omega
    rw [OnBranch, OnBranch, hpar]
    constructor
    · rintro ⟨_, h⟩
      exact .inr ⟨by omega, h⟩
    · rintro (h | ⟨_, h⟩)
      · exact absurd h hne
      · exact ⟨hy.le, h⟩
  · have hanc : t.ancestor x (t.number x) = x := ancestor_self
    rw [OnBranch, OnBranch, hy, hanc]
    constructor
    · rintro ⟨_, h⟩
      exact .inl h.symm
    · rintro (h | ⟨h, _⟩)
      · exact ⟨le_rfl, h.symm⟩
      · omega
  · constructor
    · rintro ⟨h, _⟩
      omega
    · rintro (rfl | ⟨h, _⟩) <;> omega

/-- **What is deleted** is the branch above `head`; the header left is the one at `head`. -/
theorem deleteBranch_spec (head : ℕ) (hroot : t.Rooted headers) :
    ∀ {fuel : ℕ} {x : Hash} {db : ChainDb}, t.number x ≤ fuel → x ∈ headers →
      (∀ y ∈ headers, t.number y ≤ t.number x → y ∈ db.headers) →
      ∃ headers' td', deleteBranch t head fuel (some x) db =
          ({ db with headers := headers', td := td' },
            some (t.ancestor x (min head (t.number x)))) ∧
        (∀ y, y ∈ headers' ↔ y ∈ db.headers ∧ ¬ (head < t.number y ∧ OnBranch t x y)) ∧
        ∀ y, td' y = if head < t.number y ∧ OnBranch t x y then none else db.td y
  | fuel, x, db, hfuel, hx, hstored => by
    by_cases hhead : head < t.number x
    · obtain ⟨fuel, rfl⟩ : ∃ k, fuel = k + 1 := ⟨fuel - 1, by omega⟩
      have hne : x ≠ t.genesis := hroot.ne_root (by omega)
      have hp : t.parentHash x ∈ headers := hroot.parent_mem x hx hne
      have hnumber : t.number x = t.number (t.parentHash x) + 1 := hroot.height_eq x hx hne
      set db₁ := (db.deleteHeader x).deleteTd x with hdb₁
      have hstored₁ : ∀ y ∈ headers, t.number y ≤ t.number (t.parentHash x) → y ∈ db₁.headers := by
        intro y hy hle
        have hyx : y ≠ x := by
          rintro rfl
          omega
        exact mem_erase.mpr ⟨hyx, hstored y hy (by omega)⟩
      have hget : db₁.getHeader t (t.parentHash x) (sub (t.number x) 1) =
          some (t.parentHash x) := getHeader_parent (hstored₁ _ hp le_rfl) hnumber
      obtain ⟨headers', td', hrun, hheaders, htd⟩ := deleteBranch_spec head hroot
        (show t.number (t.parentHash x) ≤ fuel by omega) hp hstored₁
      have hanc : t.ancestor x (min head (t.number x)) =
          t.ancestor (t.parentHash x) (min head (t.number (t.parentHash x))) := by
        rw [min_eq_left (by omega), min_eq_left (by omega)]
        exact ancestor_parent hnumber (by omega)
      refine ⟨headers', td', ?_, fun y => ?_, fun y => ?_⟩
      · rw [deleteBranch, if_pos hhead]
        simp only
        rw [← hdb₁, hget, hrun, hanc]
        rfl
      · rw [hheaders y, onBranch_iff hnumber]
        change y ∈ db.headers.erase x ∧ _ ↔ _
        rw [mem_erase]
        constructor
        · rintro ⟨⟨hyx, hy⟩, hkeep⟩
          exact ⟨hy, fun ⟨hlt, hon⟩ => hkeep ⟨hlt, hon.resolve_left hyx⟩⟩
        · rintro ⟨hy, hkeep⟩
          refine ⟨⟨?_, hy⟩, fun ⟨hlt, hon⟩ => hkeep ⟨hlt, .inr hon⟩⟩
          rintro rfl
          exact hkeep ⟨hhead, .inl rfl⟩
      · rw [htd y]
        change (if _ then _ else update db.td x none y) = _
        by_cases hyx : y = x
        · subst hyx
          have hdel : head < t.number y ∧ OnBranch t y y := ⟨hhead, le_rfl, ancestor_self⟩
          rw [update_self, if_pos hdel, ite_self]
        · rw [update_of_ne hyx]
          refine if_congr (and_congr_right fun _ => ?_) rfl rfl
          rw [onBranch_iff hnumber]
          exact ⟨.inr, fun h => h.resolve_left hyx⟩
    · have hnone : ∀ y, ¬ (head < t.number y ∧ OnBranch t x y) := by
        rintro y ⟨hlt, hle, _⟩
        omega
      have hanc : t.ancestor x (min head (t.number x)) = x := by
        rw [min_eq_right (by omega)]
        exact ancestor_self
      refine ⟨db.headers, db.td, ?_, fun y => ?_, fun y => ?_⟩
      · rw [hanc]
        cases fuel with
        | zero => rfl
        | succ fuel => rw [deleteBranch, if_neg hhead]
      · exact ⟨fun h => ⟨h, hnone y⟩, And.left⟩
      · rw [if_neg (hnone y)]

theorem lookup_deleteNumbers (head : ℕ) : ∀ (i : ℕ) (db : ChainDb) (n : ℕ),
    (deleteNumbers head i db).canonical.lookup n =
      if head < n ∧ n ≤ i then none else db.canonical.lookup n
  | 0, db, n => by
    rw [if_neg (by omega)]
    rfl
  | i + 1, db, n => by
    rw [deleteNumbers]
    split
    · rw [lookup_deleteNumbers head i, lookup_deleteCanonicalHash]
      split_ifs <;> first | rfl | omega
    · rw [if_neg (by omega)]

theorem deleteNumbers_frame (head : ℕ) : ∀ (i : ℕ) (db : ChainDb),
    ∃ canonical, deleteNumbers head i db = { db with canonical := canonical }
  | 0, db => ⟨db.canonical, rfl⟩
  | i + 1, db => by
    rw [deleteNumbers]
    split
    · exact deleteNumbers_frame head i (db.deleteCanonicalHash (i + 1))
    · exact ⟨db.canonical, rfl⟩

variable (t) in
/-- A header whose parent is deleted by `SetHead(head)` is deleted with it. -/
def CutsClean (hc : HeaderChain) (head : ℕ) : Prop :=
  ∀ h ∈ hc.db.headers, head < t.number (t.parentHash h) →
    OnBranch t hc.currentHeader (t.parentHash h) → OnBranch t hc.currentHeader h

/-- **Rewinding keeps the chain canonical** if it cuts no branch off. -/
theorem Canonical.setHead (h : Canonical t hc) {head : ℕ} (hcut : CutsClean t hc head) :
    Canonical t (hc.setHead t head) := by
  have hle : min head (t.number hc.currentHeader) ≤ t.number hc.currentHeader := min_le_right _ _
  have hstored : ∀ y ∈ hc.db.headers, t.number y ≤ t.number hc.currentHeader → y ∈ hc.db.headers :=
    fun y hy _ => hy
  obtain ⟨headers', td', hrun, hheaders, htd⟩ :=
    deleteBranch_spec head h.rooted le_rfl h.current_mem hstored
  set db₁ : ChainDb := { hc.db with headers := headers', td := td' }
  obtain ⟨canonical, hframe⟩ := deleteNumbers_frame head (t.number hc.currentHeader) db₁
  have hlookup := lookup_deleteNumbers head (t.number hc.currentHeader) db₁
  rw [hframe] at hlookup
  set cur := t.ancestor hc.currentHeader (min head (t.number hc.currentHeader)) with hcur
  obtain ⟨hcur_mem, hcur_number⟩ := h.rooted.ancestor_mem h.current_mem hle
  have hset : hc.setHead t head =
      ⟨({ db₁ with canonical := canonical } : ChainDb).put (.headHeaderHash cur), cur⟩ := by
    rw [HeaderChain.setHead, hrun]
    simp only
    rw [hframe]
    rfl
  rw [hset]
  refine ⟨⟨?_, h.rooted.root_height, ?_, ?_⟩, ?_, ?_, ?_, ?_, ?_, ?_⟩
  · refine mem_coe.mpr ((hheaders _).mpr ⟨h.rooted.root_mem, fun ⟨hlt, _⟩ => ?_⟩)
    have hnumber : t.number t.genesis = 0 := t.genesis_number
    omega
  · -- a header that is left has its parent: otherwise it would have gone with the parent
    intro y hy hne
    obtain ⟨hy, hkeep⟩ := (hheaders y).mp (mem_coe.mp hy)
    have hnumber : t.number y = t.number (t.parentHash y) + 1 := h.rooted.height_eq y hy hne
    refine mem_coe.mpr ((hheaders _).mpr ⟨h.rooted.parent_mem y hy hne, ?_⟩)
    rintro ⟨hlt, hon⟩
    exact hkeep ⟨by omega, hcut y hy hlt hon⟩
  · intro y hy hne
    exact h.rooted.height_eq y ((hheaders y).mp (mem_coe.mp hy)).1 hne
  · intro hmem
    exact h.no_zero ((hheaders _).mp hmem).1
  · intro y hy
    exact h.bounded y ((hheaders y).mp hy).1
  · intro y hy
    obtain ⟨hy, hkeep⟩ := (hheaders y).mp hy
    exact (htd y).trans ((if_neg hkeep).trans (h.td_eq y hy))
  · intro y hy
    refine (htd y).trans ?_
    split
    case isTrue => rfl
    case isFalse hkeep => exact h.td_none y fun hmem => hy ((hheaders y).mpr ⟨hmem, hkeep⟩)
  · refine (hheaders cur).mpr ⟨hcur_mem, fun ⟨hlt, _⟩ => ?_⟩
    have : t.number cur ≤ head := le_trans hcur_number.le (min_le_left _ _)
    omega
  · intro n
    refine (hlookup n).trans ?_
    have hnumber : t.number cur = min head (t.number hc.currentHeader) := hcur_number
    rw [h.lookup_eq n, hnumber]
    by_cases hn : n ≤ min head (t.number hc.currentHeader)
    · have hanc : t.ancestor cur n = t.ancestor hc.currentHeader n :=
        h.rooted.ancestor_ancestor h.current_mem hle hn
      rw [if_pos hn, if_neg (by omega), if_pos (by omega), hanc]
    · split_ifs <;> first | rfl | omega

/-! ## Runs -/

variable (t) in
/-- The call cuts no branch off, and leaves room above the header for the loop that counts up. -/
def Op.Clean (hc : HeaderChain) : Op t → Prop
  | .writeHeader header _ => t.number header.hash + 1 < Word64.size
  | .setHead head => CutsClean t hc head

instance (hc : HeaderChain) (op : Op t) : Decidable (op.Clean t hc) :=
  match op with
  | .writeHeader _ _ => inferInstanceAs (Decidable (_ < _))
  | .setHead _ => inferInstanceAs (Decidable (∀ h ∈ hc.db.headers, _))

theorem step_canonical {op : Op t} (h : Canonical t hc) (hop : op.Clean t hc) :
    ∃ hc', step t hc op = some hc' ∧ Canonical t hc' := by
  cases op with
  | writeHeader header coin =>
    obtain ⟨r, hr, hok⟩ := h.writeHeader header coin hop
    exact ⟨r.1, congrArg (Option.map Prod.fst) hr, hok⟩
  | setHead head => exact ⟨_, rfl, h.setHead hop⟩

/-- **The canonical numbers are the ancestry of the current header.** -/
theorem headerChain_canonical {ops : List (Op t)}
    (hok : Along (step t) (fun hc op => op.Clean t hc) (start t) ops) :
    ∃ hc, run (step t) (start t) ops = some hc ∧
      (∀ n ≤ t.number hc.currentHeader, hc.db.getCanonicalHash n = t.ancestor hc.currentHeader n) ∧
      (∀ n > t.number hc.currentHeader, hc.db.canonical.lookup n = none) ∧
      ∀ h ∈ hc.db.headers, hc.db.getTd t h (t.number h) = some (t.totalDifficulty h) := by
  obtain ⟨hc, hrun, h⟩ := exists_run_along (fun _ _ => step_canonical) start_canonical hok
  refine ⟨hc, hrun, fun n hn => ?_, fun n hn => ?_, fun x hx => ?_⟩
  · have hlookup := h.lookup_eq n
    rw [if_pos hn] at hlookup
    exact getCanonicalHash_of_lookup hlookup
  · have hlookup := h.lookup_eq n
    rwa [if_neg (by omega)] at hlookup
  · rw [getTd_self]
    exact h.td_eq x hx

/-! ## A branch that is cut off -/

def hashOf (b : UInt8) : Hash := .fill b

theorem hashOf_one_ne : hashOf 1 ≠ zeroHash := by decide

def blockOf (parent : Hash) (number : ℕ) (difficulty : ℤ) (txs : List Hash) : Block :=
  ⟨⟨parent, low number, difficulty, Nat.mod_lt _ (by decide)⟩, txs⟩

theorem mem_removed (a b : List Hash) (tx : Hash) : tx ∈ a.removeAll b ↔ tx ∈ a ∧ tx ∉ b := by
  simp [List.removeAll]

/-- A tree of blocks with the genesis block 1. -/
def treeOf (block : Hash → Block) (hnumber : (block (hashOf 1)).number = 0)
    (htransactions : (block (hashOf 1)).transactions = []) : BlockTree :=
  ⟨block, hashOf 1, List.removeAll, hashOf_one_ne, hnumber, htransactions, mem_removed⟩

def forkBlock (h : Hash) : Block :=
  match h.bytes.head? with
  | some 2 => blockOf (hashOf 1) 1 1 []
  | some 3 => blockOf (hashOf 2) 2 1 []
  | some 4 => blockOf (hashOf 2) 2 1 []
  | some 5 => blockOf (hashOf 4) 3 1 []
  | _ => blockOf zeroHash 0 1 []

def forkTree : BlockTree := treeOf forkBlock rfl rfl

def second : forkTree.Child := ⟨hashOf 2, by decide, rfl⟩

def third : forkTree.Child := ⟨hashOf 3, by decide, rfl⟩

def forked : List (Op forkTree) :=
  [.writeHeader second false, .writeHeader third false,
    .writeHeader ⟨hashOf 4, by decide, rfl⟩ false]

def late : forkTree.Child := ⟨hashOf 5, by decide, rfl⟩

/-- The header 2 is deleted under 4; when 4 is extended the overwriting loop does not return. -/
theorem setHead_strands :
    ∃ hc, run (step forkTree) (start forkTree) (forked ++ [.setHead 0]) = some hc ∧
      forkTree.parentHash late.hash ∈ hc.db.headers ∧
      step forkTree hc (.writeHeader late false) = none :=
  exists_run (by decide +kernel) fun _ =>
    ⟨by decide +kernel, isNone_iff_eq_none.mp (by decide +kernel)⟩

/-- Rewound to the fork only, the other branch is whole and the header on it becomes current. -/
theorem headerChain_canonical_forked :
    ∃ hc, run (step forkTree) (start forkTree)
        (forked ++ [.setHead 1, .writeHeader late false]) = some hc ∧
      ∀ n ≤ forkTree.number hc.currentHeader,
        hc.db.getCanonicalHash n = forkTree.ancestor hc.currentHeader n := by
  have hok : Along (step forkTree) (fun hc op => op.Clean forkTree hc)
      (start forkTree) (forked ++ [.setHead 1, .writeHeader late false]) := by decide +kernel
  obtain ⟨hc, hrun, hcanonical, -⟩ := headerChain_canonical hok
  exact ⟨hc, hrun, hcanonical⟩

end HeaderChain

end XChain
