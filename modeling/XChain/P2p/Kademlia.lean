import XChain.Lib.BigEndian
import XChain.Lib.Machine
import XChain.Lib.Slots
import XChain.Lib.Table
import XChain.Lib.Word

/-!
# The node table of discovery

`Table` of `p2p/discover/table.go`: nodes in buckets by their distance to the local node, most
recently active first. `add` gives the mutex back while it pings the oldest node of a full bucket;
other calls run meanwhile. It is called by `bond`, which gets the node from the database or from a
bonding process that several calls may wait for. A node is a pointer (`ref`) with an ID and the hash
of the ID.

* `logdist`, **`logdist_eq`**: the number of bits of the XOR of two hashes;
* **`kademlia_run`**: in every run the buckets are as they should be.
-/

namespace XChain.Discover

open GoMap BigEndian Nat Function StepMachine
open GoText (Bytes)

/-! ## Distance -/

abbrev Hash := Vector UInt8 32

def bucketSize : ℕ := 16

/-- `nBuckets`: one for each number of bits of a distance. -/
def nBuckets : ℕ := 257

def lzcount : List ℕ :=
  [8, 7] ++ List.replicate 2 6 ++ List.replicate 4 5 ++ List.replicate 8 4 ++
    List.replicate 16 3 ++ List.replicate 32 2 ++ List.replicate 64 1 ++ List.replicate 128 0

def leadingZeros : Bytes → Bytes → ℕ
  | a :: as, b :: bs =>
    if a ^^^ b = 0 then 8 + leadingZeros as bs else lzcount.getD (a ^^^ b).toNat 0
  | _, _ => 0

def logdist (a b : Hash) : ℕ := 256 - leadingZeros a.toList b.toList

/-- The logarithmic distance of two hashes: the number of bits of their XOR. -/
def logDistance (a b : Hash) : ℕ :=
  size (BigEndian.toNat a.toList ^^^ BigEndian.toNat b.toList)

theorem lzcount_getD : ∀ c : Fin 256, lzcount.getD c 0 + size c = 8 := by decide +kernel

theorem leadingZeros_add_size : ∀ {as bs : Bytes}, as.length = bs.length →
    leadingZeros as bs + size (toNat as ^^^ toNat bs) = 8 * bs.length
  | [], [], _ => rfl
  | a :: as, b :: bs, h => by
    have hlength : as.length = bs.length := succ.inj h
    have ih := leadingZeros_add_size hlength
    have hlt : toNat as ^^^ toNat bs < 2 ^ (8 * bs.length) := by
      rw [pow_mul]
      have has := toNat_lt as
      rw [hlength] at has
      have hxor := xor_lt_two_pow (n := 8 * bs.length)
        (by rw [pow_mul]; exact has) (by rw [pow_mul]; exact toNat_lt bs)
      rwa [pow_mul] at hxor
    rw [xor_toNat_cons a b hlength, leadingZeros, List.length_cons]
    split_ifs with hzero
    · rw [hzero, UInt8.toNat_zero, mul_zero, zero_add]
      omega
    · -- the first byte that is not zero ends the loop
      have hne : (a ^^^ b).toNat ≠ 0 := fun h0 => hzero (UInt8.toNat_inj.mp h0)
      have hbyte := lzcount_getD ⟨(a ^^^ b).toNat, (a ^^^ b).toNat_lt⟩
      rw [show 256 = 2 ^ 8 from rfl, ← pow_mul, size_mul_pow_add hne hlt]
      dsimp only at hbyte
      omega

/-- **`logdist` is the logarithmic distance.** -/
theorem logdist_eq (a b : Hash) : logdist a b = logDistance a b := by
  have hsum := leadingZeros_add_size (show a.toList.length = b.toList.length by simp)
  rw [Vector.length_toList] at hsum
  unfold logdist logDistance
  omega

theorem logdist_lt (a b : Hash) : logdist a b < nBuckets :=
  lt_succ_of_le (sub_le _ _)

/-! ## Nodes and buckets -/

section Source

open List

variable {ID : Type} [DecidableEq ID] {hash : ID → Hash}

/-- A node: a pointer, its ID, and the hash of the ID. -/
structure Node (hash : ID → Hash) where
  ref : ℕ
  id : ID
  sha : Hash
  sha_eq : sha = hash id

omit [DecidableEq ID] in
def NewNode (ref : ℕ) (id : ID) : Node hash := ⟨ref, id, hash id, rfl⟩

/-- `bump`: a node that is in the bucket moves to its front. -/
def bump (b : List (Node hash)) (n : Node hash) : Option (List (Node hash)) :=
  (b.findIdx? fun m => decide (m.id = n.id)).map fun i => n :: (b.take i ++ b.drop (i + 1))

/-- `replace`: a new node at the front, in place of the last one if the bucket is full. -/
def replace (b : List (Node hash)) (n : Node hash) (last : Option (Node hash)) :
    Option (List (Node hash)) :=
  if b.any fun m => decide (m.id = n.id) then none
  else if b.length = bucketSize ∧ (last = none ∨
      b[bucketSize - 1]?.map Node.id ≠ last.map Node.id) then none
  else if b.length < bucketSize then some (n :: b)
  else some (n :: b.dropLast)

/-- The database: the ID of the node that is stored under a key, which is the key. -/
structure NodeDB (ID : Type) [DecidableEq ID] where
  stored : Table ID ID
  keyed : ∀ key id, stored.lookup key = some id → id = key

def NodeDB.updateNode (db : NodeDB ID) (id : ID) : NodeDB ID where
  stored := db.stored.insert id id
  keyed key id' h := by
    rcases Table.lookup_insert_eq_some.mp h with ⟨rfl, rfl⟩ | ⟨-, h⟩
    · rfl
    · exact db.keyed key id' h

def NodeDB.deleteNode (db : NodeDB ID) (id : ID) : NodeDB ID where
  stored := db.stored.erase id
  keyed key id' h := db.keyed key id' (Table.lookup_erase_eq_some.mp h).2

structure Bondproc (hash : ID → Hash) where
  id : ID
  result : Option (Option (Node hash))

inductive Phase (hash : ID → Hash)
  | bonding (known : Option (Node hash)) (w : ℕ)
  | adding (new : Node hash)
  | pinging (new oldest : Node hash)
  | returned

/-- The table, with the calls of `bond`. `contested` is a field of the nodes. -/
structure Tab (hash : ID → Hash) where
  buckets : Fin nBuckets → List (Node hash)
  nodeBucket : Table ID (Fin nBuckets)
  totalNodes : ℕ
  contested : ℕ → Bool
  db : NodeDB ID
  procs : List (Bondproc hash)
  bonding : Table ID ℕ
  calls : List (Phase hash)
  nextRef : ℕ

def newTable (db : NodeDB ID) (nextRef : ℕ) : Tab hash :=
  ⟨fun _ => [], ∅, 0, fun _ => false, db, [], ∅, [], nextRef⟩

variable (own : Node hash)

omit [DecidableEq ID] in
def bucketIndex (n : Node hash) : Fin nBuckets := ⟨logdist own.sha n.sha, logdist_lt _ _⟩

/-- `tab.db.node(id)`: a new object. -/
def Tab.dbNode (s : Tab hash) (id : ID) : Option (Node hash) :=
  (s.db.stored.lookup id).map fun id => NewNode s.nextRef id

/-- `bond` up to the wait for a bonding process; `stale` says whether the database knows of failures
or of no recent pong. -/
def bond (id : ID) (stale : Bool) (s : Tab hash) : Tab hash :=
  if id = own.id then s
  else
    let known := s.dbNode id
    let s := { s with nextRef := s.nextRef + 1 }
    if stale then wait known s
    else match known with
      | none => wait known s
      | some n => { s with calls := s.calls ++ [.adding n] }
where
  /-- Waits for the bonding process of the node, which is started if there is none. -/
  wait (known : Option (Node hash)) (s : Tab hash) : Tab hash :=
    match s.bonding.lookup id with
    | some w => { s with calls := s.calls ++ [.bonding known w] }
    | none => { s with
        procs := s.procs ++ [⟨id, none⟩]
        bonding := s.bonding.insert id s.procs.length
        calls := s.calls ++ [.bonding known s.procs.length] }

def pingpong (w : ℕ) (pong : Bool) (s : Tab hash) : Option (Tab hash) :=
  match s.procs[w]? with
  | some ⟨id, none⟩ =>
    some (if pong then { s with
        procs := s.procs.set w ⟨id, some (some (NewNode s.nextRef id))⟩
        db := s.db.updateNode id
        nextRef := s.nextRef + 1 }
      else { s with procs := s.procs.set w ⟨id, some none⟩ })
  | _ => none

def unregister (w : ℕ) (s : Tab hash) : Option (Tab hash) :=
  match s.procs[w]? with
  | some ⟨id, some _⟩ => some { s with bonding := s.bonding.erase id }
  | _ => none

/-- A call of `bond` gets the result of the process; a known node is added even if it failed. -/
def bonded (call : ℕ) (s : Tab hash) : Option (Tab hash) :=
  match s.calls[call]? with
  | some (.bonding known w) =>
    match s.procs[w]? with
    | some ⟨_, some result⟩ =>
      some { s with calls := s.calls.set call (match result.or known with
        | some n => .adding n
        | none => .returned) }
    | _ => none
  | _ => none

def Tab.setBucket (s : Tab hash) (i : Fin nBuckets) (b : List (Node hash)) : Tab hash :=
  { s with buckets := update s.buckets i b }

def Tab.returns (s : Tab hash) (call : ℕ) : Tab hash :=
  { s with calls := s.calls.set call .returned }

def replaceIn (new : Node hash) (oldest : Option (Node hash)) (s : Tab hash) : Tab hash :=
  let i := bucketIndex own new
  match replace (s.buckets i) new oldest with
  | none => s
  | some b => { s.setBucket i b with nodeBucket := s.nodeBucket.insert new.id i }

/-- `add` from the lock on, up to its end or to the ping. The node type is read before. -/
def add (call : ℕ) (alien : Bool) (s : Tab hash) : Option (Tab hash) :=
  match s.calls[call]? with
  | some (.adding new) =>
    let i := bucketIndex own new
    if alien then some (s.returns call)
    else match bump (s.buckets i) new with
      | some b => some ((s.setBucket i b).returns call)
      | none =>
        if (s.buckets i).length = bucketSize then
          (s.buckets i)[bucketSize - 1]?.map fun oldest =>
            if s.contested oldest.ref then s.returns call
            else { s with
              contested := update s.contested oldest.ref true
              calls := s.calls.set call (.pinging new oldest) }
        else some ((replaceIn own new none s).returns call)
  | _ => none

def addContested (call : ℕ) (pong : Bool) (s : Tab hash) : Option (Tab hash) :=
  match s.calls[call]? with
  | some (.pinging new oldest) =>
    let s := { s with contested := update s.contested oldest.ref false }
    some ((if pong then s else replaceIn own new (some oldest) s).returns call)
  | _ => none

def stuffOne (s : Tab hash) (node : Node hash) : Tab hash :=
  let i := bucketIndex own node
  if node.id = own.id then s
  else if (s.buckets i).any fun m => decide (m.id = node.id) then s
  else if (s.buckets i).length < bucketSize then
    { s.setBucket i (s.buckets i ++ [node]) with
      totalNodes := Word64.add s.totalNodes 1
      nodeBucket := s.nodeBucket.insert node.id i }
  else s

def stuff (nodes : List (Node hash)) (s : Tab hash) : Tab hash := nodes.foldl (stuffOne own) s

def deleteWithNodeIdAndIndex (id : ID) (i : Fin nBuckets) (s : Tab hash) : Tab hash :=
  match (s.buckets i).findIdx? fun m => decide (m.id = id) with
  | none => s
  | some j =>
    { s.setBucket i ((s.buckets i).take j ++ (s.buckets i).drop (j + 1)) with
      totalNodes := Word64.sub s.totalNodes 1
      nodeBucket := s.nodeBucket.erase id }

def delete (node : Node hash) (s : Tab hash) : Tab hash :=
  deleteWithNodeIdAndIndex node.id (bucketIndex own node) s

def DeleteWithNodeId (id : ID) (s : Tab hash) : Tab hash :=
  match s.nodeBucket.lookup id with
  | none => s
  | some i => deleteWithNodeIdAndIndex id i s

/-- What happens between two moments in which nobody holds the mutex. -/
inductive Action (hash : ID → Hash)
  | bond (id : ID) (stale : Bool)
  | pingpong (w : ℕ) (pong : Bool)
  | unregister (w : ℕ)
  | bonded (call : ℕ)
  | add (call : ℕ) (alien : Bool)
  | addContested (call : ℕ) (pong : Bool)
  | stuff (nodes : List (Node hash))
  | delete (node : Node hash)
  | DeleteWithNodeId (id : ID)
  | expireNode (id : ID)

def step (s : Tab hash) : Action hash → Option (Tab hash)
  | .bond id stale => some (bond own id stale s)
  | .pingpong w pong => pingpong w pong s
  | .unregister w => unregister w s
  | .bonded call => bonded call s
  | .add call alien => add own call alien s
  | .addContested call pong => addContested own call pong s
  | .stuff nodes => some (stuff own nodes s)
  | .delete node => some (delete own node s)
  | .DeleteWithNodeId id => some (DeleteWithNodeId id s)
  | .expireNode id => some { s with db := s.db.deleteNode id }

end Source

/-! ## Buckets -/

section Buckets

open List

variable {ID : Type} {hash : ID → Hash} {own : Node hash}

structure BucketOk (own : Node hash) (i : Fin nBuckets) (b : List (Node hash)) : Prop where
  length_le : b.length ≤ bucketSize
  nodup : (b.map Node.id).Nodup
  place : ∀ n ∈ b, bucketIndex own n = i
  no_self : ∀ n ∈ b, n.id ≠ own.id

variable {b b' : List (Node hash)} {n : Node hash} {i : Fin nBuckets}

theorem BucketOk.sublist (h : BucketOk own i b) (hsub : b'.Sublist b) : BucketOk own i b' where
  length_le := le_trans hsub.length_le h.length_le
  nodup := h.nodup.sublist (hsub.map _)
  place n hn := h.place n (hsub.subset hn)
  no_self n hn := h.no_self n (hsub.subset hn)

theorem BucketOk.cons (h : BucketOk own i b) (hlt : b.length < bucketSize)
    (hnew : n.id ∉ b.map Node.id) (hself : n.id ≠ own.id) (hi : bucketIndex own n = i) :
    BucketOk own i (n :: b) where
  length_le := hlt
  nodup := nodup_cons.mpr ⟨hnew, h.nodup⟩
  place := forall_mem_cons.mpr ⟨hi, h.place⟩
  no_self := forall_mem_cons.mpr ⟨hself, h.no_self⟩

theorem BucketOk.concat (h : BucketOk own i b) (hlt : b.length < bucketSize)
    (hnew : n.id ∉ b.map Node.id) (hself : n.id ≠ own.id) (hi : bucketIndex own n = i) :
    BucketOk own i (b ++ [n]) := by
  have hcons := h.cons hlt hnew hself hi
  have hperm : (b ++ [n]).Perm (n :: b) := perm_append_singleton n b
  exact ⟨hperm.length_eq ▸ hcons.length_le, (hperm.map _).nodup_iff.mpr hcons.nodup,
    fun m hm => hcons.place m (hperm.mem_iff.mp hm),
    fun m hm => hcons.no_self m (hperm.mem_iff.mp hm)⟩

theorem bucketIndex_eq_of_id {m n : Node hash} (h : m.id = n.id) :
    bucketIndex own m = bucketIndex own n := by
  unfold bucketIndex
  rw [Fin.mk.injEq, m.sha_eq, n.sha_eq, h]

variable [DecidableEq ID]

structure Kademlia (own : Node hash) (s : Tab hash) : Prop where
  length_le : ∀ i, (s.buckets i).length ≤ bucketSize
  unique : ((finRange nBuckets).flatMap fun i => (s.buckets i).map Node.id).Nodup
  place : ∀ i, ∀ n ∈ s.buckets i, logDistance own.sha n.sha = i
  no_self : ∀ i, ∀ n ∈ s.buckets i, n.id ≠ own.id

theorem any_eq_true_iff : (b.any fun m => decide (m.id = n.id)) = true ↔ n.id ∈ b.map Node.id := by
  rw [any_eq_true, mem_map]
  exact exists_congr fun m => and_congr_right fun _ => decide_eq_true_iff

theorem length_bump (hb : bump b n = some b') : b'.length = b.length := by
  obtain ⟨j, hj, rfl⟩ := Option.map_eq_some_iff.mp hb
  rw [← eraseIdx_eq_take_drop_succ, length_cons]
  exact length_eraseIdx_add_one (findIdx?_eq_some_iff_getElem.mp hj).1

theorem bump_eq_none_iff : bump b n = none ↔ n.id ∉ b.map Node.id := by
  simp [bump, findIdx?_eq_none_iff]

theorem BucketOk.bump (h : BucketOk own i b) (hself : n.id ≠ own.id)
    (hi : bucketIndex own n = i) (hb : bump b n = some b') : BucketOk own i b' := by
  obtain ⟨j, hj, rfl⟩ := Option.map_eq_some_iff.mp hb
  obtain ⟨hlt, hid, -⟩ := findIdx?_eq_some_iff_getElem.mp hj
  rw [← eraseIdx_eq_take_drop_succ]
  have hperm := getElem_cons_eraseIdx_perm hlt
  have hnodup := (hperm.map Node.id).nodup_iff.mpr h.nodup
  rw [map_cons, nodup_cons, of_decide_eq_true hid] at hnodup
  have hlength : _ < b.length := (length_eraseIdx_add_one hlt).le
  exact (h.sublist (eraseIdx_sublist b j)).cons (hlength.trans_le h.length_le) hnodup.1 hself hi

theorem BucketOk.replace (h : BucketOk own i b) (hself : n.id ≠ own.id)
    (hi : bucketIndex own n = i) {last : Option (Node hash)}
    (hb : replace b n last = some b') : BucketOk own i b' := by
  obtain ⟨hany, hb⟩ := Option.ite_none_left_eq_some.mp hb
  obtain ⟨-, hb⟩ := Option.ite_none_left_eq_some.mp hb
  rw [any_eq_true_iff] at hany
  split_ifs at hb with hlt
  · cases hb
    exact h.cons hlt hany hself hi
  · cases hb
    -- the last node makes room
    have hpos : 0 < bucketSize := by decide
    have hle := h.length_le
    refine (h.sublist (dropLast_sublist b)).cons ?_ ?_ hself hi
    · rw [length_dropLast]
      omega
    · exact fun hmem => hany (((dropLast_sublist b).map _).subset hmem)

theorem kademlia_of_buckets {s : Tab hash} (h : ∀ i, BucketOk own i (s.buckets i)) :
    Kademlia own s where
  length_le i := (h i).length_le
  unique := by
    rw [nodup_flatMap]
    refine ⟨fun i _ => (h i).nodup, (nodup_finRange nBuckets).imp fun {i j} hij => ?_⟩
    intro id hidi hidj
    obtain ⟨m, hm, rfl⟩ := mem_map.mp hidi
    obtain ⟨n, hn, hmn⟩ := mem_map.mp hidj
    exact hij (((h i).place m hm).symm.trans
      ((bucketIndex_eq_of_id hmn.symm).trans ((h j).place n hn)))
  place i n hn := by
    rw [← logdist_eq]
    exact congrArg Fin.val ((h i).place n hn)
  no_self i := (h i).no_self

end Buckets

/-! ## Runs -/

section Runs

variable {ID : Type} [DecidableEq ID] {hash : ID → Hash} {own : Node hash}

def Phase.Foreign (own : Node hash) : Phase hash → Prop
  | .bonding known _ => ∀ n, known = some n → n.id ≠ own.id
  | .adding new => new.id ≠ own.id
  | .pinging new _ => new.id ≠ own.id
  | .returned => True

/-- The buckets are right, and neither a bonding process nor a call is about the local node. -/
structure Inv (own : Node hash) (s : Tab hash) : Prop where
  bucket : ∀ i, BucketOk own i (s.buckets i)
  proc : ∀ p ∈ s.procs, p.id ≠ own.id ∧ ∀ n, p.result = some (some n) → n.id ≠ own.id
  call : ∀ c ∈ s.calls, c.Foreign own

variable {s s' : Tab hash} {id : ID} {c : Phase hash} {pong : Bool}

theorem inv_newTable (db : NodeDB ID) (nextRef : ℕ) : Inv own (newTable db nextRef) where
  bucket _ := ⟨zero_le _, List.nodup_nil, nofun, nofun⟩
  proc := nofun
  call := nofun

variable (h : Inv own s)
include h

theorem Inv.setBucket {i : Fin nBuckets} {b : List (Node hash)}
    (hb : BucketOk own i b) : Inv own (s.setBucket i b) :=
  { h with bucket := (forall_update_iff _ (BucketOk own)).mpr ⟨hb, fun j _ => h.bucket j⟩ }

theorem Inv.setCall (call : ℕ) (hc : c.Foreign own) :
    Inv own { s with calls := s.calls.set call c } := by
  refine ⟨h.bucket, h.proc, fun d hd => ?_⟩
  rcases List.mem_or_eq_of_mem_set hd with hd | rfl
  · exact h.call d hd
  · exact hc

theorem Inv.returns (call : ℕ) : Inv own (s.returns call) := h.setCall call trivial

theorem Inv.newCall (hc : c.Foreign own) : Inv own { s with calls := s.calls ++ [c] } :=
  ⟨h.bucket, h.proc, List.forall_mem_append.mpr ⟨h.call, List.forall_mem_singleton.mpr hc⟩⟩

theorem Inv.newProc (hid : id ≠ own.id) : Inv own { s with procs := s.procs ++ [⟨id, none⟩] } :=
  ⟨h.bucket, List.forall_mem_append.mpr ⟨h.proc, List.forall_mem_singleton.mpr ⟨hid, nofun⟩⟩,
    h.call⟩

theorem Inv.bond_wait (hid : id ≠ own.id) {known : Option (Node hash)}
    (hknown : ∀ n, known = some n → n.id ≠ own.id) : Inv own (bond.wait id known s) := by
  unfold bond.wait
  cases s.bonding.lookup id with
  | some w => exact h.newCall hknown
  | none =>
    have hproc := h.newProc hid
    have hcall := hproc.newCall (c := .bonding known s.procs.length) hknown
    exact { hcall with }

omit h in
theorem id_of_dbNode {n : Node hash} (h : s.dbNode id = some n) : n.id = id := by
  obtain ⟨id', hid, rfl⟩ := Option.map_eq_some_iff.mp h
  exact s.db.keyed id id' hid

theorem Inv.bond (id : ID) (stale : Bool) : Inv own (bond own id stale s) := by
  unfold Discover.bond
  by_cases hid : id = own.id
  · rw [if_pos hid]
    exact h
  have hknown : ∀ n, s.dbNode id = some n → n.id ≠ own.id := fun n hn => id_of_dbNode hn ▸ hid
  have hnext : Inv own { s with nextRef := s.nextRef + 1 } := { h with }
  rw [if_neg hid]
  cases stale with
  | true => exact hnext.bond_wait hid hknown
  | false =>
    cases hdb : s.dbNode id with
    | none => exact hnext.bond_wait hid nofun
    | some n => exact hnext.newCall (c := .adding n) (hknown n hdb)

theorem Inv.pingpong {w : ℕ} (hs : pingpong w pong s = some s') : Inv own s' := by
  unfold Discover.pingpong at hs
  split at hs
  · rename_i id hw
    have hid := (h.proc _ (List.mem_of_getElem? hw)).1
    -- the result of the process is about its node
    have hset : ∀ result : Option (Node hash), (∀ n, result = some n → n.id = id) →
        ∀ p ∈ s.procs.set w ⟨id, some result⟩,
          p.id ≠ own.id ∧ ∀ n, p.result = some (some n) → n.id ≠ own.id := by
      intro result hresult p hp
      rcases List.mem_or_eq_of_mem_set hp with hp | rfl
      · exact h.proc p hp
      · exact ⟨hid, fun n hn => hresult n (Option.some.inj hn) ▸ hid⟩
    cases hs
    cases pong with
    | true => exact ⟨h.bucket, hset _ fun n hn => by cases hn; rfl, h.call⟩
    | false => exact ⟨h.bucket, hset none nofun, h.call⟩
  · cases hs

theorem Inv.unregister {w : ℕ} (hs : unregister w s = some s') : Inv own s' := by
  unfold Discover.unregister at hs
  split at hs
  · cases hs
    exact { h with }
  · cases hs

theorem Inv.bonded {call : ℕ} (hs : bonded call s = some s') : Inv own s' := by
  unfold Discover.bonded at hs
  split at hs
  · rename_i known w hcall
    split at hs
    · rename_i id result hw
      cases hs
      refine h.setCall call ?_
      have hresult := (h.proc _ (List.mem_of_getElem? hw)).2
      have hknown : ∀ n, known = some n → n.id ≠ own.id := h.call _ (List.mem_of_getElem? hcall)
      cases result with
      | some n => exact hresult n rfl
      | none =>
        cases known with
        | some n => exact hknown n rfl
        | none => trivial
    · cases hs
  · cases hs

theorem Inv.replaceIn {new : Node hash} (hnew : new.id ≠ own.id)
    (oldest : Option (Node hash)) : Inv own (replaceIn own new oldest s) := by
  unfold Discover.replaceIn
  dsimp only
  cases hb : replace (s.buckets (bucketIndex own new)) new oldest with
  | none => exact h
  | some b =>
    have hset := h.setBucket ((h.bucket _).replace hnew rfl hb)
    exact { hset with }

theorem Inv.add {call : ℕ} {alien : Bool} (hs : add own call alien s = some s') : Inv own s' := by
  unfold Discover.add at hs
  split at hs
  · rename_i new hcall
    have hnew : new.id ≠ own.id := h.call _ (List.mem_of_getElem? hcall)
    by_cases halien : alien = true
    · rw [if_pos halien] at hs
      cases hs
      exact h.returns call
    rw [if_neg halien] at hs
    cases hb : bump (s.buckets (bucketIndex own new)) new with
    | some b =>
      rw [hb] at hs
      cases hs
      exact (h.setBucket ((h.bucket _).bump hnew rfl hb)).returns call
    | none =>
      rw [hb] at hs
      split_ifs at hs with hfull
      · obtain ⟨oldest, -, rfl⟩ := Option.map_eq_some_iff.mp hs
        split_ifs
        · exact h.returns call
        · have hset := h.setCall call (c := .pinging new oldest) hnew
          exact { hset with }
      · cases hs
        exact (h.replaceIn hnew none).returns call
  · cases hs

theorem Inv.addContested {call : ℕ} (hs : addContested own call pong s = some s') : Inv own s' := by
  unfold Discover.addContested at hs
  split at hs
  · rename_i new oldest hcall
    have hnew : new.id ≠ own.id := h.call _ (List.mem_of_getElem? hcall)
    have hfree : Inv own { s with contested := update s.contested oldest.ref false } :=
      { h with }
    cases hs
    refine Inv.returns ?_ call
    cases pong with
    | true => exact hfree
    | false => exact hfree.replaceIn hnew (some oldest)
  · cases hs

theorem Inv.stuffOne (node : Node hash) : Inv own (stuffOne own s node) := by
  unfold Discover.stuffOne
  dsimp only
  split_ifs with hself hany hlt
  · exact h
  · exact h
  · have hset := h.setBucket ((h.bucket _).concat hlt (any_eq_true_iff.not.mp hany) hself rfl)
    exact { hset with }
  · exact h

omit h in
theorem Inv.stuff : ∀ (nodes : List (Node hash)) {s : Tab hash}, Inv own s →
    Inv own (stuff own nodes s)
  | [], _, h => h
  | node :: nodes, _, h => Inv.stuff nodes (h.stuffOne node)

theorem Inv.deleteWithNodeIdAndIndex (id : ID) (i : Fin nBuckets) :
    Inv own (deleteWithNodeIdAndIndex id i s) := by
  unfold Discover.deleteWithNodeIdAndIndex
  split
  · exact h
  · rename_i j hj
    have hsub := List.eraseIdx_sublist (s.buckets i) j
    rw [List.eraseIdx_eq_take_drop_succ] at hsub
    have hset := h.setBucket ((h.bucket i).sublist hsub)
    exact { hset with }

theorem Inv.DeleteWithNodeId (id : ID) : Inv own (DeleteWithNodeId id s) := by
  unfold Discover.DeleteWithNodeId
  split
  · exact h
  · exact h.deleteWithNodeIdAndIndex id _

omit h

theorem inv_step (a : Action hash) (h : Inv own s) (hs : step own s a = some s') : Inv own s' := by
  cases a with
  | bond id stale =>
    cases hs
    exact h.bond id stale
  | pingpong w pong => exact h.pingpong hs
  | unregister w => exact h.unregister hs
  | bonded call => exact h.bonded hs
  | add call alien => exact h.add hs
  | addContested call pong => exact h.addContested hs
  | stuff nodes =>
    cases hs
    exact h.stuff nodes
  | delete node =>
    cases hs
    exact h.deleteWithNodeIdAndIndex node.id _
  | DeleteWithNodeId id =>
    cases hs
    exact h.DeleteWithNodeId id
  | expireNode id =>
    cases hs
    exact { h with }

/-- **The buckets are as they should be, in every run.** -/
theorem kademlia_run (own : Node hash) (db : NodeDB ID) (nextRef : ℕ) (actions : List (Action hash))
    (s : Tab hash) (h : run (step own) (newTable db nextRef) actions = some s) :
    Kademlia own s := by
  have hinv : Inv own s := run_invariant (I := Inv own)
    (fun _ a _ hs ht => inv_step a hs ht) (inv_newTable db nextRef) h
  exact kademlia_of_buckets hinv.bucket

def sampleHash (id : ℕ) : Hash := Vector.ofFn fun i => if i = 0 then UInt8.ofNat id else 0

def sampleActions : List (Action sampleHash) :=
  [.stuff ((List.range 16).map fun i => NewNode i (128 + i)), .bond 150 false, .bond 0 true,
    .pingpong 0 true, .unregister 0, .bonded 0, .add 0 false, .DeleteWithNodeId 130,
    .addContested 0 false]

theorem kademlia_sample : ∃ s, run (step (NewNode 16 0))
      (newTable ⟨∅, nofun⟩ 17) sampleActions = some s ∧
    (s.buckets ⟨256, by decide⟩).map Node.id = 150 :: [128, 129] ++ List.range' 131 13 ∧
    Kademlia (NewNode 16 0) s :=
  exists_run (by decide +kernel) fun hs => ⟨by decide +kernel, kademlia_run _ _ _ _ _ hs⟩

end Runs

end XChain.Discover
