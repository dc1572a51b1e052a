import XChain.P2p.Kademlia

/-!
# The node table of topic discovery

`Table` of `p2p/discv5/table.go`. Its distance, nodes and `bump` are those of `p2p/discover`; a node
for which a bucket has no space waits in the replacements of the bucket, until `deleteReplace` takes
it. Nothing removes it from there when it is added itself.

* **`table_run`**: while no refill takes a node that is an entry, the buckets and `count` are right.
-/

namespace XChain.Discover.V5

open List Function StepMachine

variable {ID : Type} [DecidableEq ID] {hash : ID → Hash}

structure Bucket (hash : ID → Hash) where
  entries : List (Node hash)
  replacements : List (Node hash)

structure Table (hash : ID → Hash) where
  count : ℤ
  buckets : Fin nBuckets → Bucket hash

def newTable : Table hash := ⟨0, fun _ => ⟨[], []⟩⟩

/-- A bucket is written, and `count` changed by `d`. -/
def Table.set (s : Table hash) (i : Fin nBuckets) (b : Bucket hash) (d : ℤ) : Table hash :=
  ⟨s.count + d, update s.buckets i b⟩

variable (own : Node hash)

/-- `add`, with the contested node. -/
def add (n : Node hash) (s : Table hash) : Table hash × Option (Node hash) :=
  let i := bucketIndex own n
  let b := s.buckets i
  if n.id = own.id then (s, none)
  else match bump b.entries n with
    | some entries => (s.set i { b with entries } 0, none)
    | none =>
      if b.entries.length < bucketSize then
        (s.set i { b with entries := n :: b.entries } 1, none)
      else
        let replacements := b.replacements ++ [n]
        (s.set i { b with replacements := if bucketSize < replacements.length
          then replacements.tail else replacements } 0, b.entries.getLast?)

def stuffOne (s : Table hash) (n : Node hash) : Table hash :=
  let i := bucketIndex own n
  let b := s.buckets i
  if n.id = own.id then s
  else if b.entries.any fun m => decide (m.id = n.id) then s
  else if b.entries.length < bucketSize then
    s.set i { b with entries := b.entries ++ [n] } 1
  else s

def delete (node : Node hash) (s : Table hash) : Table hash :=
  let i := bucketIndex own node
  let b := s.buckets i
  match b.entries.findIdx? fun m => decide (m.id = node.id) with
  | none => s
  | some j => s.set i { b with entries := b.entries.eraseIdx j } (-1)

/-- The entries that the loop of `deleteReplace` leaves. -/
def Bucket.remaining (b : Bucket hash) (id : ID) : List (Node hash) :=
  b.entries.filter fun m => decide (m.id ≠ id)

/-- The node that `deleteReplace` takes from the replacements. -/
def Bucket.refill (b : Bucket hash) (id : ID) : Option (Node hash) :=
  if (b.remaining id).length < bucketSize then b.replacements.getLast? else none

def deleteReplace (node : Node hash) (s : Table hash) : Table hash :=
  let i := bucketIndex own node
  let b := s.buckets i
  let entries := b.remaining node.id
  let removed : ℤ := b.entries.length - entries.length
  match b.refill node.id with
  | none => s.set i { b with entries } (-removed)
  | some r => s.set i ⟨r :: entries, b.replacements.dropLast⟩ (-removed + 1)

inductive Action (hash : ID → Hash)
  | add (n : Node hash)
  | stuff (nodes : List (Node hash))
  | delete (node : Node hash)
  | deleteReplace (node : Node hash)

def step (s : Table hash) : Action hash → Option (Table hash)
  | .add n => some (add own n s).1
  | .stuff nodes => some (nodes.foldl (stuffOne own) s)
  | .delete node => some (delete own node s)
  | .deleteReplace node => some (deleteReplace own node s)

/-- The node of a refill is not an entry of the bucket. -/
def FreshRefill (s : Table hash) : Action hash → Bool
  | .deleteReplace node =>
    let b := s.buckets (bucketIndex own node)
    (b.refill node.id).all fun r => decide (r.id ∉ (b.remaining node.id).map Node.id)
  | _ => true

structure Bucket.Ok (i : Fin nBuckets) (b : Bucket hash) : Prop where
  entries : BucketOk own i b.entries
  length_le : b.replacements.length ≤ bucketSize
  cached : ∀ n ∈ b.replacements, n.id ≠ own.id ∧ bucketIndex own n = i

structure Inv (s : Table hash) : Prop where
  bucket : ∀ i, (s.buckets i).Ok own i
  count : s.count = ∑ i, ((s.buckets i).entries.length : ℤ)

variable {own} {s : Table hash} (h : Inv own s)
include h

omit [DecidableEq ID] in
theorem Inv.set {i : Fin nBuckets} {b : Bucket hash} {d : ℤ} (hb : b.Ok own i)
    (hd : (b.entries.length : ℤ) - (s.buckets i).entries.length = d) : Inv own (s.set i b d) where
  bucket := (forall_update_iff _ (Bucket.Ok own)).mpr ⟨hb, fun j _ => h.bucket j⟩
  count := by
    change s.count + d = ∑ j, ((update s.buckets i b j).entries.length : ℤ)
    rw [h.count, ← hd, ← eq_sub_iff_add_eq', ← Finset.sum_sub_distrib,
      Finset.sum_eq_single i (fun j _ hj => by rw [update_of_ne hj, sub_self]) (by simp),
      update_self]

theorem Inv.add (n : Node hash) : Inv own (add own n s).1 := by
  have hb := h.bucket (bucketIndex own n)
  unfold V5.add
  by_cases hself : n.id = own.id
  · rwa [if_pos hself]
  rw [if_neg hself]
  split
  · rename_i entries hbump
    refine h.set { hb with entries := hb.entries.bump hself rfl hbump } ?_
    rw [length_bump hbump, sub_self]
  · rename_i hbump
    split
    · rename_i hlt
      have hcons := hb.entries.cons hlt (bump_eq_none_iff.mp hbump) hself rfl
      exact h.set { hb with entries := hcons } (by simp)
    · -- the oldest of the replacements makes room
      have hcached := forall_mem_append.mpr ⟨hb.cached, forall_mem_singleton.mpr ⟨hself, rfl⟩⟩
      refine h.set ⟨hb.entries, ?_, ?_⟩ (sub_self _)
      · split_ifs with hfull
        · simpa using hb.length_le
        · exact not_lt.mp hfull
      · split_ifs
        · exact fun m hm => hcached m (mem_of_mem_tail hm)
        · exact hcached

theorem Inv.stuffOne (n : Node hash) : Inv own (stuffOne own s n) := by
  have hb := h.bucket (bucketIndex own n)
  unfold V5.stuffOne
  dsimp only
  split_ifs with hself hany hlt
  · exact h
  · exact h
  · have hconcat := hb.entries.concat hlt (any_eq_true_iff.not.mp hany) hself rfl
    exact h.set { hb with entries := hconcat } (by simp)
  · exact h

omit h in
theorem Inv.stuff : ∀ (nodes : List (Node hash)) {s : Table hash}, Inv own s →
    Inv own (nodes.foldl (V5.stuffOne own) s)
  | [], _, h => h
  | n :: nodes, _, h => Inv.stuff nodes (h.stuffOne n)

theorem Inv.delete (node : Node hash) : Inv own (delete own node s) := by
  have hb := h.bucket (bucketIndex own node)
  unfold V5.delete
  dsimp only
  split
  · exact h
  · rename_i j hj
    have hlength := length_eraseIdx_add_one (findIdx?_eq_some_iff_getElem.mp hj).1
    refine h.set { hb with entries := hb.entries.sublist (eraseIdx_sublist _ j) } ?_
    dsimp only
    omega

theorem Inv.deleteReplace (node : Node hash)
    (hfresh : FreshRefill own s (.deleteReplace node) = true) :
    Inv own (deleteReplace own node s) := by
  have hb := h.bucket (bucketIndex own node)
  have hrest : BucketOk own _ (Bucket.remaining _ node.id) := hb.entries.sublist filter_sublist
  unfold V5.deleteReplace
  dsimp only
  split
  · exact h.set { hb with entries := hrest } (neg_sub _ _).symm
  · rename_i r hr
    simp only [FreshRefill, hr, Option.all_some, decide_eq_true_iff] at hfresh
    obtain ⟨hlt, hlast⟩ := Option.ite_none_right_eq_some.mp hr
    obtain ⟨hself, hi⟩ := hb.cached r (mem_of_getLast? hlast)
    refine h.set ⟨hrest.cons hlt hfresh hself hi, ?_, ?_⟩ ?_
    · exact (dropLast_sublist _).length_le.trans hb.length_le
    · exact fun m hm => hb.cached m (mem_of_mem_dropLast hm)
    · rw [length_cons]
      omega

omit h

/-- **The buckets and `count` are right**, while no refill takes a node that is an entry. -/
theorem table_run (own : Node hash) (actions : List (Action hash)) (s : Table hash)
    (h : run (step own) newTable actions = some s)
    (hfresh : Along (step own) (fun s a => FreshRefill own s a = true) newTable actions) :
    Inv own s := by
  refine run_invariant_along (I := Inv own) (fun s a t hs hok ht => ?_) ?_ hfresh h
  · cases a <;> cases ht
    · exact hs.add _
    · exact .stuff _ hs
    · exact hs.delete _
    · exact hs.deleteReplace _ hok
  · exact ⟨fun _ => ⟨⟨Nat.zero_le _, nodup_nil, nofun, nofun⟩, Nat.zero_le _, nofun⟩,
      by simp [newTable]⟩

/-- A full bucket, and a node that waits for it. -/
def fullBucket : List (Action sampleHash) :=
  [.stuff ((range 16).map fun i => NewNode i (128 + i)), .add (NewNode 16 150)]

/-- It replaces a node that is deleted. -/
theorem table_run_refill : ∃ s, run (step (NewNode 17 0)) newTable
      (fullBucket ++ [.deleteReplace (NewNode 0 128)]) = some s ∧ Inv (NewNode 17 0) s :=
  ⟨_, rfl, table_run _ (fullBucket ++ [.deleteReplace (NewNode 0 128)]) _ rfl (by decide +kernel)⟩

/-- It is added after `delete`, and again by the next refill. -/
theorem entry_twice : (run (step (NewNode 17 0)) newTable (fullBucket ++
      [.delete (NewNode 0 128), .add (NewNode 16 150), .deleteReplace (NewNode 1 129)])).map
    (fun s => ((s.buckets ⟨256, by decide⟩).entries.map Node.id).count 150) = some 2 := by
  decide +kernel

end XChain.Discover.V5
