import XChain.Dkg.Config

/-!
# Nodes that vote agree on the group key

All nodes read one contract, each in its own order. Whatever was uploaded, the nodes that vote hold
one public polynomial and matching private shares.

* **`voted_shares_combine`**: the shares of the nodes that voted combine to the group secret,
  whatever was uploaded.
-/

namespace XChain.Vss

open Sharing GoText GoMap List Option Function

/-! ## One contract, read by many nodes -/

/-- What the contract holds while the nodes read it. A node index is an `int`. -/
structure Contract where
  vssConfigVersion : ℕ
  activeNodeList : List Address
  vssThreshold : ℕ
  vssNodeCount : ℕ
  vssNodeIndex : Address → ℤ
  nodesPubkey : Address → Bytes
  lastConfigUpload : Address → ℕ
  lastNodeChangeConfigVersion : ℕ
  publicShares : Address → Bytes
  privateShares : Address → Bytes
  abs_vssNodeIndex_le : ∀ addr ∈ activeNodeList, |vssNodeIndex addr| ≤ 2 ^ 63

/-- The orders of the maps of a node and the number of rounds before its timeouts. -/
structure Reading where
  pubRange : Ranging Address
  priRange : Ranging Address
  waits : ℕ
  pubRounds : ℕ
  priRounds : ℕ

def Contract.answers (C : Contract) (me : Address) (w : Reading) : Answers where
  vssConfigVersion := C.vssConfigVersion
  activeNodeList := C.activeNodeList
  listErr := false
  waitRounds :=
    replicate w.waits
      ⟨C.lastNodeChangeConfigVersion, C.vssThreshold, C.lastConfigUpload, false⟩ ++
    [⟨C.lastNodeChangeConfigVersion, C.vssThreshold, C.lastConfigUpload, true⟩]
  vssThreshold := C.vssThreshold
  vssNodeIndex := C.vssNodeIndex me
  vssNodeCount := C.vssNodeCount
  nodesPubkey := C.nodesPubkey
  lastConfigUploadBefore := C.lastConfigUpload
  lastConfigUploadAfter := C.lastConfigUpload
  publicShares := replicate (w.pubRounds + 1) C.publicShares
  privateShares := replicate (w.priRounds + 1) C.privateShares
  pubRange := w.pubRange
  priRange := w.priRange

theorem receiveShares_idem (gunzip : Bytes → Bytes) (active : List Address)
    (received : Address → Option Bytes) (answer : Address → Bytes) :
    receiveShares gunzip active (receiveShares gunzip active received answer) answer =
      receiveShares gunzip active received answer := by
  funext addr
  unfold receiveShares
  rcases received addr with _ | b
  · by_cases h : addr ∈ active ∧ 1 < (answer addr).length <;> simp [h]
  · rfl

theorem getVSSShares_replicate {gunzip : Bytes → Bytes} {active : List Address}
    {answer : Address → Bytes} {r : Address → Option Bytes} :
    ∀ {k : ℕ} {received : Address → Option Bytes},
      getVSSShares gunzip active received (replicate k answer) = some r →
      r = receiveShares gunzip active received answer
  | 0, _, h => by cases h
  | k + 1, received, h => by
    rw [replicate_succ, getVSSShares] at h
    split at h
    · cases h
      rfl
    · rw [getVSSShares_replicate h, receiveShares_idem]

theorem decodeShares_perm {V : Type} (R R' : Ranging Address) (active : List Address)
    (nodesPubkey : Address → Bytes) (received : Address → Option Bytes)
    (unmarshal : Bytes → Bytes → List (Share V)) :
    (decodeShares R active nodesPubkey received unmarshal).Perm
      (decodeShares R' active nodesPubkey received unmarshal) :=
  ((R.visit_perm _).trans (R'.visit_perm _).symm).filterMap _

/-! ## The public polynomial -/

section Agreement

variable {F P : Type} [AddCommGroup P]

variable {K : Crypto F P} {threshold totalN : ℤ} {L : List (List (PubShare P))} {g : List P}

theorem foldlM_recoverShares :
    ∀ {rest : List (List (PubShare P))} {p : List P},
      rest.foldlM (fun sum qs => (recoverShares K threshold totalN qs).bind (addPoly sum)) p =
        some g →
      ∃ qs, rest.map (recoverShares K threshold totalN) = qs.map some ∧ addAll p qs = some g
  | [], p, h => ⟨[], rfl, h⟩
  | ps :: rest, p, h => by
    rw [foldlM_cons] at h
    obtain ⟨sum, hsum, h⟩ := bind_eq_some_iff.mp h
    obtain ⟨q, hq, hadd⟩ := bind_eq_some_iff.mp hsum
    obtain ⟨qs, hqs, hall⟩ := foldlM_recoverShares h
    refine ⟨q :: qs, by rw [map_cons, map_cons, hq, hqs], ?_⟩
    rw [addAll, foldlM_cons, hadd]
    exact hall

theorem groupPublicPoly_eq_some (h : groupPublicPoly K threshold totalN L = some g) :
    ∃ p qs, L.map (recoverShares K threshold totalN) = (p :: qs).map some ∧
      addAll p qs = some g := by
  cases L with
  | nil => cases h
  | cons ps rest =>
    obtain ⟨p, hp, hfold⟩ := bind_eq_some_iff.mp h
    obtain ⟨qs, hqs, hall⟩ := foldlM_recoverShares hfold
    exact ⟨p, qs, by rw [map_cons, map_cons, hp, hqs], hall⟩

theorem groupPublicPoly_map {α : Type}
    {g : α → List (PubShare P)} {c : α → List P} {a : α} {as : List α}
    (h : ∀ x ∈ a :: as, recoverShares K threshold totalN (g x) = some (c x)) :
    groupPublicPoly K threshold totalN ((a :: as).map g) = addAll (c a) (as.map c) := by
  rw [map_cons, groupPublicPoly, h a mem_cons_self, bind_some]
  generalize c a = sum
  have has : ∀ x ∈ as, recoverShares K threshold totalN (g x) = some (c x) :=
    fun x hx => h x (mem_cons_of_mem _ hx)
  clear h
  induction as generalizing sum with
  | nil => rfl
  | cons x as ih =>
    rw [map_cons, map_cons, addAll, foldlM_cons, foldlM_cons, has x mem_cons_self, bind_some]
    exact congrArg _ (funext fun sum' => ih sum' fun y hy => has y (mem_cons_of_mem _ hy))

/-- **The public polynomial does not depend on the order of the senders.** -/
theorem groupPublicPoly_eq_of_perm
    {L L' : List (List (PubShare P))} {g g' : List P} (hperm : L.Perm L')
    (h : groupPublicPoly K threshold totalN L = some g)
    (h' : groupPublicPoly K threshold totalN L' = some g') : g = g' := by
  obtain ⟨p, qs, hL, hadd⟩ := groupPublicPoly_eq_some h
  obtain ⟨p', qs', hL', hadd'⟩ := groupPublicPoly_eq_some h'
  have hp : ((p :: qs).map some).Perm ((p' :: qs').map some) := by
    rw [← hL, ← hL']
    exact hperm.map _
  exact addAll_eq_of_perm ((map_perm_map_iff (some_injective _)).mp hp) hadd hadd'

theorem length_groupPublicPoly_le
    (hdeg : ∀ shares t n p, K.recoverPubPoly shares t n = some p → (p.length : ℤ) ≤ t)
    (h : groupPublicPoly K threshold totalN L = some g) : (g.length : ℤ) ≤ threshold := by
  obtain ⟨p, qs, hL, hadd⟩ := groupPublicPoly_eq_some h
  have hmem : some p ∈ L.map (recoverShares K threshold totalN) := by
    rw [hL]
    exact mem_cons_self
  obtain ⟨ps, -, hps⟩ := mem_map.mp hmem
  rw [← (addAll_eq_some hadd).1 p mem_cons_self]
  exact hdeg _ _ _ _ hps

/-! ## Any uploads -/

variable [Field F] [Module F P] [DecidableEq P]

/-- Node `j` voted for the key `b` after it read the contract in some way, with some VSS key and
some state before. -/
def VotedFor (K : Crypto F P) (C : Contract) (j : Address) (b : BLS F P) : Prop :=
  ∃ (vssKey : Bytes) (w : Reading) (s s' : DKG F P),
    updateVSSConfig K ⟨j, vssKey⟩ s (C.answers j w) = some (.vssConfigVote, s') ∧
      s'.vssSettings (Word64.toInt64 C.vssConfigVersion) = some b

/-- The public shares as they stand in the contract, decoded in the order in which it lists the
nodes. -/
def Contract.publicDecoded (K : Crypto F P) (C : Contract) : List (List (PubShare P)) :=
  (decodeShares Ranging.listed C.activeNodeList C.nodesPubkey
    (receiveShares K.gunzip C.activeNodeList (fun _ => none) C.publicShares)
    K.unmarshalPublicShares).map Prod.snd

theorem VotedFor.poly {C : Contract} {j : Address} {b : BLS F P}
    (h : VotedFor K C j b) :
    j ∈ C.activeNodeList ∧ ∃ L, L.Perm (C.publicDecoded K) ∧
      groupPublicPoly K (Word64.toInt64 C.vssThreshold) (Word64.toInt64 C.vssNodeCount) L =
        some b.groupPublicPoly ∧
      ∃ x, b.groupPrivateShare = some ⟨C.vssNodeIndex j, x⟩ ∧
        x • K.base = evalPoly (abscissa (F := F) (C.vssNodeIndex j)) b.groupPublicPoly := by
  obtain ⟨vssKey, w, s, s', hup, hb⟩ := h
  obtain ⟨hr, -⟩ | ⟨hr, -⟩ | ⟨hr, -⟩ | ⟨-, -, poly, share, hev, rfl⟩ := updateVSSConfig_cases hup
  · cases hr
  · cases hr
  · cases hr
  have hbeq : newBLS s (C.answers j w) poly share = b := by
    have hb' : update s.vssSettings (C.answers j w).version
        (some (newBLS s (C.answers j w) poly share)) (C.answers j w).version = some b := hb
    rw [update_self] at hb'
    exact some.inj hb'
  subst hbeq
  obtain ⟨hactive, pubshares, _, hpub, hcheck⟩ := evaluate_ne_recheck (by rw [hev]; exact nofun)
  obtain ⟨hpoly, hmatch⟩ := checkShares_eq_vote (hcheck.symm.trans hev)
  refine ⟨hactive, _, ?_, hpoly, share, rfl, hmatch.symm⟩
  rw [getVSSShares_replicate hpub]
  exact (decodeShares_perm _ _ _ _ _ _).map _

/-- **Voted key shares combine, whatever was uploaded.** -/
theorem voted_shares_combine (K : Crypto F P)
    (hdeg : ∀ shares t n p, K.recoverPubPoly shares t n = some p → (p.length : ℤ) ≤ t)
    (hF : ∀ i j : ℤ, |i| ≤ 2 ^ 63 → |j| ≤ 2 ^ 63 →
      (i : F) = (j : F) → i = j)
    (C : Contract) (S : Finset Address) (b : Address → BLS F P)
    (hvote : ∀ j ∈ S, VotedFor K C j (b j)) :
    ∃ poly : List P,
      (∀ j ∈ S, (b j).groupPublicPoly = poly ∧
        ∃ x, (b j).groupPrivateShare = some ⟨C.vssNodeIndex j, x⟩ ∧
          x • K.base = evalPoly (abscissa (F := F) (C.vssNodeIndex j)) poly) ∧
      ∀ T ⊆ S, (T.card : ℤ) = Word64.toInt64 C.vssThreshold → Set.InjOn C.vssNodeIndex T →
        ∀ share : Address → F,
          (∀ j ∈ T, (b j).groupPrivateShare = some ⟨C.vssNodeIndex j, share j⟩) →
          (Lagrange.interpolate T (fun j => abscissa (C.vssNodeIndex j)) share).eval 0 • K.base =
            commit poly := by
  rcases S.eq_empty_or_nonempty with rfl | ⟨i, hi⟩
  · refine ⟨[], fun j hj => absurd hj (Finset.notMem_empty j), fun T hT _ _ share _ => ?_⟩
    rw [Finset.subset_empty.mp hT]
    simp [commit]
  obtain ⟨-, Li, hLi, hgi, -⟩ := (hvote i hi).poly
  have hshare : ∀ j ∈ S, (b j).groupPublicPoly = (b i).groupPublicPoly ∧
      ∃ x, (b j).groupPrivateShare = some ⟨C.vssNodeIndex j, x⟩ ∧
        x • K.base = evalPoly (abscissa (F := F) (C.vssNodeIndex j)) (b i).groupPublicPoly := by
    intro j hj
    obtain ⟨-, Lj, hLj, hgj, x, hx, hmatch⟩ := (hvote j hj).poly
    have heq := groupPublicPoly_eq_of_perm (hLj.trans hLi.symm) hgj hgi
    exact ⟨heq, x, hx, heq ▸ hmatch⟩
  refine ⟨(b i).groupPublicPoly, hshare, fun T hT hcard hinj share hT' => ?_⟩
  have hlen : (b i).groupPublicPoly.length ≤ T.card := by
    have := length_groupPublicPoly_le hdeg hgi
    omega
  have habs : Set.InjOn (fun j => abscissa (F := F) (C.vssNodeIndex j)) T := by
    intro j hj k hk hjk
    exact hinj hj hk (hF _ _ (C.abs_vssNodeIndex_le j (hvote j (hT hj)).poly.1)
      (C.abs_vssNodeIndex_le k (hvote k (hT hk)).poly.1) (add_left_cancel hjk))
  refine interpolate_eval_zero_smul habs _ hlen K.base share fun j hj => ?_
  obtain ⟨-, x, hx, hmatch⟩ := hshare j (hT hj)
  rw [← hmatch]
  rw [hT' j hj] at hx
  cases hx
  rfl

end Agreement

/-! ### Two nodes -/

/-- Every node deals the polynomial `1 + x`. -/
def linearCrypto : Crypto ℚ ℚ where
  base := 1
  recoverPubPoly := fun shares t _ =>
    match shares.filterMap id with
    | r :: s :: _ => if 2 ≤ t then some [2 * r.V - s.V, s.V - r.V] else none
    | _ => none
  unmarshalPublicShares := fun _ _ => [⟨0, 2⟩, ⟨1, 3⟩]
  unmarshalPrivateShares := fun _ _ i _ => [⟨i, 2 + i⟩]
  gunzip := id

def nodeA : Address := .fill 1

def nodeB : Address := .fill 2

def pairContract : Contract where
  vssConfigVersion := 1
  activeNodeList := [nodeA, nodeB]
  vssThreshold := 2
  vssNodeCount := 2
  vssNodeIndex := fun a => if a = nodeA then 0 else 1
  nodesPubkey := fun _ => []
  lastConfigUpload := fun _ => 1
  lastNodeChangeConfigVersion := 1
  publicShares := fun _ => [0, 0]
  privateShares := fun _ => [0, 0]
  abs_vssNodeIndex_le := by decide

def pairKey (a : Address) : BLS ℚ ℚ where
  id := 0
  threshold := 2
  nodeIndex := pairContract.vssNodeIndex a
  n := 2
  totalN := 2
  groupPublicPoly := [2, 2]
  groupPrivateShare := some ⟨pairContract.vssNodeIndex a, 4 + 2 * pairContract.vssNodeIndex a⟩

theorem pair_voted : ∀ a ∈ [nodeA, nodeB], VotedFor linearCrypto pairContract a (pairKey a) := by
  have hrun : ∀ a ∈ [nodeA, nodeB], ((updateVSSConfig linearCrypto ⟨a, []⟩ (DKG.new ℚ ℚ)
      (pairContract.answers a ⟨Ranging.listed, Ranging.listed, 0, 0, 0⟩)).map fun r =>
        (r.1, r.2.vssSettings 1)) = some (.vssConfigVote, some (pairKey a)) := by
    decide +kernel
  intro a ha
  obtain ⟨⟨r, s'⟩, hup, heq⟩ := map_eq_some_iff.mp (hrun a ha)
  obtain ⟨rfl, hb⟩ := Prod.mk.inj heq
  exact ⟨[], _, _, s', hup, hb⟩

/-- The shares of both nodes together give the group secret. -/
theorem voted_shares_combine_pair :
    ∃ poly : List ℚ, (∀ a ∈ ({nodeA, nodeB} : Finset Address), (pairKey a).groupPublicPoly = poly) ∧
      (Lagrange.interpolate {nodeA, nodeB} (fun j => abscissa (pairContract.vssNodeIndex j))
        (fun j => (4 + 2 * pairContract.vssNodeIndex j : ℚ))).eval 0 • (1 : ℚ) = commit poly := by
  obtain ⟨poly, hpoly, hsecret⟩ := voted_shares_combine linearCrypto
    (fun shares t n p hp => by
      simp only [linearCrypto] at hp
      split at hp
      · obtain ⟨ht, heq⟩ := Option.ite_none_right_eq_some.mp hp
        exact some.inj heq ▸ ht
      · cases hp)
    (fun i j _ _ hij => by exact_mod_cast hij) pairContract {nodeA, nodeB} pairKey
    (fun a ha => pair_voted a (by simpa using ha))
  have hinj : Set.InjOn pairContract.vssNodeIndex ({nodeA, nodeB} : Finset Address) := by
    simp only [Set.InjOn, Finset.mem_coe]
    decide
  exact ⟨poly, fun a ha => (hpoly a ha).1, hsecret _ subset_rfl rfl hinj _ fun _ _ => rfl⟩

end XChain.Vss
