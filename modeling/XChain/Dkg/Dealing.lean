import XChain.Dkg.Agreement

/-!
# An honest round of sharing

Every active node uploads the shares of a polynomial, padded with placeholders for the indices that
are not active.

* **`honest_dealing_agreement`**: every active node votes for the sum of the polynomials, with the
  sum of its shares, and threshold many shares interpolate to the sum of the secrets.
-/

namespace XChain.Vss

open Sharing GoText GoMap Function Word64 Ranging

/-! ## Uploads -/

/-- What was uploaded is read back, of the private shares a node's own. -/
structure Codec (F P : Type) where
  base : P
  gzip : Bytes → Bytes
  gunzip : Bytes → Bytes
  publicKey : Bytes → Bytes
  marshalPublicShares : List (PubShare P) → Bytes → Bytes
  unmarshalPublicShares : Bytes → Bytes → List (PubShare P)
  marshalPrivateShares : List (PriShare F) → (ℤ → Option Bytes) → Bytes → Bytes
  unmarshalPrivateShares : Bytes → Bytes → ℤ → Bytes → List (PriShare F)
  one_lt_length_gzip : ∀ b, 1 < (gzip b).length
  gunzip_gzip : ∀ b, gunzip (gzip b) = b
  public_read : ∀ shares key,
    (unmarshalPublicShares (marshalPublicShares shares key) (publicKey key)).filter
      (fun s => decide (0 ≤ s.I)) = shares.filter fun s => decide (0 ≤ s.I)
  private_read : ∀ shares keys key own i, keys i = some (publicKey own) →
    (unmarshalPrivateShares (marshalPrivateShares shares keys key) own i (publicKey key)).filter
      (fun s => decide (s.I = i)) = shares.filter fun s => decide (s.I = i)

def sharesUpTo {V : Type} (n : ℕ) (f : ℤ → V) : List (Share V) :=
  (List.range n).map fun i : ℕ => ⟨i, f i⟩

/-- The shares of the active indices in the order of the map, then placeholders of index `-1`. -/
def uploadShares {V : Type} (indices : List ℤ) (n totalN : ℕ) (shares : List (Share V))
    (empty : V) : List (Share V) :=
  (indices.flatMap fun i => shares.filter fun s => decide (s.I = i)) ++
    List.replicate (totalN - n) ⟨-1, empty⟩

theorem filter_eq_singleton {α : Type} [DecidableEq α] {l : List α} {a : α} (hl : l.Nodup)
    (ha : a ∈ l) : (l.filter fun x => decide (x = a)) = [a] := by
  have h : l.filter (fun x => x == a) = List.replicate (l.count a) a := List.filter_beq _
  rw [List.count_eq_one_of_mem hl ha] at h
  simpa [beq_eq_decide] using h

variable {V : Type} {f : ℤ → V} {m n : ℕ} {empty : V}

open List

theorem filter_sharesUpTo {n : ℕ} {i : ℤ} (f : ℤ → V) (h0 : 0 ≤ i) (hn : i < n) :
    (sharesUpTo n f).filter (fun s => decide (s.I = i)) = [⟨i, f i⟩] := by
  obtain ⟨m, rfl⟩ := Int.eq_ofNat_of_zero_le h0
  have hm : m ∈ range n := mem_range.mpr (by omega)
  have hfilter := filter_eq_singleton nodup_range hm
  simp only [sharesUpTo, filter_map, comp_def, Int.ofNat_inj]
  rw [hfilter, map_singleton]

theorem uploadShares_kept {indices : List ℤ} (h : ∀ i ∈ indices, 0 ≤ i ∧ i < n) :
    (uploadShares indices m n (sharesUpTo n f) empty).filter (fun s => decide (0 ≤ s.I)) =
      indices.map fun i => ⟨i, f i⟩ := by
  have hflat : (indices.flatMap fun i => (sharesUpTo n f).filter fun s => decide (s.I = i)) =
      indices.map fun i => ⟨i, f i⟩ := by
    rw [map_eq_flatMap]
    exact flatMap_congr fun i hi => filter_sharesUpTo f (h i hi).1 (h i hi).2
  rw [uploadShares, hflat, filter_append, filter_eq_self.mpr, filter_eq_nil_iff.mpr, append_nil]
  · intro s hs
    rw [eq_of_mem_replicate hs]
    simp
  · intro s hs
    obtain ⟨i, hi, rfl⟩ := mem_map.mp hs
    simpa using (h i hi).1

theorem uploadShares_own {indices : List ℤ} {i : ℤ} (h : ∀ i ∈ indices, 0 ≤ i ∧ i < n)
    (hnd : indices.Nodup) (hi : i ∈ indices) :
    (uploadShares indices m n (sharesUpTo n f) empty).filter (fun s => decide (s.I = i)) =
      [⟨i, f i⟩] := by
  have hall : (uploadShares indices m n (sharesUpTo n f) empty).filter
      (fun s => decide (0 ≤ s.I)) = indices.map fun i => ⟨i, f i⟩ := uploadShares_kept h
  have hkept := congrArg (filter fun s : Share V => decide (s.I = i)) hall
  rw [filter_filter, filter_map] at hkept
  simp only [comp_def, filter_eq_singleton hnd hi, map_singleton] at hkept
  rw [← hkept]
  refine filter_congr fun s _ => ?_
  by_cases hs : s.I = i <;> simp [hs, (h i hi).1]

/-- Every active node `i` uploads the shares of a polynomial `coeffs i`. -/
structure Dealing (F P : Type) where
  activeNodeList : List Address
  vssNodeIndex : Address → ℤ
  vssThreshold : ℕ
  vssNodeCount : ℕ
  vssConfigVersion : ℕ
  lastNodeChangeConfigVersion : ℕ
  lastConfigUpload : Address → ℕ
  coeffs : Address → List F
  vssKey : Address → Bytes
  emptyPoint : P
  uploadPubRange : Address → Ranging Address
  uploadPriRange : Address → Ranging Address
  nodup : activeNodeList.Nodup
  threshold_le : vssThreshold ≤ activeNodeList.length
  index_nonneg : ∀ a ∈ activeNodeList, 0 ≤ vssNodeIndex a
  index_lt : ∀ a ∈ activeNodeList, vssNodeIndex a < vssNodeCount
  index_inj : ∀ a ∈ activeNodeList, ∀ b ∈ activeNodeList, vssNodeIndex a = vssNodeIndex b → a = b
  count_lt : vssNodeCount < 2 ^ 63
  length_coeffs : ∀ a ∈ activeNodeList, (coeffs a).length = vssThreshold
  uploaded : ∀ a ∈ activeNodeList, lastNodeChangeConfigVersion ≤ lastConfigUpload a

namespace Dealing

section Indices

variable {F P : Type}

def indices (D : Dealing F P) (range : Ranging Address) : List ℤ :=
  (range.visit D.activeNodeList).map D.vssNodeIndex

theorem indices_bounds (D : Dealing F P) (R : Ranging Address) :
    ∀ i ∈ D.indices R, 0 ≤ i ∧ i < D.vssNodeCount := by
  intro i hi
  obtain ⟨a, ha, rfl⟩ := mem_map.mp hi
  have ha' := (R.visit_perm _).mem_iff.mp ha
  exact ⟨D.index_nonneg a ha', D.index_lt a ha'⟩

theorem nodup_indices (D : Dealing F P) (R : Ranging Address) : (D.indices R).Nodup := by
  refine List.Nodup.map_on (fun a ha b hb => ?_) ((R.visit_perm _).nodup_iff.mpr D.nodup)
  exact D.index_inj a ((R.visit_perm _).mem_iff.mp ha) b ((R.visit_perm _).mem_iff.mp hb)

theorem index_mem_indices (D : Dealing F P) (R : Ranging Address) {a : Address}
    (ha : a ∈ D.activeNodeList) : D.vssNodeIndex a ∈ D.indices R :=
  mem_map.mpr ⟨a, (R.visit_perm _).mem_iff.mpr ha, rfl⟩

theorem length_le_count (D : Dealing F P) : D.activeNodeList.length ≤ D.vssNodeCount := by
  have hsub : D.indices listed ⊆ (range D.vssNodeCount).map Int.ofNat := by
    intro i hi
    obtain ⟨h0, hlt⟩ := D.indices_bounds _ i hi
    exact mem_map.mpr ⟨i.toNat, mem_range.mpr (by omega), Int.toNat_of_nonneg h0⟩
  have hle := ((D.nodup_indices listed).subperm hsub).length_le
  simpa [indices, listed] using hle

end Indices

end Dealing

/-! ## Reading the uploads back -/

variable {gunzip : Bytes → Bytes} {active : List Address} {answer : Address → Bytes}

theorem receivedFrom_eq
    (hnd : active.Nodup) (h : ∀ a ∈ active, 1 < (answer a).length) :
    receivedFrom active (receiveShares gunzip active (fun _ => none) answer) = active := by
  rw [receivedFrom, hnd.dedup, filter_eq_self]
  intro a ha
  simp [receiveShares, ha, h a ha]

theorem getVSSShares_eq
    (hnd : active.Nodup) (h : ∀ a ∈ active, 1 < (answer a).length) (k : ℕ) :
    getVSSShares gunzip active (fun _ => none) (replicate (k + 1) answer) =
      some (receiveShares gunzip active (fun _ => none) answer) := by
  rw [replicate_succ, getVSSShares, if_pos]
  rw [receivedFrom_eq hnd h]

theorem decodeShares_eq (hnd : active.Nodup) (h : ∀ a ∈ active, 1 < (answer a).length)
    (R : Ranging Address) (nodesPubkey : Address → Bytes)
    (unmarshal : Bytes → Bytes → List (Share V)) :
    decodeShares R active nodesPubkey
        (receiveShares gunzip active (fun _ => none) answer) unmarshal =
      (R.visit active).map fun a => (a, unmarshal (gunzip (answer a)) (nodesPubkey a)) := by
  rw [decodeShares, receivedFrom_eq hnd h, ← filterMap_eq_map]
  refine filterMap_congr fun a ha => ?_
  have ha' : a ∈ active := (R.visit_perm active).mem_iff.mp ha
  simp [receiveShares, ha', h a ha']

theorem lookup_map_key (g : Address → V) {l : List Address} {a : Address} (h : a ∈ l) :
    (l.map fun x => (x, g x)).lookup a = some (g a) := by
  induction l with
  | nil => cases h
  | cons x l ih =>
    rw [map_cons, lookup_cons]
    by_cases hx : a = x
    · simp [hx]
    · rw [beq_false_of_ne hx]
      exact ih ((mem_cons.mp h).resolve_left hx)

section Honest

variable {F P : Type} [Field F] [AddCommGroup P] [Module F P]

noncomputable def Codec.crypto (codec : Codec F P) : Crypto F P where
  base := codec.base
  recoverPubPoly := fun shares t _ => if t < 0 then none else recoverPubPoly F shares t.toNat
  unmarshalPublicShares := codec.unmarshalPublicShares
  unmarshalPrivateShares := codec.unmarshalPrivateShares
  gunzip := codec.gunzip

namespace Dealing

def publicUpload (D : Dealing F P) (base : P) (a : Address) : List (PubShare P) :=
  uploadShares (D.indices (D.uploadPubRange a)) D.activeNodeList.length D.vssNodeCount
    (sharesUpTo D.vssNodeCount fun i =>
      evalPoly (abscissa (F := F) i) ((D.coeffs a).map (· • base)))
    D.emptyPoint

def privateUpload (D : Dealing F P) (a : Address) : List (PriShare F) :=
  uploadShares (D.indices (D.uploadPriRange a)) D.activeNodeList.length D.vssNodeCount
    (sharesUpTo D.vssNodeCount fun i => evalPoly (abscissa (F := F) i) (D.coeffs a)) 0

def indexPublicKeys (D : Dealing F P) (codec : Codec F P) (i : ℤ) : Option Bytes :=
  (D.activeNodeList.find? fun a => D.vssNodeIndex a = i).map fun a => codec.publicKey (D.vssKey a)

def contract (D : Dealing F P) (codec : Codec F P) : Contract where
  vssConfigVersion := D.vssConfigVersion
  activeNodeList := D.activeNodeList
  vssThreshold := D.vssThreshold
  vssNodeCount := D.vssNodeCount
  vssNodeIndex := D.vssNodeIndex
  nodesPubkey := fun a => codec.publicKey (D.vssKey a)
  lastConfigUpload := D.lastConfigUpload
  lastNodeChangeConfigVersion := D.lastNodeChangeConfigVersion
  publicShares := fun a =>
    codec.gzip (codec.marshalPublicShares (D.publicUpload codec.base a) (D.vssKey a))
  privateShares := fun a =>
    codec.gzip (codec.marshalPrivateShares (D.privateUpload a) (D.indexPublicKeys codec)
      (D.vssKey a))
  abs_vssNodeIndex_le := fun a ha => by
    have := D.index_nonneg a ha
    have := D.index_lt a ha
    have := D.count_lt
    rw [abs_le]
    omega

def groupCoeffs (D : Dealing F P) : List F :=
  (range D.vssThreshold).map fun k =>
    ∑ a ∈ D.activeNodeList.toFinset, (D.coeffs a).getD k 0

def groupShare (D : Dealing F P) (j : Address) : F :=
  ∑ a ∈ D.activeNodeList.toFinset, evalPoly (abscissa (F := F) (D.vssNodeIndex j)) (D.coeffs a)

omit [AddCommGroup P] [Module F P] in
theorem evalPoly_groupCoeffs (D : Dealing F P) (x : F) :
    evalPoly x D.groupCoeffs = ∑ a ∈ D.activeNodeList.toFinset, evalPoly x (D.coeffs a) := by
  have hlen : ∀ a ∈ D.activeNodeList.toFinset, evalPoly x (D.coeffs a) =
      ∑ k ∈ Finset.range D.vssThreshold, x ^ k • (D.coeffs a).getD k 0 := fun a ha =>
    evalPoly_eq_sum x _ _ (D.length_coeffs a (mem_toFinset.mp ha)).le
  rw [Finset.sum_congr rfl hlen, Finset.sum_comm,
    evalPoly_eq_sum x D.groupCoeffs D.vssThreshold (by simp [groupCoeffs])]
  refine Finset.sum_congr rfl fun k hk => ?_
  rw [← Finset.smul_sum]
  simp [groupCoeffs, Finset.mem_range.mp hk]

/-! ### What node `j` decodes -/

def publicDecoded (D : Dealing F P) (codec : Codec F P) (a : Address) : List (PubShare P) :=
  codec.unmarshalPublicShares
    (codec.marshalPublicShares (D.publicUpload codec.base a) (D.vssKey a))
    (codec.publicKey (D.vssKey a))

def privateDecoded (D : Dealing F P) (codec : Codec F P) (j a : Address) : List (PriShare F) :=
  codec.unmarshalPrivateShares
    (codec.marshalPrivateShares (D.privateUpload a) (D.indexPublicKeys codec) (D.vssKey a))
    (D.vssKey j) (D.vssNodeIndex j) (codec.publicKey (D.vssKey a))

variable {codec : Codec F P} {D : Dealing F P} {j : Address}

theorem publicDecoded_kept (a : Address) :
    (D.publicDecoded codec a).filter (fun s => decide (0 ≤ s.I)) =
      (D.indices (D.uploadPubRange a)).map fun i =>
        ⟨i, evalPoly (abscissa (F := F) i) ((D.coeffs a).map (· • codec.base))⟩ := by
  rw [publicDecoded, codec.public_read]
  exact uploadShares_kept (D.indices_bounds _)

theorem publicDecoded_own {a j : Address} (hj : j ∈ D.activeNodeList) :
    (D.publicDecoded codec a).filter (fun s => decide (s.I = D.vssNodeIndex j)) =
      [⟨D.vssNodeIndex j,
        evalPoly (abscissa (F := F) (D.vssNodeIndex j)) ((D.coeffs a).map (· • codec.base))⟩] := by
  have hnonneg := D.index_nonneg j hj
  have hown : (D.publicDecoded codec a).filter (fun s => decide (s.I = D.vssNodeIndex j)) =
      ((D.publicDecoded codec a).filter fun s => decide (0 ≤ s.I)).filter
        fun s => decide (s.I = D.vssNodeIndex j) := by
    rw [filter_filter]
    refine filter_congr fun s _ => ?_
    by_cases hs : s.I = D.vssNodeIndex j <;> simp [hs, hnonneg]
  rw [hown, publicDecoded_kept, filter_map]
  simp only [comp_def]
  rw [filter_eq_singleton (D.nodup_indices _) (D.index_mem_indices _ hj), map_singleton]

omit [AddCommGroup P] [Module F P] in
theorem privateDecoded_own {a j : Address} (hj : j ∈ D.activeNodeList) :
    (D.privateDecoded codec j a).filter (fun s => decide (s.I = D.vssNodeIndex j)) =
      [⟨D.vssNodeIndex j, evalPoly (abscissa (F := F) (D.vssNodeIndex j)) (D.coeffs a)⟩] := by
  have hkey : D.indexPublicKeys codec (D.vssNodeIndex j) = some (codec.publicKey (D.vssKey j)) := by
    unfold indexPublicKeys
    rcases hfind : D.activeNodeList.find? fun a => D.vssNodeIndex a = D.vssNodeIndex j with _ | b
    · exact absurd (find?_eq_none.mp hfind j hj) (by simp)
    · have hb := find?_some hfind
      rw [D.index_inj b (mem_of_find?_eq_some hfind) j hj (by simpa using hb)]
      rfl
  rw [privateDecoded, codec.private_read _ _ _ _ _ hkey]
  exact uploadShares_own (D.indices_bounds _) (D.nodup_indices _) (D.index_mem_indices _ hj)

/-! ### The checks pass -/

theorem recoverShares_upload {a : Address} (ha : a ∈ D.activeNodeList)
    (hF : Set.InjOn (abscissa (F := F)) {i | 0 ≤ i ∧ i < D.vssNodeCount}) (totalN : ℤ) :
    recoverShares codec.crypto D.vssThreshold totalN (D.publicDecoded codec a) =
      some ((D.coeffs a).map (· • codec.base)) := by
  have hkept : (((D.publicDecoded codec a).map fun s => if s.I < 0 then none else some s).filterMap
      id).filter (fun s => decide (0 ≤ s.I)) = (D.indices (D.uploadPubRange a)).map fun i =>
        ⟨i, evalPoly (abscissa (F := F) i) ((D.coeffs a).map (· • codec.base))⟩ := by
    rw [← publicDecoded_kept, filterMap_map, filter_filterMap, ← filterMap_eq_filter]
    refine filterMap_congr fun s _ => ?_
    by_cases hs : s.I < 0
    · simp [hs, Option.guard]
    · simp [hs, not_lt.mp hs]
  have hlen : ((D.coeffs a).map (· • codec.base)).length = D.vssThreshold := by
    rw [length_map, D.length_coeffs a ha]
  have hle : ((D.coeffs a).map (· • codec.base)).length ≤ ((D.indices (D.uploadPubRange a)).map
      fun i => (⟨i, evalPoly (abscissa (F := F) i) ((D.coeffs a).map (· • codec.base))⟩ :
        Share P)).length := by
    rw [hlen, length_map, indices, length_map, ((D.uploadPubRange a).visit_perm _).length_eq]
    exact D.threshold_le
  have hrec := recoverPubPoly_eq (F := F) hkept
    (by simpa [comp_def] using D.nodup_indices (D.uploadPubRange a)) hle
    (hF.mono fun i ⟨s, hs, hi⟩ => by
      obtain ⟨k, hk, rfl⟩ := mem_map.mp hs
      exact hi ▸ D.indices_bounds _ k hk)
    (fun s hs => by
      obtain ⟨k, -, rfl⟩ := mem_map.mp hs
      rfl)
  rw [hlen] at hrec
  simpa [recoverShares, Codec.crypto] using hrec

theorem groupPublicPoly_upload (hne : D.activeNodeList ≠ [])
    (hF : Set.InjOn (abscissa (F := F)) {i | 0 ≤ i ∧ i < D.vssNodeCount}) (R : Ranging Address)
    (totalN : ℤ) :
    groupPublicPoly codec.crypto D.vssThreshold totalN
      ((R.visit D.activeNodeList).map (D.publicDecoded codec)) =
        some (D.groupCoeffs.map (· • codec.base)) := by
  have hperm := R.visit_perm D.activeNodeList
  rcases hvisit : R.visit D.activeNodeList with _ | ⟨a, as⟩
  · rw [hvisit] at hperm
    exact absurd hperm.nil_eq.symm hne
  rw [hvisit] at hperm
  have hmem : ∀ x ∈ a :: as, x ∈ D.activeNodeList := fun x hx => hperm.mem_iff.mp hx
  rw [groupPublicPoly_map fun x hx => recoverShares_upload (hmem x hx) hF totalN]
  have hlen : ∀ q ∈ (a :: as).map fun x => (D.coeffs x).map (· • codec.base),
      q.length = D.vssThreshold := by
    intro q hq
    obtain ⟨x, hx, rfl⟩ := mem_map.mp hq
    rw [length_map, D.length_coeffs x (hmem x hx)]
  obtain ⟨g, hg⟩ := exists_addAll hlen
  rw [hg]
  obtain ⟨hglen, hsum⟩ := addAll_eq_some hg
  have hgl : g.length = D.vssThreshold := (hglen _ mem_cons_self).symm.trans (hlen _ mem_cons_self)
  refine congrArg some (ext_getElem (by simp [hgl, groupCoeffs]) fun k hk hk' => ?_)
  have hcoef : ∀ x : Address, ((D.coeffs x).map (· • codec.base)).getD k 0 =
      (D.coeffs x).getD k 0 • codec.base := by
    intro x
    rw [← zero_smul F codec.base, getD_map]
  rw [← getD_eq_getElem g 0 hk, hsum k, ← map_cons (f := fun x =>
    (D.coeffs x).map (· • codec.base)), map_map]
  simp only [comp_def, hcoef, getElem_map, groupCoeffs, getElem_range]
  rw [Finset.sum_smul, sum_toFinset _ D.nodup]
  exact (hperm.map _).sum_eq

variable (hj : j ∈ D.activeNodeList)
include hj

omit [AddCommGroup P] [Module F P] in
theorem groupPrivateShare_upload (R : Ranging Address) :
    groupPrivateShare (D.vssNodeIndex j)
      ((R.visit D.activeNodeList).map (D.privateDecoded codec j)) = D.groupShare j := by
  rw [groupPrivateShare, ← flatMap_def, filter_flatMap]
  simp only [privateDecoded_own hj]
  rw [← map_eq_flatMap, map_map, groupShare, sum_toFinset _ D.nodup]
  exact ((R.visit_perm _).map _).sum_eq

variable [DecidableEq P]

theorem verifyShares_eq_nil (R R' : Ranging Address) :
    verifyShares (F := F) codec.base (D.vssNodeIndex j)
      ((R.visit D.activeNodeList).map fun a => (a, D.publicDecoded codec a))
      ((R'.visit D.activeNodeList).map fun a => (a, D.privateDecoded codec j a)) = [] := by
  rw [verifyShares, filterMap_map, filterMap_eq_nil_iff]
  intro a ha
  have ha' : a ∈ R'.visit D.activeNodeList :=
    (R'.visit_perm _).mem_iff.mpr ((R.visit_perm _).mem_iff.mp ha)
  simp only [comp_apply, publicDecoded_own hj, flatMap_singleton,
    lookup_map_key _ ha', Option.getD_some]
  rw [filter_eq_nil_iff.mpr]
  · rfl
  intro s hs hbad
  obtain ⟨hI, hV⟩ := of_decide_eq_true hbad
  have hmem : s ∈ (D.privateDecoded codec j a).filter
      fun s => decide (s.I = D.vssNodeIndex j) := mem_filter.mpr ⟨hs, decide_eq_true hI⟩
  rw [privateDecoded_own hj, mem_singleton] at hmem
  exact hV (by rw [hmem, evalPoly_map_smul])

theorem evaluate_eq_vote (hF : Set.InjOn (abscissa (F := F)) {i | 0 ≤ i ∧ i < D.vssNodeCount})
    (w : Reading) :
    evaluate codec.crypto ⟨j, D.vssKey j⟩ ((D.contract codec).answers j w) =
      .vote (D.groupCoeffs.map (· • codec.base)) (D.groupShare j) := by
  have hle := D.threshold_le
  have hcount := D.length_le_count
  have hlt := D.count_lt
  have hthreshold : toInt64 D.vssThreshold = D.vssThreshold := toInt64_of_lt (by omega)
  have hpub : ∀ a ∈ D.activeNodeList, 1 < ((D.contract codec).publicShares a).length :=
    fun _ _ => codec.one_lt_length_gzip _
  have hpri : ∀ a ∈ D.activeNodeList, 1 < ((D.contract codec).privateShares a).length :=
    fun _ _ => codec.one_lt_length_gzip _
  have hpubs : decodeShares w.pubRange D.activeNodeList (D.contract codec).nodesPubkey
      (receiveShares codec.gunzip D.activeNodeList (fun _ => none) (D.contract codec).publicShares)
      codec.unmarshalPublicShares =
        (w.pubRange.visit D.activeNodeList).map fun a => (a, D.publicDecoded codec a) := by
    rw [decodeShares_eq D.nodup hpub]
    simp only [contract, codec.gunzip_gzip, publicDecoded]
  have hpris : decodeShares w.priRange D.activeNodeList (D.contract codec).nodesPubkey
      (receiveShares codec.gunzip D.activeNodeList (fun _ => none) (D.contract codec).privateShares)
      (fun shares pubkey =>
        codec.unmarshalPrivateShares shares (D.vssKey j) (D.vssNodeIndex j) pubkey) =
        (w.priRange.visit D.activeNodeList).map fun a => (a, D.privateDecoded codec j a) := by
    rw [decodeShares_eq D.nodup hpri]
    simp only [contract, codec.gunzip_gzip, privateDecoded]
  have hsum : groupPrivateShare (D.vssNodeIndex j) (((w.priRange.visit D.activeNodeList).map
      fun a => (a, D.privateDecoded codec j a)).map Prod.snd) = D.groupShare j := by
    rw [map_map]
    exact groupPrivateShare_upload hj w.priRange
  have hpoly : groupPublicPoly codec.crypto D.vssThreshold (toInt64 D.vssNodeCount)
      (((w.pubRange.visit D.activeNodeList).map fun a => (a, D.publicDecoded codec a)).map
        Prod.snd) = some (D.groupCoeffs.map (· • codec.base)) := by
    rw [map_map]
    exact groupPublicPoly_upload (ne_nil_of_mem hj) hF w.pubRange _
  have hmatch : evalPoly (abscissa (F := F) (D.vssNodeIndex j))
      (D.groupCoeffs.map (· • codec.base)) =
      groupPrivateShare (D.vssNodeIndex j) (((w.priRange.visit D.activeNodeList).map
        fun a => (a, D.privateDecoded codec j a)).map Prod.snd) • codec.base := by
    rw [evalPoly_map_smul, evalPoly_groupCoeffs, hsum]
    rfl
  have hcheck := checkShares_of_match (K := codec.crypto)
    (verifyShares_eq_nil hj w.pubRange w.priRange) hpoly hmatch
  rw [hsum, ← hthreshold, ← hpubs, ← hpris] at hcheck
  refine (evaluate_eq_checkShares hj ?_ (getVSSShares_eq D.nodup hpub _)
    (getVSSShares_eq D.nodup hpri _) fun _ _ => rfl).trans hcheck
  change toInt64 D.vssThreshold ≤ (D.activeNodeList.length : ℤ)
  omega

omit hj

omit [Field F] [AddCommGroup P] [Module F P] [DecidableEq P] in
theorem waitForUploads_eq (rs : List WaitRound) (timedOut : Bool) :
    waitForUploads D.activeNodeList
      (⟨D.lastNodeChangeConfigVersion, D.vssThreshold, D.lastConfigUpload, timedOut⟩ :: rs) =
        some true := by
  rw [waitForUploads, if_pos]
  rw [WaitRound.nodeUptoDateCount, countP_eq_length]
  intro a ha
  exact decide_eq_true (D.uploaded a ha)

omit [DecidableEq P] in
theorem shouldUpdateVSSConfig_eq {currentConfigVersion : ℤ} (j : Address) (w : Reading)
    (hold : currentConfigVersion < toInt64 D.vssConfigVersion) :
    shouldUpdateVSSConfig currentConfigVersion ((D.contract codec).answers j w).version
      ((D.contract codec).answers j w).activeNodeList
      ((D.contract codec).answers j w).waitRounds = some true := by
  rw [shouldUpdateVSSConfig,
    if_pos (show currentConfigVersion < ((D.contract codec).answers j w).version from hold)]
  rcases hw : w.waits with _ | k
  · simp only [Contract.answers, hw, replicate_zero, nil_append]
    exact waitForUploads_eq _ _
  · simp only [Contract.answers, hw, replicate_succ, cons_append]
    exact waitForUploads_eq _ _

end Dealing

/-- **Honest nodes agree.** -/
theorem honest_dealing_agreement (codec : Codec F P) (D : Dealing F P) [DecidableEq P]
    (hF : Set.InjOn (abscissa (F := F)) {i | 0 ≤ i ∧ i < D.vssNodeCount}) :
    (∀ j ∈ D.activeNodeList, ∀ (w : Reading) (s : DKG F P),
      s.currentConfigVersion < toInt64 D.vssConfigVersion →
      ∃ s' b, updateVSSConfig codec.crypto ⟨j, D.vssKey j⟩ s ((D.contract codec).answers j w) =
          some (.vssConfigVote, s') ∧
        s'.vssSettings (toInt64 D.vssConfigVersion) = some b ∧
        b.groupPublicPoly = D.groupCoeffs.map (· • codec.base) ∧
        b.groupPrivateShare = some ⟨D.vssNodeIndex j,
          ∑ a ∈ D.activeNodeList.toFinset,
            evalPoly (abscissa (F := F) (D.vssNodeIndex j)) (D.coeffs a)⟩) ∧
      ∀ T ⊆ D.activeNodeList.toFinset, T.card = D.vssThreshold →
        (Lagrange.interpolate T (fun j => abscissa (D.vssNodeIndex j)) fun j =>
          ∑ a ∈ D.activeNodeList.toFinset,
            evalPoly (abscissa (F := F) (D.vssNodeIndex j)) (D.coeffs a)).eval 0 =
          ∑ a ∈ D.activeNodeList.toFinset, evalPoly (0 : F) (D.coeffs a) := by
  refine ⟨fun j hj w s hold => ?_, fun T hT hcard => ?_⟩
  · exact ⟨_, _, updateVSSConfig_of_vote rfl (Dealing.shouldUpdateVSSConfig_eq j w hold)
      (Dealing.evaluate_eq_vote hj hF w), update_self _ _ _, rfl, rfl⟩
  · have habs : Set.InjOn (fun j => abscissa (F := F) (D.vssNodeIndex j)) T := by
      intro i hi j hj hij
      have hi' := mem_toFinset.mp (hT hi)
      have hj' := mem_toFinset.mp (hT hj)
      exact D.index_inj i hi' j hj' (hF ⟨D.index_nonneg i hi', D.index_lt i hi'⟩
        ⟨D.index_nonneg j hj', D.index_lt j hj'⟩ hij)
    have hlen : D.groupCoeffs.length ≤ T.card := by
      rw [Dealing.groupCoeffs, length_map, length_range, hcard]
    have hsecret := interpolate_eval_zero_smul habs D.groupCoeffs hlen (1 : F) D.groupShare
      fun j _ => by
        rw [smul_eq_mul, mul_one, D.evalPoly_groupCoeffs]
        rfl
    rw [smul_eq_mul, mul_one, ← evalPoly_zero (F := F), D.evalPoly_groupCoeffs] at hsecret
    exact hsecret

end Honest

/-! ## Two nodes of three -/

noncomputable def plainEncode {V : Type} [Encodable V] (shares : List (Share V)) : Bytes :=
  replicate (Encodable.encode (shares.map fun s => (s.I, s.V))) 0

noncomputable def plainDecode {V : Type} [Encodable V] (b : Bytes) : List (Share V) :=
  ((Encodable.decode b.length : Option (List (ℤ × V))).getD []).map fun p => ⟨p.1, p.2⟩

theorem plainDecode_plainEncode [Encodable V] (shares : List (Share V)) :
    plainDecode (plainEncode shares) = shares := by
  simp [plainDecode, plainEncode, comp_def]

noncomputable def plainCodec (F P : Type) [Encodable F] [Encodable P] (base : P) : Codec F P where
  base := base
  gzip := fun b => 0 :: 0 :: b
  gunzip := fun b => b.drop 2
  publicKey := id
  marshalPublicShares := fun shares _ => plainEncode shares
  unmarshalPublicShares := fun b _ => plainDecode b
  marshalPrivateShares := fun shares _ _ => plainEncode shares
  unmarshalPrivateShares := fun b _ _ _ => plainDecode b
  one_lt_length_gzip := fun b => by simp
  gunzip_gzip := fun b => rfl
  public_read := fun shares _ => by rw [plainDecode_plainEncode]
  private_read := fun shares _ _ _ _ _ => by rw [plainDecode_plainEncode]

def pairDealing : Dealing (ZMod 3) (ZMod 3) where
  activeNodeList := [nodeA, nodeB]
  vssNodeIndex := fun a => if a = nodeA then 0 else 1
  vssThreshold := 2
  vssNodeCount := 3
  vssConfigVersion := 1
  lastNodeChangeConfigVersion := 1
  lastConfigUpload := fun _ => 1
  coeffs := fun a => if a = nodeA then [1, 1] else [1, 0]
  vssKey := fun a => a.bytes
  emptyPoint := 0
  uploadPubRange := fun _ => listed
  uploadPriRange := fun _ => listed
  nodup := by decide
  threshold_le := by decide
  index_nonneg := by decide
  index_lt := by decide
  index_inj := by decide
  count_lt := by decide
  length_coeffs := by decide
  uploaded := by decide

/-- The first node votes for the commitment to `2 + x`. -/
theorem honest_dealing_agreement_pair :
    ∃ codec : Codec (ZMod 3) (ZMod 3), ∃ s' b,
      updateVSSConfig codec.crypto ⟨nodeA, nodeA.bytes⟩ (DKG.new (ZMod 3) (ZMod 3))
        ((pairDealing.contract codec).answers nodeA ⟨listed, listed, 0, 0, 0⟩) =
          some (.vssConfigVote, s') ∧ s'.vssSettings 1 = some b ∧ b.groupPublicPoly = [2, 1] := by
  let codec := @plainCodec (ZMod 3) (ZMod 3) (Encodable.ofCountable _) (Encodable.ofCountable _) 1
  have hF : Set.InjOn (abscissa (F := ZMod 3)) {i | 0 ≤ i ∧ i < pairDealing.vssNodeCount} := by
    rintro i ⟨hi0, hi⟩ j ⟨hj0, hj⟩ hij
    have hi3 : i < 3 := hi
    have hj3 : j < 3 := hj
    interval_cases i <;> interval_cases j <;> first | rfl | exact absurd hij (by decide)
  obtain ⟨hvote, -⟩ := honest_dealing_agreement codec pairDealing hF
  obtain ⟨s', b, hup, hb, hpoly, -⟩ := hvote nodeA (by decide)
    ⟨listed, listed, 0, 0, 0⟩ (DKG.new (ZMod 3) (ZMod 3)) (by decide)
  exact ⟨codec, s', b, hup, hb, hpoly.trans (by decide)⟩

end XChain.Vss
