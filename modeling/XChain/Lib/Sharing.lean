import Mathlib

/-!
# Polynomial secret sharing

A polynomial is the list of its coefficients, which are scalars (the secret polynomial) or points of
a module over the scalars (its commitment). A share has an index `i` and the value at `1 + i`.

* **`interpolate_eval_zero_smul`**: as many private shares as coefficients, each matching the
  commitment at its index, interpolate to the secret behind the constant term;
* **`recoverPubPoly_eq`**: recovery returns the polynomial the shares were taken from.
-/

namespace Sharing

open Polynomial List

structure Share (α : Type*) where
  I : ℤ
  V : α
deriving DecidableEq

section Eval

variable {F P : Type*} [Field F] [AddCommGroup P] [Module F P]

def abscissa (i : ℤ) : F := 1 + (i : F)

def evalPoly (x : F) : List P → P
  | [] => 0
  | c :: cs => c + x • evalPoly x cs

def commit (cs : List P) : P := cs.headD 0

theorem evalPoly_zero (cs : List P) : evalPoly (0 : F) cs = commit cs := by
  cases cs <;> simp [evalPoly, commit]

theorem evalPoly_eq_sum (x : F) :
    ∀ (cs : List P) (n : ℕ), cs.length ≤ n →
      evalPoly x cs = ∑ k ∈ Finset.range n, x ^ k • cs.getD k 0
  | [], n, _ => by simp [evalPoly]
  | c :: cs, n + 1, h => by
    have hlen : cs.length ≤ n := by simpa using h
    rw [evalPoly, evalPoly_eq_sum x cs n hlen, Finset.sum_range_succ', Finset.smul_sum, add_comm]
    simp [pow_succ', mul_smul]

theorem evalPoly_map_smul (x : F) (B : P) :
    ∀ cs : List F, evalPoly x (cs.map (· • B)) = evalPoly x cs • B
  | [] => by simp [evalPoly]
  | c :: cs => by
    rw [map_cons, evalPoly, evalPoly, evalPoly_map_smul x B cs, add_smul, smul_eq_mul, mul_smul]

end Eval

/-! ## Interpolation -/

section Interpolation

variable {F P ι : Type*} [Field F] [AddCommGroup P] [Module F P] [DecidableEq ι]

variable {s : Finset ι} {v : ι → F}

variable (hv : Set.InjOn v s)
include hv

theorem sum_pow_mul_basis {k : ℕ} (hk : k < s.card) :
    ∑ j ∈ s, C (v j ^ k) * Lagrange.basis s v j = X ^ k := by
  have hdeg : (X ^ k : F[X]).degree < s.card := by
    rw [degree_X_pow]
    exact_mod_cast hk
  have h := Lagrange.eq_interpolate hv hdeg
  simpa using h.symm

theorem sum_basis_smul_evalPoly (cs : List P) (hlen : cs.length ≤ s.card) (φ : F[X] →ₗ[F] F) :
    ∑ j ∈ s, φ (Lagrange.basis s v j) • evalPoly (v j) cs =
      ∑ k ∈ Finset.range s.card, φ (X ^ k) • cs.getD k 0 := by
  have hφ : ∀ k ∈ Finset.range s.card,
      ∑ j ∈ s, (φ (Lagrange.basis s v j) * v j ^ k) = φ (X ^ k) := by
    intro k hk
    rw [← sum_pow_mul_basis hv (Finset.mem_range.mp hk), map_sum]
    refine Finset.sum_congr rfl fun j _ => ?_
    rw [← smul_eq_C_mul, map_smul, smul_eq_mul, mul_comm]
  calc ∑ j ∈ s, φ (Lagrange.basis s v j) • evalPoly (v j) cs
      = ∑ j ∈ s, ∑ k ∈ Finset.range s.card, (φ (Lagrange.basis s v j) * v j ^ k) • cs.getD k 0 := by
        refine Finset.sum_congr rfl fun j _ => ?_
        rw [evalPoly_eq_sum (v j) cs s.card hlen, Finset.smul_sum]
        exact Finset.sum_congr rfl fun k _ => (mul_smul _ _ _).symm
    _ = ∑ k ∈ Finset.range s.card, (∑ j ∈ s, φ (Lagrange.basis s v j) * v j ^ k) • cs.getD k 0 := by
        rw [Finset.sum_comm]
        exact Finset.sum_congr rfl fun k _ => (Finset.sum_smul).symm
    _ = ∑ k ∈ Finset.range s.card, φ (X ^ k) • cs.getD k 0 :=
        Finset.sum_congr rfl fun k hk => by rw [hφ k hk]

theorem sum_basis_eval_smul (cs : List P) (hlen : cs.length ≤ s.card) (y : F) :
    ∑ j ∈ s, (Lagrange.basis s v j).eval y • evalPoly (v j) cs = evalPoly y cs := by
  have h := sum_basis_smul_evalPoly hv cs hlen (leval y)
  rw [evalPoly_eq_sum y cs s.card hlen]
  simpa using h

theorem sum_basis_coeff_smul (cs : List P) (hlen : cs.length ≤ s.card) {k : ℕ} (hk : k < s.card) :
    ∑ j ∈ s, (Lagrange.basis s v j).coeff k • evalPoly (v j) cs = cs.getD k 0 := by
  have h := sum_basis_smul_evalPoly hv cs hlen (lcoeff F k)
  simp only [lcoeff_apply, coeff_X_pow, ite_smul, one_smul, zero_smul] at h
  rw [h, Finset.sum_ite_eq, if_pos (Finset.mem_range.mpr hk)]

/-- **Private shares that match a commitment interpolate to its secret.** -/
theorem interpolate_eval_zero_smul (cs : List P) (hlen : cs.length ≤ s.card) (B : P) (share : ι → F)
    (hshare : ∀ j ∈ s, share j • B = evalPoly (v j) cs) :
    (Lagrange.interpolate s v share).eval 0 • B = commit cs := by
  rw [Lagrange.interpolate_apply, eval_finsetSum, Finset.sum_smul, ← evalPoly_zero (F := F),
    ← sum_basis_eval_smul hv cs hlen 0]
  refine Finset.sum_congr rfl fun j hj => ?_
  rw [eval_mul, eval_C, mul_comm, mul_smul, hshare j hj]

end Interpolation

/-! ## Recovery of a commitment from public shares -/

section Recovery

variable {F P : Type*}

/-- The shares that recovery uses: the `t` of smallest index, absent and negative ones left out. -/
def pickShares (shares : List (Option (Share P))) (t : ℕ) : List (Share P) :=
  ((((shares.filterMap id).filter fun s => decide (0 ≤ s.I)).insertionSort
    fun a b => a.I ≤ b.I).pwFilter fun a b => a.I ≠ b.I).take t

variable {shares : List (Option (Share P))} {kept : List (Share P)}

theorem mem_of_mem_pickShares {t : ℕ} {s : Share P}
    (h : s ∈ pickShares shares t) : some s ∈ shares ∧ 0 ≤ s.I := by
  have h' := pwFilter_subset _ (mem_of_mem_take h)
  rw [mem_insertionSort, mem_filter, mem_filterMap] at h'
  obtain ⟨⟨o, ho, rfl⟩, hI⟩ := h'
  exact ⟨ho, by simpa using hI⟩

theorem nodup_pickShares (shares : List (Option (Share P))) (t : ℕ) :
    ((pickShares shares t).map Share.I).Nodup := by
  refine pairwise_map.mpr (List.Pairwise.sublist (take_sublist _ _) ?_)
  exact pairwise_pwFilter _

theorem length_pickShares {t : ℕ}
    (hkept : (shares.filterMap id).filter (fun s => decide (0 ≤ s.I)) = kept)
    (hnd : (kept.map Share.I).Nodup) (ht : t ≤ kept.length) : (pickShares shares t).length = t := by
  have hpw : (kept.insertionSort fun a b => a.I ≤ b.I).Pairwise fun a b => a.I ≠ b.I := by
    refine pairwise_map.mp ?_
    exact ((perm_insertionSort _ kept).map Share.I).nodup_iff.mpr hnd
  rw [pickShares, hkept, pwFilter_eq_self.mpr hpw, length_take,
    length_insertionSort, min_eq_left ht]

variable [Field F] [AddCommGroup P] [Module F P]

variable (F) in
/-- The commitment through the picked shares, one coefficient of the Lagrange basis at a time. -/
noncomputable def recoverPubPoly (shares : List (Option (Share P))) (t : ℕ) : Option (List P) :=
  let picked := pickShares shares t
  if picked.length < t then none
  else some ((List.range t).map fun k => (picked.map fun s =>
    (Lagrange.basis (picked.map Share.I).toFinset (abscissa (F := F)) s.I).coeff k • s.V).sum)

/-- **Recovery is exact** from enough shares of one polynomial. -/
theorem recoverPubPoly_eq {cs : List P}
    (hkept : (shares.filterMap id).filter (fun s => decide (0 ≤ s.I)) = kept)
    (hnd : (kept.map Share.I).Nodup) (ht : cs.length ≤ kept.length)
    (hinj : Set.InjOn (abscissa (F := F)) {i | ∃ s ∈ kept, s.I = i})
    (hval : ∀ s ∈ kept, s.V = evalPoly (abscissa (F := F) s.I) cs) :
    recoverPubPoly F shares cs.length = some cs := by
  have hlen := length_pickShares hkept hnd ht
  have hmem : ∀ s ∈ pickShares shares cs.length, s ∈ kept := by
    intro s hs
    obtain ⟨h, hI⟩ := mem_of_mem_pickShares hs
    rw [← hkept, mem_filter, mem_filterMap]
    exact ⟨⟨some s, h, rfl⟩, by simpa using hI⟩
  have hndp := nodup_pickShares shares cs.length
  have hcard : ((pickShares shares cs.length).map Share.I).toFinset.card = cs.length := by
    rw [toFinset_card_of_nodup hndp, length_map, hlen]
  have hinj' : Set.InjOn (abscissa (F := F))
      ((pickShares shares cs.length).map Share.I).toFinset := by
    refine hinj.mono fun i hi => ?_
    obtain ⟨s, hs, rfl⟩ := mem_map.mp (mem_toFinset.mp hi)
    exact ⟨s, hmem s hs, rfl⟩
  unfold recoverPubPoly
  rw [if_neg (by omega)]
  refine congrArg some (ext_getElem (by simp) fun k hk hk' => ?_)
  have hcoef := sum_basis_coeff_smul hinj' cs hcard.ge (by rw [hcard]; exact hk')
  rw [sum_toFinset _ hndp, map_map] at hcoef
  rw [getElem_map, getElem_range, ← getD_eq_getElem cs 0 hk', ← hcoef]
  refine congrArg List.sum (map_congr_left fun s hs => ?_)
  rw [hval s (hmem s hs)]
  rfl

end Recovery

/-! ## Adding polynomials -/

section Add

variable {P : Type*} [AddCommGroup P]

def addPoly (p q : List P) : Option (List P) :=
  if p.length = q.length then some (List.zipWith (· + ·) p q) else none

def addAll (p : List P) (qs : List (List P)) : Option (List P) := qs.foldlM addPoly p

theorem addPoly_eq_some {p q g : List P} (h : addPoly p q = some g) :
    p.length = q.length ∧ g.length = p.length ∧ ∀ k, g.getD k 0 = p.getD k 0 + q.getD k 0 := by
  unfold addPoly at h
  split at h
  · rename_i hlen
    cases h
    refine ⟨hlen, by simp [hlen], fun k => ?_⟩
    simp only [getD_eq_getElem?_getD, getElem?_zipWith]
    by_cases hk : k < p.length
    · simp [hk, hlen ▸ hk]
    · simp [Nat.le_of_not_lt hk, hlen ▸ Nat.le_of_not_lt hk]
  · cases h

theorem addAll_eq_some {g : List P} :
    ∀ {qs : List (List P)} {p : List P}, addAll p qs = some g →
      (∀ q ∈ p :: qs, q.length = g.length) ∧
        ∀ k, g.getD k 0 = ((p :: qs).map fun q => q.getD k 0).sum
  | [], p, h => by
    cases h
    exact ⟨by simp, fun k => by simp⟩
  | q :: qs, p, h => by
    rw [addAll, foldlM_cons] at h
    obtain ⟨r, hr, h⟩ := Option.bind_eq_some_iff.mp h
    obtain ⟨hpq, hrp, hk⟩ := addPoly_eq_some hr
    obtain ⟨hlen, hsum⟩ := addAll_eq_some h
    have hrg := hlen r mem_cons_self
    refine ⟨?_, fun k => ?_⟩
    · intro u hu
      rcases mem_cons.mp hu with rfl | hu
      · omega
      · rcases mem_cons.mp hu with rfl | hu
        · omega
        · exact hlen u (mem_cons_of_mem _ hu)
    · rw [hsum k]
      simp only [map_cons, sum_cons, hk k, add_assoc]

theorem exists_addAll {n : ℕ} :
    ∀ {qs : List (List P)} {p : List P}, (∀ q ∈ p :: qs, q.length = n) → ∃ g, addAll p qs = some g
  | [], p, _ => ⟨p, rfl⟩
  | q :: qs, p, h => by
    have hp := h p mem_cons_self
    have hq := h q (mem_cons_of_mem _ mem_cons_self)
    have hrest : ∀ u ∈ List.zipWith (· + ·) p q :: qs, u.length = n := by
      intro u hu
      rcases mem_cons.mp hu with rfl | hu
      · simp [hp, hq]
      · exact h u (mem_cons_of_mem _ (mem_cons_of_mem _ hu))
    obtain ⟨g, hg⟩ := exists_addAll hrest
    refine ⟨g, ?_⟩
    rw [addAll, foldlM_cons, addPoly, if_pos (hp.trans hq.symm)]
    exact hg

/-- **The sum does not depend on the order.** -/
theorem addAll_eq_of_perm {p p' g g' : List P} {qs qs' : List (List P)}
    (hperm : (p :: qs).Perm (p' :: qs')) (h : addAll p qs = some g) (h' : addAll p' qs' = some g') :
    g = g' := by
  obtain ⟨hlen, hsum⟩ := addAll_eq_some h
  obtain ⟨hlen', hsum'⟩ := addAll_eq_some h'
  have hgg : g.length = g'.length :=
    (hlen p mem_cons_self).symm.trans (hlen' p (hperm.mem_iff.mp mem_cons_self))
  refine ext_getElem hgg fun k hk hk' => ?_
  have heq : g.getD k 0 = g'.getD k 0 := by
    rw [hsum k, hsum' k]
    exact (hperm.map _).sum_eq
  rwa [getD_eq_getElem g 0 hk, getD_eq_getElem g' 0 hk'] at heq

end Add

end Sharing
