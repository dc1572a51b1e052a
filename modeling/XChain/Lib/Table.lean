import XChain.Lib.Assoc

/-!
# Go maps that are read, written and visited

A map is Mathlib's association list with unique keys, all values of one type: `m[k]` is `lookup`,
`m[k] = v` is `insert`, `delete(m, k)` is `erase`, and `range` visits the `entries` in some order.

* **`entries_perm_erase`**, `countP_erase`, `countP_insert`: what is counted over the entries.
-/

namespace GoMap

open List AList

abbrev Entry (κ β : Type*) := Sigma fun _ : κ => β

abbrev Table (κ β : Type*) := AList fun _ : κ => β

namespace Table

variable {κ β : Type*} [DecidableEq κ]

variable {t : Table κ β} {b : β}

theorem lookup_erase_eq_some {k x : κ} :
    (t.erase k).lookup x = some b ↔ x ≠ k ∧ t.lookup x = some b := by
  by_cases hx : x = k
  · subst hx
    simp
  · rw [lookup_erase_ne hx]
    exact ⟨fun h => ⟨hx, h⟩, fun h => h.2⟩

theorem lookup_insert_eq_some {k x : κ} {a b : β} :
    (t.insert k a).lookup x = some b ↔ (x = k ∧ a = b) ∨ (x ≠ k ∧ t.lookup x = some b) := by
  by_cases hx : x = k
  · subst hx
    simp
  · simp [hx]

theorem lookup_foldl_insert (b : β) (x : κ) : ∀ (ks : List κ) (t : Table κ β),
    (ks.foldl (fun t k => t.insert k b) t).lookup x = if x ∈ ks then some b else t.lookup x
  | [], _ => rfl
  | k :: ks, t => by
    rw [foldl_cons, lookup_foldl_insert b x ks]
    by_cases hx : x = k
    · subst hx
      simp
    · simp [hx, lookup_insert_ne hx]

theorem lookup_foldl_erase (x : κ) : ∀ (ks : List κ) (t : Table κ β),
    (ks.foldl (fun t k => t.erase k) t).lookup x = if x ∈ ks then none else t.lookup x
  | [], _ => rfl
  | k :: ks, t => by
    rw [foldl_cons, lookup_foldl_erase x ks]
    by_cases hx : x = k
    · subst hx
      simp
    · simp [hx, lookup_erase_ne hx]

theorem lookup_foldl_zipIdx_of_ne (g : ℕ → κ) {x : κ} : ∀ (l : List β) (k : ℕ) (t : Table κ β),
    (∀ i < l.length, x ≠ g (k + i)) →
    ((l.zipIdx k).foldl (fun t e => t.insert (g e.2) e.1) t).lookup x = t.lookup x
  | [], _, _, _ => rfl
  | b :: l, k, t, h => by
    rw [zipIdx_cons, foldl_cons, lookup_foldl_zipIdx_of_ne g l (k + 1)]
    · exact lookup_insert_ne (h 0 (by simp))
    · intro i hi
      have := h (i + 1) (by simpa using hi)
      rwa [Nat.add_right_comm]

theorem lookup_foldl_zipIdx (g : ℕ → κ) : ∀ {l : List β} {k i : ℕ} (t : Table κ β),
    (∀ i j, i < j → j < l.length → g (k + i) ≠ g (k + j)) → l[i]? = some b →
    ((l.zipIdx k).foldl (fun t e => t.insert (g e.2) e.1) t).lookup (g (k + i)) = some b
  | [], _, _, _, _, hi => by cases hi
  | c :: l, k, 0, t, h, hi => by
    obtain rfl : c = b := Option.some.inj hi
    rw [zipIdx_cons, foldl_cons, lookup_foldl_zipIdx_of_ne g l (k + 1)]
    · exact lookup_insert _
    · intro i hlt
      have := h 0 (i + 1) (by omega) (by simpa using hlt)
      rwa [Nat.add_right_comm]
  | c :: l, k, i + 1, t, h, hi => by
    rw [zipIdx_cons, foldl_cons, Nat.add_comm i 1, ← Nat.add_assoc]
    refine lookup_foldl_zipIdx g _ (fun i j hij hj => ?_) hi
    have := h (i + 1) (j + 1) (by omega) (by simpa using hj)
    rwa [Nat.add_right_comm, Nat.add_right_comm k 1 j]

variable {k : κ}

theorem mem_entries : (⟨k, b⟩ : Entry κ β) ∈ t.entries ↔ t.lookup k = some b := mem_lookup_iff.symm

/-! ## Counting -/

/-- **An entry and the others.** -/
theorem entries_perm_erase (h : t.lookup k = some b) :
    t.entries.Perm (⟨k, b⟩ :: (t.erase k).entries) := by
  have hkey : k ∈ t.entries.keys := mem_keys.mp (lookup_isSome.mp (h ▸ rfl))
  obtain ⟨b', l₁, l₂, -, hentries, herase⟩ := exists_of_kerase hkey
  have hb : b' = b := by
    have hmem : (⟨k, b'⟩ : Entry κ β) ∈ t.entries := by rw [hentries]; simp
    exact Option.some.inj ((mem_entries.mp hmem).symm.trans h)
  subst hb
  change t.entries.Perm (_ :: List.kerase k t.entries)
  rw [herase, hentries]
  exact perm_middle

theorem erase_of_lookup_none (h : t.lookup k = none) : t.erase k = t :=
  ext (kerase_of_notMem_keys (mem_keys.not.mp (lookup_eq_none.mp h)))

theorem countP_cons_toNat {α : Type*} (p : α → Bool) (a : α) (l : List α) :
    (a :: l).countP p = l.countP p + (p a).toNat := by
  rw [countP_cons]
  cases p a <;> rfl

theorem countP_erase (p : Entry κ β → Bool)
    (h : t.lookup k = some b) :
    (t.erase k).entries.countP p + (p ⟨k, b⟩).toNat = t.entries.countP p := by
  rw [(entries_perm_erase h).countP_eq p, countP_cons_toNat]

theorem countP_insert (t : Table κ β) (k : κ) (b : β) (p : Entry κ β → Bool) :
    (t.insert k b).entries.countP p = (t.erase k).entries.countP p + (p ⟨k, b⟩).toNat := by
  rw [entries_insert, countP_cons_toNat]
  rfl

theorem length_erase (h : t.lookup k = some b) :
    (t.erase k).entries.length + 1 = t.entries.length :=
  (entries_perm_erase h).length_eq.symm

theorem length_insert_of_none (b : β) (h : t.lookup k = none) :
    (t.insert k b).entries.length = t.entries.length + 1 := by
  rw [entries_insert_of_notMem (lookup_eq_none.mp h), length_cons]

def total (f : Entry κ β → ℕ) (t : Table κ β) : ℕ := (t.entries.map f).sum

variable {f : Entry κ β → ℕ}

theorem total_erase (h : t.lookup k = some b) : total f (t.erase k) + f ⟨k, b⟩ = total f t := by
  rw [total, total, ((entries_perm_erase h).map f).sum_nat, map_cons, sum_cons]
  exact Nat.add_comm _ _

theorem total_insert_of_none (b : β) (h : t.lookup k = none) :
    total f (t.insert k b) = total f t + f ⟨k, b⟩ := by
  rw [total, total, entries_insert_of_notMem (lookup_eq_none.mp h), map_cons, sum_cons]
  exact Nat.add_comm _ _

theorem total_insert_of_some {a : β} (b : β) (h : t.lookup k = some a) :
    total f (t.insert k b) + f ⟨k, a⟩ = total f t + f ⟨k, b⟩ := by
  have hinsert : total f (t.insert k b) = total f (t.erase k) + f ⟨k, b⟩ := by
    exact Nat.add_comm _ _
  have herase := total_erase (f := f) h
  omega

end Table

end GoMap
