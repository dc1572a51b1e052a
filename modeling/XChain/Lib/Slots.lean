import Mathlib

/-!
# Processes in the slots of a list

Processes of one kind are kept in a list, one slot each, and a step of the process in slot `j` is
`l.set j b`. What is added up over the processes changes by what the one process changes.

* **`sum_map_set`**: sums of weights;
* **`countP_set`**: the number of processes with a property;
* **`exists_sublist_tally`**: processes can be chosen in any numbers between those that must be
  chosen and those that may be.
-/

namespace Slots

open List Function Nat

variable {α : Type*} {l : List α} {j : ℕ}

theorem sum_map_set (f : α → ℕ) (b : α) : ∀ {l : List α} {j : ℕ} {a : α}, l[j]? = some a →
    ((l.set j b).map f).sum + f a = (l.map f).sum + f b
  | x :: l, 0, a, h => by
    simp only [getElem?_cons_zero, Option.some.injEq] at h
    subst h
    simp only [set_cons_zero, map_cons, sum_cons]
    omega
  | x :: l, j + 1, a, h => by
    have ih := sum_map_set f b (show l[j]? = some a by simpa using h)
    simp only [set_cons_succ, map_cons, sum_cons]
    omega

theorem countP_set (p : α → Bool) (b : α) {a : α} (h : l[j]? = some a) :
    (l.set j b).countP p + (p a).toNat = l.countP p + (p b).toNat := by
  have hsum : ∀ m : List α, m.countP p = (m.map fun x => (p x).toNat).sum := by
    intro m
    induction m with
    | nil => rfl
    | cons x m ih =>
      rw [countP_cons, ih, map_cons, sum_cons]
      cases p x <;> simp [add_comm]
  rw [hsum, hsum]
  exact sum_map_set _ b h

theorem mem_of_mem_set {a b : α} (h : a ∈ l.set j b) (hne : a ≠ b) : a ∈ l :=
  (mem_or_eq_of_mem_set h).resolve_right hne

theorem getElem?_concat_eq_some {a b : α} :
    (l ++ [b])[j]? = some a ↔ l[j]? = some a ∨ (j = l.length ∧ b = a) := by
  rcases lt_trichotomy j l.length with hj | hj | hj
  · rw [getElem?_append_left hj]
    exact ⟨.inl, fun h => h.resolve_right fun h => hj.ne h.1⟩
  · subst hj
    rw [getElem?_concat_length, getElem?_eq_none le_rfl, Option.some.injEq]
    exact ⟨fun h => .inr ⟨rfl, h⟩, fun h => (h.resolve_left nofun).2⟩
  · rw [getElem?_eq_none (by rw [length_append]; exact hj), getElem?_eq_none hj.le]
    exact ⟨.inl, fun h => h.resolve_right fun h => hj.ne' h.1⟩

/-! ## Processes by kind -/

section Tally

variable {κ : Type*} [DecidableEq κ] (f : α → κ) {p q : α → Bool}

/-- The number of processes of kind `k` with a property. -/
def tally (p : α → Bool) (l : List α) (k : κ) : ℕ := l.countP fun a => f a = k && p a

theorem tally_cons (p : α → Bool) (a : α) (l : List α) (k : κ) :
    tally f p (a :: l) k = tally f p l k + (decide (f a = k) && p a).toNat := by
  unfold tally
  rw [countP_cons]
  cases h : (decide (f a = k) && p a) <;> simp

theorem tally_mono (hqp : ∀ a, q a = true → p a = true) (l : List α) (k : κ) :
    tally f q l k ≤ tally f p l k := by
  refine countP_mono_left ?_
  intro a _ ha
  rw [Bool.and_eq_true] at ha ⊢
  exact ⟨ha.1, hqp a ha.2⟩

theorem tally_append (p : α → Bool) (l m : List α) (k : κ) :
    tally f p (l ++ m) k = tally f p l k + tally f p m k := countP_append

theorem tally_set (p : α → Bool) (b : α) {j : ℕ} {a : α} (h : l[j]? = some a) (k : κ) :
    tally f p (l.set j b) k + (decide (f a = k) && p a).toNat =
      tally f p l k + (decide (f b = k) && p b).toNat :=
  countP_set _ b h

/-- **Some processes of each kind.** -/
theorem exists_sublist_tally (hqp : ∀ a, q a = true → p a = true) :
    ∀ (l : List α) (n : κ → ℕ), (∀ k, tally f q l k ≤ n k) → (∀ k, n k ≤ tally f p l k) →
      ∃ d, (l.filter q).Sublist d ∧ d.Sublist (l.filter p) ∧ ∀ k, (d.map f).count k = n k
  | [], n, _, hp => ⟨[], .slnil, .slnil, fun k => (le_zero.mp (hp k)).symm⟩
  | a :: l, n, hq, hp => by
    simp only [tally_cons] at hq hp
    have hqk := hq (f a)
    have hpk := hp (f a)
    simp only [decide_true, Bool.true_and] at hqk hpk
    by_cases htake : p a = true ∧ (q a = true ∨ tally f p l (f a) < n (f a))
    · -- the first process has to be chosen
      obtain ⟨hpa, hor⟩ := htake
      have hlow : tally f q l (f a) + 1 ≤ n (f a) := by
        rcases hor with hqa | hlt
        · rwa [hqa] at hqk
        · exact lt_of_le_of_lt (tally_mono f hqp l (f a)) hlt
      obtain ⟨d, hqd, hdp, hd⟩ := exists_sublist_tally hqp l (Function.update n (f a) (n (f a) - 1))
        ((forall_update_iff n fun k m => tally f q l k ≤ m).mpr
          ⟨by omega, fun k _ => le_of_add_right_le (hq k)⟩)
        ((forall_update_iff n fun k m => m ≤ tally f p l k).mpr
          ⟨by rw [hpa, Bool.toNat_true] at hpk; omega,
            fun k hk => by simpa [Ne.symm hk] using hp k⟩)
      refine ⟨a :: d, ?_, ?_, fun k => ?_⟩
      · rw [filter_cons]
        split
        · exact hqd.cons_cons a
        · exact hqd.cons a
      · rw [filter_cons_of_pos hpa]
        exact hdp.cons_cons a
      · rw [map_cons, count_cons, hd]
        by_cases hk : k = f a
        · rw [hk, update_self, beq_self_eq_true, if_pos rfl]
          omega
        · rw [update_of_ne hk, if_neg (by simpa using Ne.symm hk), add_zero]
    · have hqa : q a = false := by
        rw [Bool.eq_false_iff]
        exact fun hqa => htake ⟨hqp a hqa, .inl hqa⟩
      obtain ⟨d, hqd, hdp, hd⟩ := exists_sublist_tally hqp l n
        (fun k => le_of_add_right_le (hq k))
        (fun k => by
          by_cases hk : k = f a
          · rw [hk]
            by_cases hpa : p a = true
            · exact Nat.le_of_not_lt fun hlt => htake ⟨hpa, .inr hlt⟩
            · rwa [Bool.eq_false_iff.mpr hpa, Bool.toNat_false] at hpk
          · simpa [Ne.symm hk] using hp k)
      refine ⟨d, ?_, ?_, hd⟩
      · rwa [filter_cons_of_neg (by simp [hqa])]
      · rw [filter_cons]
        split
        · exact hdp.cons a
        · exact hdp

end Tally

end Slots
