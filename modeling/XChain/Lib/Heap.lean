import Mathlib

/-!
# Binary heaps on a slice

`up`, `down`, `push`, `pop` and `heapify` are `container/heap` over an array: the children of
position `i` are at `2 i + 1` and `2 i + 2`. Every operation rearranges its elements.

* **`push_perm`**, **`pop_perm`**, **`heapify_perm`**: nothing is lost and nothing is invented;
* **`fix_perm`**, **`remove_perm`**: the same for an element in the middle.
-/

namespace GoHeap

open Array Option

variable {α : Type*} (less : α → α → Bool) {x : α}

def lessAt (h : Array α) (i j : ℕ) : Bool :=
  match h[i]?, h[j]? with
  | some a, some b => less a b
  | _, _ => false

/-- `up`: move the element at `j` towards the root, at most `fuel` times. -/
def up : ℕ → Array α → ℕ → Array α
  | 0, h, _ => h
  | fuel + 1, h, j =>
    let i := (j - 1) / 2
    if i = j ∨ lessAt less h j i = false then h else up fuel (h.swapIfInBounds i j) i

def smallerChild (h : Array α) (i n : ℕ) : Option ℕ :=
  let j₁ := 2 * i + 1
  if n ≤ j₁ then none
  else if j₁ + 1 < n ∧ lessAt less h (j₁ + 1) j₁ = true then some (j₁ + 1) else some j₁

/-- `down`: move the element at `i` towards the leaves, at most `fuel` times. -/
def down : ℕ → Array α → ℕ → ℕ → Array α
  | 0, h, _, _ => h
  | fuel + 1, h, i, n =>
    match smallerChild less h i n with
    | none => h
    | some j => if lessAt less h j i = false then h else down fuel (h.swapIfInBounds i j) j n

def push (h : Array α) (x : α) : Array α := up less h.size (h.push x) h.size

def rootLast (h : Array α) : Array α :=
  down less (h.size - 1) (h.swapIfInBounds 0 (h.size - 1)) 0 (h.size - 1)

/-- `heap.Pop`; nothing for an empty heap. -/
def pop (h : Array α) : Option (α × Array α) :=
  (rootLast less h).back?.map fun x => (x, (rootLast less h).pop)

def heapify (h : Array α) : Array α :=
  (List.range (h.size / 2)).reverse.foldl (fun h i => down less h.size h i h.size) h

def sinks (h : Array α) (i n : ℕ) : Bool :=
  match smallerChild less h i n with
  | none => false
  | some j => lessAt less h j i

/-- The element at `i` moves to its place among the first `n` positions, down or else up. -/
def settle (h : Array α) (i n : ℕ) : Array α :=
  if sinks less h i n then down less n h i n else up less n h i

def fix (h : Array α) (i : ℕ) : Array α := settle less h i h.size

def elementLast (h : Array α) (i : ℕ) : Array α :=
  if h.size - 1 ≠ i then settle less (h.swapIfInBounds i (h.size - 1)) i (h.size - 1) else h

def remove (h : Array α) (i : ℕ) : Array α := (elementLast less h i).pop

/-! ## The elements stay -/

theorem swap_perm (h : Array α) (i j : ℕ) : (h.swapIfInBounds i j).toList.Perm h.toList := by
  unfold swapIfInBounds
  split
  · split
    · exact (Array.swap_perm _ _).toList
    · exact .refl _
  · exact .refl _

theorem up_perm (fuel : ℕ) (h : Array α) (j : ℕ) : (up less fuel h j).toList.Perm h.toList := by
  induction fuel generalizing h j with
  | zero => exact .refl _
  | succ fuel ih =>
    rw [up]
    split
    · exact .refl _
    · exact (ih _ _).trans (swap_perm _ _ _)

theorem down_perm (fuel : ℕ) (h : Array α) (i n : ℕ) :
    (down less fuel h i n).toList.Perm h.toList := by
  induction fuel generalizing h i with
  | zero => exact .refl _
  | succ fuel ih =>
    rw [down]
    split
    · exact .refl _
    · split
      · exact .refl _
      · exact (ih _ _).trans (swap_perm _ _ _)

/-- **Pushing adds one element.** -/
theorem push_perm (h : Array α) (x : α) : (push less h x).toList.Perm (x :: h.toList) := by
  refine (up_perm less _ _ _).trans ?_
  rw [toList_push]
  exact List.perm_append_singleton _ _

theorem rootLast_perm (h : Array α) : (rootLast less h).toList.Perm h.toList :=
  (down_perm less _ _ _ _).trans (swap_perm h _ _)

/-- **Popping takes one element out.** -/
theorem pop_perm {h h' : Array α} (hpop : pop less h = some (x, h')) :
    h.toList.Perm (x :: h'.toList) := by
  obtain ⟨y, hy, heq⟩ := map_eq_some_iff.mp hpop
  obtain ⟨rfl, rfl⟩ := Prod.mk.inj heq
  refine (rootLast_perm less h).symm.trans ?_
  obtain ⟨l, hl⟩ := back?_eq_some_iff.mp hy
  rw [hl, toList_push, pop_push]
  exact List.perm_append_singleton _ _

variable {h : Array α} {fuel : ℕ}

theorem smallerChild_lt {i n j : ℕ} (hj : smallerChild less h i n = some j) : j < n := by
  unfold smallerChild at hj
  simp only at hj
  split at hj
  · cases hj
  · split at hj
    · rename_i hlt
      cases hj
      exact hlt.1
    · rename_i hle _
      cases hj
      omega

theorem swap_getElem? {i j k : ℕ} (hi : k ≠ i) (hj : k ≠ j) :
    (h.swapIfInBounds i j)[k]? = h[k]? := by
  unfold swapIfInBounds
  split
  · split
    · rw [getElem?_swap, if_neg hj.symm, if_neg hi.symm]
    · rfl
  · rfl

theorem down_getElem? {i n k : ℕ} (hi : i < n) (hk : n ≤ k) :
    (down less fuel h i n)[k]? = h[k]? := by
  induction fuel generalizing h i with
  | zero => rfl
  | succ fuel ih =>
    rw [down]
    split
    · rfl
    · rename_i j hj
      have hjn := smallerChild_lt less hj
      split
      · rfl
      · rw [ih hjn, swap_getElem? (by omega) (by omega)]

theorem pop_root {h h' : Array α} (hpop : pop less h = some (x, h')) : h[0]? = some x := by
  obtain ⟨y, hy, heq⟩ := map_eq_some_iff.mp hpop
  obtain ⟨rfl, -⟩ := Prod.mk.inj heq
  have hsize : (rootLast less h).size = h.size := by
    simpa using (rootLast_perm less h).length_eq
  rw [back?_eq_getElem?, hsize] at hy
  have hlast : (rootLast less h)[h.size - 1]? = (h.swapIfInBounds 0 (h.size - 1))[h.size - 1]? := by
    rcases Nat.eq_zero_or_pos (h.size - 1) with hzero | hpos
    · rw [rootLast, hzero]
      rfl
    · exact down_getElem? less hpos (Nat.le_refl _)
  rw [hlast] at hy
  rw [← hy]
  unfold swapIfInBounds
  split
  · rename_i h0
    rw [dif_pos (by omega), getElem?_swap, if_pos rfl]
    exact getElem?_eq_getElem h0
  · rename_i h0
    rw [show h.size - 1 = 0 by omega]

theorem toList_of_pop_eq_none (hpop : pop less h = none) : h.toList = [] := by
  have hperm := rootLast_perm less h
  rw [pop, map_eq_none_iff, back?_eq_none_iff] at hpop
  rw [hpop] at hperm
  exact hperm.nil_eq.symm

/-- **Building a heap rearranges the elements.** -/
theorem heapify_perm (h : Array α) : (heapify less h).toList.Perm h.toList := by
  unfold heapify
  generalize (List.range (h.size / 2)).reverse = is
  induction is generalizing h with
  | nil => exact .refl _
  | cons i is ih => exact (ih _).trans (down_perm less _ _ _ _)

theorem settle_perm (h : Array α) (i n : ℕ) : (settle less h i n).toList.Perm h.toList := by
  unfold settle
  split
  · exact down_perm less _ _ _ _
  · exact up_perm less _ _ _

/-- **Fixing rearranges the elements.** -/
theorem fix_perm (h : Array α) (i : ℕ) : (fix less h i).toList.Perm h.toList :=
  settle_perm less h i _

theorem up_getElem? {j k : ℕ} (hk : j < k) : (up less fuel h j)[k]? = h[k]? := by
  induction fuel generalizing h j with
  | zero => rfl
  | succ fuel ih =>
    rw [up]
    split
    · rfl
    · have hparent : (j - 1) / 2 < k := by omega
      rw [ih hparent, swap_getElem? (Nat.ne_of_gt hparent) (Nat.ne_of_gt hk)]

theorem elementLast_getElem? {i : ℕ} (hi : i < h.size) :
    (elementLast less h i)[h.size - 1]? = h[i]? := by
  unfold elementLast
  by_cases hlast : h.size - 1 = i
  · rw [if_neg (not_not_intro hlast), hlast]
  · rw [if_pos hlast]
    have hlt : i < h.size - 1 := by omega
    have hswap : (h.swapIfInBounds i (h.size - 1))[h.size - 1]? = h[i]? := by
      unfold swapIfInBounds
      rw [dif_pos hi, dif_pos (by omega), getElem?_swap, if_pos rfl]
      exact (getElem?_eq_getElem hi).symm
    rw [← hswap]
    unfold settle
    split
    · exact down_getElem? less hlt (Nat.le_refl _)
    · exact up_getElem? less hlt

theorem elementLast_perm (h : Array α) (i : ℕ) : (elementLast less h i).toList.Perm h.toList := by
  unfold elementLast
  split
  · exact (settle_perm less _ _ _).trans (swap_perm h _ _)
  · exact .refl _

/-- **Removing takes out the element at the position.** -/
theorem remove_perm {i : ℕ} (hx : h[i]? = some x) :
    h.toList.Perm (x :: (remove less h i).toList) := by
  obtain ⟨hi, -⟩ := Array.getElem?_eq_some_iff.mp hx
  have hsize : (elementLast less h i).size = h.size := by
    simpa using (elementLast_perm less h i).length_eq
  have hback : (elementLast less h i).back? = some x := by
    rw [back?_eq_getElem?, hsize, elementLast_getElem? less hi, hx]
  refine (elementLast_perm less h i).symm.trans ?_
  obtain ⟨l, hl⟩ := back?_eq_some_iff.mp hback
  rw [remove, hl, toList_push, pop_push]
  exact List.perm_append_singleton _ _

theorem push_of_not_less (hx : ∀ y ∈ h.toList, less x y = false) : push less h x = h.push x := by
  unfold push
  cases hsize : h.size with
  | zero => rfl
  | succ n =>
    refine if_pos (.inr ?_)
    have hparent : (n + 1 - 1) / 2 < h.size := by omega
    have hget : (h.push x)[(n + 1 - 1) / 2]? = some h[(n + 1 - 1) / 2] := by
      rw [getElem?_push_lt hparent]
    have hlast : (h.push x)[n + 1]? = some x := by
      rw [← hsize, getElem?_push_size]
    unfold lessAt
    rw [hget, hlast]
    exact hx _ (getElem_mem_toList _)

end GoHeap
