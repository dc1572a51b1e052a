import Mathlib

/-!
# Ancestors in a tree of nodes with heights

A tree is given by a function `parent` and a `height`. A set of nodes is `Rooted` if it has the
parent of each of its nodes, one level below, down to the root at height 0.

* **`Rooted.ancestor_mem`**: a rooted set has the ancestors of its nodes, each at its height.
-/

namespace Ancestry

open List Function

variable {α : Type*}

/-- The ancestor of a node at a height that is not above its own. -/
def ancestor (parent : α → α) (height : α → ℕ) (x : α) (n : ℕ) : α := parent^[height x - n] x

/-- The set has the parents of its nodes, down to the root. -/
structure Rooted (parent : α → α) (height : α → ℕ) (root : α) (S : Set α) : Prop where
  root_mem : root ∈ S
  root_height : height root = 0
  parent_mem : ∀ x ∈ S, x ≠ root → parent x ∈ S
  height_eq : ∀ x ∈ S, x ≠ root → height x = height (parent x) + 1

variable {parent : α → α} {height : α → ℕ} {root x y : α} {n m : ℕ} {S : Set α}

@[simp] theorem ancestor_self : ancestor parent height x (height x) = x := by
  rw [ancestor, Nat.sub_self]
  rfl

theorem ancestor_parent (hx : height x = height (parent x) + 1) (hn : n ≤ height (parent x)) :
    ancestor parent height x n = ancestor parent height (parent x) n := by
  have hsub : height x - n = (height (parent x) - n) + 1 := by omega
  rw [ancestor, hsub, iterate_succ_apply]
  rfl

namespace Rooted

variable (h : Rooted parent height root S)
include h

variable (hx : x ∈ S)
include hx

theorem height_pos (hne : x ≠ root) : 0 < height x := by
  rw [h.height_eq x hx hne]
  exact Nat.succ_pos _

theorem eq_root (h0 : height x = 0) : x = root := by
  by_contra hne
  have := h.height_pos hx hne
  omega

omit hx in
theorem ne_root (hpos : 0 < height x) : x ≠ root := by
  rintro rfl
  rw [h.root_height] at hpos
  exact Nat.lt_irrefl 0 hpos

/-- **A rooted set has the ancestors of its nodes.** -/
theorem ancestor_mem (hn : n ≤ height x) :
    ancestor parent height x n ∈ S ∧ height (ancestor parent height x n) = n := by
  generalize hd : height x - n = d
  induction d generalizing x with
  | zero =>
    have he : n = height x := by omega
    rw [he, ancestor_self]
    exact ⟨hx, rfl⟩
  | succ d ih =>
    have hne : x ≠ root := h.ne_root (by omega)
    have hheight := h.height_eq x hx hne
    rw [ancestor_parent hheight (by omega)]
    exact ih (h.parent_mem x hx hne) (by omega) (by omega)

theorem ancestor_zero : ancestor parent height x 0 = root := by
  obtain ⟨hmem, hheight⟩ := h.ancestor_mem hx (Nat.zero_le _)
  exact h.eq_root hmem hheight

theorem ancestor_ancestor (hn : n ≤ height x) (hm : m ≤ n) :
    ancestor parent height (ancestor parent height x n) m = ancestor parent height x m := by
  have hsub : height x - m = (n - m) + (height x - n) := by omega
  have hheight := (h.ancestor_mem hx hn).2
  rw [ancestor, hheight, ancestor, ancestor, hsub, iterate_add_apply]

theorem ancestor_eq_of_le (hy : y ∈ S) (hnx : n ≤ height x) (hny : n ≤ height y) (hm : m ≤ n)
    (heq : ancestor parent height x n = ancestor parent height y n) :
    ancestor parent height x m = ancestor parent height y m := by
  rw [← h.ancestor_ancestor hx hnx hm, heq, h.ancestor_ancestor hy hny hm]

omit hx

omit h

theorem insert (h : Rooted parent height root S) (hp : parent x ∈ S)
    (hx : height x = height (parent x) + 1) : Rooted parent height root (Insert.insert x S) where
  root_mem := Set.mem_insert_of_mem x h.root_mem
  root_height := h.root_height
  parent_mem := by
    rintro y (rfl | hy) hne
    · exact Set.mem_insert_of_mem _ hp
    · exact Set.mem_insert_of_mem x (h.parent_mem y hy hne)
  height_eq := by
    rintro y (rfl | hy) hne
    · exact hx
    · exact h.height_eq y hy hne

end Rooted

/-! ## Nodes connected to the root -/

/-- The node and all its ancestors down to the root are in the set, each one level above
the next. -/
inductive Connected (parent : α → α) (height : α → ℕ) (root : α) (S : Set α) : α → Prop
  | root : Connected parent height root S root
  | child {x : α} : x ∈ S → height x = height (parent x) + 1 →
      Connected parent height root S (parent x) → Connected parent height root S x

theorem rooted_connected (h : height root = 0) (S : Set α) :
    Rooted parent height root {x | Connected parent height root S x} where
  root_mem := .root
  root_height := h
  parent_mem := by
    rintro x (_ | ⟨_, _, hp⟩) hne
    · exact absurd rfl hne
    · exact hp
  height_eq := by
    rintro x (_ | ⟨_, hx, _⟩) hne
    · exact absurd rfl hne
    · exact hx

theorem Connected.mono {T : Set α} (hST : S ⊆ T) (h : Connected parent height root S x) :
    Connected parent height root T x := by
  induction h with
  | root => exact .root
  | child hx hheight _ ih => exact .child (hST hx) hheight ih

theorem Connected.mem (h : Connected parent height root S x) (hroot : root ∈ S) : x ∈ S := by
  cases h with
  | root => exact hroot
  | child hx _ _ => exact hx

/-! ## Paths -/

/-- A node and its ancestors above height `n`, from the node downwards. -/
def path (parent : α → α) (height : α → ℕ) (x : α) (n : ℕ) : List α :=
  (List.range (height x - n)).map fun i => parent^[i] x

theorem path_self : path parent height x (height x) = [] := by
  rw [path, Nat.sub_self]
  rfl

theorem path_cons (hx : height x = height (parent x) + 1) (hn : n ≤ height (parent x)) :
    path parent height x n = x :: path parent height (parent x) n := by
  have hsub : height x - n = (height (parent x) - n) + 1 := by omega
  rw [path, hsub, range_succ_eq_map, map_cons, map_map]
  rfl

theorem mem_path : y ∈ path parent height x n ↔
    ∃ k, n < k ∧ k ≤ height x ∧ ancestor parent height x k = y := by
  rw [path, mem_map]
  constructor
  · rintro ⟨i, hi, rfl⟩
    have hi := mem_range.mp hi
    refine ⟨height x - i, by omega, by omega, ?_⟩
    rw [ancestor, Nat.sub_sub_self (by omega)]
  · rintro ⟨k, hnk, hk, rfl⟩
    exact ⟨height x - k, mem_range.mpr (by omega), rfl⟩

theorem Rooted.path_append (h : Rooted parent height root S) (hx : x ∈ S) (hn : n ≤ height x)
    (hm : m ≤ n) : path parent height x n ++ path parent height (ancestor parent height x n) m =
      path parent height x m := by
  generalize hd : height x - n = d
  induction d generalizing x with
  | zero =>
    have he : n = height x := by omega
    rw [he, ancestor_self, path_self]
    rfl
  | succ d ih =>
    have hne : x ≠ root := h.ne_root (by omega)
    have hheight := h.height_eq x hx hne
    rw [path_cons hheight (by omega), ancestor_parent hheight (by omega), cons_append,
      ih (h.parent_mem x hx hne) (by omega) (by omega), path_cons hheight (by omega)]

/-! ## Weights -/

def total (parent : α → α) (height : α → ℕ) (weight : α → ℤ) (x : α) : ℤ :=
  ∑ n ∈ Finset.range (height x + 1), weight (ancestor parent height x n)

variable {weight : α → ℤ}

theorem total_root (h : Rooted parent height root S) :
    total parent height weight root = weight root := by
  have hself : ancestor parent height root 0 = root := h.ancestor_zero h.root_mem
  rw [total, h.root_height, Finset.sum_range_one, hself]

theorem total_eq (hx : height x = height (parent x) + 1) :
    total parent height weight x = weight x + total parent height weight (parent x) := by
  rw [total, Finset.sum_range_succ, ancestor_self, hx, add_comm, total]
  congr 1
  refine Finset.sum_congr rfl fun n hn => ?_
  rw [ancestor_parent hx (Nat.lt_succ_iff.mp (Finset.mem_range.mp hn))]

end Ancestry
