import Mathlib

/-!
# Blocks of equal length in one list

A list of `w` entries for each of some slots: the entries of a slot are all empty, or all those of
the block that fills it.

* **`overwrite_flat`**: a block is copied to its slot.
-/

namespace Blocks

open List Option Nat

variable {α β : Type*}

def entries (w : ℕ) : Option (List α) → List (Option α)
  | none => replicate w none
  | some xs => xs.map some

def flat (w : ℕ) (slots : List (Option (List α))) : List (Option α) := slots.flatMap (entries w)

def Whole (w : ℕ) (slots : List (Option (List α))) : Prop :=
  ∀ xs, some xs ∈ slots → xs.length = w

/-- The entries from `k` on are overwritten, as far as there are any. -/
def overwrite (l : List β) (k : ℕ) (xs : List β) : List β :=
  l.take k ++ xs.take (l.length - k) ++ l.drop (k + xs.length)

variable {w : ℕ} {slots : List (Option (List α))} {slot : Option (List α)} {xs : List α}

theorem length_entries (h : ∀ xs, slot = some xs → xs.length = w) :
    (entries w slot).length = w := by
  cases slot with
  | none => exact length_replicate ..
  | some xs => exact (length_map ..).trans (h xs rfl)

theorem Whole.cons (h : Whole w (slot :: slots)) : (entries w slot).length = w ∧ Whole w slots :=
  ⟨length_entries fun xs hxs => h xs (hxs ▸ mem_cons_self),
    fun xs hxs => h xs (mem_cons_of_mem _ hxs)⟩

theorem Whole.drop (h : Whole w slots) (i : ℕ) : Whole w (slots.drop i) :=
  fun xs hxs => h xs (mem_of_mem_drop hxs)

theorem flat_cons (w : ℕ) (slot : Option (List α)) (slots : List (Option (List α))) :
    flat w (slot :: slots) = entries w slot ++ flat w slots := flatMap_cons

theorem flat_append (w : ℕ) (slots slots' : List (Option (List α))) :
    flat w (slots ++ slots') = flat w slots ++ flat w slots' := flatMap_append

theorem flat_replicate (w : ℕ) : ∀ n : ℕ,
    flat w (replicate n (none : Option (List α))) = replicate (n * w) none
  | 0 => by simp [flat]
  | n + 1 => by
    rw [replicate_succ, flat_cons, flat_replicate w n, entries,
      replicate_append_replicate,
      succ_mul, add_comm]

theorem flat_map_some (w : ℕ) : ∀ blocks : List (List α),
    flat w (blocks.map some) = blocks.flatten.map some
  | [] => rfl
  | block :: blocks => by
    rw [map_cons, flat_cons, flat_map_some w blocks, flatten_cons, map_append]
    rfl

theorem length_flat : ∀ {slots : List (Option (List α))}, Whole w slots →
    (flat w slots).length = w * slots.length
  | [], _ => rfl
  | slot :: slots, h => by
    rw [flat_cons, length_append, h.cons.1, length_flat h.cons.2, length_cons]
    ring

theorem drop_flat : ∀ {slots : List (Option (List α))} (i : ℕ), Whole w slots →
    (flat w slots).drop (w * i) = flat w (slots.drop i)
  | slots, 0, _ => rfl
  | [], i + 1, _ => by simp [flat]
  | slot :: slots, i + 1, h => by
    have hpos : w * (i + 1) = (entries w slot).length + w * i := by rw [h.cons.1]; ring
    rw [flat_cons, hpos, drop_length_add_append, drop_flat i h.cons.2, drop_succ_cons]

theorem take_flat : ∀ {slots : List (Option (List α))} (i : ℕ), Whole w slots →
    (flat w slots).take (w * i) = flat w (slots.take i)
  | slots, 0, _ => rfl
  | [], i + 1, _ => by simp [flat]
  | slot :: slots, i + 1, h => by
    have hpos : w * (i + 1) = (entries w slot).length + w * i := by rw [h.cons.1]; ring
    rw [flat_cons, hpos, take_length_add_append, take_flat i h.cons.2, take_succ_cons, flat_cons]

theorem getElem?_flat (hw : 0 < w) (h : Whole w slots) {i : ℕ} (hi : slots[i]? = some slot) :
    ∃ e, (flat w slots)[w * i]? = some e ∧ e.isSome = slot.isSome := by
  obtain ⟨rest, hrest⟩ : ∃ rest, slots.drop i = slot :: rest := by
    obtain ⟨hlt, rfl⟩ := List.getElem?_eq_some_iff.mp hi
    exact ⟨_, drop_eq_getElem_cons hlt⟩
  have hfirst : (flat w slots)[w * i]? = (entries w slot)[0]? := by
    have hlen : (entries w slot).length = w := by
      have := h.drop i
      rw [hrest] at this
      exact this.cons.1
    rw [← add_zero (w * i), ← getElem?_drop, drop_flat i h, hrest, flat_cons,
      getElem?_append_left (by omega)]
  rw [hfirst]
  cases slot with
  | none =>
    refine ⟨none, ?_, rfl⟩
    simp [entries, hw]
  | some xs =>
    have hlen : xs.length = w := h xs (mem_of_getElem? hi)
    obtain ⟨x, ys, rfl⟩ := exists_cons_of_length_pos (hlen ▸ hw)
    exact ⟨some x, rfl, rfl⟩

theorem exists_of_getElem?_flat {x : α} : ∀ {slots : List (Option (List α))} {k : ℕ},
    Whole w slots → (flat w slots)[k]? = some (some x) →
      ∃ i j xs, k = w * i + j ∧ slots[i]? = some (some xs) ∧ xs[j]? = some x
  | [], k, _, h => by cases h
  | slot :: slots, k, hwhole, h => by
    obtain ⟨hlen, hrest⟩ := hwhole.cons
    rw [flat_cons] at h
    by_cases hk : k < w
    · rw [getElem?_append_left (by omega)] at h
      cases slot with
      | none =>
        rw [entries, getElem?_replicate] at h
        split_ifs at h
        cases h
      | some xs =>
        rw [entries, getElem?_map] at h
        obtain ⟨y, hy, heq⟩ := map_eq_some_iff.mp h
        exact ⟨0, k, xs, by omega, rfl, some.inj heq ▸ hy⟩
    · rw [getElem?_append_right (by omega), hlen] at h
      obtain ⟨i, j, xs, hij, hslot, hx⟩ := exists_of_getElem?_flat hrest h
      refine ⟨i + 1, j, xs, ?_, hslot, hx⟩
      rw [mul_succ]
      omega

/-- **A block is copied to its slot.** -/
theorem overwrite_flat (h : Whole w slots) (hxs : xs.length = w) {i : ℕ} (hi : i < slots.length) :
    overwrite (flat w slots) (w * i) (xs.map some) = flat w (slots.set i (some xs)) := by
  unfold overwrite
  have hroom : w ≤ (flat w slots).length - w * i := by
    rw [length_flat h, ← Nat.mul_sub]
    exact Nat.le_mul_of_pos_right w (by omega)
  have hall : (xs.map some).take ((flat w slots).length - w * i) = xs.map some :=
    take_of_length_le (by rwa [length_map, hxs])
  rw [hall, take_flat i h, length_map, hxs, ← mul_succ, drop_flat (i + 1) h,
    set_eq_take_append_cons_drop, if_pos hi, flat_append, flat_cons, append_assoc]
  rfl

/-! ## Filled slots -/

theorem exists_map_some : ∀ {slots : List (Option β)}, (∀ slot ∈ slots, slot.isSome) →
    ∃ blocks : List β, slots = blocks.map some
  | [], _ => ⟨[], rfl⟩
  | slot :: slots, h => by
    obtain ⟨hslot, hslots⟩ := forall_mem_cons.mp h
    obtain ⟨block, rfl⟩ := isSome_iff_exists.mp hslot
    obtain ⟨blocks, rfl⟩ := exists_map_some hslots
    exact ⟨block :: blocks, rfl⟩

/-- The positions of the filled slots, the first slot being at `p`. -/
def filled (w : ℕ) : ℕ → List (Option β) → List ℕ
  | _, [] => []
  | p, none :: slots => filled w (p + w) slots
  | p, some _ :: slots => p :: filled w (p + w) slots

theorem filled_replicate (w : ℕ) : ∀ (p n : ℕ), filled w p (replicate n (none : Option β)) = []
  | _, 0 => rfl
  | p, n + 1 => filled_replicate w (p + w) n

theorem filled_set (w : ℕ) (x : β) : ∀ {slots : List (Option β)} (p i : ℕ), slots[i]? = some none →
    (filled w p (slots.set i (some x))).Perm ((p + w * i) :: filled w p slots)
  | [], p, i, h => by cases h
  | slot :: slots, p, 0, h => by
    obtain rfl : slot = none := some.inj h
    exact .refl _
  | slot :: slots, p, i + 1, h => by
    have hi : slots[i]? = some none := h
    have ih := filled_set w x (p + w) i hi
    have hpos : p + w + w * i = p + w * (i + 1) := by ring
    rw [hpos] at ih
    cases slot with
    | none => exact ih
    | some y => exact (ih.cons p).trans (List.Perm.swap _ _ _)

theorem mem_filled {w : ℕ} : ∀ {slots : List (Option β)} {p q : ℕ},
    q ∈ filled w p slots ↔ ∃ i x, slots[i]? = some (some x) ∧ q = p + w * i
  | [], p, q => by simp [filled]
  | slot :: slots, p, q => by
    have hstep : ∀ i, p + w + w * i = p + w * (i + 1) := fun i => by ring
    cases slot with
    | none =>
      rw [filled, mem_filled]
      constructor
      · rintro ⟨i, x, hx, rfl⟩
        exact ⟨i + 1, x, hx, hstep i⟩
      · rintro ⟨_ | i, x, hx, rfl⟩
        · cases hx
        · exact ⟨i, x, hx, (hstep i).symm⟩
    | some y =>
      rw [filled, mem_cons, mem_filled]
      constructor
      · rintro (rfl | ⟨i, x, hx, rfl⟩)
        · exact ⟨0, y, rfl, rfl⟩
        · exact ⟨i + 1, x, hx, hstep i⟩
      · rintro ⟨_ | i, x, hx, rfl⟩
        · exact .inl rfl
        · exact .inr ⟨i, x, hx, (hstep i).symm⟩

end Blocks
