import Mathlib

/-!
# Go maps built from pairs

`ofPairs ps` is the map after the assignments `m[k] = v` for the pairs of `ps` in order: a later
pair replaces an earlier one. `mapM_eq_some` reads a loop that stops at the first failure. A
`Ranging` is one of the orders in which `range` may visit the entries of a map.
-/

namespace GoMap

open List

variable {α β : Type*} {f : α → Option β}

def ofPairs [BEq α] (ps : List (α × β)) (key : α) : Option β := ps.reverse.lookup key

theorem mem_of_lookup [BEq α] [LawfulBEq α] {key : α} {b : β} {ps : List (α × β)}
    (h : ps.lookup key = some b) : (key, b) ∈ ps := by
  obtain ⟨before, after, rfl, -⟩ := lookup_eq_some_iff.mp h
  simp

theorem mem_of_ofPairs [BEq α] [LawfulBEq α] {ps : List (α × β)} {key : α} {b : β}
    (h : ofPairs ps key = some b) : (key, b) ∈ ps :=
  mem_reverse.mp (mem_of_lookup h)

theorem mapM_eq_some :
    ∀ {l : List α} {m : List β}, l.mapM f = some m →
      m.length = l.length ∧ (∀ x ∈ l, ∃ y ∈ m, f x = some y) ∧ ∀ y ∈ m, ∃ x ∈ l, f x = some y
  | [], m, h => by
    cases h
    exact ⟨rfl, nofun, nofun⟩
  | x :: l, m, h => by
    rw [mapM_cons] at h
    obtain ⟨y, hy, h⟩ := Option.bind_eq_some_iff.mp h
    obtain ⟨m', hm', h⟩ := Option.bind_eq_some_iff.mp h
    cases h
    obtain ⟨hlen, hto, hfrom⟩ := mapM_eq_some hm'
    refine ⟨by simp [hlen], fun u hu => ?_, fun v hv => ?_⟩
    · rcases mem_cons.mp hu with rfl | hu
      · exact ⟨y, mem_cons_self, hy⟩
      · obtain ⟨v, hv, e⟩ := hto u hu
        exact ⟨v, mem_cons_of_mem _ hv, e⟩
    · rcases mem_cons.mp hv with rfl | hv
      · exact ⟨x, mem_cons_self, hy⟩
      · obtain ⟨u, hu, e⟩ := hfrom v hv
        exact ⟨u, mem_cons_of_mem _ hu, e⟩

/-- An order in which `range` visits the entries of a map: any rearrangement of them. -/
structure Ranging (α : Type*) where
  visit : List α → List α
  visit_perm : ∀ l, (visit l).Perm l

def Ranging.listed : Ranging α := ⟨id, List.Perm.refl⟩

end GoMap
