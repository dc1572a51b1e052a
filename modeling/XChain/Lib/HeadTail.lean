import Mathlib

/-!
# Records laid out as heads and tails

A record is written part by part into two strings. A part of fixed size goes to the heads; of any
other part the heads get the position, as a `word`, and the tails the part itself. Positions count
from the first head, so the writer starts with the length that all heads will have.

* `record`: what is written; **`placed_record`**: every part of a record is found, its head behind
  the heads of those before it.
-/

namespace HeadTail

open List

variable {α : Type*}

structure Piece (α : Type*) where
  dynamic : Bool
  body : List α

/-- What has been written, and the position of the next tail. -/
structure Layout (α : Type*) where
  head : List α
  tail : List α
  offset : ℕ

def Layout.bytes (l : Layout α) : List α := l.head ++ l.tail

variable (word : ℕ → List α)

def Layout.push (l : Layout α) (p : Piece α) : Layout α :=
  if p.dynamic then ⟨l.head ++ word l.offset, l.tail ++ p.body, l.offset + p.body.length⟩
  else { l with head := l.head ++ p.body }

/-- A reader that looks for the head of a part at `index` finds the part. -/
def Placed (p : Piece α) (index : ℕ) (output : List α) : Prop :=
  if p.dynamic then ∃ offset, word offset <+: output.drop index ∧
    p.body <+: output.drop offset ∧ offset + p.body.length ≤ output.length
  else p.body <+: output.drop index

variable (w : ℕ)

def Piece.headSize (p : Piece α) : ℕ := if p.dynamic then w else p.body.length

def AllPlaced : List (Piece α) → ℕ → List α → Prop
  | [], _, _ => True
  | p :: ps, index, output =>
    Placed word p index output ∧ AllPlaced ps (index + p.headSize w) output

/-! ## What a layout holds -/

def heads : ℕ → List (Piece α) → List α
  | _, [] => []
  | offset, p :: ps =>
    if p.dynamic then word offset ++ heads (offset + p.body.length) ps
    else p.body ++ heads offset ps

def tails (ps : List (Piece α)) : List α := ps.flatMap fun p => if p.dynamic then p.body else []

theorem foldl_push : ∀ (ps : List (Piece α)) (l : Layout α), ps.foldl (Layout.push word) l =
    ⟨l.head ++ heads word l.offset ps, l.tail ++ tails ps, l.offset + (tails ps).length⟩
  | [], l => by simp [heads, tails]
  | p :: ps, l => by
    rw [foldl_cons, foldl_push ps]
    cases h : p.dynamic <;> simp [Layout.push, heads, tails, h, Nat.add_assoc]

theorem tails_append (ps qs : List (Piece α)) : tails (ps ++ qs) = tails ps ++ tails qs :=
  flatMap_append

theorem heads_append : ∀ (offset : ℕ) (ps qs : List (Piece α)), heads word offset (ps ++ qs) =
    heads word offset ps ++ heads word (offset + (tails ps).length) qs
  | _, [], _ => by simp [heads, tails]
  | offset, p :: ps, qs => by
    cases h : p.dynamic <;> simp [heads, tails, h, heads_append _ ps qs, Nat.add_assoc]

variable {word w} {ps : List (Piece α)}

open Piece

theorem length_heads (hword : ∀ n, (word n).length = w) : ∀ (offset : ℕ) (ps : List (Piece α)),
    (heads word offset ps).length = (ps.map (headSize w)).sum
  | _, [] => rfl
  | offset, p :: ps => by
    cases h : p.dynamic <;> simp [heads, h, headSize, length_heads hword _ ps, hword]

theorem tails_eq_nil (h : ∀ p ∈ ps, p.dynamic = false) : tails ps = [] :=
  flatMap_eq_nil_iff.mpr fun p hp => by rw [h p hp]; rfl

theorem placed_heads_tails (hword : ∀ n, (word n).length = w) (qs rs : List (Piece α)) (p : Piece α)
    (post : List α) (n : ℕ) (hn : n = ((qs ++ p :: rs).map (headSize w)).sum) :
    Placed word p ((qs.map (headSize w)).sum)
      (heads word n (qs ++ p :: rs) ++ tails (qs ++ p :: rs) ++ post) := by
  have hindex : (qs.map (headSize w)).sum = (heads word n qs).length :=
    (length_heads hword n qs).symm
  have hlen : (heads word n (qs ++ p :: rs)).length = n := (length_heads hword n _).trans hn.symm
  have htails : tails (qs ++ p :: rs) = tails qs ++ tails (p :: rs) := tails_append qs _
  unfold Placed
  split_ifs with h
  · have hbody : tails (p :: rs) = p.body ++ tails rs := by simp [tails, h]
    refine ⟨n + (tails qs).length, ?_, ?_, ?_⟩
    · rw [hindex, heads_append, append_assoc, append_assoc, drop_left]
      simp [heads, h]
    · nth_rewrite 1 [← hlen]
      rw [append_assoc, drop_length_add_append, htails, append_assoc, drop_left,
        hbody, append_assoc]
      exact prefix_append _ _
    · rw [length_append, length_append, hlen, htails, length_append, hbody, length_append]
      omega
  · rw [hindex, heads_append, append_assoc, append_assoc, drop_left]
    simp [heads, h]

variable (word w) in
def record (ps : List (Piece α)) : List α :=
  (ps.foldl (Layout.push word) ⟨[], [], (ps.map (Piece.headSize w)).sum⟩).bytes

theorem record_eq (ps : List (Piece α)) :
    record word w ps = heads word ((ps.map (headSize w)).sum) ps ++ tails ps := by
  unfold record Layout.bytes
  rw [foldl_push]
  simp only [nil_append]

/-- **Every part of a record is found.** -/
theorem placed_record (hword : ∀ n, (word n).length = w) (ps : List (Piece α)) (post : List α) :
    AllPlaced word w ps 0 (record word w ps ++ post) := by
  rw [record_eq]
  -- over the parts `rs` that are left, behind those that have been read
  have hrest : ∀ rs qs : List (Piece α), ps = qs ++ rs → AllPlaced word w rs
      ((qs.map (headSize w)).sum)
      (heads word ((ps.map (headSize w)).sum) ps ++ tails ps ++ post) := by
    intro rs
    induction rs with
    | nil => exact fun _ _ => trivial
    | cons p rs ih =>
      intro qs hps
      refine ⟨?_, ?_⟩
      · subst hps
        exact placed_heads_tails hword qs rs p post _ rfl
      · have := ih (qs ++ [p]) (by rw [hps, append_assoc]; rfl)
        rwa [map_append, sum_append, map_singleton, sum_singleton] at this
  exact hrest ps [] rfl

theorem bytes_foldl_push (head : List α) (ps : List (Piece α)) :
    (ps.foldl (Layout.push word) ⟨head, [], (ps.map (headSize w)).sum⟩).bytes =
      head ++ record word w ps := by
  rw [record_eq, foldl_push]
  simp [Layout.bytes]

theorem heads_of_static : ∀ {ps : List (Piece α)} (offset offset' : ℕ),
    (∀ p ∈ ps, p.dynamic = false) → heads word offset ps = heads word offset' ps
  | [], _, _, _ => rfl
  | p :: ps, offset, offset', h => by
    obtain ⟨hp, hps⟩ := forall_mem_cons.mp h
    simp [heads, hp, heads_of_static offset offset' hps]

theorem bytes_foldl_push_of_static (head : List α) (offset : ℕ) (h : ∀ p ∈ ps, p.dynamic = false) :
    (ps.foldl (Layout.push word) ⟨head, [], offset⟩).bytes = head ++ record word w ps := by
  rw [record_eq, foldl_push, heads_of_static offset ((ps.map (headSize w)).sum) h]
  simp [Layout.bytes]

theorem length_record (hword : ∀ n, (word n).length = w) (h : ∀ p ∈ ps, p.dynamic = false) :
    (record word w ps).length = (ps.map (headSize w)).sum := by
  rw [record_eq, tails_eq_nil h, append_nil, length_heads hword]

theorem le_length_record (hword : ∀ n, (word n).length = w) (ps : List (Piece α)) :
    (ps.map (headSize w)).sum ≤ (record word w ps).length := by
  rw [record_eq, length_append, length_heads hword]
  exact Nat.le_add_right _ _

end HeadTail
