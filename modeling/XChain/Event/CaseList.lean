import XChain.Event.Feed

/-!
# The feed on slices

`event/feed.go` keeps one array of send cases. The `Send` in progress works on `cases`, a slice of
it: a case that got the value is swapped with the last one of `cases`, which then loses its last
element, and a removal closes the gap in the whole array. Case 0, which receives removals, is left
out, so that every index is one less than in the source.

* **`split_serve`**, **`split_removeCase`**: on the split array a swap serves a case, and a removal
  takes the channel out of the active cases if it is there, wherever it lies.
-/

namespace XChain

open List Option

namespace CaseList

variable {Ch : Type}

/-- `find`; `none` is the index -1. -/
def find [DecidableEq Ch] (cs : List Ch) (c : Ch) : Option ℕ := cs.findIdx? (· = c)

def delete (cs : List Ch) (index : ℕ) : List Ch := cs.take index ++ cs.drop (index + 1)

/-- The array after `deactivate` on a slice whose last element is `last`. -/
def swap (cs : List Ch) (index last : ℕ) : List Ch :=
  match cs[index]?, cs[last]? with
  | some x, some y => (cs.set index y).set last x
  | _, _ => cs

end CaseList

/-- The slices of a feed: `cases` is the length of the slice that the `Send` in progress works on.
-/
structure CaseLists (Ch V : Type) where
  inbox : List Ch
  sendCases : List Ch
  cases : ℕ
  send : SendPc V

open CaseList

namespace CaseLists

variable {Ch V : Type}

def init : CaseLists Ch V := ⟨[], [], 0, .idle⟩

def subscribe (f : CaseLists Ch V) (c : Ch) : CaseLists Ch V := { f with inbox := f.inbox ++ [c] }

def lock (f : CaseLists Ch V) (value : V) : Option (CaseLists Ch V) :=
  match f.send with
  | .idle => some { f with send := .locked value }
  | _ => none

def merge (f : CaseLists Ch V) : Option (CaseLists Ch V) :=
  match f.send with
  | .locked value =>
    some ⟨[], f.sendCases ++ f.inbox, (f.sendCases ++ f.inbox).length, .trying value 0⟩
  | _ => none

def serve (f : CaseLists Ch V) (i : ℕ) (send : SendPc V) : CaseLists Ch V :=
  { f with sendCases := CaseList.swap f.sendCases i (f.cases - 1), cases := f.cases - 1, send }

/-- `TrySend` on the current case; after the last one `Send` returns or blocks. -/
def attempt (f : CaseLists Ch V) (sent : Bool) : Option (CaseLists Ch V) :=
  match f.send with
  | .trying value i =>
    if i < f.cases then
      some (if sent then f.serve i (.trying value i) else { f with send := .trying value (i + 1) })
    else some { f with send := if f.cases = 0 then .idle else .blocked value }
  | _ => none

/-- The blocked `Send` is woken by case `i`, which takes the value. -/
def choose (f : CaseLists Ch V) (i : ℕ) : Option (CaseLists Ch V) :=
  match f.send with
  | .blocked value => if i < f.cases then some (f.serve i (.trying value 0)) else none
  | _ => none

section Remove

variable [DecidableEq Ch]

def removeInbox (f : CaseLists Ch V) (c : Ch) : Option (CaseLists Ch V) :=
  (CaseList.find f.inbox c).map fun index => { f with inbox := CaseList.delete f.inbox index }

/-- A `Send` in progress takes a shorter slice if the index was in it; -1 has no result. -/
def removeCase (f : CaseLists Ch V) (c : Ch) : Option (CaseLists Ch V) :=
  (CaseList.find f.sendCases c).map fun index =>
    { f with
      sendCases := CaseList.delete f.sendCases index
      cases := if index < f.cases then f.cases - 1 else f.cases }

end Remove

/-! ## The split array -/

def split (f : CaseLists Ch V) : Feed Ch V :=
  ⟨f.inbox, f.sendCases.take f.cases, f.sendCases.drop f.cases, f.send⟩

def Sliced (f : CaseLists Ch V) : Prop := f.cases ≤ f.sendCases.length

variable {f : CaseLists Ch V} (hf : f.Sliced)
include hf

theorem exists_last {i : ℕ} (hi : i < f.cases) :
    ∃ init last rest, f.sendCases = init ++ last :: rest ∧ f.cases = init.length + 1 := by
  have hlast : f.cases - 1 < f.sendCases.length := by unfold Sliced at hf; omega
  refine ⟨f.sendCases.take (f.cases - 1), f.sendCases[f.cases - 1],
    f.sendCases.drop (f.cases - 1 + 1), ?_, ?_⟩
  · rw [← drop_eq_getElem_cons hlast, take_append_drop]
  · rw [length_take]
    omega

/-- **The swap serves the case.** -/
theorem split_serve {i : ℕ} {c : Ch} (hi : i < f.cases) (hc : f.sendCases[i]? = some c)
    (pc : SendPc V) : (f.serve i pc).split = f.split.serve i c pc := by
  obtain ⟨init, last, rest, hcases, hlen⟩ := exists_last hf hi
  have htake : f.sendCases.take f.cases = init ++ [last] := by
    rw [hcases, hlen, take_append, take_of_length_le (Nat.le_succ _),
      Nat.add_sub_cancel_left, take_succ_cons, take_zero]
  have hdrop : f.sendCases.drop f.cases = rest := by
    rw [hcases, hlen, drop_append, drop_of_length_le (Nat.le_succ _),
      Nat.add_sub_cancel_left, drop_succ_cons, drop_zero, nil_append]
  have hswap : ∃ front, CaseList.swap f.sendCases i init.length = front ++ c :: rest ∧
      front.length = init.length ∧ deactivate (init ++ [last]) i = front := by
    have hlast : (init ++ last :: rest)[init.length]? = some last := by simp
    have hd : deactivate (init ++ [last]) i = ((init ++ [last]).set i last).dropLast := by
      simp [deactivate]
    rw [hcases] at hc ⊢
    rw [CaseList.swap, hc, hlast, hd]
    rcases Nat.lt_succ_iff_lt_or_eq.mp (hlen ▸ hi) with hlt | rfl
    · refine ⟨init.set i last, ?_, length_set, ?_⟩
      · dsimp only
        rw [set_append_left _ _ hlt, set_append_right _ _ (by simp)]
        simp
      · rw [set_append_left _ _ hlt, dropLast_concat]
    · -- the last active case stays where it is
      obtain rfl : last = c := Option.some.inj (hlast.symm.trans hc)
      exact ⟨init, by simp, rfl, by simp⟩
  obtain ⟨front, hfront, hflen, hdeact⟩ := hswap
  have hpred : f.cases - 1 = front.length := by omega
  unfold serve Feed.serve split
  rw [htake, hdrop, hdeact, hpred, hflen, hfront, ← hflen, take_left, drop_left]

theorem sliced_serve (i : ℕ) (pc : SendPc V) : (f.serve i pc).Sliced := by
  have hlen : (CaseList.swap f.sendCases i (f.cases - 1)).length = f.sendCases.length := by
    unfold CaseList.swap
    split <;> simp
  unfold Sliced serve
  rw [hlen]
  exact Nat.le_trans (Nat.sub_le _ _) hf

omit hf

/-! ## Removals -/

section Removals

variable [DecidableEq Ch] {c : Ch} {cs : List Ch}

theorem find_eq_some {i : ℕ} (h : find cs c = some i) :
    ∃ pre post, cs = pre ++ c :: post ∧ c ∉ pre ∧ i = pre.length := by
  obtain ⟨hlt, hat, hbefore⟩ := findIdx?_eq_some_iff_getElem.mp h
  have hc : cs[i] = c := by simpa using hat
  refine ⟨cs.take i, cs.drop (i + 1), ?_, ?_, ?_⟩
  · rw [← hc, ← drop_eq_getElem_cons hlt, take_append_drop]
  · intro hmem
    obtain ⟨j, hj, hget⟩ := mem_take_iff_getElem.mp hmem
    have := hbefore j (by omega)
    simp only [hget, decide_true, not_true_eq_false] at this
  · rw [length_take]
    omega

theorem find_eq_none : find cs c = none ↔ c ∉ cs := by
  simp only [find, findIdx?_eq_none_iff, decide_eq_false_iff_not]
  exact ⟨fun h hc => h c hc rfl, fun h x hx he => h (he ▸ hx)⟩

omit [DecidableEq Ch] in
theorem delete_eq (pre post : List Ch) (c : Ch) :
    delete (pre ++ c :: post) pre.length = pre ++ post := by
  simp [delete]

theorem erase_eq {pre : List Ch} (h : c ∉ pre) (post : List Ch) :
    (pre ++ c :: post).erase c = pre ++ post := by
  rw [erase_append_right _ h, erase_cons_head]

theorem split_removeInbox (f : CaseLists Ch V) (c : Ch) :
    (f.removeInbox c).map split = f.split.removeInbox c := by
  unfold removeInbox Feed.removeInbox
  cases hfind : find f.inbox c with
  | none => rw [if_neg (show c ∉ f.split.inbox from find_eq_none.mp hfind)]; rfl
  | some i =>
    obtain ⟨pre, post, hinbox, hpre, rfl⟩ := find_eq_some hfind
    have hmem : c ∈ f.split.inbox := by
      change c ∈ f.inbox
      simp [hinbox]
    have hdelete : delete f.inbox pre.length = f.split.inbox.erase c := by
      change _ = f.inbox.erase c
      rw [hinbox, delete_eq, erase_eq hpre]
    rw [if_pos hmem, map_some, map_some, hdelete]
    rfl

/-- **A removal shortens the part of the array where the channel is.** -/
theorem split_removeCase (f : CaseLists Ch V) (c : Ch) :
    (f.removeCase c).map split = f.split.delete c := by
  unfold removeCase Feed.delete
  cases hfind : find f.sendCases c with
  | none =>
    have hc := find_eq_none.mp hfind
    have hactive : c ∉ f.split.active := fun h => hc (mem_of_mem_take h)
    have hserved : c ∉ f.split.served := fun h => hc (mem_of_mem_drop h)
    rw [if_neg hactive, if_neg hserved]
    rfl
  | some i =>
    obtain ⟨pre, post, hcases, hpre, rfl⟩ := find_eq_some hfind
    rw [map_some, map_some, hcases, delete_eq]
    by_cases hlt : pre.length < f.cases
    · -- the case is in the slice
      obtain ⟨m, hm⟩ : ∃ m, f.cases = pre.length + (m + 1) := ⟨f.cases - pre.length - 1, by omega⟩
      have hactive : f.split.active = pre ++ c :: post.take m := by
        change f.sendCases.take f.cases = _
        rw [hcases, hm, take_length_add_append, take_succ_cons]
      have hserved : f.split.served = post.drop m := by
        change f.sendCases.drop f.cases = _
        rw [hcases, hm, drop_length_add_append, drop_succ_cons]
      have hpred : f.cases - 1 = pre.length + m := by omega
      have hmem : c ∈ f.split.active := by simp [hactive]
      rw [if_pos hmem, if_pos hlt, hactive, hserved, erase_eq hpre, hpred, split,
        take_length_add_append, drop_length_add_append]
      rfl
    · have hle : f.cases ≤ pre.length := Nat.le_of_not_lt hlt
      have hactive : f.split.active = pre.take f.cases := by
        change f.sendCases.take f.cases = _
        rw [hcases, take_append_of_le_length hle]
      have hserved : f.split.served = pre.drop f.cases ++ c :: post := by
        change f.sendCases.drop f.cases = _
        rw [hcases, drop_append_of_le_length hle]
      have hnot : c ∉ f.split.active := fun h => hpre (mem_of_mem_take (hactive ▸ h))
      have hmem : c ∈ f.split.served := by simp [hserved]
      rw [if_neg hnot, if_pos hmem, if_neg hlt, hactive, hserved,
        erase_eq fun h => hpre (mem_of_mem_drop h), split, take_append_of_le_length hle,
        drop_append_of_le_length hle]
      rfl

theorem sliced_removeCase {f g : CaseLists Ch V} (hf : f.Sliced) (h : f.removeCase c = some g) :
    g.Sliced := by
  obtain ⟨i, hfind, rfl⟩ := map_eq_some_iff.mp h
  obtain ⟨pre, post, hcases, -, rfl⟩ := find_eq_some hfind
  unfold Sliced at hf ⊢
  rw [hcases] at hf
  rw [hcases, delete_eq]
  simp only [length_append, length_cons] at hf ⊢
  split <;> omega

end Removals

end CaseLists

end XChain
