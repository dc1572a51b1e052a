import Mathlib

/-!
# Loops over linked lists that remove elements

A list of `container/list` is walked with `for e := l.Front(); e != nil; e = e.Next()`, and the body
may remove the element it is at. A removed element is in no list and has no next one.

* **`loop_eq_walk`**: the loop is left with the first element it removes.
-/

namespace GoList

open List

/-- What the body of a loop does with the element it is at: it stays in the list, is removed, or the
loop is left. -/
inductive Visit
  | keep
  | remove
  | leave
deriving DecidableEq

section

variable {α σ : Type*}

/-- The loop by recursion over the list. The last component says whether it was left. -/
def walk (body : σ → α → σ × Visit) : List α → σ → List α × σ × Bool
  | [], s => ([], s, false)
  | e :: l, s =>
    match body s e with
    | (t, .keep) => (e :: (walk body l t).1, (walk body l t).2)
    | (t, .remove) => (l, t, false)
    | (t, .leave) => (e :: l, t, true)

theorem walk_invariant {body : σ → α → σ × Visit} {I : σ → Prop}
    (hI : ∀ s e, I s → I (body s e).1) : ∀ (l : List α) {s : σ}, I s → I (walk body l s).2.1
  | [], _, hs => hs
  | e :: l, s, hs => by
    have ht := hI s e hs
    unfold walk
    cases hbody : body s e with
    | mk t visit =>
      rw [hbody] at ht
      cases visit with
      | keep => exact walk_invariant hI l ht
      | remove | leave => exact ht

theorem walk_perm {β : Type*} (body : σ → α → σ × Visit) (key : α → β) (out : σ → List β)
    (hremove : ∀ s e, (body s e).2 = .remove → (out (body s e).1).Perm (key e :: out s))
    (hkeep : ∀ s e, (body s e).2 ≠ .remove → out (body s e).1 = out s) :
    ∀ (l : List α) (s : σ), ((walk body l s).1.map key ++ out (walk body l s).2.1).Perm
      (l.map key ++ out s)
  | [], s => .refl _
  | e :: l, s => by
    unfold walk
    cases hbody : body s e with
    | mk t visit =>
      have hr := hremove s e
      have hk := hkeep s e
      rw [hbody] at hr hk
      cases visit with
      | keep =>
        have ih := walk_perm body key out hremove hkeep l t
        rw [hk nofun] at ih
        exact ih.cons (key e)
      | remove => exact ((hr rfl).append_left _).trans perm_middle
      | leave =>
        rw [hk nofun]

variable [DecidableEq α]

def next (e : α) : List α → Option α
  | [] => none
  | a :: l => if a = e then l.head? else next e l

def loopFrom (body : σ → α → σ × Visit) : ℕ → Option α → List α → σ → List α × σ × Bool
  | fuel + 1, some e, l, s =>
    match body s e with
    | (t, .keep) => loopFrom body fuel (next e l) l t
    | (t, .remove) => loopFrom body fuel (next e (l.erase e)) (l.erase e) t
    | (t, .leave) => (l, t, true)
  | _, _, l, s => (l, s, false)

/-- The loop over a list; it has at most as many rounds as there are elements. -/
def loop (body : σ → α → σ × Visit) (l : List α) (s : σ) : List α × σ × Bool :=
  loopFrom body l.length l.head? l s

theorem next_of_not_mem {e : α} : ∀ {l : List α}, e ∉ l → next e l = none
  | [], _ => rfl
  | a :: l, h => by
    rw [mem_cons, not_or] at h
    rw [next, if_neg (Ne.symm h.1)]
    exact next_of_not_mem h.2

theorem next_append {e : α} {post : List α} : ∀ {pre : List α}, e ∉ pre →
    next e (pre ++ e :: post) = post.head?
  | [], _ => if_pos rfl
  | a :: pre, h => by
    rw [mem_cons, not_or] at h
    rw [cons_append, next, if_neg (Ne.symm h.1)]
    exact next_append h.2

theorem loopFrom_none (body : σ → α → σ × Visit) (fuel : ℕ) (l : List α) (s : σ) :
    loopFrom body fuel none l s = (l, s, false) := by
  cases fuel <;> rfl

theorem loopFrom_eq_walk (body : σ → α → σ × Visit) : ∀ (post pre : List α)
    {fuel : ℕ} (s : σ), (pre ++ post).Nodup → post.length ≤ fuel →
    loopFrom body fuel post.head? (pre ++ post) s =
      (pre ++ (walk body post s).1, (walk body post s).2)
  | [], _, _, _, _, _ => loopFrom_none _ _ _ _
  | e :: post, pre, 0, _, _, hfuel => absurd hfuel (Nat.not_succ_le_zero _)
  | e :: post, pre, fuel + 1, s, hnodup, hfuel => by
    have hpre : e ∉ pre := fun hmem =>
      disjoint_of_nodup_append hnodup hmem mem_cons_self
    have herase : (pre ++ e :: post).erase e = pre ++ post := by
      rw [erase_append_right _ hpre, erase_cons_head]
    have hgone : e ∉ pre ++ post := by
      have := (perm_middle.nodup_iff.mp hnodup)
      exact (nodup_cons.mp this).1
    rw [head?_cons, loopFrom, walk]
    cases body s e with
    | mk t visit =>
      cases visit with
      | keep =>
        -- the next round, with the element behind
        have happend : pre ++ e :: post = (pre ++ [e]) ++ post := by simp
        dsimp only
        rw [next_append hpre, happend, loopFrom_eq_walk body post _ t (happend ▸ hnodup)
          (Nat.le_of_succ_le_succ hfuel)]
        simp
      | remove =>
        dsimp only
        rw [herase, next_of_not_mem hgone, loopFrom_none]
      | leave => rfl

/-- **The loop is left with the first element it removes.** -/
theorem loop_eq_walk (body : σ → α → σ × Visit) {l : List α} (h : l.Nodup) (s : σ) :
    loop body l s = walk body l s :=
  loopFrom_eq_walk body l [] s h (Nat.le_refl _)

end

end GoList
