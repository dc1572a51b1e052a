import Mathlib

/-!
# Deadlocks

`W p q` says that `p` waits for `q`. A set of processes is deadlocked if each one waits for one of
them. If whoever is waited for and waits itself has a smaller rank, no set is.
-/

namespace WaitFor

variable {P : Type*} {W : P → P → Prop}

variable (W) in
def Deadlocked (D : Set P) : Prop := D.Nonempty ∧ ∀ p ∈ D, ∃ q ∈ D, W p q

theorem not_deadlocked_of_rank {rank : P → ℕ}
    (h : ∀ {p q r}, W p q → W q r → rank q < rank p) (D : Set P) : ¬ Deadlocked W D := by
  rintro ⟨hne, hwait⟩
  obtain ⟨p, hp, hmin⟩ := (measure rank).wf.has_min D hne
  obtain ⟨q, hq, hpq⟩ := hwait p hp
  obtain ⟨r, -, hqr⟩ := hwait q hq
  exact hmin q hq (h hpq hqr)

end WaitFor
