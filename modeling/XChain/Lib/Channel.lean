import Mathlib

/-!
# Channels with one reader

A channel keeps what was sent and not yet received, in order. Its capacity is not bounded: a send
never waits, so that a system has at least the runs that it has with any capacity, a channel
without buffer included (there a send and the receipt of it are one step).

* `recv_eq_some`, **`recv_eq_none_of_ended`**: what a reader sees.
-/

namespace GoChan

variable {α : Type*}

structure Chan (α : Type*) where
  queue : List α
  closed : Bool

namespace Chan

def new : Chan α := ⟨[], false⟩

def send (c : Chan α) (x : α) : Chan α := { c with queue := c.queue ++ [x] }

def close (c : Chan α) : Chan α := { c with closed := true }

def recv (c : Chan α) : Option (α × Chan α) :=
  match c.queue with
  | [] => none
  | x :: rest => some (x, { c with queue := rest })

def Ended (c : Chan α) : Prop := c.closed = true ∧ c.queue.isEmpty = true

instance (c : Chan α) : Decidable c.Ended := inferInstanceAs (Decidable (_ ∧ _))

variable {c c' : Chan α} {x : α}

@[simp] theorem queue_send : (c.send x).queue = c.queue ++ [x] := rfl

@[simp] theorem closed_send : (c.send x).closed = c.closed := rfl

@[simp] theorem queue_close : c.close.queue = c.queue := rfl

@[simp] theorem closed_close : c.close.closed = true := rfl

theorem Ended.queue_eq (h : c.Ended) : c.queue = [] := List.isEmpty_iff.mp h.2

theorem recv_eq_some (h : c.recv = some (x, c')) :
    c.queue = x :: c'.queue ∧ c'.closed = c.closed := by
  unfold recv at h
  split at h
  · cases h
  · rename_i hq
    cases h
    exact ⟨hq, rfl⟩

/-- **A channel that has ended gives nothing.** -/
theorem recv_eq_none_of_ended (h : c.Ended) : c.recv = none := by
  unfold recv
  rw [h.queue_eq]

end Chan

end GoChan
