import Mathlib

/-!
# The event feed

`event.Feed` sends a value to all subscribed channels. `sendCases` is split into the cases the
current `Send` still has to serve and those behind them, so that the slice `cases` of the source is
`active`. Whether a channel takes the value is decided by whoever owns the channels.
-/

namespace XChain

open List

/-- `deactivate` on the active cases: the last one takes the place of case `i`. -/
def deactivate {α : Type} (l : List α) (i : ℕ) : List α :=
  match l.getLast? with
  | some x => (l.set i x).dropLast
  | none => []

theorem deactivate_perm {α : Type} {l : List α} {i : ℕ} {x : α} (h : l[i]? = some x) :
    (x :: deactivate l i).Perm l := by
  induction l using List.reverseRecOn with
  | nil => cases h
  | append_singleton init last _ =>
    have hd : deactivate (init ++ [last]) i = ((init ++ [last]).set i last).dropLast := by
      simp [deactivate]
    rw [hd]
    by_cases hi : i < init.length
    · rw [getElem?_append_left hi, getElem?_eq_getElem hi, Option.some.injEq] at h
      subst h
      rw [set_append_left _ _ hi, dropLast_concat]
      have hset := set_perm_cons_eraseIdx hi last
      have hget := getElem_cons_eraseIdx_perm hi
      have hswap : (init[i] :: last :: init.eraseIdx i).Perm (last :: init) :=
        (List.Perm.swap _ _ _).trans (hget.cons _)
      exact ((hset.cons _).trans hswap).trans (perm_append_singleton last init).symm
    · have hi' : i = init.length := by
        have := (List.getElem?_eq_some_iff.mp h).1
        simp only [length_append, length_singleton] at this
        omega
      subst hi'
      have hx : x = last := by simpa using h.symm
      subst hx
      have hset : (init ++ [x]).set init.length x = init ++ [x] := by simp
      rw [hset, dropLast_concat]
      exact (perm_append_singleton x init).symm

/-- `Send`: none, before the merge, trying the active cases from `i` on, or in `select`. -/
inductive SendPc (V : Type)
  | idle
  | locked (value : V)
  | trying (value : V) (i : ℕ)
  | blocked (value : V)
deriving DecidableEq

structure Feed (Ch V : Type) where
  inbox : List Ch
  active : List Ch
  served : List Ch
  send : SendPc V

namespace Feed

variable {Ch V : Type}

def empty : Feed Ch V := ⟨[], [], [], .idle⟩

def sendCases (f : Feed Ch V) : List Ch := f.active ++ f.served

def subscribe (f : Feed Ch V) (c : Ch) : Feed Ch V := { f with inbox := f.inbox ++ [c] }

def lock (f : Feed Ch V) (value : V) : Option (Feed Ch V) :=
  match f.send with
  | .idle => some { f with send := .locked value }
  | _ => none

def merge (f : Feed Ch V) : Option (Feed Ch V) :=
  match f.send with
  | .locked value => some ⟨[], f.sendCases ++ f.inbox, [], .trying value 0⟩
  | _ => none

def current (f : Feed Ch V) : Option Ch :=
  match f.send with
  | .trying _ i => f.active[i]?
  | _ => none

def serve (f : Feed Ch V) (i : ℕ) (c : Ch) (send : SendPc V) : Feed Ch V :=
  { f with active := deactivate f.active i, served := c :: f.served, send := send }

/-- `TrySend` on the current case; after the last one `Send` returns or blocks. -/
def attempt (f : Feed Ch V) (sent : Bool) : Option (Feed Ch V) :=
  match f.send with
  | .trying value i => match f.active[i]? with
    | some c => some (if sent then f.serve i c (.trying value i)
        else { f with send := .trying value (i + 1) })
    | none => some { f with send := if f.active = [] then .idle else .blocked value }
  | _ => none

/-- The blocked `Send` is woken by case `i`, which takes the value. -/
def choose (f : Feed Ch V) (i : ℕ) : Option (Feed Ch V) :=
  match f.send, f.active[i]? with
  | .blocked value, some c => some (f.serve i c (.trying value 0))
  | _, _ => none

section Remove

variable [DecidableEq Ch]

/-- `remove`, first part: a channel that is still in the inbox is taken out. -/
def removeInbox (f : Feed Ch V) (c : Ch) : Option (Feed Ch V) :=
  if c ∈ f.inbox then some { f with inbox := f.inbox.erase c } else none

/-- `delete` from the send cases; the index of a missing channel would be out of range. -/
def delete (f : Feed Ch V) (c : Ch) : Option (Feed Ch V) :=
  if c ∈ f.active then some { f with active := f.active.erase c }
  else if c ∈ f.served then some { f with served := f.served.erase c }
  else none

/-- `remove`, second part, with the send lock. -/
def removeLocked (f : Feed Ch V) (c : Ch) : Option (Feed Ch V) :=
  match f.send with
  | .idle => f.delete c
  | _ => none

/-- `remove`, second part, through the blocked `Send`. -/
def removeBlocked (f : Feed Ch V) (c : Ch) : Option (Feed Ch V) :=
  match f.send with
  | .blocked value => (f.delete c).map fun g => { g with send := .trying value 0 }
  | _ => none

end Remove

/-! ## The channels still to serve -/

/-- The channels that the `Send` in progress may still send to. -/
def toServe (f : Feed Ch V) : List Ch :=
  match f.send with
  | .idle => []
  | .locked _ => f.sendCases ++ f.inbox
  | _ => f.active

def Knows (f : Feed Ch V) (c : Ch) : Prop := c ∈ f.inbox ∨ c ∈ f.active ∨ c ∈ f.served

instance [DecidableEq Ch] (f : Feed Ch V) (c : Ch) : Decidable (f.Knows c) :=
  inferInstanceAs (Decidable (_ ∨ _ ∨ _))

section Operations

variable {f g : Feed Ch V} {c d : Ch} {i : ℕ}

theorem mem_toServe_knows (h : c ∈ f.toServe) : f.Knows c := by
  unfold toServe at h
  split at h
  · cases h
  · simp only [sendCases, mem_append] at h
    tauto
  · exact .inr (.inl h)

theorem toServe_subscribe (h : d ∈ (f.subscribe c).toServe) : d ∈ f.toServe ∨ d = c := by
  cases hs : f.send <;>
    simp only [toServe, subscribe, hs, sendCases, mem_append, mem_singleton,
      not_mem_nil] at h ⊢ <;> tauto

theorem knows_subscribe : (f.subscribe c).Knows d ↔ f.Knows d ∨ d = c := by
  simp only [Knows, subscribe, mem_append, mem_singleton]
  tauto

theorem lock_eq_some {value : V} (h : f.lock value = some g) :
    g = { f with send := .locked value } := by
  unfold lock at h
  split at h
  · cases h
    rfl
  · cases h

theorem toServe_merge (h : f.merge = some g) : g.toServe = f.toServe := by
  unfold merge at h
  split at h
  · rename_i value hs
    cases h
    simp only [toServe, hs]
  · cases h

theorem knows_merge (h : f.merge = some g) : g.Knows c ↔ f.Knows c := by
  unfold merge at h
  split at h
  · cases h
    simp only [Knows, sendCases, mem_append, not_mem_nil]
    tauto
  · cases h

theorem mem_serve (hi : f.active[i]? = some c) (pc : SendPc V) :
    (∀ x ∈ (f.serve i c pc).active, x ∈ f.active) ∧ ∀ x, (f.serve i c pc).Knows x ↔ f.Knows x := by
  have hperm := deactivate_perm hi
  refine ⟨fun x hx => hperm.mem_iff.mp (mem_cons_of_mem _ hx), fun x => ?_⟩
  have hmem := hperm.mem_iff (a := x)
  simp only [mem_cons] at hmem
  simp only [Knows, serve, mem_cons]
  rw [← hmem]
  tauto

theorem attempt_spec {sent : Bool} (h : f.attempt sent = some g) :
    (∀ x ∈ g.toServe, x ∈ f.toServe) ∧ ∀ x, g.Knows x ↔ f.Knows x := by
  unfold attempt at h
  split at h
  · rename_i value i hs
    have htoServe : f.toServe = f.active := by simp only [toServe, hs]
    split at h
    · rename_i c hc
      cases h
      rw [htoServe]
      cases sent with
      | true => exact mem_serve hc (.trying value i)
      | false => exact ⟨fun x hx => hx, fun x => .rfl⟩
    · cases h
      rw [htoServe]
      refine ⟨fun x hx => ?_, fun x => .rfl⟩
      by_cases ha : f.active = []
      · simp [toServe, ha] at hx
      · simpa [toServe, ha] using hx
  · cases h

theorem choose_spec (h : f.choose i = some g) :
    (∀ x ∈ g.toServe, x ∈ f.toServe) ∧ ∀ x, g.Knows x ↔ f.Knows x := by
  unfold choose at h
  split at h
  · rename_i value c hs hc
    cases h
    have htoServe : f.toServe = f.active := by simp only [toServe, hs]
    rw [htoServe]
    exact mem_serve hc (.trying value 0)
  · cases h

theorem mem_toServe_of_choose (h : f.choose i = some g) (hi : f.active[i]? = some c) :
    c ∈ f.toServe := by
  unfold choose at h
  split at h
  · rename_i hs _
    simp only [toServe, hs]
    exact mem_of_getElem? hi
  · cases h

theorem current_mem (h : f.current = some c) : c ∈ f.toServe := by
  unfold current at h
  split at h
  · rename_i hs
    simp only [toServe, hs]
    exact mem_of_getElem? h
  · cases h

end Operations

section Removals

variable [DecidableEq Ch] {f g : Feed Ch V} {c : Ch}

theorem removeInbox_spec (h : f.removeInbox c = some g) :
    (∀ x ∈ g.toServe, x ∈ f.toServe) ∧ ∀ x, x ≠ c → f.Knows x → g.Knows x := by
  unfold removeInbox at h
  split_ifs at h
  cases h
  refine ⟨fun x hx => ?_, fun x hne hx => ?_⟩
  · have hsub : ∀ y ∈ f.inbox.erase c, y ∈ f.inbox := fun y => mem_of_mem_erase
    cases hs : f.send <;> simp only [toServe, hs, sendCases, mem_append] at hx ⊢
    · exact hx
    · exact hx.imp_right (hsub x)
    · exact hx
    · exact hx
  · exact hx.imp_left (mem_erase_of_ne hne).mpr

theorem delete_spec (h : f.delete c = some g) : g.send = f.send ∧
    (∀ x ∈ g.active, x ∈ f.active) ∧ ∀ x, x ≠ c → f.Knows x → g.Knows x := by
  unfold delete at h
  split_ifs at h <;> cases h
  · refine ⟨rfl, fun x => mem_of_mem_erase, fun x hne hx => ?_⟩
    exact hx.imp_right (Or.imp_left (mem_erase_of_ne hne).mpr)
  · refine ⟨rfl, fun x hx => hx, fun x hne hx => ?_⟩
    exact hx.imp_right (Or.imp_right (mem_erase_of_ne hne).mpr)

theorem removeLocked_spec (h : f.removeLocked c = some g) :
    (∀ x ∈ g.toServe, x ∈ f.toServe) ∧ ∀ x, x ≠ c → f.Knows x → g.Knows x := by
  unfold removeLocked at h
  split at h
  · rename_i hs
    obtain ⟨hsend, -, hknows⟩ := delete_spec h
    rw [hs] at hsend
    exact ⟨fun x hx => by simp [toServe, hsend] at hx, hknows⟩
  · cases h

theorem removeBlocked_spec (h : f.removeBlocked c = some g) :
    (∀ x ∈ g.toServe, x ∈ f.toServe) ∧ ∀ x, x ≠ c → f.Knows x → g.Knows x := by
  unfold removeBlocked at h
  split at h
  · rename_i value hs
    obtain ⟨g', hg', rfl⟩ := Option.map_eq_some_iff.mp h
    have htoServe : f.toServe = f.active := by simp only [toServe, hs]
    rw [htoServe]
    exact (delete_spec hg').2
  · cases h

end Removals

end Feed

end XChain
