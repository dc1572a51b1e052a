import Mathlib

/-!
# Machines given by a partial step function

A machine is a function `step : σ → α → Option σ`: in state `s` the action `a` either is not
enabled (`none`) or leads to one state. All nondeterminism (which process moves, what a remote
party answers) is in the action, so a run is a list of actions and can be evaluated.

* **`run_invariant`**, **`run_invariant_along`**: what every step preserves, every run preserves;
* **`exists_run_along`**: actions that are always possible make up a run;
* `drain go body`: a loop over a list that ends early, by its condition or by a failure of its body;
  **`drain_invariant`**, `foldlM_invariant`, `exists_foldlM`: what the body of a loop preserves, the
  loop preserves.
-/

namespace StepMachine

open List Option

variable {σ α : Type*} {step : σ → α → Option σ}

variable (step) in
/-- The state after the actions of a list, if all of them are enabled in turn. -/
def run : σ → List α → Option σ
  | s, [] => some s
  | s, a :: as => (step s a).bind fun t => run t as

theorem run_cons (s : σ) (a : α) (as : List α) :
    run step s (a :: as) = (step s a).bind fun t => run step t as := rfl

variable {as : List α} {a : α}

theorem run_cons_eq_some {s u : σ} :
    run step s (a :: as) = some u ↔ ∃ t, step s a = some t ∧ run step t as = some u := by
  rw [run_cons, bind_eq_some_iff]

theorem run_append (s : σ) (as bs : List α) :
    run step s (as ++ bs) = (run step s as).bind fun t => run step t bs := by
  induction as generalizing s with
  | nil => rfl
  | cons a as ih =>
    rw [cons_append, run_cons, run_cons, bind_assoc]
    exact congrArg _ (funext fun t => ih t)

/-- A step with a guard. -/
theorem of_guard {p : Prop} [Decidable p] {s t : σ} (h : (if p then some s else none) = some t) :
    p ∧ t = s := by
  obtain ⟨hp, h⟩ := ite_none_right_eq_some.mp h
  exact ⟨hp, (some.inj h).symm⟩

variable (step) in
/-- Every action of the run from `s` meets `ok` in the state where it is taken. -/
def Along (ok : σ → α → Prop) : σ → List α → Prop
  | _, [] => True
  | s, a :: as => ok s a ∧ ∀ t, step s a = some t → Along ok t as

variable {ok : σ → α → Prop}

theorem along_cons_of_none {s : σ} (h : step s a = none) : Along step ok s (a :: as) ↔ ok s a := by
  simp [Along, h]

theorem along_cons_of_some {s t : σ} (h : step s a = some t) :
    Along step ok s (a :: as) ↔ ok s a ∧ Along step ok t as := by
  simp [Along, h]

instance decidableAlong (ok : σ → α → Prop) [∀ s a, Decidable (ok s a)] :
    ∀ (s : σ) (as : List α), Decidable (Along step ok s as)
  | _, [] => isTrue trivial
  | s, a :: as =>
    match h : step s a with
    | none => decidable_of_iff (ok s a) (along_cons_of_none h).symm
    | some t =>
      have : Decidable (Along step ok t as) := decidableAlong ok t as
      decidable_of_iff (ok s a ∧ Along step ok t as) (along_cons_of_some h).symm

theorem along_of_forall {ok : α → Prop} :
    ∀ {as : List α} (s : σ), (∀ a ∈ as, ok a) → Along step (fun _ => ok) s as
  | [], _, _ => trivial
  | _ :: _, _, h => ⟨h _ mem_cons_self, fun t _ =>
      along_of_forall t fun a ha => h a (mem_cons_of_mem _ ha)⟩

theorem Along.mono {ok ok' : σ → α → Prop} (h : ∀ s a, ok s a → ok' s a) :
    ∀ {as : List α} {s : σ}, Along step ok s as → Along step ok' s as
  | [], _, _ => trivial
  | _ :: _, s, hs => ⟨h s _ hs.1, fun t ht => Along.mono h (hs.2 t ht)⟩

variable {I : σ → Prop} {ε : Type*} {body : σ → α → Except ε σ} {go : σ → Bool}

/-- **Invariants of all runs.** -/
theorem run_invariant (hI : ∀ s a t, I s → step s a = some t → I t) :
    ∀ {as : List α} {s u : σ}, I s → run step s as = some u → I u
  | [], s, u, hs, h => by cases h; exact hs
  | a :: as, s, u, hs, h => by
    obtain ⟨t, hst, ht⟩ := run_cons_eq_some.mp h
    exact run_invariant hI (hI s a t hs hst) ht

/-- **Invariants of the runs whose actions meet `ok`.** -/
theorem run_invariant_along
    (hI : ∀ s a t, I s → ok s a → step s a = some t → I t) :
    ∀ {as : List α} {s u : σ}, I s → Along step ok s as → run step s as = some u → I u
  | [], s, u, hs, _, h => by cases h; exact hs
  | a :: as, s, u, hs, hok, h => by
    obtain ⟨t, hst, ht⟩ := run_cons_eq_some.mp h
    exact run_invariant_along hI (hI s a t hs hok.1 hst) (hok.2 t hst) ht

/-- **Runs whose actions meet `ok` go through.** An invariant under which every such action is
possible. -/
theorem exists_run_along
    (hI : ∀ s a, I s → ok s a → ∃ t, step s a = some t ∧ I t) :
    ∀ {as : List α} {s : σ}, I s → Along step ok s as → ∃ u, run step s as = some u ∧ I u
  | [], s, hs, _ => ⟨s, rfl, hs⟩
  | a :: as, s, hs, hok => by
    obtain ⟨t, hst, ht⟩ := hI s a hs hok.1
    obtain ⟨u, hu, hIu⟩ := exists_run_along hI ht (hok.2 t hst)
    exact ⟨u, run_cons_eq_some.mpr ⟨t, hst, hu⟩, hIu⟩

theorem along_of_no_bad {I bad : σ → Prop}
    (hI : ∀ s a t, I s → ok s a → step s a = some t → I t)
    (hbad : ∀ s a t, I s → ¬ ok s a → step s a = some t → bad t) :
    ∀ {as : List α} {s u : σ}, I s → run step s as = some u →
      (∀ bs cs t, as = bs ++ cs → run step s bs = some t → ¬ bad t) → Along step ok s as
  | [], _, _, _, _, _ => trivial
  | a :: as, s, u, hs, h, hgood => by
    obtain ⟨t, hst, ht⟩ := run_cons_eq_some.mp h
    have hone : run step s [a] = some t := run_cons_eq_some.mpr ⟨t, hst, rfl⟩
    have hok : ok s a := by
      by_contra hok
      exact hgood [a] as t rfl hone (hbad s a t hs hok hst)
    refine ⟨hok, fun t' hst' => ?_⟩
    obtain rfl : t = t' := some.inj (hst.symm.trans hst')
    refine along_of_no_bad hI hbad (hI s a t hs hok hst) ht ?_
    intro bs cs w has hw
    exact hgood (a :: bs) cs w (congrArg _ has) (run_cons_eq_some.mpr ⟨t, hst, hw⟩)

theorem along_of_fronts {I good : σ → Prop}
    (hI : ∀ s a t, I s → ok s a → step s a = some t → I t)
    (hbad : ∀ s a t, I s → ¬ ok s a → step s a = some t → ¬ good t) {s : σ}
    (hs : I s) (h : ∀ bs, bs <+: as → ∃ t, run step s bs = some t ∧ good t) :
    Along step ok s as := by
  obtain ⟨u, hu, -⟩ := h as (prefix_refl as)
  refine along_of_no_bad hI hbad hs hu fun bs cs t has ht hnot => ?_
  obtain ⟨t', ht', hgood⟩ := h bs ⟨cs, has.symm⟩
  cases ht.symm.trans ht'
  exact hnot hgood

theorem along_iff_forall : ∀ {as : List α} {s : σ},
    Along step ok s as ↔ ∀ bs a cs, as = bs ++ a :: cs → ∀ t, run step s bs = some t → ok t a
  | [], s => by
    refine ⟨fun _ bs a cs h => ?_, fun _ => trivial⟩
    exact absurd h (append_ne_nil_of_right_ne_nil bs (cons_ne_nil a cs)).symm
  | a :: as, s => by
    constructor
    · rintro ⟨hok, hrest⟩ bs b cs h t ht
      cases bs with
      | nil =>
        obtain ⟨rfl, rfl⟩ := List.cons.inj h
        cases ht
        exact hok
      | cons c bs =>
        obtain ⟨rfl, rfl⟩ := List.cons.inj h
        obtain ⟨u, hu, ht⟩ := run_cons_eq_some.mp ht
        exact along_iff_forall.mp (hrest u hu) bs b cs rfl t ht
    · intro h
      refine ⟨h [] a as rfl s rfl, fun u hu => along_iff_forall.mpr fun bs b cs has t ht => ?_⟩
      exact h (a :: bs) b cs (congrArg _ has) t (run_cons_eq_some.mpr ⟨u, hu, ht⟩)

theorem Along.of_append {bs : List α} :
    ∀ {as : List α} {s : σ}, Along step ok s (as ++ bs) → Along step ok s as
  | [], _, _ => trivial
  | _ :: _, _, h => ⟨h.1, fun t ht => Along.of_append (h.2 t ht)⟩

/-- A run that is evaluated. -/
theorem exists_run {s : σ} {Q : σ → Prop} (h : (run step s as).isSome)
    (hQ : run step s as = some ((run step s as).get h) → Q ((run step s as).get h)) :
    ∃ t, run step s as = some t ∧ Q t :=
  have hrun := (some_get h).symm
  ⟨_, hrun, hQ hrun⟩

/-- A loop over a list while `go` holds: what is left, and the failure that ended it. -/
def drain {ε : Type*} (go : σ → Bool) (body : σ → α → Except ε σ) :
    List α → σ → σ × List α × Option ε
  | [], s => (s, [], none)
  | a :: as, s =>
    if go s then
      match body s a with
      | .error e => (s, a :: as, some e)
      | .ok t => drain go body as t
    else (s, a :: as, none)

theorem drain_error {e : ε} {I : List α → σ → Prop}
    (hI : ∀ a as s t, I (a :: as) s → body s a = .ok t → I as t) :
    ∀ {as : List α} {s : σ}, I as s → (drain go body as s).2.2 = some e →
      ∃ a as t, I (a :: as) t ∧ go t = true ∧ body t a = .error e
  | a :: as, s, hs, h => by
    unfold drain at h
    by_cases hgo : go s = true
    · rw [if_pos hgo] at h
      cases hbody : body s a with
      | error e' =>
        rw [hbody] at h
        exact ⟨a, as, s, hs, hgo, hbody.trans (congrArg _ (some.inj h))⟩
      | ok t =>
        rw [hbody] at h
        exact drain_error hI (hI a as s t hs hbody) h
    · rw [if_neg hgo] at h
      cases h

/-- **Invariants of loops**, over what is left of the list. -/
theorem drain_invariant {I : List α → σ → Prop}
    (hI : ∀ a as s t, I (a :: as) s → body s a = .ok t → I as t) :
    ∀ {as : List α} {s : σ}, I as s → I (drain go body as s).2.1 (drain go body as s).1
  | [], _, hs => hs
  | a :: as, s, hs => by
    unfold drain
    by_cases hgo : go s = true
    · rw [if_pos hgo]
      cases hbody : body s a with
      | error e => exact hs
      | ok t => exact drain_invariant hI (hI a as s t hs hbody)
    · rw [if_neg hgo]
      exact hs

theorem ok_bind.{u, v} {ε : Type u} {β γ : Type v} (x : β) (f : β → Except ε γ) :
    ((.ok x : Except ε β) >>= f) = f x := rfl

theorem bind_eq_ok.{u, v} {ε : Type u} {β γ : Type v} {x : Except ε β} {f : β → Except ε γ} {c : γ}
    (h : x >>= f = .ok c) : ∃ b, x = .ok b ∧ f b = .ok c := by
  cases x with
  | error e => cases h
  | ok b => exact ⟨b, rfl, h⟩

/-- **Invariants of loops that end with the first failure.** -/
theorem foldlM_invariant (hI : ∀ s a t, I s → body s a = .ok t → I t) :
    ∀ {as : List α} {s u : σ}, I s → as.foldlM body s = .ok u → I u
  | [], _, _, hs, h => by cases h; exact hs
  | a :: as, s, u, hs, h => by
    rw [foldlM_cons] at h
    obtain ⟨t, hbody, h⟩ := bind_eq_ok h
    exact foldlM_invariant hI (hI s a t hs hbody) h

theorem exists_foldlM (hI : ∀ s a, I s → ∃ t, body s a = .ok t ∧ I t) :
    ∀ (as : List α) {s : σ}, I s → ∃ u, as.foldlM body s = .ok u ∧ I u
  | [], s, hs => ⟨s, rfl, hs⟩
  | a :: as, s, hs => by
    obtain ⟨t, hbody, ht⟩ := hI s a hs
    obtain ⟨u, hu, hIu⟩ := exists_foldlM hI as ht
    refine ⟨u, ?_, hIu⟩
    rw [foldlM_cons, hbody]
    exact hu

end StepMachine
