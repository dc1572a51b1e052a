import XChain.Abi.Type
import XChain.Lib.Machine

/-!
# The names of tuple components

`NewType` names the fields of a tuple, `mapArgNamesToStructFields` finds them again.

* **`map_of_nodup`**: if the camel-case names of the components differ, each component finds its own
  field.
-/

namespace XChain.Abi

open List Function
open GoText (Bytes decimal decimal_injective)

/-! ## Field names -/

theorem overloadedArgName_of_notMem {rawName : Bytes} {names : List Bytes}
    (h : toCamelCase rawName ∉ names) : overloadedArgName rawName names = toCamelCase rawName :=
  if_neg h

theorem fieldNames_concat (rawNames : List Bytes) (rawName : Bytes) :
    fieldNames (rawNames ++ [rawName]) =
      fieldNames rawNames ++ [overloadedArgName rawName (fieldNames rawNames)] := by
  unfold fieldNames
  rw [foldl_append]
  rfl

variable {rawNames : List Bytes}

theorem fieldNames_of_nodup (h : (rawNames.map toCamelCase).Nodup) :
    fieldNames rawNames = rawNames.map toCamelCase := by
  induction rawNames using List.reverseRecOn with
  | nil => rfl
  | append_singleton rawNames rawName ih =>
    rw [map_append] at h ⊢
    obtain ⟨hinit, -, hdisjoint⟩ := nodup_append.mp h
    rw [fieldNames_concat, ih hinit, overloadedArgName_of_notMem]
    · rfl
    · exact fun hmem => hdisjoint _ hmem _ (mem_singleton_self _) rfl

theorem map_name_tupleFields (rawNames : List Bytes) :
    (tupleFields rawNames).map Field.name = fieldNames rawNames := by
  unfold tupleFields
  rw [map_map]
  exact map_id _

/-! ## The second round -/

theorem foldlM_pairTag (argNames : List Bytes) (p : Pairing) : ∀ {fields : List Field},
    (∀ f ∈ fields, f.tag = none) → fields.foldlM (pairTag argNames) p = .ok p
  | [], _ => rfl
  | f :: fields, h => by
    obtain ⟨hf, hfields⟩ := forall_mem_cons.mp h
    have hpair : pairTag argNames p f = .ok p := by
      unfold pairTag
      rw [hf]
    rw [foldlM_cons, hpair]
    exact foldlM_pairTag argNames p hfields

theorem Pairing.abi2struct_pair_of_ne (p : Pairing) {arg arg' field : Bytes} (h : arg' ≠ arg) :
    (p.pair arg field).abi2struct arg' = p.abi2struct arg' := update_of_ne h ..

theorem Pairing.struct2abi_pair_of_ne (p : Pairing) {arg field field' : Bytes}
    (h : field' ≠ field) :
    (p.pair arg field).struct2abi field' = p.struct2abi field' := update_of_ne h ..

/-- The second round has paired every argument so far with the field of its name. -/
structure Complete (done : List Bytes) (p : Pairing) : Prop where
  paired : ∀ r ∈ done, p.abi2struct r = toCamelCase r
  abi : ∀ r, p.abi2struct r ≠ [] → r ∈ done
  struct : ∀ f, p.struct2abi f ≠ [] → ∃ r ∈ done, toCamelCase r = f

variable {fields : List Field} {done : List Bytes} {p q : Pairing} {r : Bytes}

theorem Complete.foldlM : ∀ {rest done : List Bytes} {p : Pairing},
    Complete done p → ((done ++ rest).map toCamelCase).Nodup →
    (∀ r ∈ rest, toCamelCase r ≠ [] ∧ toCamelCase r ∈ fields.map Field.name) →
    ∃ q, rest.foldlM (pairName fields) p = .ok q ∧ Complete (done ++ rest) q
  | [], done, p, h, _, _ => ⟨p, rfl, by rwa [append_nil]⟩
  | r :: rest, done, p, h, hnodup, hrest => by
    obtain ⟨⟨hne, hvalid⟩, hrest⟩ := forall_mem_cons.mp hrest
    have hfresh : ∀ r' ∈ done, toCamelCase r' ≠ toCamelCase r := by
      rw [map_append] at hnodup
      exact fun r' hr' => (nodup_append.mp hnodup).2.2 _ (mem_map_of_mem hr') _
        (mem_map_of_mem mem_cons_self)
    have habi : p.abi2struct r = [] := by
      by_contra habi
      exact hfresh r (h.abi r habi) rfl
    have hstruct : p.struct2abi (toCamelCase r) = [] := by
      by_contra hstruct
      obtain ⟨r', hr', hname⟩ := h.struct _ hstruct
      exact hfresh r' hr' hname
    have hpair : pairName fields p r = .ok (p.pair r (toCamelCase r)) := by
      unfold pairName
      rw [if_neg hne, if_neg (not_not_intro habi), if_neg (not_not_intro hstruct), if_pos hvalid]
    have hnext : Complete (done ++ [r]) (p.pair r (toCamelCase r)) := by
      refine ⟨fun r' hr' => ?_, fun r' hr' => ?_, fun f hf => ?_⟩
      · by_cases heq : r' = r
        · rw [heq]
          exact update_self ..
        · have hr' : r' ∈ done := by simpa [heq] using hr'
          exact (update_of_ne heq ..).trans (h.paired r' hr')
      · by_cases heq : r' = r
        · simp [heq]
        · rw [p.abi2struct_pair_of_ne heq] at hr'
          exact mem_append_left _ (h.abi r' hr')
      · by_cases heq : f = toCamelCase r
        · exact ⟨r, by simp, heq.symm⟩
        · rw [p.struct2abi_pair_of_ne heq] at hf
          obtain ⟨r', hr', hname⟩ := h.struct f hf
          exact ⟨r', mem_append_left _ hr', hname⟩
    obtain ⟨q, hq, hcomplete⟩ := hnext.foldlM (by rwa [append_assoc]) hrest
    rw [append_assoc] at hcomplete
    refine ⟨q, ?_, hcomplete⟩
    rw [foldlM_cons, hpair]
    exact hq

theorem tag_of_mem_tupleFields {f : Field} (h : f ∈ tupleFields rawNames) : f.tag = none := by
  obtain ⟨name, -, rfl⟩ := mem_map.mp h
  rfl

/-- **Components whose camel-case names differ find their fields.** -/
theorem map_of_nodup (hnodup : (rawNames.map toCamelCase).Nodup)
    (hne : ∀ r ∈ rawNames, toCamelCase r ≠ []) :
    ∃ fieldmap, mapArgNamesToStructFields rawNames (tupleFields rawNames) = .ok fieldmap ∧
      ∀ r ∈ rawNames, fieldmap r = toCamelCase r := by
  have hstart : Complete [] ⟨fun _ => [], fun _ => []⟩ :=
    ⟨nofun, fun _ hr => absurd rfl hr, fun _ hf => absurd rfl hf⟩
  have hvalid : ∀ r ∈ rawNames, toCamelCase r ∈ (tupleFields rawNames).map Field.name := by
    rw [map_name_tupleFields, fieldNames_of_nodup hnodup]
    exact fun r hr => mem_map_of_mem hr
  obtain ⟨q, hq, hcomplete⟩ := hstart.foldlM (by rwa [nil_append])
    fun r hr => ⟨hne r hr, hvalid r hr⟩
  refine ⟨q.abi2struct, ?_, hcomplete.paired⟩
  unfold mapArgNamesToStructFields
  rw [foldlM_pairTag _ _ fun f hf => tag_of_mem_tupleFields hf, StepMachine.ok_bind]
  rw [hq]
  rfl

/-! ## Names that occur twice -/

structure Apart (done : List Bytes) (p : Pairing) : Prop where
  abi : ∀ r, p.abi2struct r ≠ [] → r ∈ done
  struct : ∀ r ∈ done, p.struct2abi (toCamelCase r) ≠ []
  inj : ∀ r ∈ done, ∀ r' ∈ done, toCamelCase r = toCamelCase r' → r = r'

theorem toCamelCase_nil : toCamelCase [] = [] := by decide

theorem Apart.mark (h : Apart done p) (hne : toCamelCase r ≠ [])
    (hfree : p.struct2abi (toCamelCase r) = [])
    (habi : ∀ r', r' ≠ r → q.abi2struct r' = p.abi2struct r')
    (hstruct : q.struct2abi = Function.update p.struct2abi (toCamelCase r) r) :
    Apart (done ++ [r]) q := by
  have hr : r ≠ [] := by
    rintro rfl
    exact hne toCamelCase_nil
  have hfresh : ∀ r' ∈ done, toCamelCase r' ≠ toCamelCase r := by
    intro r' hr' hname
    exact h.struct r' hr' (hname ▸ hfree)
  have hmem : ∀ r' ∈ done ++ [r], r' = r ∨ r' ∈ done := by simp [or_comm]
  refine ⟨fun r' hr' => ?_, fun r' hr' => ?_, fun r₁ h₁ r₂ h₂ hname => ?_⟩
  · by_cases heq : r' = r
    · simp [heq]
    · rw [habi r' heq] at hr'
      exact mem_append_left _ (h.abi r' hr')
  · rw [hstruct]
    rcases hmem r' hr' with rfl | hr'
    · rwa [update_self]
    · rw [update_of_ne (hfresh r' hr')]
      exact h.struct r' hr'
  · rcases hmem r₁ h₁ with heq₁ | hold₁ <;> rcases hmem r₂ h₂ with heq₂ | hold₂
    · rw [heq₁, heq₂]
    · exact absurd (heq₁ ▸ hname).symm (hfresh r₂ hold₂)
    · exact absurd (heq₂ ▸ hname) (hfresh r₁ hold₁)
    · exact h.inj r₁ hold₁ r₂ hold₂ hname

theorem Apart.pairName (h : Apart done p) (hq : pairName fields p r = .ok q) :
    Apart (done ++ [r]) q := by
  unfold XChain.Abi.pairName at hq
  dsimp only at hq
  split_ifs at hq with hne habi _ hfree hvalid
  · -- the argument has been paired before
    cases hq
    have hmem : ∀ r' ∈ done ++ [r], r' ∈ done := by
      simpa using fun r' hr' => hr'.elim id fun heq => heq ▸ h.abi r habi
    exact ⟨fun r' hr' => mem_append_left _ (h.abi r' hr'),
      fun r' hr' => h.struct r' (hmem r' hr'),
      fun r₁ h₁ r₂ h₂ => h.inj r₁ (hmem r₁ h₁) r₂ (hmem r₂ h₂)⟩
  · cases hq
    exact h.mark hne (not_not.mp hfree) (fun r' hr' => p.abi2struct_pair_of_ne hr') rfl
  · cases hq
    exact h.mark hne (not_not.mp hfree) (fun _ _ => rfl) rfl

theorem Apart.foldlM : ∀ {rest done : List Bytes} {p q : Pairing},
    Apart done p → rest.foldlM (XChain.Abi.pairName fields) p = .ok q → Apart (done ++ rest) q
  | [], done, p, q, h, hq => by
    cases hq
    rwa [append_nil]
  | r :: rest, done, p, q, h, hq => by
    rw [foldlM_cons] at hq
    cases hr : XChain.Abi.pairName fields p r with
    | error e =>
      rw [hr] at hq
      cases hq
    | ok p' =>
      rw [hr] at hq
      have := (h.pairName hr).foldlM hq
      rwa [append_assoc] at this

theorem eq_of_map_ok {fieldmap : Bytes → Bytes}
    (h : mapArgNamesToStructFields rawNames (tupleFields rawNames) = .ok fieldmap) :
    ∀ r ∈ rawNames, ∀ r' ∈ rawNames, toCamelCase r = toCamelCase r' → r = r' := by
  unfold mapArgNamesToStructFields at h
  rw [foldlM_pairTag _ _ fun f hf => tag_of_mem_tupleFields hf, StepMachine.ok_bind] at h
  cases hq : rawNames.foldlM (pairName (tupleFields rawNames)) ⟨fun _ => [], fun _ => []⟩ with
  | error e =>
    rw [hq] at h
    cases h
  | ok q =>
    have hstart : Apart [] ⟨fun _ => [], fun _ => []⟩ := ⟨fun _ hr => absurd rfl hr, nofun, nofun⟩
    have := (hstart.foldlM hq).inj
    rwa [nil_append] at this

theorem exists_unread (h : ¬ rawNames.Nodup) (fields : List Field)
    (vs : List Value) (hlen : vs.length = rawNames.length) (fieldmap : Bytes → Bytes) :
    ∃ i < vs.length, ∀ (x : Value), ∀ r ∈ rawNames,
      fieldByName fields (vs.set i x) (fieldmap r) = fieldByName fields vs (fieldmap r) := by
  -- as many positions are read as there are different names, which is less than there are fields
  let pos : Bytes → ℕ := fun r => (fields.map Field.name).idxOf (fieldmap r)
  have hdedup : rawNames.toFinset.card < rawNames.length := by
    refine lt_of_le_of_ne (toFinset_card_le _) fun heq => h ?_
    exact Multiset.toFinset_card_eq_card_iff_nodup.mp heq
  have hcard : (rawNames.toFinset.image pos).card < (Finset.range vs.length).card := by
    rw [Finset.card_range, hlen]
    exact Finset.card_image_le.trans_lt hdedup
  obtain ⟨i, hi, hunread⟩ := Finset.exists_mem_notMem_of_card_lt_card hcard
  refine ⟨i, Finset.mem_range.mp hi, fun x r hr => ?_⟩
  have hne : i ≠ pos r := by
    rintro rfl
    exact hunread (Finset.mem_image_of_mem pos (mem_toFinset.mpr hr))
  exact getElem?_set_ne hne

end XChain.Abi
