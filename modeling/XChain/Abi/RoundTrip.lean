import XChain.Abi.Names
import XChain.Abi.Values

/-!
# The round trip of arguments

If two camel-case names of a tuple agree, `pack` refuses the tuple, or reads one field for two
components and leaves another unread.

* **`unpackValues_pack`**: the round trip of argument lists.
-/

namespace XChain.Abi

open AbiType List HeadTail Nat Except BigEndian Piece Argument Holds Value Layout StepMachine
open GoText (Bytes)
open HeadTail (Layout Piece Placed AllPlaced record placed_record)

mutual

def Clear : AbiType → Value → Prop
  | .slice elem, .slice _ vs => ∀ v ∈ vs, Clear elem v
  | .array _ elem, .array _ vs => ∀ v ∈ vs, Clear elem v
  | .tuple rawNames elems, .struct _ vs => (rawNames.map toCamelCase).Nodup ∧ AllClear elems vs
  | _, _ => True

def AllClear : List AbiType → List Value → Prop
  | elem :: elems, v :: vs => Clear elem v ∧ AllClear elems vs
  | _, _ => True

end

mutual

/-- In every tuple of a type the camel-case names of the components differ. -/
def namesDiffer : AbiType → Bool
  | .slice elem => namesDiffer elem
  | .array _ elem => namesDiffer elem
  | .tuple rawNames elems => (rawNames.map toCamelCase).Nodup && allNamesDiffer elems
  | _ => true

def allNamesDiffer : List AbiType → Bool
  | [] => true
  | elem :: elems => namesDiffer elem && allNamesDiffer elems

end

theorem allClear_of_forall : ∀ {elems : List AbiType},
    (∀ t ∈ elems, namesDiffer t → ∀ v, Clear t v) → allNamesDiffer elems → ∀ vs, AllClear elems vs
  | [], _, _, _ => trivial
  | elem :: elems, hall, h, vs => by
    obtain ⟨helem, helems⟩ := forall_mem_cons.mp hall
    obtain ⟨hd, hds⟩ := Bool.and_eq_true_iff.mp h
    cases vs with
    | nil => trivial
    | cons v vs => exact ⟨helem hd v, allClear_of_forall helems hds vs⟩

theorem clear_of_namesDiffer : ∀ t : AbiType, namesDiffer t → ∀ v, Clear t v := by
  refine induct ?_ ?_ ?_ ?_
  · intro t ht _ v
    cases t <;> cases v <;> trivial
  · intro elem ih h v
    cases v <;> first | trivial | exact fun v _ => ih h v
  · intro size elem ih h v
    cases v <;> first | trivial | exact fun v _ => ih h v
  · intro rawNames elems ih h v
    obtain ⟨hnodup, hall⟩ := Bool.and_eq_true_iff.mp h
    cases v <;> first | trivial | exact ⟨of_decide_eq_true hnodup, allClear_of_forall ih hall _⟩

def Codes (t : AbiType) (v : Value) : Prop := ∃ enc, pack t v = .ok enc ∧ Reads t v enc

/-! ## Slices and arrays -/

variable {t elem : AbiType} {elems : List AbiType} {v : Value} {vs : List Value}

theorem headSize_of_reads {enc : Bytes} (h : Reads t v enc) :
    headSize 32 ⟨t.isDynamicType, enc⟩ = t.getTypeSize := by
  unfold headSize
  split_ifs with hd
  · exact (getTypeSize_of_dynamic hd).symm
  · exact h.size (Bool.eq_false_iff.mpr hd)

theorem pushElements_ok (dynamic : Bool) : ∀ (encs : List Bytes) (l : Layout UInt8),
    pushElements dynamic (encs.map .ok) l = .ok ((encs.map (mk dynamic)).foldl (push packLen) l)
  | [], _ => rfl
  | enc :: encs, l => pushElements_ok dynamic encs (pushPart dynamic l enc)

theorem exists_encs (h : ∀ v ∈ vs, Codes elem v) :
    ∃ encs, vs.map (pack elem) = encs.map .ok ∧ Forall₂ (Reads elem) vs encs := by
  induction vs with
  | nil => exact ⟨[], rfl, .nil⟩
  | cons v vs ih =>
    obtain ⟨⟨enc, hpack, hreads⟩, hvs⟩ := forall_mem_cons.mp h
    obtain ⟨encs, hencs, hall⟩ := ih hvs
    exact ⟨enc :: encs, by rw [map_cons, hpack, hencs]; rfl, .cons hreads hall⟩

variable {encs : List Bytes} {dynamic : Bool} {output : Bytes}

theorem sum_headSize_of_reads (h : Forall₂ (Reads elem) vs encs) :
    ((encs.map (mk elem.isDynamicType)).map (headSize 32)).sum = elem.getTypeSize * vs.length := by
  induction h with
  | nil => rfl
  | cons hreads _ ih =>
    rw [map_cons, map_cons, sum_cons, ih, headSize_of_reads hreads, length_cons, mul_succ, add_comm]

theorem packElements_ok (head : Bytes)
    (h : Forall₂ (Reads elem) vs encs) :
    packElements elem.isDynamicType elem.getTypeSize head (encs.map .ok) =
      .ok (head ++ record packLen 32 (encs.map (mk elem.isDynamicType))) := by
  unfold packElements
  dsimp only
  rw [pushElements_ok, length_map, ← h.length_eq, ← sum_headSize_of_reads h]
  change ok (bytes _) = _
  split_ifs with hd
  · rw [bytes_foldl_push]
  · rw [bytes_foldl_push_of_static]
    intro p hp
    obtain ⟨enc, -, rfl⟩ := mem_map.mp hp
    exact Bool.eq_false_iff.mpr hd

theorem readElements_ok (hlen : output.length < 2 ^ 63) (h : Forall₂ (Reads elem) vs encs) :
    ∀ i : ℕ,
    AllPlaced packLen 32 (encs.map (mk elem.isDynamicType)) i output →
      readElements (fun i => toGoType elem i output) elem.getTypeSize vs.length i = .ok vs := by
  induction h with
  | nil => exact fun _ _ => rfl
  | cons hreads _ ih =>
    rintro i ⟨hp, hrest⟩
    rw [headSize_of_reads hreads] at hrest
    rw [length_cons, readElements, hreads.read i output hp hlen, ih _ hrest]
    rfl

theorem forEachUnpack_ok (hwf : WellFormed elem) (hlen : output.length < 2 ^ 63)
    (h : Forall₂ (Reads elem) vs encs)
    (hpre : record packLen 32 (encs.map (mk elem.isDynamicType)) <+: output) :
    forEachUnpack (fun i => toGoType elem i output) elem.getTypeSize vs.length output = .ok vs := by
  have hsize : 32 * vs.length ≤ elem.getTypeSize * vs.length :=
    mul_le_mul_right _ (getTypeSize_of_wellFormed elem hwf).2
  have hle := le_length_record length_packLen (encs.map (mk elem.isDynamicType))
  rw [sum_headSize_of_reads h] at hle
  have := hpre.length_le
  unfold forEachUnpack
  rw [if_neg (by omega)]
  obtain ⟨post, rfl⟩ := hpre
  exact readElements_ok hlen h 0 (placed_record length_packLen _ post)

theorem pack_slice (h : ∀ v ∈ vs, Holds elem v) : pack (.slice elem) (.slice elem.kind vs) =
    packElements elem.isDynamicType elem.getTypeSize (packLen vs.length) (vs.map (pack elem)) := by
  rw [pack, typeCheck_of_holds (slice h)]
  rfl

theorem pack_array (h : ∀ v ∈ vs, Holds elem v) :
    pack (.array vs.length elem) (.array elem.kind vs) =
      packElements elem.isDynamicType elem.getTypeSize [] (vs.map (pack elem)) := by
  rw [pack, typeCheck_of_holds (array h)]
  rfl

theorem codes_slice (hwf : WellFormed elem) (h : ∀ v ∈ vs, Holds elem v)
    (hcodes : ∀ v ∈ vs, Codes elem v) : Codes (.slice elem) (.slice elem.kind vs) := by
  obtain ⟨encs, hencs, hreads⟩ := exists_encs hcodes
  refine ⟨packLen vs.length ++ record packLen 32 (encs.map (mk elem.isDynamicType)), ?_,
    fun hs => (nomatch hs), fun index output hp hlen => ?_⟩
  · rw [pack_slice h, hencs]
    exact packElements_ok _ hreads
  · have hsize : vs.length ≤ (record packLen 32 (encs.map (mk elem.isDynamicType))).length := by
      have := le_length_record length_packLen (encs.map (mk elem.isDynamicType))
      rw [sum_headSize_of_reads hreads] at this
      have hpos := (getTypeSize_of_wellFormed elem hwf).2
      exact (Nat.le_mul_of_pos_left _ (by omega)).trans this
    obtain ⟨start, hstart, hindex, hpre⟩ := lengthPrefixPointsTo_of_placed hp hsize hlen
    have hdrop : (output.drop start).length < 2 ^ 63 := by
      rw [length_drop]
      omega
    rw [toGoType, if_neg (by omega)]
    dsimp only
    rw [hstart, ok_bind]
    rw [forEachUnpack_ok hwf hdrop hreads hpre]
    rfl

theorem start_of_placed {index : ℕ} {output body : Bytes}
    (hp : Placed packLen ⟨dynamic, body⟩ index output) (hbody : 32 ≤ body.length)
    (hlen : output.length < 2 ^ 63) : index + 32 ≤ output.length ∧
      (dynamic = true → toNat ((wordAt output index).drop 24) ≤ output.length) ∧
      body <+: output.drop (if dynamic then toNat ((wordAt output index).drop 24) else index) := by
  cases dynamic with
  | true =>
    obtain ⟨offset, -, hoffset, hindex, hpre, hle⟩ := offset_of_placed hp hlen
    rw [if_pos rfl, hoffset]
    exact ⟨hindex, fun _ => by omega, hpre⟩
  | false =>
    have hle : body.length ≤ (output.drop index).length := IsPrefix.length_le hp
    rw [length_drop] at hle
    exact ⟨by omega, fun h => (nomatch h), hp⟩

theorem codes_array (hwf : WellFormed elem) (hpos : 1 ≤ vs.length) (h : ∀ v ∈ vs, Holds elem v)
    (hcodes : ∀ v ∈ vs, Codes elem v) :
    Codes (.array vs.length elem) (.array elem.kind vs) := by
  obtain ⟨encs, hencs, hreads⟩ := exists_encs hcodes
  have hle := le_length_record length_packLen (encs.map (mk elem.isDynamicType))
  rw [sum_headSize_of_reads hreads] at hle
  have hsize : 32 ≤ elem.getTypeSize * vs.length :=
    (getTypeSize_of_wellFormed elem hwf).2.trans (Nat.le_mul_of_pos_right _ hpos)
  refine ⟨record packLen 32 (encs.map (mk elem.isDynamicType)), ?_, fun hs => ?_,
    fun index output hp hlen => ?_⟩
  · rw [pack_array h, hencs]
    exact packElements_ok [] hreads
  · have hs : elem.isDynamicType = false := hs
    rw [getTypeSize_array _ hs, length_record length_packLen, sum_headSize_of_reads hreads,
      mul_comm]
    intro p hp
    obtain ⟨enc, -, rfl⟩ := mem_map.mp hp
    exact hs
  · rw [isDynamicType] at hp
    obtain ⟨hindex, hstart, hpre⟩ := start_of_placed hp (hsize.trans hle) hlen
    rw [toGoType, if_neg (by omega)]
    dsimp only
    rw [if_neg (fun hc => absurd hc.2 (not_lt.mpr (hstart hc.1)))]
    rw [forEachUnpack_ok hwf (by rw [length_drop]; omega) hreads hpre]
    rfl

/-! ## Tuples and arguments -/

theorem exists_parts (hwf : ∀ t ∈ elems, WellFormed t) (h : Forall₂ Codes elems vs) :
    ∃ parts : List (Piece UInt8),
      (∀ l, packFields elems (vs.map .ok) l = .ok (parts.foldl (push packLen) l)) ∧
      parts.map (headSize 32) = elems.map getTypeSize ∧
      parts.map Piece.dynamic = elems.map isDynamicType ∧
      ∀ (output : Bytes) (pos index : ℕ) (virtualArgs : ℤ), (pos : ℤ) = (index + virtualArgs) * 32 →
        AllPlaced packLen 32 parts pos output → output.length < 2 ^ 63 →
          unpackFields elems output index virtualArgs = .ok vs := by
  induction h with
  | nil => exact ⟨[], fun _ => rfl, rfl, rfl, fun _ _ _ _ _ _ _ => rfl⟩
  | @cons elem v elems vs hcodes _ ih =>
    obtain ⟨hwf, hwfs⟩ := forall_mem_cons.mp hwf
    obtain ⟨enc, hpack, hreads⟩ := hcodes
    obtain ⟨parts, hparts, hsizes, hdynamic, hread⟩ := ih hwfs
    have hsize := headSize_of_reads hreads
    refine ⟨⟨elem.isDynamicType, enc⟩ :: parts, fun l => ?_, ?_, ?_, ?_⟩
    · rw [map_cons, packFields, ok_bind]
      rw [hpack]
      exact hparts _
    · rw [map_cons, map_cons, hsizes, hsize]
    · rw [map_cons, map_cons, hdynamic]
    · rintro output pos index virtualArgs hpos ⟨hp, hrest⟩ hlen
      rw [hsize] at hrest
      have hnext : ((pos + elem.getTypeSize : ℕ) : ℤ) =
          ((index + 1 : ℕ) + (virtualArgs + elem.virtualArgs)) * 32 := by
        rw [cast_add, hpos, ← virtualArgs_eq hwf]
        push_cast
        ring
      rw [unpackFields, ← hpos, Int.toNat_natCast, hreads.read pos output hp hlen]
      rw [hread output _ _ _ hnext hrest hlen]
      rfl

variable {rawNames : List Bytes} {e : AbiError}

theorem pack_tuple (hnodup : (rawNames.map toCamelCase).Nodup)
    (hne : ∀ r ∈ rawNames, toCamelCase r ≠ []) (hlen : rawNames.length = elems.length)
    (h : Forall₂ Holds elems vs) :
    pack (.tuple rawNames elems) (.struct (tupleFields rawNames) vs) =
      (packFields elems (vs.map .ok) ⟨[], [], getTypeSizes elems⟩).map bytes := by
  obtain ⟨fieldmap, hmap, hfield⟩ := map_of_nodup hnodup hne
  have hread : rawNames.map (readField (tupleFields rawNames) vs fieldmap) = vs.map .ok := by
    refine ext_getElem (by simp [hlen, h.length_eq]) fun i hi hi' => ?_
    rw [length_map] at hi hi'
    have hidx : (rawNames.map toCamelCase).idxOf (fieldmap rawNames[i]) = i := by
      rw [hfield _ (getElem_mem hi)]
      have := hnodup.idxOf_getElem i (by simpa using hi)
      rwa [getElem_map] at this
    rw [getElem_map, getElem_map, readField, fieldByName, map_name_tupleFields,
      fieldNames_of_nodup hnodup, hidx, getElem?_eq_getElem hi']
  rw [pack, typeCheck_of_holds (tuple h), ok_bind]
  rw [hmap, ok_bind]
  rw [hread]
  cases packFields elems (vs.map .ok) ⟨[], [], getTypeSizes elems⟩ <;> rfl

theorem codes_tuple (hwf : WellFormed (.tuple rawNames elems))
    (hnodup : (rawNames.map toCamelCase).Nodup) (h : Forall₂ Holds elems vs)
    (hcodes : Forall₂ Codes elems vs) :
    Codes (.tuple rawNames elems) (.struct (tupleFields rawNames) vs) := by
  have hsize := getTypeSize_of_wellFormed _ hwf
  cases hwf with
  | tuple hne hlen hnames helems =>
    obtain ⟨parts, hparts, hsizes, hdynamic, hread⟩ := exists_parts helems hcodes
    have hsum : getTypeSizes elems = (parts.map (Piece.headSize 32)).sum := by
      rw [getTypeSizes_eq, hsizes]
    have hrecord : ∀ (output : Bytes), output.length < 2 ^ 63 → record packLen 32 parts <+: output →
        unpackFields elems output 0 0 = .ok vs := by
      rintro output hout ⟨post, rfl⟩
      exact hread _ 0 0 0 rfl (placed_record length_packLen parts post) hout
    have hstatic : anyDynamic elems = false → ∀ p ∈ parts, p.dynamic = false := by
      intro hs p hp
      have hmem : p.dynamic ∈ elems.map isDynamicType := hdynamic ▸ mem_map_of_mem hp
      obtain ⟨elem, helem, heq⟩ := mem_map.mp hmem
      rw [anyDynamic_eq, any_eq_false] at hs
      rw [← heq]
      exact Bool.eq_false_iff.mpr (hs elem helem)
    refine ⟨record packLen 32 parts, ?_, fun hs => ?_, fun index output hp hout => ?_⟩
    · rw [pack_tuple hnodup hnames hlen h, hparts, hsum]
      exact congrArg ok (bytes_foldl_push [] parts)
    · have hs : anyDynamic elems = false := hs
      rw [getTypeSize, if_neg (by rw [hs]; decide), hsum, length_record length_packLen (hstatic hs)]
    · rw [isDynamicType] at hp
      -- where the record starts
      obtain ⟨start, hindex, hstart, hpre⟩ : ∃ start, index + 32 ≤ output.length ∧
          tupleStart (anyDynamic elems) index output = .ok start ∧
          record packLen 32 parts <+: output.drop start := by
        cases hd : anyDynamic elems with
        | true =>
          rw [hd] at hp
          obtain ⟨start, hstart, hindex, hpre⟩ := tuplePointsTo_of_placed hp hout
          exact ⟨start, hindex, hstart, hpre⟩
        | false =>
          rw [hd] at hp
          rw [getTypeSize, if_neg (by rw [hd]; decide), hsum,
            ← length_record length_packLen (hstatic hd)] at hsize
          have hle : (record packLen 32 parts).length ≤ (output.drop index).length :=
            IsPrefix.length_le hp
          rw [length_drop] at hle
          exact ⟨index, by omega, rfl, hp⟩
      rw [toGoType, if_neg (by omega)]
      dsimp only
      rw [hstart, ok_bind]
      rw [hrecord _ (by rw [length_drop]; omega) hpre]
      rfl

theorem forall₂_codes (ih : ∀ t ∈ elems, WellFormed t → ∀ v, Holds t v → Clear t v → Codes t v)
    (hwf : ∀ t ∈ elems, WellFormed t) (h : Forall₂ Holds elems vs) (hc : AllClear elems vs) :
    Forall₂ Codes elems vs := by
  induction h with
  | nil => exact .nil
  | cons hv _ ih' =>
    obtain ⟨hwf, hwfs⟩ := forall_mem_cons.mp hwf
    obtain ⟨ih, ihs⟩ := forall_mem_cons.mp ih
    exact .cons (ih hwf _ hv hc.1) (ih' ihs hwfs hc.2)

/-- **Values are read back** if the names of the components differ. -/
theorem roundTrip : ∀ t : AbiType, WellFormed t → ∀ v, Holds t v → Clear t v → Codes t v := by
  refine induct ?_ ?_ ?_ ?_
  · exact fun t ht hwf v h _ => leaf_roundTrip ht hwf h
  · intro elem ih hwf v h hc
    cases hwf with
    | slice hwf =>
      cases h with
      | slice h => exact codes_slice hwf h fun v hv => ih hwf v (h v hv) (hc v hv)
  · intro size elem ih hwf v h hc
    cases hwf with
    | array hsize hwf =>
      cases h with
      | array h => exact codes_array hwf hsize h fun v hv => ih hwf v (h v hv) (hc v hv)
  · intro rawNames elems ih hwf v h hc
    cases h with
    | tuple h =>
      refine codes_tuple hwf hc.1 h ?_
      cases hwf with
      | tuple hne hlen hnames helems => exact forall₂_codes ih helems h hc.2

/-! ## Names that do not differ -/

def Varies (t : AbiType) : Prop := ∀ v, ∃ w, w ≠ v ∧ Holds t w

theorem varies_of_two {v w : Value} (hne : v ≠ w) (hv : Holds t v) (hw : Holds t w) : Varies t := by
  intro x
  by_cases hx : v = x
  · exact ⟨w, fun h => hne (hx.trans h.symm), hw⟩
  · exact ⟨v, hx, hv⟩

theorem byteArray_ne {bs cs : Bytes} (h : bs ≠ cs) : byteArray bs ≠ byteArray cs := by
  intro heq
  have hmap : bs.map byte = cs.map byte := (array.inj heq).2
  have hinj : Function.Injective byte := fun a b hab =>
    UInt8.toNat_inj.mp (uint.inj hab).2
  exact h (map_injective_iff.mpr hinj hmap)

theorem replicate_ne {n : ℕ} (h : 1 ≤ n) :
    replicate n (0 : UInt8) ≠ replicate n (1 : UInt8) := by
  intro heq
  obtain ⟨m, rfl⟩ := Nat.exists_eq_add_of_le' h
  simp [replicate_succ] at heq

theorem varies_leaf (ht : t.isLeaf) (hwf : WellFormed t) : Varies t := by
  have hpow : ∀ n : ℕ, 1 ≤ n → (1 : ℤ) < 2 ^ n := fun n hn =>
    one_lt_pow₀ (by decide) (one_le_iff_ne_zero.mp hn)
  cases hwf with
  | @int size _ hlo _ =>
    have h1 := hpow (size - 1) (by omega)
    by_cases hm : size ∈ machineSizes
    · exact varies_of_two (v := .int size 0) (w := .int size 1) (by simp)
        (.int hm (by omega) (by omega)) (.int hm (by omega) (by omega))
    · exact varies_of_two (v := .big 0) (w := .big 1) (by simp)
        (.bigInt hm (by omega) (by omega)) (.bigInt hm (by omega) (by omega))
  | @uint size _ hlo _ =>
    have h1 : (1 : ℕ) < 2 ^ size := by exact_mod_cast hpow size (by omega)
    by_cases hm : size ∈ machineSizes
    · exact varies_of_two (v := .uint size 0) (w := .uint size 1) (by simp)
        (.uint hm (by omega)) (.uint hm h1)
    · exact varies_of_two (v := .big (0 : ℕ)) (w := .big (1 : ℕ)) (by simp)
        (.bigUint hm (by omega)) (.bigUint hm h1)
  | bool => exact varies_of_two (by simp) (.bool true) (.bool false)
  | string => exact varies_of_two (by simp) (.string []) (.string [0])
  | address =>
    exact varies_of_two (byteArray_ne (replicate_ne (n := 20) (by decide)))
      (.address (length_replicate ..)) (.address (length_replicate ..))
  | @fixedBytes size hlo _ =>
    have hholds : ∀ b : UInt8, Holds (.fixedBytes size) (byteArray (replicate size b)) := by
      intro b
      have := fixedBytes (replicate size b)
      rwa [length_replicate] at this
    exact varies_of_two (byteArray_ne (replicate_ne hlo)) (hholds 0) (hholds 1)
  | bytes => exact varies_of_two (by simp) (.bytes []) (.bytes [0])
  | function =>
    exact varies_of_two (byteArray_ne (replicate_ne (n := 24) (by decide)))
      (.function (length_replicate ..)) (.function (length_replicate ..))
  | slice | array | tuple => cases ht

theorem exists_forall₂ (h : ∀ t ∈ elems, Varies t) : ∃ vs, Forall₂ Holds elems vs := by
  induction elems with
  | nil => exact ⟨[], .nil⟩
  | cons elem elems ih =>
    obtain ⟨helem, helems⟩ := forall_mem_cons.mp h
    obtain ⟨v, -, hv⟩ := helem (.bool true)
    obtain ⟨vs, hvs⟩ := ih helems
    exact ⟨v :: vs, .cons hv hvs⟩

theorem varies : ∀ t : AbiType, WellFormed t → Varies t := by
  refine induct ?_ ?_ ?_ ?_
  · exact fun t ht hwf => varies_leaf ht hwf
  · intro elem ih hwf
    cases hwf with
    | slice hwf =>
      obtain ⟨v, -, hv⟩ := ih hwf (.bool true)
      exact varies_of_two (by simp) (@slice elem [] (by simp)) (@slice elem [v] (by simpa))
  · intro size elem ih hwf
    cases hwf with
    | array hsize hwf =>
      obtain ⟨v, -, hv⟩ := ih hwf (.bool true)
      obtain ⟨w, hne, hw⟩ := ih hwf v
      have hholds : ∀ x, Holds elem x →
          Holds (.array size elem) (.array elem.kind (replicate size x)) := by
        intro x hx
        have := @array elem (replicate size x) (fun y hy => (mem_replicate.mp hy).2 ▸ hx)
        rwa [length_replicate] at this
      refine varies_of_two ?_ (hholds v hv) (hholds w hw)
      obtain ⟨m, rfl⟩ := Nat.exists_eq_add_of_le' hsize
      simp [replicate_succ, hne.symm]
  · intro rawNames elems ih hwf
    cases hwf with
    | tuple hne hlen hnames helems =>
      have hvaries : ∀ t ∈ elems, Varies t := fun t ht => ih t ht (helems t ht)
      obtain ⟨elem, elems, rfl⟩ := exists_cons_of_ne_nil hne
      obtain ⟨helem, helems⟩ := forall_mem_cons.mp hvaries
      obtain ⟨v, -, hv⟩ := helem (.bool true)
      obtain ⟨w, hvw, hw⟩ := helem v
      obtain ⟨vs, hvs⟩ := exists_forall₂ helems
      exact varies_of_two (by simpa using hvw.symm) (.tuple (.cons hv hvs)) (.tuple (.cons hw hvs))

def Lost (t : AbiType) (v : Value) : Prop :=
  (∃ e, pack t v = .error e) ∨ ∃ w, w ≠ v ∧ Holds t w ∧ pack t w = pack t v

theorem pushElements_error :
    ∀ {packed : List (Except AbiError Bytes)} (l : Layout UInt8), .error e ∈ packed →
      ∃ e', pushElements dynamic packed l = .error e'
  | [], _, h => absurd h not_mem_nil
  | .error e' :: packed, l, _ => ⟨e', rfl⟩
  | .ok val :: packed, l, h =>
    pushElements_error (pushPart dynamic l val) (mem_of_ne_of_mem (by simp) h)

theorem packElements_error {size : ℕ} {head : Bytes} {packed : List (Except AbiError Bytes)}
    (h : .error e ∈ packed) : ∃ e', packElements dynamic size head packed = .error e' := by
  obtain ⟨e', he'⟩ := @pushElements_error dynamic e packed
    ⟨head, [], if dynamic then size * packed.length else 0⟩ h
  exact ⟨e', by rw [packElements, he']; rfl⟩

theorem lost_elements (h : ∀ v ∈ vs, Holds elem v) (hv : v ∈ vs) (hlost : Lost elem v) :
    (∃ e, .error e ∈ vs.map (pack elem)) ∨ ∃ ws, ws ≠ vs ∧ ws.length = vs.length ∧
      (∀ w ∈ ws, Holds elem w) ∧ ws.map (pack elem) = vs.map (pack elem) := by
  rcases hlost with ⟨e, he⟩ | ⟨w, hne, hw, hpack⟩
  · exact .inl ⟨e, he ▸ mem_map_of_mem hv⟩
  · obtain ⟨l₁, l₂, rfl⟩ := append_of_mem hv
    refine .inr ⟨l₁ ++ w :: l₂, by simpa using hne, by simp, fun x hx => ?_, by simp [hpack]⟩
    rcases mem_append.mp hx with hx | hx
    · exact h x (mem_append_left _ hx)
    · rcases mem_cons.mp hx with rfl | hx
      · exact hw
      · exact h x (mem_append_right _ (mem_cons_of_mem _ hx))

theorem lost_fields (hlost : ∀ t ∈ elems, ∀ v, Holds t v → ¬ Clear t v → Lost t v)
    (h : Forall₂ Holds elems vs) (hc : ¬ AllClear elems vs) :
    (∀ l, ∃ e, packFields elems (vs.map .ok) l = .error e) ∨ ∃ ws, ws ≠ vs ∧
      Forall₂ Holds elems ws ∧
        ∀ l, packFields elems (ws.map .ok) l = packFields elems (vs.map .ok) l := by
  induction h with
  | nil => exact absurd trivial hc
  | @cons elem v elems vs hv hvs ih =>
    obtain ⟨hlost, hlosts⟩ := forall_mem_cons.mp hlost
    have hstep : ∀ (x : Value) (xs : List Value) (l : Layout UInt8),
        packFields (elem :: elems) ((x :: xs).map .ok) l = pack elem x >>= fun val =>
          packFields elems (xs.map .ok) (pushPart elem.isDynamicType l val) := by
      intro x xs l
      rfl
    by_cases hclear : Clear elem v
    · rcases ih hlosts (fun hall => hc ⟨hclear, hall⟩) with hbad | ⟨ws, hne, hws, hpack⟩
      · left
        intro l
        rw [hstep]
        cases hp : pack elem v with
        | error e => exact ⟨e, rfl⟩
        | ok val => exact hbad _
      · refine .inr ⟨v :: ws, by simpa using hne, .cons hv hws, fun l => ?_⟩
        exact congrArg _ (funext fun val => hpack _)
    · rcases hlost v hv hclear with ⟨e, he⟩ | ⟨w, hne, hw, hpack⟩
      · left
        intro l
        rw [hstep, he]
        exact ⟨e, rfl⟩
      · refine .inr ⟨w :: vs, by simpa using hne, .cons hw hvs, fun l => ?_⟩
        rw [hstep, hstep, hpack]

/-- A tuple with names that do not differ is refused, or one of its fields is not read. -/
theorem lost_of_not_nodup (hwf : WellFormed (.tuple rawNames elems))
    (h : Forall₂ Holds elems vs) (hnodup : ¬ (rawNames.map toCamelCase).Nodup) :
    Lost (.tuple rawNames elems) (.struct (tupleFields rawNames) vs) := by
  have hpack : ∀ {ws}, Forall₂ Holds elems ws →
      pack (.tuple rawNames elems) (.struct (tupleFields rawNames) ws) =
        (mapArgNamesToStructFields rawNames (tupleFields rawNames) >>= fun fieldmap =>
          packFields elems (rawNames.map (readField (tupleFields rawNames) ws fieldmap))
            ⟨[], [], getTypeSizes elems⟩ >>= fun l => pure l.bytes) := by
    intro ws hws
    rfl
  cases hmap : mapArgNamesToStructFields rawNames (tupleFields rawNames) with
  | error e => exact .inl ⟨e, by rw [hpack h, hmap]; rfl⟩
  | ok fieldmap =>
    cases hwf with
    | tuple hne hlen hnames helems =>
      have hdup : ¬ rawNames.Nodup := fun hn =>
        hnodup (Nodup.map_on (fun r hr r' hr' => eq_of_map_ok hmap r hr r' hr') hn)
      obtain ⟨i, hi, hread⟩ := exists_unread hdup (tupleFields rawNames) vs
        (hlen.trans h.length_eq).symm fieldmap
      -- the field that is not read gets another value
      have hi' : i < elems.length := h.length_eq ▸ hi
      obtain ⟨w, hw, hholds⟩ := varies _ (helems _ (getElem_mem hi')) vs[i]
      have hws : Forall₂ Holds elems (vs.set i w) := by
        refine forall₂_iff_get.mpr ⟨by rw [length_set, h.length_eq], fun j hj hj' => ?_⟩
        rw [length_set] at hj'
        by_cases hij : i = j
        · subst hij
          simpa using hholds
        · simpa [getElem_set_ne hij] using (forall₂_iff_get.mp h).2 j hj hj'
      refine .inr ⟨_, ?_, .tuple hws, ?_⟩
      · intro heq
        have hset : vs.set i w = vs := (struct.inj heq).2
        refine hw ?_
        rw [← getElem_set_self (l := vs) (i := i) (a := w) (by rwa [length_set])]
        simp only [hset]
      · have hreads : rawNames.map (readField (tupleFields rawNames) (vs.set i w) fieldmap) =
            rawNames.map (readField (tupleFields rawNames) vs fieldmap) := by
          refine map_congr_left fun r hr => ?_
          unfold readField
          rw [hread w r hr]
        rw [hpack hws, hpack h, hmap]
        change (packFields _ (rawNames.map _) _ >>= _) = (packFields _ (rawNames.map _) _ >>= _)
        rw [hreads]

/-- **A value with a tuple whose names do not differ is lost.** -/
theorem lost : ∀ t : AbiType, WellFormed t → ∀ v, Holds t v → ¬ Clear t v → Lost t v := by
  refine induct ?_ ?_ ?_ ?_
  · intro t ht _ v _ hc
    refine absurd ?_ hc
    cases t <;> cases v <;> trivial
  · intro elem ih hwf v h hc
    cases hwf with
    | slice hwf =>
      cases h with
      | @slice _ vs h =>
        obtain ⟨v, hv, hbad⟩ : ∃ v ∈ vs, ¬ Clear elem v := by simpa [Clear] using hc
        rcases lost_elements h hv (ih hwf v (h v hv) hbad) with ⟨e, he⟩ | ⟨ws, hne, hlen, hws, hp⟩
        · obtain ⟨e', he'⟩ := packElements_error he
          exact .inl ⟨e', by rw [pack_slice h, he']⟩
        · exact .inr ⟨_, by simpa using hne, .slice hws,
            by rw [pack_slice hws, pack_slice h, hlen, hp]⟩
  · intro size elem ih hwf v h hc
    cases hwf with
    | array hsize hwf =>
      cases h with
      | @array _ vs h =>
        obtain ⟨v, hv, hbad⟩ : ∃ v ∈ vs, ¬ Clear elem v := by simpa [Clear] using hc
        rcases lost_elements h hv (ih hwf v (h v hv) hbad) with ⟨e, he⟩ | ⟨ws, hne, hlen, hws, hp⟩
        · obtain ⟨e', he'⟩ := packElements_error he
          exact .inl ⟨e', by rw [pack_array h, he']⟩
        · refine .inr ⟨.array elem.kind ws, by simpa using hne, hlen ▸ array hws, ?_⟩
          rw [pack_array h, ← hp, ← hlen]
          exact pack_array hws
  · intro rawNames elems ih hwf v h hc
    cases h with
    | @tuple _ _ vs h =>
      by_cases hnodup : (rawNames.map toCamelCase).Nodup
      · cases hwf with
        | tuple hne hlen hnames helems =>
          have hall : ¬ AllClear elems vs := fun hall => hc ⟨hnodup, hall⟩
          rcases lost_fields (fun t ht => ih t ht (helems t ht)) h hall with hbad |
            ⟨ws, hw, hws, hp⟩
          · obtain ⟨e, he⟩ := hbad ⟨[], [], getTypeSizes elems⟩
            exact .inl ⟨e, by rw [pack_tuple hnodup hnames hlen h, he]; rfl⟩
          · refine .inr ⟨_, by simpa using hw, .tuple hws, ?_⟩
            rw [pack_tuple hnodup hnames hlen hws, pack_tuple hnodup hnames hlen h, hp]
      · exact lost_of_not_nodup hwf h hnodup

/-! ## Argument lists -/

variable {arguments : List Argument}

namespace Arguments

def Holds (arguments : List Argument) (args : List Value) : Prop :=
  Forall₂ XChain.Abi.Holds (arguments.map Argument.type) args

/-- The names of the components differ in every tuple of the values. -/
def Clear (arguments : List Argument) (args : List Value) : Prop :=
  AllClear (arguments.map Argument.type) args

def Fits (arguments : List Argument) (args : List Value) : Prop :=
  ∀ data, pack arguments args = .ok data → data.length < 2 ^ 63

def RoundTrips (arguments : List Argument) (args : List Value) : Prop :=
  ∃ data, pack arguments args = .ok data ∧ unpackValues arguments data = .ok args

variable {args : List Value}

theorem pack_eq (h : Holds arguments args) : pack arguments args =
    (packFields (arguments.map type) (args.map .ok)
      ⟨[], [], getTypeSizes (arguments.map type)⟩).map bytes := by
  have hlen : args.length = arguments.length := by simpa using h.length_eq.symm
  unfold pack
  rw [if_neg (not_not_intro hlen)]
  change (packFields _ _ _ >>= _) = _
  cases packFields (arguments.map type) (args.map .ok)
    ⟨[], [], getTypeSizes (arguments.map type)⟩ <;> rfl

theorem roundTrips_of_clear (hwf : ∀ a ∈ arguments, WellFormed a.type)
    (hindexed : ∀ a ∈ arguments, a.indexed = false) (h : Holds arguments args)
    (hfits : Fits arguments args) (hc : Clear arguments args) : RoundTrips arguments args := by
  have hwf' : ∀ t ∈ arguments.map type, WellFormed t := by simpa using hwf
  obtain ⟨parts, hparts, hsizes, -, hread⟩ := exists_parts hwf'
    (forall₂_codes (fun t _ => roundTrip t) hwf' h hc)
  have hpack : pack arguments args = .ok (record packLen 32 parts) := by
    rw [pack_eq h, hparts, getTypeSizes_eq, ← hsizes]
    exact congrArg ok (bytes_foldl_push [] parts)
  have hnon : nonIndexed arguments = arguments :=
    filter_eq_self.mpr fun a ha => by rw [hindexed a ha]; rfl
  refine ⟨_, hpack, ?_⟩
  unfold unpackValues
  rw [hnon]
  have hplaced := placed_record length_packLen parts []
  rw [append_nil] at hplaced
  exact hread _ 0 0 0 rfl hplaced (hfits _ hpack)

theorem exists_not_roundTrips (hwf : ∀ a ∈ arguments, WellFormed a.type)
    (h : Holds arguments args) (hfits : Fits arguments args) (hc : ¬ Clear arguments args) :
    ∃ args', Holds arguments args' ∧ Fits arguments args' ∧ ¬ RoundTrips arguments args' := by
  have hwf' : ∀ t ∈ arguments.map type, WellFormed t := by simpa using hwf
  rcases lost_fields (fun t ht => lost t (hwf' t ht)) h hc with hbad | ⟨ws, hne, hws, hsame⟩
  · refine ⟨args, h, hfits, ?_⟩
    rintro ⟨data, hdata, -⟩
    obtain ⟨e, he⟩ := hbad ⟨[], [], getTypeSizes (arguments.map type)⟩
    rw [pack_eq h, he] at hdata
    cases hdata
  · -- both lists are packed alike, so one of them does not come back
    have hpack : pack arguments ws = pack arguments args := by rw [pack_eq hws, pack_eq h, hsame]
    by_cases hrt : RoundTrips arguments args
    · refine ⟨ws, hws, fun data hdata => hfits data (hpack ▸ hdata), ?_⟩
      rintro ⟨data', hdata', hread'⟩
      obtain ⟨data, hdata, hread⟩ := hrt
      obtain rfl : data' = data := ok.inj (hdata'.symm.trans (hpack.trans hdata))
      exact hne (ok.inj (hread'.symm.trans hread))
    · exact ⟨args, h, hfits, hrt⟩

/-- **The round trip of argument lists.** -/
theorem unpackValues_pack (hwf : ∀ a ∈ arguments, WellFormed a.type)
    (hindexed : ∀ a ∈ arguments, a.indexed = false) :
    (∀ args, Holds arguments args → Fits arguments args → RoundTrips arguments args) ↔
      ∀ args, Holds arguments args → Fits arguments args → Clear arguments args := by
  constructor
  · intro hall args h hfits
    by_contra hc
    obtain ⟨args', h', hfits', hbad⟩ := exists_not_roundTrips hwf h hfits hc
    exact hbad (hall args' h' hfits')
  · exact fun hall args h hfits => roundTrips_of_clear hwf hindexed h hfits (hall args h hfits)

theorem clear_of_allNamesDiffer (h : allNamesDiffer (arguments.map type))
    (args : List Value) :
    Clear arguments args := allClear_of_forall (fun t _ ht => clear_of_namesDiffer t ht) h args

def listed : List Argument := [⟨[], .tuple [[97], [98]] [.uint 256, .slice .string], false⟩]

def listedValue : Value :=
  .struct (tupleFields [[97], [98]]) [.big (5 : ℕ), .slice .string [.string [104], .string []]]

theorem unpackValues_pack_listed : RoundTrips listed [listedValue] := by
  have hwf : ∀ a ∈ listed, WellFormed a.type := by
    simp only [listed, mem_singleton, forall_eq]
    refine .tuple (by decide) rfl (by decide) ?_
    simp only [mem_cons, not_mem_nil, or_false, forall_eq_or_imp, forall_eq]
    exact ⟨.uint (by decide) (by decide) (by decide), .slice .string⟩
  have hholds : Holds listed [listedValue] := by
    refine .cons (.tuple (.cons (.bigUint (by decide) (by omega)) (.cons (.slice ?_) .nil))) .nil
    simp only [mem_cons, not_mem_nil, or_false, forall_eq_or_imp, forall_eq]
    exact ⟨.string _, .string _⟩
  refine (unpackValues_pack hwf (by simp [listed])).mpr
    (fun args _ _ => clear_of_allNamesDiffer (by decide) args) _ hholds fun data hdata => ?_
  have hlen : (pack listed [listedValue]).map length = .ok 288 := by decide +kernel
  rw [hdata] at hlen
  rw [ok.inj hlen]
  omega

def colliding : List Argument := [⟨[], .tuple [[97], [95, 97]] [.uint 256, .uint 256], false⟩]

/-- **A tuple with two names of one camel-case form is refused.** -/
theorem pack_refuses_colliding : (∀ a ∈ colliding, WellFormed a.type ∧ a.indexed = false) ∧
    ∃ args, Holds colliding args ∧ pack colliding args = .error (.multipleOutputs [65]) ∧
      ¬ RoundTrips colliding args := by
  have hpack : pack colliding
    [.struct (tupleFields [[97], [95, 97]]) [.big (1 : ℕ), .big (2 : ℕ)]] =
      .error (.multipleOutputs [65]) := by decide +kernel
  refine ⟨?_, _, ?_, hpack, ?_⟩
  · simp only [colliding, mem_singleton, forall_eq, and_true]
    refine .tuple (by decide) rfl (by decide) ?_
    simp only [mem_cons, not_mem_nil, or_false, forall_eq_or_imp, forall_eq]
    exact ⟨.uint (by decide) (by decide) (by decide), .uint (by decide) (by decide) (by decide)⟩
  · exact .cons (.tuple (.cons (.bigUint (by decide) (by omega))
      (.cons (.bigUint (by decide) (by omega)) .nil))) .nil
  · rintro ⟨data, hdata, -⟩
    cases hdata

end Arguments

end XChain.Abi
