import XChain.Abi.Pack

/-!
# The values of argument types

* `WellFormed`: the argument types; `Holds`: the Go values in the range of a type;
* `typeCheck_of_holds`: values in range pass the check;
* `leaf_roundTrip`: types without components are read back.
-/

namespace XChain.Abi

open List BigEndian Int Value
open GoText (Bytes)
open HeadTail (Layout Piece Placed)

namespace AbiType

def isLeaf (t : AbiType) : Bool := !t.isSequence && !t.isNested

theorem induct {P : AbiType → Prop} (leaf : ∀ t : AbiType, t.isLeaf → P t)
    (slice : ∀ elem, P elem → P (.slice elem)) (array : ∀ size elem, P elem → P (.array size elem))
    (tuple : ∀ rawNames elems, (∀ t ∈ elems, P t) → P (.tuple rawNames elems)) (t : AbiType) :
    P t := by
  refine @AbiType.rec P (fun elems => ∀ t ∈ elems, P t) (fun _ => leaf _ rfl) (fun _ => leaf _ rfl)
    (leaf _ rfl) (leaf _ rfl) slice array tuple (leaf _ rfl) (fun _ => leaf _ rfl) (leaf _ rfl)
    (leaf _ rfl) ?_ ?_ t
  · exact forall_mem_nil _
  · exact fun elem elems helem helems => forall_mem_cons.mpr ⟨helem, helems⟩

theorem isSequence_of_isLeaf {t : AbiType} (h : t.isLeaf) : t.isSequence = false :=
  Bool.not_eq_true' _ ▸ (Bool.and_eq_true_iff.mp h).1

theorem isNested_of_isLeaf {t : AbiType} (h : t.isLeaf) : t.isNested = false :=
  Bool.not_eq_true' _ ▸ (Bool.and_eq_true_iff.mp h).2

end AbiType

open AbiType

/-! ## Types and values -/

inductive WellFormed : AbiType → Prop
  | int {size : ℕ} (h : 8 ∣ size) (hlo : 8 ≤ size) (hhi : size ≤ 256) : WellFormed (.int size)
  | uint {size : ℕ} (h : 8 ∣ size) (hlo : 8 ≤ size) (hhi : size ≤ 256) : WellFormed (.uint size)
  | bool : WellFormed .bool
  | string : WellFormed .string
  | slice {elem : AbiType} (h : WellFormed elem) : WellFormed (.slice elem)
  | array {size : ℕ} {elem : AbiType} (hsize : 1 ≤ size) (h : WellFormed elem) :
      WellFormed (.array size elem)
  | tuple {rawNames : List Bytes} {elems : List AbiType} (hne : elems ≠ [])
      (hlen : rawNames.length = elems.length) (hnames : ∀ r ∈ rawNames, toCamelCase r ≠ [])
      (h : ∀ t ∈ elems, WellFormed t) : WellFormed (.tuple rawNames elems)
  | address : WellFormed .address
  | fixedBytes {size : ℕ} (hlo : 1 ≤ size) (hhi : size ≤ 32) : WellFormed (.fixedBytes size)
  | bytes : WellFormed .bytes
  | function : WellFormed .function

/-- The values in the range of a type, as the Go values of `GetType`. -/
inductive Holds : AbiType → Value → Prop
  | int {size : ℕ} {z : ℤ} (h : size ∈ machineSizes) (hlo : -2 ^ (size - 1) ≤ z)
      (hhi : z < 2 ^ (size - 1)) : Holds (.int size) (.int size z)
  | bigInt {size : ℕ} {z : ℤ} (h : size ∉ machineSizes) (hlo : -2 ^ (size - 1) ≤ z)
      (hhi : z < 2 ^ (size - 1)) : Holds (.int size) (.big z)
  | uint {size n : ℕ} (h : size ∈ machineSizes) (hhi : n < 2 ^ size) :
      Holds (.uint size) (.uint size n)
  | bigUint {size n : ℕ} (h : size ∉ machineSizes) (hhi : n < 2 ^ size) :
      Holds (.uint size) (.big n)
  | bool (b : Bool) : Holds .bool (.bool b)
  | string (s : Bytes) : Holds .string (.string s)
  | slice {elem : AbiType} {vs : List Value} (h : ∀ v ∈ vs, Holds elem v) :
      Holds (.slice elem) (.slice elem.kind vs)
  | array {elem : AbiType} {vs : List Value} (h : ∀ v ∈ vs, Holds elem v) :
      Holds (.array vs.length elem) (.array elem.kind vs)
  | tuple {rawNames : List Bytes} {elems : List AbiType} {vs : List Value}
      (h : List.Forall₂ Holds elems vs) :
      Holds (.tuple rawNames elems) (.struct (tupleFields rawNames) vs)
  | address {bs : Bytes} (h : bs.length = 20) : Holds .address (byteArray bs)
  | fixedBytes (bs : Bytes) : Holds (.fixedBytes bs.length) (byteArray bs)
  | bytes (bs : Bytes) : Holds .bytes (.slice (.uint 8) (bs.map .byte))
  | function {bs : Bytes} (h : bs.length = 24) : Holds .function (byteArray bs)

/-! ## Sizes -/

theorem anyDynamic_eq : ∀ elems : List AbiType, anyDynamic elems = elems.any isDynamicType
  | [] => rfl
  | elem :: elems => by rw [anyDynamic, any_cons, anyDynamic_eq elems]

theorem getTypeSizes_eq : ∀ elems : List AbiType, getTypeSizes elems = (elems.map getTypeSize).sum
  | [] => rfl
  | elem :: elems => by rw [getTypeSizes, map_cons, sum_cons, getTypeSizes_eq elems]

variable {t : AbiType}

theorem getTypeSize_of_not_nested (h : t.isNested = false) : t.getTypeSize = 32 := by
  cases t <;> first | rfl | cases h

theorem getTypeSize_of_dynamic (h : t.isDynamicType = true) : t.getTypeSize = 32 := by
  cases t with
  | array size elem | tuple rawNames elems =>
    rw [isDynamicType] at h
    rw [getTypeSize, if_pos h]
  | _ => rfl

theorem getTypeSize_array {elem : AbiType} (size : ℕ) (h : elem.isDynamicType = false) :
    (AbiType.array size elem).getTypeSize = size * elem.getTypeSize := by
  rw [getTypeSize, if_neg (by rw [h]; decide)]
  split_ifs with hn
  · rfl
  · rw [getTypeSize_of_not_nested (Bool.eq_false_iff.mpr hn)]

theorem getTypeSize_of_wellFormed : ∀ t : AbiType, WellFormed t →
    32 ∣ t.getTypeSize ∧ 32 ≤ t.getTypeSize := by
  refine induct ?_ ?_ ?_ ?_
  · intro t ht _
    rw [getTypeSize_of_not_nested (isNested_of_isLeaf ht)]
    exact ⟨dvd_rfl, le_rfl⟩
  · exact fun elem _ _ => ⟨dvd_rfl, le_rfl⟩
  · intro size elem ih h
    cases h with
    | array hsize helem =>
      by_cases hd : elem.isDynamicType = true
      · rw [getTypeSize_of_dynamic (t := .array size elem) hd]
        exact ⟨dvd_rfl, le_rfl⟩
      · obtain ⟨hdvd, hle⟩ := ih helem
        rw [getTypeSize_array size (Bool.eq_false_iff.mpr hd)]
        exact ⟨hdvd.mul_left size, hle.trans (Nat.le_mul_of_pos_left _ hsize)⟩
  · intro rawNames elems ih h
    cases h with
    | tuple hne hlen hnames helems =>
      rw [getTypeSize]
      split_ifs
      · exact ⟨dvd_rfl, le_rfl⟩
      · rw [getTypeSizes_eq]
        obtain ⟨t, ts, rfl⟩ := exists_cons_of_ne_nil hne
        refine ⟨dvd_sum ?_, ?_⟩
        · intro n hn
          obtain ⟨u, hu, rfl⟩ := mem_map.mp hn
          exact (ih u hu (helems u hu)).1
        · exact Nat.le_add_right_of_le (ih t mem_cons_self (helems t mem_cons_self)).2

theorem virtualArgs_eq (h : WellFormed t) : (1 + t.virtualArgs) * 32 = t.getTypeSize := by
  obtain ⟨⟨k, hk⟩, -⟩ := getTypeSize_of_wellFormed t h
  unfold AbiType.virtualArgs
  split_ifs with hn
  · omega
  · by_cases hd : t.isDynamicType = true
    · rw [getTypeSize_of_dynamic hd]
      rfl
    · rw [getTypeSize_of_not_nested (by simpa using fun hnest => hn ⟨hnest, hd⟩)]
      rfl

/-! ## Checks -/

variable {v : Value}

theorem kind_of_holds (h : Holds t v) : v.kind = t.kind := by
  cases h with
  | int h | uint h => exact (if_pos h).symm
  | bigInt h | bigUint h => exact (if_neg h).symm
  | _ => rfl

theorem sliceTypeCheck_of_holds : ∀ (t : AbiType) (v : Value), Holds t v → t.isSequence →
    sliceTypeCheck t v = .ok () := by
  -- the check of the elements, for slices and arrays alike
  have helems : ∀ (elem : AbiType) (vs : List Value) (size : Option ℕ) (v : Value),
      (∀ v, Holds elem v → elem.isSequence → sliceTypeCheck elem v = .ok ()) →
      v.elements = some (elem.kind, vs) → (∀ x ∈ vs, Holds elem x) → size.all (· = vs.length) →
      checkElements elem (sliceTypeCheck elem) size v = .ok () := by
    intro elem vs size v ih hv hvs hsize
    unfold checkElements
    rw [hv]
    dsimp only
    rw [if_neg (by cases size <;> simp_all)]
    split
    · rename_i x rest hseq
      exact ih x (hvs x mem_cons_self) hseq
    · exact if_neg (not_not_intro rfl)
  refine induct ?_ ?_ ?_ ?_
  · intro t ht v _ hseq
    rw [isSequence_of_isLeaf ht] at hseq
    cases hseq
  · intro elem ih v h _
    cases h with
    | slice hvs => exact helems elem _ none _ ih rfl hvs rfl
  · intro size elem ih v h _
    cases h with
    | array hvs => exact helems elem _ _ _ ih rfl hvs (by simp)
  · intro rawNames elems _ v _ hseq
    cases hseq

theorem typeCheck_of_holds (h : Holds t v) : typeCheck t v = .ok () := by
  have hkind := kind_of_holds h
  cases t with
  | slice elem | array size elem => exact sliceTypeCheck_of_holds _ _ h rfl
  | fixedBytes size =>
    cases h
    simp [typeCheck, byteArray]
  | _ => exact if_neg (not_not_intro hkind.symm)

/-! ## Words -/

@[simp] theorem length_packLen (n : ℕ) : (packLen n).length = 32 := length_toBytes _ _

@[simp] theorem length_u256 (z : ℤ) : (u256 z).length = 32 := length_toBytes _ _

theorem toNat_packLen {n : ℕ} (h : n < 2 ^ 256) : toNat (packLen n) = n := by
  unfold packLen u256
  rw [emod_eq_of_lt (natCast_nonneg n) (by exact_mod_cast h), toNat_natCast]
  exact toNat_toBytes_of_lt h

theorem toNat_drop_u256 (z : ℤ) {k : ℕ} (hk : k ≤ 32) :
    toNat ((u256 z).drop (32 - k)) = (z % 2 ^ (8 * k)).toNat := by
  unfold u256
  have hsplit : toBytes 32 (z % 2 ^ 256).toNat =
      toBytes (32 - k + k) (z % 2 ^ 256).toNat := by rw [Nat.sub_add_cancel hk]
  rw [hsplit, drop_toBytes, toNat_toBytes]
  have hpow : (256 : ℕ) ^ k = 2 ^ (8 * k) := by rw [pow_mul]; norm_num
  have hdvd : (2 : ℤ) ^ (8 * k) ∣ 2 ^ 256 := pow_dvd_pow 2 (by omega)
  rw [hpow, ← emod_emod_of_dvd z hdvd]
  have hnn : 0 ≤ z % 2 ^ 256 := emod_nonneg _ (by decide)
  generalize hm : z % 2 ^ 256 = m at hnn ⊢
  obtain ⟨n, rfl⟩ := eq_ofNat_of_zero_le hnn
  exact_mod_cast rfl

theorem signed_emod {bits : ℕ} {z : ℤ} (hbits : 1 ≤ bits) (hlo : -2 ^ (bits - 1) ≤ z)
    (hhi : z < 2 ^ (bits - 1)) : signed bits (z % 2 ^ bits).toNat = z := by
  have hpow : (2 : ℤ) ^ bits = 2 * 2 ^ (bits - 1) := by
    rw [← pow_succ', Nat.sub_add_cancel hbits]
  have hpos : (0 : ℤ) < 2 ^ (bits - 1) := pow_pos (by decide) _
  unfold signed
  rcases le_or_gt 0 z with hz | hz
  · rw [emod_eq_of_lt hz (by omega), if_pos (by zify; omega)]
    omega
  · have hmod : z % 2 ^ bits = z + 2 ^ bits := by
      rw [← add_emod_right, emod_eq_of_lt (by omega) (by omega)]
    rw [hmod, if_neg (by zify; omega)]
    omega

/-! ## Reading a part -/

variable {index n : ℕ} {output body : Bytes}

theorem wordAt_eq_body (h : body <+: output.drop index) (hlen : body.length = 32) :
    wordAt output index = body ∧ index + 32 ≤ output.length := by
  have hle := h.length_le
  rw [length_drop, hlen] at hle
  refine ⟨?_, by omega⟩
  unfold wordAt
  rw [← hlen]
  exact (prefix_iff_eq_take.mp h).symm

theorem offset_of_placed (h : Placed packLen ⟨true, body⟩ index output)
    (hlen : output.length < 2 ^ 63) : ∃ offset, toNat (wordAt output index) = offset ∧
      toNat ((wordAt output index).drop 24) = offset ∧ index + 32 ≤ output.length ∧
      body <+: output.drop offset ∧ offset + body.length ≤ output.length := by
  obtain ⟨offset, hword, hbody, hle⟩ := h
  obtain ⟨hat, hindex⟩ := wordAt_eq_body hword (length_packLen offset)
  have hlt : offset < 2 ^ 63 := by omega
  refine ⟨offset, ?_, ?_, hindex, hbody, hle⟩
  · rw [hat, toNat_packLen (by omega)]
  · rw [hat]
    have hdrop := toNat_drop_u256 offset (k := 8) (by decide)
    rw [emod_eq_of_lt (by omega) (by omega), toNat_natCast] at hdrop
    exact hdrop

theorem lengthPrefixPointsTo_of_placed
    (h : Placed packLen ⟨true, packLen n ++ body⟩ index output) (hn : n ≤ body.length)
    (hlen : output.length < 2 ^ 63) : ∃ start, lengthPrefixPointsTo index output = .ok (start, n) ∧
      index + 32 ≤ output.length ∧ body <+: output.drop start := by
  obtain ⟨offset, hoffset, -, hindex, hpre, hle⟩ := offset_of_placed h hlen
  rw [length_append, length_packLen] at hle
  have hword : wordAt output offset = packLen n :=
    (wordAt_eq_body ((prefix_append _ _).trans hpre) (length_packLen n)).1
  refine ⟨offset + 32, ?_, hindex, ?_⟩
  · unfold lengthPrefixPointsTo
    dsimp only
    rw [hoffset, Nat.add_sub_cancel, hword, toNat_packLen (by omega), if_neg (by omega),
      if_neg (by omega), if_neg (by omega), if_neg (by omega)]
  · rw [← drop_drop]
    obtain ⟨post, hpost⟩ := hpre
    rw [← hpost, append_assoc, ← length_packLen n, drop_left]
    exact prefix_append _ _

theorem tuplePointsTo_of_placed (h : Placed packLen ⟨true, body⟩ index output)
    (hlen : output.length < 2 ^ 63) : ∃ start, tuplePointsTo index output = .ok start ∧
      index + 32 ≤ output.length ∧ body <+: output.drop start := by
  obtain ⟨offset, hoffset, -, hindex, hpre, hle⟩ := offset_of_placed h hlen
  refine ⟨offset, ?_, hindex, hpre⟩
  unfold tuplePointsTo
  rw [hoffset, if_neg (by omega), if_neg (by omega)]

/-- The bytes of a value are read back from where they are placed, and fill the head of a type
without position. -/
structure Reads (t : AbiType) (v : Value) (enc : Bytes) : Prop where
  size : t.isDynamicType = false → enc.length = t.getTypeSize
  read : ∀ index output, Placed packLen ⟨t.isDynamicType, enc⟩ index output →
    output.length < 2 ^ 63 → toGoType t index output = .ok v

/-! ## Types without components -/

theorem pack_of_isLeaf (ht : t.isLeaf) (h : Holds t v) : pack t v = packElement t v := by
  unfold pack
  rw [typeCheck_of_holds h]
  cases t <;> first | rfl | cases ht

theorem reads_of_word {enc : Bytes} (ht : t.isDynamicType = false) (hsize : t.getTypeSize = 32)
    (henc : enc.length = 32) (hread : ∀ index output, wordAt output index = enc → ¬ index + 32 >
      output.length → toGoType t index output = .ok v) : Reads t v enc := by
  refine ⟨fun _ => henc.trans hsize.symm, fun index output hp _ => ?_⟩
  rw [ht] at hp
  obtain ⟨hword, hindex⟩ := wordAt_eq_body hp henc
  exact hread index output hword (by omega)

theorem eight_mul_div {size : ℕ} (h : size ∈ machineSizes) : 8 * (size / 8) = size := by
  simp only [machineSizes, mem_cons, not_mem_nil, or_false] at h
  omega

theorem readInteger_int {size : ℕ} {z : ℤ} (hsize : size ≤ 256) (hpos : 1 ≤ size)
    (hlo : -2 ^ (size - 1) ≤ z) (hhi : z < 2 ^ (size - 1)) :
    readInteger false size (u256 z) = if size ∈ machineSizes then .int size z else .big z := by
  unfold readInteger
  by_cases h : size ∈ machineSizes
  · rw [if_pos h, if_pos h, if_neg Bool.false_ne_true, length_u256, toNat_drop_u256 z (by omega),
      eight_mul_div h, signed_emod hpos hlo hhi]
  · have hle : (2 : ℤ) ^ (size - 1) ≤ 2 ^ 255 := pow_le_pow_right₀ (by decide) (by omega)
    have hword := toNat_drop_u256 z (k := 32) le_rfl
    rw [Nat.sub_self, drop_zero] at hword
    rw [if_neg h, if_neg h, if_neg Bool.false_ne_true, hword,
      @signed_emod 256 z (by decide) (by omega) (by omega)]

theorem readInteger_uint {size n : ℕ} (hsize : size ≤ 256) (hn : n < 2 ^ size) :
    readInteger true size (u256 n) = if size ∈ machineSizes then .uint size n else .big n := by
  unfold readInteger
  have hmod : ∀ bits : ℕ, size ≤ bits → ((n : ℤ) % 2 ^ bits).toNat = n := by
    intro bits hbits
    have hlt : n < 2 ^ bits := hn.trans_le (Nat.pow_le_pow_right (by decide) hbits)
    rw [emod_eq_of_lt (natCast_nonneg n) (by exact_mod_cast hlt), toNat_natCast]
  by_cases h : size ∈ machineSizes
  · rw [if_pos h, if_pos h, if_pos rfl, length_u256, toNat_drop_u256 n (by omega),
      eight_mul_div h, hmod size le_rfl]
  · have hword := toNat_drop_u256 n (k := 32) le_rfl
    rw [Nat.sub_self, drop_zero, hmod _ hsize] at hword
    rw [if_neg h, if_neg h, if_pos rfl, hword]

theorem toBytes_map_byte : ∀ bs : Bytes, toBytes (bs.map .byte) = .ok bs
  | [] => rfl
  | b :: bs => by
    change (toBytes (bs.map .byte)).map (UInt8.ofNat b.toNat :: ·) = _
    rw [toBytes_map_byte bs, UInt8.ofNat_toNat]
    rfl

theorem map_toBytes (f : Bytes → Bytes) (bs : Bytes) :
    (toBytes (bs.map .byte)).map f = .ok (f bs) := by
  rw [toBytes_map_byte]
  rfl

theorem reads_packBytesSlice (bs : Bytes) (ht : t.isDynamicType = true) (hread : ∀ index output
      start, ¬ index + 32 > output.length → lengthPrefixPointsTo index output = .ok (start,
      bs.length) → (output.drop start).take bs.length = bs → toGoType t index output = .ok v) :
    Reads t v (packBytesSlice bs) := by
  refine ⟨fun hs => ?_, fun index output hp hlen => ?_⟩
  · rw [ht] at hs
    cases hs
  · rw [ht] at hp
    obtain ⟨start, hstart, hindex, hbody⟩ := lengthPrefixPointsTo_of_placed hp (by simp [rightPad])
      hlen
    refine hread index output start (by omega) hstart ?_
    exact (prefix_iff_eq_take.mp ((prefix_append _ _).trans hbody)).symm

/-- **Types without components are read back.** -/
theorem leaf_roundTrip (ht : t.isLeaf) (hwf : WellFormed t) (h : Holds t v) :
    ∃ enc, pack t v = .ok enc ∧ Reads t v enc := by
  rw [pack_of_isLeaf ht h]
  cases h with
  | @int size z hm hlo hhi | @bigInt size z hm hlo hhi =>
    cases hwf with
    | int _ h8 hle =>
      refine ⟨u256 z, rfl, reads_of_word rfl rfl (length_u256 _) fun index output hw hi => ?_⟩
      rw [toGoType, if_neg hi]
      dsimp only
      rw [hw, readInteger_int hle (by omega) hlo hhi]
      simp only [hm, if_true, if_false]
  | @uint size n hm hhi | @bigUint size n hm hhi =>
    cases hwf with
    | uint _ _ hle =>
      refine ⟨u256 n, rfl, reads_of_word rfl rfl (length_u256 _) fun index output hw hi => ?_⟩
      rw [toGoType, if_neg hi]
      dsimp only
      rw [hw, readInteger_uint hle hhi]
      simp only [hm, if_true, if_false]
  | bool b =>
    refine ⟨u256 b.toNat, rfl, reads_of_word rfl rfl (length_u256 _) fun index output hw hi => ?_⟩
    rw [toGoType, if_neg hi]
    rw [hw]
    cases b <;> rfl
  | string s =>
    refine ⟨packBytesSlice s, rfl, reads_packBytesSlice s rfl fun index output start hi hs hb => ?_⟩
    rw [toGoType, if_neg hi]
    rw [hs]
    exact congrArg (fun bs => Except.ok (string bs)) hb
  | bytes bs =>
    refine ⟨packBytesSlice bs, ?_, reads_packBytesSlice bs rfl fun index output start hi hs
      hb => ?_⟩
    · exact map_toBytes _ bs
    · rw [toGoType, if_neg hi]
      rw [hs]
      exact congrArg (fun bs => Except.ok (slice (.uint 8) (bs.map .byte))) hb
  | @address bs hlen =>
    refine ⟨leftPad bs, ?_, reads_of_word rfl rfl ?_ fun index output hw hi => ?_⟩
    · exact map_toBytes _ bs
    · rw [leftPad, length_append, length_replicate, hlen]
    · rw [toGoType, if_neg hi]
      dsimp only
      rw [hw, leftPad, hlen, drop_left' (length_replicate ..)]
  | fixedBytes bs =>
    cases hwf with
    | fixedBytes hlo hhi =>
      refine ⟨rightPad bs 32, ?_, reads_of_word rfl rfl ?_ fun index output hw hi => ?_⟩
      · exact map_toBytes _ bs
      · rw [rightPad, length_append, length_replicate]
        omega
      · rw [toGoType, if_neg hi]
        dsimp only
        rw [hw, rightPad, take_left]
  | @function bs hlen =>
    refine ⟨rightPad bs 32, ?_, reads_of_word rfl rfl ?_ fun index output hw hi => ?_⟩
    · exact map_toBytes _ bs
    · rw [rightPad, length_append, length_replicate, hlen]
    · rw [toGoType, if_neg hi]
      dsimp only
      rw [hw, rightPad, hlen, readFunctionType, drop_left' hlen, take_left' hlen]
      rfl
  | slice | array | tuple => cases ht

end XChain.Abi
