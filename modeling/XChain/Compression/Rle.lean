import XChain.Lib.Text

/-!
# Run-length coding

`Compress` and `Decompress` of `compression/rle`. A token is followed by a code or, for a run of
zeros, by the length of the run plus two, in one byte.

* **`decompress_compress_iff`**: the data comes back iff no chunk is 251, 252 or 253 bytes long. The
  byte for such a run is one of the codes.
-/

namespace XChain.Rle

open GoText List Except UInt8

def token : UInt8 := 0xfe

def emptyShaToken : UInt8 := 0xfd

def emptyListShaToken : UInt8 := 0xfe

def tokenToken : UInt8 := 0xff

/-- The hashes of the empty string and of the empty list. -/
structure Hashes where
  empty : Hash
  emptyList : Hash

variable (H : Hashes)

/-- What is written for the byte after a token. -/
def expand (code : UInt8) : Bytes :=
  if code = emptyShaToken then H.empty.bytes
  else if code = emptyListShaToken then H.emptyList.bytes
  else if code = tokenToken then [token]
  else replicate (code - 2).toNat 0

def decompress : Bytes → Except String Bytes
  | [] => ok []
  | [b] =>
    if b = token then error "error reading bytes. token encountered without proceeding bytes"
    else ok [b]
  | b :: code :: dat =>
    if b = token then (decompress dat).map (expand H code ++ ·)
    else (decompress (code :: dat)).map (b :: ·)

/-- The zeros at the front, at most 255. -/
def zeros (dat : Bytes) : Bytes := (dat.take 255).takeWhile fun b => decide (b = 0)

def compressChunk (dat : Bytes) : Bytes × ℕ :=
  if dat.head? = some token then ([token, tokenToken], 1)
  else if dat.take 2 = [0, 0] then
    ([token, ofNat ((zeros dat).length + 2)], (zeros dat).length)
  else if dat.take 32 = H.empty.bytes then ([token, emptyShaToken], 32)
  else if dat.take 32 = H.emptyList.bytes then ([token, emptyListShaToken], 32)
  else (dat.take 1, 1)

/-- The loop of `Compress`, which takes at most `fuel` chunks. -/
def chunks : ℕ → Bytes → List (Bytes × ℕ)
  | 0, _ => []
  | fuel + 1, dat =>
    if dat = [] then []
    else compressChunk H dat :: chunks fuel (dat.drop (compressChunk H dat).2)

def compress (dat : Bytes) : Bytes := (chunks H dat.length dat).flatMap (·.1)

variable {H} {dat v : Bytes} {b : UInt8}

theorem decompress_token (code : UInt8) (rest : Bytes) :
    decompress H (token :: code :: rest) = (decompress H rest).map (expand H code ++ ·) := by
  simp [decompress]

theorem decompress_literal (hb : b ≠ token) (rest : Bytes) :
    decompress H (b :: rest) = (decompress H rest).map ([b] ++ ·) := by
  cases rest with
  | nil => simp [decompress, hb, Except.map]
  | cons code rest => simp [decompress, hb]

theorem zeros_front (dat : Bytes) : zeros dat <+: dat.take 255 := takeWhile_prefix _

theorem zeros_eq_take (dat : Bytes) : zeros dat = dat.take (zeros dat).length :=
  prefix_iff_eq_take.mp <| (zeros_front dat).trans <| take_prefix 255 dat

theorem zeros_eq_replicate (dat : Bytes) : zeros dat = replicate (zeros dat).length 0 :=
  eq_replicate_iff.mpr ⟨rfl, fun b hb => by simpa using mem_takeWhile_imp hb⟩

theorem expand_run : ∀ n : Fin 256, n < 251 ∨ 253 < n →
    expand H (ofNat (n + 2)) = replicate n 0 := by
  have hcode : ∀ n : Fin 256, n < 251 ∨ 253 < n → ofNat (n + 2) ≠ emptyShaToken ∧
      ofNat (n + 2) ≠ emptyListShaToken ∧ ofNat (n + 2) ≠ tokenToken ∧
      (ofNat (n + 2) - 2).toNat = n := by decide +kernel
  intro n hn
  obtain ⟨h₁, h₂, h₃, hlength⟩ := hcode n hn
  rw [expand, if_neg h₁, if_neg h₂, if_neg h₃, hlength]

/-- What comes back for a chunk: the chunk, or too little. -/
def Restores (dat : Bytes) (n : ℕ) (v : Bytes) : Prop :=
  if n < 251 ∨ 253 < n then v = dat.take n else v.length < n

theorem restores_take {n : ℕ} (hn : n < 251) (hv : v = dat.take n) : Restores dat n v := by
  rwa [Restores, if_pos (.inl hn)]

theorem restores_zeros (dat : Bytes) :
    Restores dat (zeros dat).length (expand H (ofNat ((zeros dat).length + 2))) := by
  have hle : (zeros dat).length < 256 :=
    Nat.lt_succ_of_le ((zeros_front dat).length_le.trans (length_take_le 255 dat))
  unfold Restores
  split_ifs with hn
  · rw [← zeros_eq_take, zeros_eq_replicate, length_replicate]
    exact expand_run ⟨_, hle⟩ hn
  · -- one of the codes, which stand for 32 bytes or for one
    have hcases : (zeros dat).length = 251 ∨ (zeros dat).length = 252 ∨
      (zeros dat).length = 253 := by omega
    rcases hcases with h | h | h <;> rw [h] <;>
      simp [expand, emptyShaToken, emptyListShaToken, tokenToken, FixedBytes.length_bytes]

theorem le_length_of_take {h : Hash} (hd : dat.take 32 = h.bytes) : 32 ≤ dat.length := by
  have hlength := congrArg length hd
  rw [length_take, h.length_bytes] at hlength
  omega

theorem decompress_chunk (hne : dat ≠ []) : 0 < (compressChunk H dat).2 ∧
    (compressChunk H dat).2 ≤ dat.length ∧ ∃ v, Restores dat (compressChunk H dat).2 v ∧
      ∀ rest, decompress H ((compressChunk H dat).1 ++ rest) =
        (decompress H rest).map (v ++ ·) := by
  obtain ⟨b, t, rfl⟩ := exists_cons_of_ne_nil hne
  unfold compressChunk
  split_ifs with htoken hzeros hempty hlist
  · cases htoken
    exact ⟨Nat.one_pos, by simp, _, restores_take (by decide) rfl, decompress_token _⟩
  · refine ⟨?_, ?_, _, restores_zeros _, decompress_token _⟩
    · obtain ⟨rfl, -⟩ := cons.inj hzeros
      simp [zeros]
    · rw [zeros_eq_take]
      exact length_take_le' _ _
  · exact ⟨by decide, le_length_of_take hempty, _, restores_take (by decide) hempty.symm,
      decompress_token _⟩
  · exact ⟨by decide, le_length_of_take hlist, _, restores_take (by decide) hlist.symm,
      decompress_token _⟩
  · exact ⟨Nat.one_pos, by simp, _, restores_take (n := 1) (by decide) rfl,
      decompress_literal fun h => htoken (congrArg some h)⟩

theorem decompress_chunks : ∀ (fuel : ℕ) (dat : Bytes), dat.length ≤ fuel →
    ∃ v, decompress H ((chunks H fuel dat).flatMap (·.1)) = ok v ∧ v.length ≤ dat.length ∧
      (v = dat ↔ ∀ c ∈ chunks H fuel dat, c.2 < 251 ∨ 253 < c.2)
  | 0, dat, hlength => by
    rw [length_eq_zero_iff.mp (Nat.le_zero.mp hlength)]
    exact ⟨[], rfl, le_rfl, by simp [chunks]⟩
  | fuel + 1, dat, hlength => by
    rw [chunks]
    split_ifs with hnil
    · exact ⟨[], rfl, Nat.zero_le _, by simp [hnil]⟩
    obtain ⟨hpos, hle, w, hw, hchunk⟩ := decompress_chunk (H := H) hnil
    generalize compressChunk H dat = c at hpos hle hw hchunk ⊢
    obtain ⟨v, hv, hvlength, hiff⟩ := decompress_chunks fuel (dat.drop c.2) (by simp; omega)
    refine ⟨w ++ v, ?_, ?_⟩
    · rw [flatMap_cons, hchunk, hv]
      rfl
    rw [length_drop] at hvlength
    rw [length_append, forall_mem_cons, ← hiff]
    unfold Restores at hw
    split_ifs at hw with hgood
    · rw [hw, length_take_of_le hle]
      refine ⟨by omega, fun h => ⟨hgood, ?_⟩, fun h => ?_⟩
      · exact append_cancel_left (h.trans (take_append_drop c.2 dat).symm)
      · rw [h.2, take_append_drop]
    · -- a lost run makes the result too short
      refine ⟨by omega, fun h => ?_, fun h => absurd h.1 hgood⟩
      have := congrArg length h
      rw [length_append] at this
      omega

/-- **What was compressed comes back** iff no run of zeros has the length of a code. -/
theorem decompress_compress_iff (H : Hashes) (dat : Bytes) :
    decompress H (compress H dat) = ok dat ↔
      ∀ c ∈ chunks H dat.length dat, c.2 < 251 ∨ 253 < c.2 := by
  obtain ⟨v, hv, -, hiff⟩ := decompress_chunks (H := H) _ dat le_rfl
  rw [compress, hv, ← hiff]
  exact ok.injEq v dat ▸ .rfl

def sampleHashes : Hashes := ⟨.fill 1, .fill 2⟩

/-- 251 zeros come back as the first hash. -/
theorem zeros_lost : decompress sampleHashes (compress sampleHashes (replicate 251 0)) =
    ok (replicate 32 1) := by
  decide +kernel

end XChain.Rle
