import XChain.Lib.RlpUint

/-!
# Extension fields of discovery packets

`p2p/discover/udp.go`: a ping or pong carries the network id of its sender and findnode a flag, as
decimal text in an RLP field of its own. The receiver drops the first byte of the field, for its
header, and parses the rest.

* **`rest_read_iff`**: the ids and flags that the receiver gets right.
-/

namespace XChain.Discover.Rest

open GoText List RlpUint BigEndian

inductive NodeType
  | unknown
  | alien
  | uncle
  | brother
deriving DecidableEq

inductive MatchType
  | brotherOnly
  | eitherUncleAndBrother
deriving DecidableEq

def tab : UInt8 := 9

def plus : UInt8 := 43

/-- The RLP encoding of a byte string. -/
def encodeString : Bytes → Bytes
  | [b] => if b < 128 then [b] else [129, b]
  | s =>
    if s.length < 56 then UInt8.ofNat (128 + s.length) :: s
    else UInt8.ofNat (183 + byteCount s.length) :: (toBytes (byteCount s.length) s.length ++ s)

/-- `strconv.Atoi` with an `int` of 64 bits. -/
def atoi (s : Bytes) : Option ℤ :=
  let digits := if s.head? = some minus ∨ s.head? = some plus then s.tail else s
  if digits = [] ∨ ∃ b ∈ digits, b.toNat < 48 ∨ 57 < b.toNat then none
  else
    let n : ℕ := digits.foldl (fun v b => 10 * v + (b.toNat - 48)) 0
    let v : ℤ := if s.head? = some minus then -n else n
    if -2 ^ 63 ≤ v ∧ v < 2 ^ 63 then some v else none

/-- The field of `ping`, and of the pong in its answer. -/
def pingRest (networkid : UInt64) : List Bytes := [encodeString (decimal networkid.toNat ++ [tab])]

def findnodeRest (strictNodeCheck : Bool) : List Bytes :=
  [encodeString (decimal (if strictNodeCheck then 1 else 0))]

def processRestInPingPong (rest : List Bytes) (networkid : UInt64) : NodeType :=
  let network_id := match rest with
    | [] => 0
    | r :: _ => ((atoi (r.tail.takeWhile (· ≠ tab))).map UInt64.ofInt).getD 0
  if network_id = networkid then .brother else if network_id ≠ 0 then .alien else .unknown

/-- What `findnode.handle` searches for. -/
def findnodeMatchType : List Bytes → MatchType
  | [] => .eitherUncleAndBrother
  | r :: _ => if atoi r.tail = some 1 then .brotherOnly else .eitherUncleAndBrother

theorem atoi_decimal (n : ℕ) : atoi (decimal n) = if n < 2 ^ 63 then some (n : ℤ) else none := by
  have hsign : ∀ b : UInt8, b.toNat < 48 → (decimal n).head? ≠ some b := fun b hb hhead => by
    have := mem_decimal (mem_of_mem_head? hhead)
    omega
  have hdigits : ¬ (decimal n = [] ∨ ∃ b ∈ decimal n, b.toNat < 48 ∨ 57 < b.toNat) := by
    rintro (hnil | ⟨b, hb, hlt⟩)
    · exact Nat.toDigits_ne_nil (map_eq_nil_iff.mp hnil)
    · have := mem_decimal hb
      omega
  rw [atoi, if_neg (not_or.mpr ⟨hsign minus (by decide), hsign plus (by decide)⟩)]
  dsimp only
  rw [if_neg hdigits, if_neg (hsign minus (by decide)), foldl_decimal]
  refine if_congr ?_ rfl rfl
  omega

theorem tail_encodeString {s : Bytes} (h : 1 < s.length) (hlong : s.length < 56) :
    (encodeString s).tail = s := by
  unfold encodeString
  split
  · cases h.ne rfl
  · rw [if_pos hlong, tail_cons]

theorem network_id_read (a : UInt64) : (encodeString (decimal a.toNat ++ [tab])).tail.takeWhile
    (· ≠ tab) = decimal a.toNat := by
  have hlength : (decimal a.toNat).length ≤ 20 := by
    rw [decimal, length_map]
    exact (Nat.length_toDigits_le_iff (by decide) (by decide)).mpr (lt_trans a.toNat_lt (by decide))
  have hpos : 0 < (decimal a.toNat).length := by
    rw [decimal, length_map]
    exact Nat.length_toDigits_pos
  rw [tail_encodeString (by simpa using hpos) (by simp; omega)]
  rw [takeWhile_append_of_pos, takeWhile_cons_of_neg (by simp), append_nil]
  intro b hb
  have := (mem_decimal hb).1
  simpa using fun h : b = tab => absurd (h ▸ this) (by decide)

/-- **Ids up to the largest `int` are read right, and of the flags only that which is not set**:
the text of a flag is its own encoding, and nothing is left of it. -/
theorem rest_read_iff (a b : UInt64) (ha : a ≠ 0) (hb : b ≠ 0) :
    (processRestInPingPong (pingRest a) b = (if a = b then .brother else .alien) ↔
      a.toNat < 2 ^ 63) ∧
    ∀ strict, (findnodeMatchType (findnodeRest strict) = .brotherOnly ↔ strict = true) ↔
      strict = false := by
  refine ⟨?_, by decide⟩
  unfold processRestInPingPong pingRest
  dsimp only
  rw [network_id_read, atoi_decimal]
  by_cases hlt : a.toNat < 2 ^ 63
  · have hread : UInt64.ofInt (a.toNat : ℤ) = a := by
      rw [UInt64.ofInt, Int.emod_eq_of_lt (by omega) (by omega), Int.toNat_natCast,
        UInt64.ofNat_toNat]
    rw [if_pos hlt, Option.map_some, Option.getD_some, hread, if_pos ha]
    exact iff_of_true rfl hlt
  · rw [if_neg hlt, Option.map_none, Option.getD_none, if_neg hb.symm, if_neg (not_not_intro rfl)]
    refine iff_of_false ?_ hlt
    split_ifs <;> nofun

theorem rest_read_mainnet : processRestInPingPong (pingRest 99) 99 = .brother :=
  (rest_read_iff 99 99 (by decide) (by decide)).1.mpr (by decide)

theorem rest_not_read : processRestInPingPong (pingRest 9223372036854775808) 9223372036854775808 =
      .unknown ∧ findnodeMatchType (findnodeRest true) = .eitherUncleAndBrother := by
  decide

end XChain.Discover.Rest
