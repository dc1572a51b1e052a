import XChain.Lib.Word
import XChain.Sentinel.Event

/-!
# Minting on the target chain

`commitTokenMints` submits a mint (or a withdrawal) for the events recorded in xevents from the
watermark on, up to `MintBatchSize` of them. It then waits until the watermark has moved by the
number of submissions without an error. The code looks at amounts and balances through `Int64()` and
`Uint64()`, and computes the nonce of each event in `int64`.

* **`mintsQueue_iff`**: without failures the call submits the events that are due, and reports an
  empty account only if it is, exactly if no amount and no balance is hidden by the truncation;
* **`mintsPrefix_iff`**: the submissions that succeed are those of the first nonces, and the awaited
  watermark is reached, exactly if no submission succeeds after one that failed;
* **`mintQueries_le_iff`**: when the wait makes at most 21 queries.
-/

namespace XChain

open List Option Word64 GoText
open Word64 (add bigInt64 low ofInt size toInt64)

def mintBatchSize : ℕ := 30

def uint256Size : ℕ := 2 ^ 256

/-- The contents of xevents for one vault and token mapping: the event recorded for a nonce. -/
structure RecordedEvents where
  event : ℕ → Option VaultEvent
  nonce_eq : ∀ n e, event n = some e → e.nonce = n
  amount_nonneg : ∀ n e, event n = some e → 0 ≤ e.amount

/-- The watermark, turn and transactor, the balance, the reads and the submissions. -/
structure MintAnswers where
  watermark : Option ℕ
  myTurn : Bool
  transactor : Bool
  balance : Option ℕ
  reads : ℕ → Bool
  submits : ℕ → Bool

/-- What a call did: whether it reported an account without balance, its submissions with their
success, and its counters. -/
structure MintCall where
  noBalance : Bool
  attempts : List (VaultEvent × Bool)
  committed : ℕ
  errors : ℕ
deriving DecidableEq

/-- The nonce that is read in round `i`: `big.NewInt(waterMark.Int64()+i)`, as a `uint256`. -/
def mintNonce (waterMark i : ℕ) : ℕ :=
  (Int.bmod (bigInt64 waterMark + i) size % uint256Size).toNat

section Call

variable (x : RecordedEvents) (a : MintAnswers)

/-- Round `i`: the event and its submission; a read error leaves an event without amount. -/
def mintAttempt (waterMark i : ℕ) : Option (VaultEvent × Bool) :=
  if a.reads i then
    (x.event (mintNonce waterMark i)).bind fun e =>
      if bigInt64 e.amount = 0 then none else some (e, a.submits i)
  else none

/-- The loop of `commitTokenMints`, which ends early where a mint cannot be attempted. -/
def mintLoop (waterMark : ℕ) : ℕ → ℕ → MintCall → MintCall
  | 0, _, c => c
  | rounds + 1, i, c =>
    match mintAttempt x a waterMark i with
    | none => c
    | some (e, true) => mintLoop waterMark rounds (i + 1)
        { c with attempts := c.attempts ++ [(e, true)], committed := add c.committed 1 }
    | some (e, false) => mintLoop waterMark rounds (i + 1)
        { c with attempts := c.attempts ++ [(e, false)], errors := add c.errors 1 }

/-- `commitTokenMints` up to the wait. -/
def commitTokenMints : MintCall :=
  match a.watermark with
  | none => ⟨false, [], 0, 0⟩
  | some waterMark =>
    if !a.myTurn then ⟨false, [], 0, 0⟩
    else if !a.transactor then ⟨false, [], 0, 0⟩
    else match a.balance with
      | none => ⟨false, [], 0, 0⟩
      | some balance =>
        if low balance = 0 then ⟨true, [], 0, 0⟩
        else mintLoop x a waterMark mintBatchSize 0 ⟨false, [], 0, 0⟩

end Call

/-- How a round of the wait for the watermark ends. -/
inductive MintWait
  | nothing
  | failed
  | reached
  | timeOut
  | newConfig
  | again
deriving DecidableEq

/-- One round of the wait, after `wait` rounds: the watermark that is read, and what the
configuration channel holds. -/
def mintWaitRound (configVersion waterMarkBefore committed wait : ℕ) (waterMark : Option ℕ)
    (newVersion : Option ℕ) : MintWait :=
  if committed = 0 then .nothing
  else match waterMark with
    | none => .failed
    | some waterMark =>
      if low waterMark = add (low waterMarkBefore) committed then .reached
      else if 20 < wait + 1 then .timeOut
      else if newVersion.any fun v => decide (configVersion < v) then .newConfig
      else .again

/-- The watermark of a vault that accepts nonces only in order. -/
def acceptInOrder (waterMark : ℕ) (nonces : List ℤ) : ℕ :=
  nonces.foldl (fun (w : ℕ) (n : ℤ) => if n = w then w + 1 else w) waterMark

def amountEvent (amount nonce : ℕ) : VaultEvent :=
  let address : Address := .fill 0
  ⟨address, 0, address, 0, address, address, amount, nonce, 0, 0, 0⟩

def recordedAmounts (amounts : List ℕ) : RecordedEvents where
  event n := amounts[n]?.map fun amount => amountEvent amount n
  nonce_eq n e h := by
    obtain ⟨amount, -, rfl⟩ := map_eq_some_iff.mp h
    rfl
  amount_nonneg n e h := by
    obtain ⟨amount, -, rfl⟩ := map_eq_some_iff.mp h
    exact Int.natCast_nonneg amount

def answersFailing (balance : ℕ) (failing : List ℕ) : MintAnswers :=
  ⟨some 0, true, true, some balance, fun _ => true, fun i => !failing.contains i⟩

/-! ## The nonces that are read -/

theorem bigInt64_natCast (n : ℕ) : bigInt64 n = toInt64 (low n) := by
  unfold bigInt64 ofInt
  rw [if_neg (Int.not_lt.mpr (Int.natCast_nonneg n)), Int.natAbs_natCast]

theorem mintNonce_of_lt {w i : ℕ} (h : w + i < 2 ^ 63) : mintNonce w i = w + i := by
  rw [mintNonce, bigInt64_natCast]
  unfold Int.bmod toInt64 low uint256Size
  unfold size
  dsimp only
  split_ifs <;> omega

theorem mintNonce_of_eq {w i : ℕ} (hw : w < 2 ^ 63)
    (h : w + i = 2 ^ 63) : mintNonce w i = uint256Size - 2 ^ 63 := by
  rw [mintNonce, bigInt64_natCast]
  unfold Int.bmod toInt64 low uint256Size
  unfold size
  dsimp only
  split_ifs <;> omega

theorem low_mintNonce (w i : ℕ) : low (mintNonce w i) = low (w + i) := by
  rw [mintNonce, bigInt64_natCast]
  unfold Int.bmod toInt64 low uint256Size
  unfold size
  dsimp only
  split_ifs <;> omega

/-! ## The rounds of the loop -/

section Rounds

variable (x : RecordedEvents) (a : MintAnswers) (w : ℕ)

/-- The submissions of the rounds from `i` on. -/
def mintAttempts : ℕ → ℕ → List (VaultEvent × Bool)
  | 0, _ => []
  | rounds + 1, i =>
    match mintAttempt x a w i with
    | none => []
    | some attempt => attempt :: mintAttempts rounds (i + 1)

theorem length_mintAttempts_le : ∀ rounds i, (mintAttempts x a w rounds i).length ≤ rounds
  | 0, _ => le_rfl
  | rounds + 1, i => by
    unfold mintAttempts
    cases mintAttempt x a w i with
    | none => exact Nat.zero_le _
    | some attempt => exact Nat.succ_le_succ (length_mintAttempts_le rounds (i + 1))

theorem mintLoop_spec : ∀ (rounds i : ℕ) (c : MintCall), c.committed + rounds < size →
    (mintLoop x a w rounds i c).noBalance = c.noBalance ∧
      (mintLoop x a w rounds i c).attempts = c.attempts ++ mintAttempts x a w rounds i ∧
      (mintLoop x a w rounds i c).committed =
        c.committed + (mintAttempts x a w rounds i).countP (·.2)
  | 0, _, c, _ => ⟨rfl, (append_nil _).symm, rfl⟩
  | rounds + 1, i, c, hsize => by
    unfold mintLoop mintAttempts
    have hadd : add c.committed 1 = c.committed + 1 := Nat.mod_eq_of_lt (by omega)
    rcases mintAttempt x a w i with _ | ⟨e, _ | _⟩
    · exact ⟨rfl, (append_nil _).symm, rfl⟩
    · obtain ⟨hbalance, hattempts, hcommitted⟩ := mintLoop_spec rounds (i + 1)
        { c with attempts := c.attempts ++ [(e, false)], errors := add c.errors 1 }
        (by dsimp only; omega)
      refine ⟨hbalance, hattempts.trans (append_cons ..).symm, hcommitted.trans ?_⟩
      rw [countP_cons_of_neg (by simp)]
    · obtain ⟨hbalance, hattempts, hcommitted⟩ := mintLoop_spec rounds (i + 1)
        { c with attempts := c.attempts ++ [(e, true)], committed := add c.committed 1 }
        (by dsimp only; omega)
      refine ⟨hbalance, hattempts.trans (append_cons ..).symm, hcommitted.trans ?_⟩
      rw [countP_cons_of_pos (by simp)]
      dsimp only
      omega

variable {x a w}

theorem mintAttempt_eq_some {i : ℕ} {e : VaultEvent} {ok : Bool}
    (h : mintAttempt x a w i = some (e, ok)) :
    e.nonce = mintNonce w i ∧ ok = a.submits i := by
  obtain ⟨-, h⟩ := ite_none_right_eq_some.mp h
  obtain ⟨e', he, h⟩ := bind_eq_some_iff.mp h
  obtain ⟨-, h⟩ := ite_none_left_eq_some.mp h
  cases h
  exact ⟨x.nonce_eq _ _ he, rfl⟩

end Rounds

/-! ## The end of the event queue -/

section Queue

open Nat

variable (x : RecordedEvents)

def RecordedEvents.due (n : ℕ) : Bool := (x.event n).any fun e => decide (e.amount ≠ 0)

/-- The amount of the event recorded for a nonce is not zero as an `int64`. -/
def RecordedEvents.seen (n : ℕ) : Bool :=
  (x.event n).any fun e => decide (bigInt64 e.amount ≠ 0)

/-- The events due from the watermark on are submitted, up to the first nonce without one. -/
def MintsQueue (waterMark balance : ℕ) (r : MintCall) : Prop :=
  (r.noBalance = true ↔ balance = 0) ∧ (r.noBalance = false → ∃ k ≤ mintBatchSize,
    (∀ i < k, x.due (waterMark + i) = true) ∧
    (k < mintBatchSize → x.due (waterMark + k) = false) ∧
    r.attempts.map (·.1.nonce) = (List.range' waterMark k).map (Nat.cast : ℕ → ℤ))

/-- An event that is due has a nonce below `2 ^ 63` and an amount that is seen. -/
def VisibleFrom (waterMark i rounds : ℕ) : Prop :=
  ∀ j < rounds, (∀ k < j, x.due (waterMark + (i + k)) = true) →
    (x.due (waterMark + (i + j)) = true →
      waterMark + (i + j) < 2 ^ 63 ∧ x.seen (waterMark + (i + j)) = true) ∧
    (x.due (waterMark + (i + j)) = false → waterMark + (i + j) = 2 ^ 63 →
      x.seen (uint256Size - 2 ^ 63) = false)

/-- The truncated view of balance and amounts shows what they are. -/
def Visible (waterMark balance : ℕ) : Prop :=
  (balance = 0 ∨ low balance ≠ 0) ∧
    (low balance ≠ 0 → VisibleFrom x waterMark 0 mintBatchSize)

variable {x} {a : MintAnswers} {w : ℕ} {i rounds : ℕ}

theorem RecordedEvents.due_of_seen {n : ℕ} (h : x.seen n = true) : x.due n = true := by
  obtain ⟨e, he, hamount⟩ := Option.any_eq_true .. |>.mp h
  refine (Option.any_eq_true ..).mpr ⟨e, he, decide_eq_true fun hzero => ?_⟩
  have := of_decide_eq_true hamount
  rw [hzero] at this
  exact this rfl

theorem isSome_mintAttempt (hreads : ∀ i, a.reads i = true) (i : ℕ) :
    (mintAttempt x a w i).isSome = x.seen (mintNonce w i) := by
  unfold mintAttempt RecordedEvents.seen
  rw [if_pos (hreads i)]
  cases x.event (mintNonce w i) with
  | none => rfl
  | some e =>
    rw [bind_some, any_some]
    by_cases hamount : bigInt64 e.amount = 0
    · simp [hamount]
    · simp [hamount]

variable (x w) in
def SubmitsDue (i rounds : ℕ) (attempts : List (VaultEvent × Bool)) : Prop :=
  ∃ k ≤ rounds, (∀ j < k, x.due (w + (i + j)) = true) ∧
    (k < rounds → x.due (w + (i + k)) = false) ∧
    attempts.map (·.1.nonce) = (List.range' (w + i) k).map (Nat.cast : ℕ → ℤ)

theorem submitsDue_nil : SubmitsDue x w i (rounds + 1) [] ↔ x.due (w + i) = false := by
  constructor
  · rintro ⟨k, -, -, hend, hnonces⟩
    cases k with
    | zero => exact hend (succ_pos _)
    | succ k => cases hnonces
  · intro hdue
    exact ⟨0, zero_le _, fun j hj => absurd hj (not_lt_zero j), fun _ => hdue, rfl⟩

theorem submitsDue_cons {attempt : VaultEvent × Bool} {attempts : List (VaultEvent × Bool)} :
    SubmitsDue x w i (rounds + 1) (attempt :: attempts) ↔
      x.due (w + i) = true ∧ attempt.1.nonce = (w + i : ℕ) ∧
        SubmitsDue x w (i + 1) rounds attempts := by
  constructor
  · rintro ⟨k, hk, hdue, hend, hnonces⟩
    cases k with
    | zero => cases hnonces
    | succ k =>
      rw [range'_succ, map_cons, map_cons, cons.injEq] at hnonces
      refine ⟨hdue 0 (succ_pos k), hnonces.1, k, le_of_succ_le_succ hk, fun j hj => ?_,
        fun hlt => ?_, hnonces.2⟩
      · rw [succ_add_eq_add_succ]
        exact hdue (j + 1) (succ_lt_succ hj)
      · rw [succ_add_eq_add_succ]
        exact hend (succ_lt_succ hlt)
  · rintro ⟨hdue, hnonce, k, hk, hrest, hend, hnonces⟩
    refine ⟨k + 1, succ_le_succ hk, fun j hj => ?_, fun hlt => ?_, ?_⟩
    · cases j with
      | zero => exact hdue
      | succ j =>
        rw [← succ_add_eq_add_succ]
        exact hrest j (lt_of_succ_lt_succ hj)
    · rw [← succ_add_eq_add_succ]
      exact hend (lt_of_succ_lt_succ hlt)
    · rw [range'_succ, map_cons, map_cons, hnonce, hnonces]
      rfl

theorem visibleFrom_succ :
    VisibleFrom x w i (rounds + 1) ↔
      (x.due (w + i) = true → w + i < 2 ^ 63 ∧ x.seen (w + i) = true ∧
        VisibleFrom x w (i + 1) rounds) ∧
      (x.due (w + i) = false → w + i = 2 ^ 63 →
        x.seen (uint256Size - 2 ^ 63) = false) := by
  constructor
  · intro h
    obtain ⟨hdue, hend⟩ := h 0 (succ_pos _) fun k hk => absurd hk (not_lt_zero k)
    refine ⟨fun hd => ⟨(hdue hd).1, (hdue hd).2, fun j hj hbefore => ?_⟩, hend⟩
    rw [succ_add_eq_add_succ]
    refine h (j + 1) (succ_lt_succ hj) fun k hk => ?_
    cases k with
    | zero => exact hd
    | succ k =>
      rw [← succ_add_eq_add_succ]
      exact hbefore k (lt_of_succ_lt_succ hk)
  · rintro ⟨hdue, hend⟩ j hj hbefore
    cases j with
    | zero => exact ⟨fun hd => ⟨(hdue hd).1, (hdue hd).2.1⟩, hend⟩
    | succ j =>
      have hd := hbefore 0 (succ_pos _)
      rw [← succ_add_eq_add_succ]
      refine (hdue hd).2.2 j (lt_of_succ_lt_succ hj) fun k hk => ?_
      rw [succ_add_eq_add_succ]
      exact hbefore (k + 1) (succ_lt_succ hk)

theorem submitsDue_iff (hw : w < 2 ^ 63) (hreads : ∀ i, a.reads i = true) :
    ∀ (rounds i : ℕ), w + i ≤ 2 ^ 63 →
      (SubmitsDue x w i rounds (mintAttempts x a w rounds i) ↔ VisibleFrom x w i rounds)
  | 0, i, _ => by
    refine iff_of_true ⟨0, le_rfl, ?_, ?_, rfl⟩ ?_
    · exact fun j hj => absurd hj (not_lt_zero j)
    · exact fun hlt => absurd hlt (lt_irrefl 0)
    · exact fun j hj => absurd hj (not_lt_zero j)
  | rounds + 1, i, hi => by
    have hsome := isSome_mintAttempt (x := x) (w := w) hreads i
    rw [visibleFrom_succ]
    unfold mintAttempts
    rcases hattempt : mintAttempt x a w i with _ | ⟨e, ok⟩
    · -- the loop ends: right only if nothing is due
      rw [hattempt] at hsome
      rw [submitsDue_nil]
      rcases lt_or_eq_of_le hi with hlt | heq
      · rw [mintNonce_of_lt hlt] at hsome
        constructor
        · intro hdue
          refine ⟨fun hd => ?_, fun _ heq => absurd heq hlt.ne⟩
          rw [hdue] at hd
          cases hd
        · rintro ⟨hdue, -⟩
          cases hd : x.due (w + i) with
          | false => rfl
          | true => cases hsome.trans (hdue hd).2.1
      · rw [mintNonce_of_eq hw heq] at hsome
        constructor
        · intro hdue
          refine ⟨fun hd => ?_, fun _ _ => hsome.symm⟩
          rw [hdue] at hd
          cases hd
        · rintro ⟨hdue, -⟩
          cases hd : x.due (w + i) with
          | false => rfl
          | true => exact absurd (hdue hd).1 (heq ▸ lt_irrefl _)
    · rw [hattempt] at hsome
      have hnonce := (mintAttempt_eq_some hattempt).1
      rw [submitsDue_cons]
      rcases lt_or_eq_of_le hi with hlt | heq
      · rw [mintNonce_of_lt hlt] at hsome hnonce
        have hd := x.due_of_seen hsome.symm
        rw [submitsDue_iff hw hreads rounds (i + 1) hlt]
        constructor
        · rintro ⟨-, -, hrest⟩
          refine ⟨fun _ => ⟨hlt, hsome.symm, hrest⟩, fun hno => ?_⟩
          exact absurd (hd.symm.trans hno) (by decide)
        · rintro ⟨hdue, -⟩
          exact ⟨hd, hnonce, (hdue hd).2.2⟩
      · -- the nonce that is read is another one
        rw [mintNonce_of_eq hw heq] at hsome hnonce
        refine iff_of_false ?_ ?_
        · rintro ⟨-, hnonce', -⟩
          rw [hnonce', heq] at hnonce
          exact absurd hnonce (by decide)
        · rintro ⟨hdue, hend⟩
          cases hd : x.due (w + i) with
          | true => exact absurd (hdue hd).1 (heq ▸ lt_irrefl _)
          | false =>
            rw [hend hd heq] at hsome
            cases hsome

/-- **The queue is minted up to its end exactly if nothing is hidden.** -/
theorem mintsQueue_iff {balance : ℕ} (hw : w < 2 ^ 63) (hwater : a.watermark = some w)
    (hturn : a.myTurn = true) (htransactor : a.transactor = true)
    (hbalance : a.balance = some balance) (hreads : ∀ i, a.reads i = true) :
    MintsQueue x w balance (commitTokenMints x a) ↔ Visible x w balance := by
  unfold MintsQueue Visible commitTokenMints
  rw [hwater, hturn, htransactor, hbalance]
  dsimp only
  rw [if_neg (by decide), if_neg (by decide)]
  by_cases hzero : low balance = 0
  · simp [hzero]
  · rw [if_neg hzero]
    have hpos : balance ≠ 0 := fun h => hzero (by rw [h]; rfl)
    obtain ⟨hnot, hattempts, -⟩ := mintLoop_spec x a w mintBatchSize 0 ⟨false, [], 0, 0⟩ (by decide)
    rw [hnot, hattempts, nil_append]
    have hiff := submitsDue_iff (x := x) hw hreads mintBatchSize 0 hw.le
    unfold SubmitsDue at hiff
    simp only [Nat.zero_add, Nat.add_zero] at hiff
    simp only [hzero, hpos, hiff, ne_eq, not_false_eq_true, forall_const, or_true, true_and,
      Bool.false_eq_true]

theorem mintsQueue_two :
    MintsQueue (recordedAmounts [5, 7]) 0 1
      (commitTokenMints (recordedAmounts [5, 7]) (answersFailing 1 [])) := by
  refine (mintsQueue_iff (by decide) rfl rfl rfl rfl fun _ => rfl).mpr ?_
  unfold Visible VisibleFrom
  decide +kernel

/-- An amount of `2 ^ 64` ends the queue in front of the event behind it, and a balance of `2 ^ 64`
is reported as none. -/
theorem amount_hidden :
    ¬ MintsQueue (recordedAmounts [2 ^ 64, 7]) 0 1
        (commitTokenMints (recordedAmounts [2 ^ 64, 7]) (answersFailing 1 [])) ∧
      ¬ MintsQueue (recordedAmounts [5, 7]) 0 (2 ^ 64)
        (commitTokenMints (recordedAmounts [5, 7]) (answersFailing (2 ^ 64) [])) := by
  constructor
  · rintro ⟨-, h⟩
    obtain ⟨k, -, -, hend, hnonces⟩ := h (by decide +kernel)
    have hnone : (commitTokenMints (recordedAmounts [2 ^ 64, 7])
      (answersFailing 1 [])).attempts = [] := by decide +kernel
    cases k with
    | zero => exact absurd (hend (by decide)) (by decide +kernel)
    | succ k => cases hnonces
  · rintro ⟨h, -⟩
    exact absurd (h.mp (by decide +kernel)) (by decide)

end Queue

/-! ## Submissions that fail -/

section Failures

def succeeded (attempts : List (VaultEvent × Bool)) : List ℤ :=
  (attempts.filter (·.2)).map (·.1.nonce)

/-- A nonce succeeds after all before it, and the awaited watermark is reached. -/
def MintsPrefix (waterMark : ℕ) (r : MintCall) : Prop :=
  (∀ n ∈ succeeded r.attempts, ∀ m : ℤ, waterMark ≤ m → m < n → m ∈ succeeded r.attempts) ∧
    (r.committed ≠ 0 → ∀ configVersion wait newVersion,
      mintWaitRound configVersion waterMark r.committed wait
        (some (acceptInOrder waterMark (succeeded r.attempts))) newVersion = .reached)

def MintAnswers.enters (a : MintAnswers) : Bool :=
  a.myTurn && a.transactor && a.balance.any fun balance => decide (low balance ≠ 0)

variable (x : RecordedEvents) (a : MintAnswers) (w : ℕ)

/-- A submission succeeds only if all before it did, and reads its own nonce. -/
def OrderedFrom (i rounds : ℕ) : Prop :=
  ∀ j < rounds, (∀ k ≤ j, (mintAttempt x a w (i + k)).isSome = true) → a.submits (i + j) = true →
    (∀ k < j, a.submits (i + k) = true) ∧ mintNonce w (i + j) = w + (i + j)

/-- No submission succeeds after one that failed, and the nonces are those behind the watermark. -/
def SubmitsInOrder : Prop := OrderedFrom x a w 0 mintBatchSize

variable {x a w} {rounds i : ℕ}

theorem reached_succ {i j : ℕ} (h : (mintAttempt x a w i).isSome = true) :
    (∀ k ≤ j, (mintAttempt x a w (i + 1 + k)).isSome = true) ↔
      ∀ k ≤ j + 1, (mintAttempt x a w (i + k)).isSome = true := by
  constructor
  · rintro hlater (_ | k) hk
    · exact h
    · rw [← Nat.succ_add_eq_add_succ]
      exact hlater k (Nat.le_of_succ_le_succ hk)
  · intro hall k hk
    rw [Nat.succ_add_eq_add_succ]
    exact hall (k + 1) (Nat.succ_le_succ hk)

theorem mem_succeeded : ∀ {rounds i : ℕ} {n : ℤ},
    n ∈ succeeded (mintAttempts x a w rounds i) ↔ ∃ j < rounds,
      (∀ k ≤ j, (mintAttempt x a w (i + k)).isSome = true) ∧ a.submits (i + j) = true ∧
        n = mintNonce w (i + j)
  | 0, i, n => by simp [mintAttempts, succeeded]
  | rounds + 1, i, n => by
    unfold mintAttempts
    rcases hattempt : mintAttempt x a w i with _ | ⟨e, ok⟩
    · refine iff_of_false not_mem_nil ?_
      rintro ⟨j, -, hsome, -⟩
      have := hsome 0 (Nat.zero_le j)
      rw [Nat.add_zero, hattempt] at this
      cases this
    · obtain ⟨hnonce, rfl⟩ := mintAttempt_eq_some hattempt
      have htail : n ∈ succeeded (mintAttempts x a w rounds (i + 1)) ↔ ∃ j < rounds,
          (∀ k ≤ j + 1, (mintAttempt x a w (i + k)).isSome = true) ∧
            a.submits (i + (j + 1)) = true ∧ n = mintNonce w (i + (j + 1)) := by
        rw [mem_succeeded]
        refine exists_congr fun j => and_congr_right fun _ => ?_
        rw [Nat.succ_add_eq_add_succ, reached_succ (hattempt ▸ rfl)]
      have hhead : n ∈ succeeded ((e, a.submits i) :: mintAttempts x a w rounds (i + 1)) ↔
          (a.submits i = true ∧ n = mintNonce w i) ∨
            n ∈ succeeded (mintAttempts x a w rounds (i + 1)) := by
        unfold succeeded
        cases hok : a.submits i with
        | false => simp
        | true => simp [hnonce]
      rw [hhead, htail]
      constructor
      · rintro (⟨hok, hn⟩ | ⟨j, hj, h⟩)
        · refine ⟨0, Nat.succ_pos _, fun k hk => ?_, hok, hn⟩
          rw [Nat.le_zero.mp hk, Nat.add_zero, hattempt]
          rfl
        · exact ⟨j + 1, Nat.succ_lt_succ hj, h⟩
      · rintro ⟨j, hj, hsome, hok, hn⟩
        cases j with
        | zero => exact .inl ⟨hok, hn⟩
        | succ j => exact .inr ⟨j, Nat.lt_of_succ_lt_succ hj, hsome, hok, hn⟩

theorem mintNonce_ne {i j rounds : ℕ} (hj : j < rounds) (hrounds : rounds < size) :
    mintNonce w (i + 1 + j) ≠ w + i := by
  intro heq
  have hlow := low_mintNonce w (i + 1 + j)
  rw [heq] at hlow
  unfold low at hlow
  unfold size at hlow hrounds
  omega

theorem acceptInOrder_le (nonces : List ℤ) : ∀ w, w ≤ acceptInOrder w nonces ∧
    acceptInOrder w nonces ≤ w + nonces.length := by
  induction nonces with
  | nil => exact fun w => ⟨le_rfl, le_rfl⟩
  | cons n nonces ih =>
    intro w
    have hstep : acceptInOrder w (n :: nonces) =
      acceptInOrder (if n = w then w + 1 else w) nonces := rfl
    rw [hstep, length_cons]
    obtain ⟨hge, hle⟩ := ih (if n = w then w + 1 else w)
    split_ifs at hge hle ⊢ <;> omega

theorem acceptInOrder_eq_iff : ∀ {nonces : List ℤ} {w : ℕ},
    acceptInOrder w nonces = w + nonces.length ↔
      nonces = (List.range' w nonces.length).map (Nat.cast : ℕ → ℤ)
  | [], _ => by simp [acceptInOrder]
  | n :: nonces, w => by
    have hstep : acceptInOrder w (n :: nonces) =
      acceptInOrder (if n = w then w + 1 else w) nonces := rfl
    rw [hstep, length_cons, range'_succ, map_cons, cons.injEq]
    by_cases hn : n = w
    · rw [if_pos hn, ← acceptInOrder_eq_iff, and_iff_right hn]
      omega
    · rw [if_neg hn]
      have hle := (acceptInOrder_le nonces w).2
      exact iff_of_false (by omega) fun h => hn h.1

theorem orderedFrom_of_empty (h : succeeded (mintAttempts x a w rounds i) = []) :
    OrderedFrom x a w i rounds := by
  intro j hj hsome hok
  have hmem := mem_succeeded.mpr ⟨j, hj, hsome, hok, rfl⟩
  rw [h] at hmem
  cases hmem

theorem orderedFrom_succ (hsome : (mintAttempt x a w i).isSome = true) (hok : a.submits i = true) :
    OrderedFrom x a w i (rounds + 1) ↔
      mintNonce w i = w + i ∧ OrderedFrom x a w (i + 1) rounds := by
  constructor
  · intro h
    refine ⟨(h 0 (Nat.succ_pos _) (fun k hk => ?_) hok).2, fun j hj hlater hlast => ?_⟩
    · rw [Nat.le_zero.mp hk]
      exact hsome
    · rw [Nat.succ_add_eq_add_succ] at hlast ⊢
      obtain ⟨hall, hnonce⟩ :=
        h (j + 1) (Nat.succ_lt_succ hj) ((reached_succ hsome).mp hlater) hlast
      refine ⟨fun k hk => ?_, by omega⟩
      rw [Nat.succ_add_eq_add_succ]
      exact hall (k + 1) (Nat.succ_lt_succ hk)
  · rintro ⟨hnonce, h⟩ j hj hall hlast
    cases j with
    | zero => exact ⟨fun k hk => absurd hk (Nat.not_lt_zero k), hnonce⟩
    | succ j =>
      have hshift : i + (j + 1) = i + 1 + j := (Nat.succ_add_eq_add_succ i j).symm
      rw [hshift] at hlast ⊢
      obtain ⟨hrest, hnonce'⟩ :=
        h j (Nat.lt_of_succ_lt_succ hj) ((reached_succ hsome).mpr hall) hlast
      refine ⟨?_, hnonce'⟩
      rintro (_ | k) hk
      · exact hok
      · rw [← Nat.succ_add_eq_add_succ]
        exact hrest k (Nat.lt_of_succ_lt_succ hk)

theorem orderedFrom_iff : ∀ {rounds i : ℕ}, rounds < size →
    (succeeded (mintAttempts x a w rounds i) = (range' (w + i)
        (succeeded (mintAttempts x a w rounds i)).length).map (Nat.cast : ℕ → ℤ) ↔
      OrderedFrom x a w i rounds)
  | 0, i, _ => iff_of_true rfl (orderedFrom_of_empty rfl)
  | rounds + 1, i, hrounds => by
    have hempty : succeeded (mintAttempts x a w (rounds + 1) i) = [] →
      OrderedFrom x a w i (rounds + 1) := orderedFrom_of_empty
    unfold mintAttempts at hempty ⊢
    rcases hattempt : mintAttempt x a w i with _ | ⟨e, ok⟩
    · rw [hattempt] at hempty
      exact iff_of_true rfl (hempty rfl)
    · rw [hattempt] at hempty
      obtain ⟨hnonce, hsubmits⟩ := mintAttempt_eq_some hattempt
      cases ok with
      | true =>
        have hcons : succeeded ((e, true) :: mintAttempts x a w rounds (i + 1)) =
          e.nonce :: succeeded (mintAttempts x a w rounds (i + 1)) := rfl
        rw [orderedFrom_succ (hattempt ▸ rfl) hsubmits.symm, hcons, length_cons,
          range'_succ, map_cons, cons.injEq, hnonce,
          ← orderedFrom_iff (Nat.lt_of_succ_lt hrounds)]
        exact and_congr_left fun _ => by omega
      | false =>
        -- a success in a later round leaves out this nonce
        have hcons : succeeded ((e, false) :: mintAttempts x a w rounds (i + 1)) =
          succeeded (mintAttempts x a w rounds (i + 1)) := rfl
        rw [hcons] at hempty ⊢
        rcases hlater : succeeded (mintAttempts x a w rounds (i + 1)) with _ | ⟨n, rest⟩
        · exact iff_of_true rfl (hempty hlater)
        · obtain ⟨j, hj, hsome, hok, hn⟩ := mem_succeeded.mp (hlater ▸ mem_cons_self : n ∈ _)
          refine iff_of_false (fun heq => ?_) fun h => ?_
          · rw [length_cons, range'_succ, map_cons, cons.injEq, hn] at heq
            exact mintNonce_ne hj (Nat.lt_of_succ_lt hrounds) (by exact_mod_cast heq.1)
          · rw [Nat.succ_add_eq_add_succ] at hok
            have hreached := (reached_succ (hattempt ▸ rfl)).mp hsome
            have hfirst := (h (j + 1) (Nat.succ_lt_succ hj) hreached hok).1 0 (Nat.succ_pos _)
            exact absurd (hsubmits.trans hfirst) (by decide)

theorem length_succeeded (attempts : List (VaultEvent × Bool)) :
    (succeeded attempts).length = attempts.countP (·.2) := by
  rw [succeeded, length_map, countP_eq_length_filter]

theorem mintWaitRound_reached {committed configVersion wait : ℕ} {newVersion : Option ℕ}
    {nonces : List ℤ} (hlength : nonces.length = committed) (hpos : committed ≠ 0)
    (hsize : committed < size) :
    mintWaitRound configVersion w committed wait (some (acceptInOrder w nonces)) newVersion =
      .reached ↔ acceptInOrder w nonces = w + committed := by
  have hbounds := acceptInOrder_le nonces w
  have hiff : low (acceptInOrder w nonces) = add (low w) committed ↔
      acceptInOrder w nonces = w + committed := by
    unfold low add
    unfold size at hsize ⊢
    omega
  unfold mintWaitRound
  dsimp only
  rw [if_neg hpos, ← hiff]
  by_cases h : low (acceptInOrder w nonces) = add (low w) committed
  · rw [if_pos h]
    exact iff_of_true rfl h
  · refine iff_of_false (fun hreached => ?_) h
    split_ifs at hreached

theorem mem_range'_cast {w k : ℕ} {m : ℤ} :
    m ∈ (List.range' w k).map (Nat.cast : ℕ → ℤ) ↔ w ≤ m ∧ m < w + k := by
  rw [List.mem_map]
  constructor
  · rintro ⟨n, hn, rfl⟩
    rw [mem_range'_1] at hn
    omega
  · rintro ⟨hge, hlt⟩
    exact ⟨m.toNat, mem_range'_1.mpr (by omega), by omega⟩

theorem mintsPrefix_iff_range {r : MintCall}
    (hcommitted : (succeeded r.attempts).length = r.committed) (hsize : r.committed < size) :
    MintsPrefix w r ↔ succeeded r.attempts =
      (List.range' w (succeeded r.attempts).length).map (Nat.cast : ℕ → ℤ) := by
  constructor
  · rintro ⟨-, hreached⟩
    by_cases hzero : r.committed = 0
    · rw [hcommitted, hzero]
      exact eq_nil_of_length_eq_zero (hcommitted.trans hzero)
    · have := (mintWaitRound_reached hcommitted hzero hsize).mp (hreached hzero 0 0 none)
      rw [← hcommitted] at this
      exact acceptInOrder_eq_iff.mp this
  · intro heq
    refine ⟨fun n hn m hge hlt => ?_, fun hzero configVersion wait newVersion => ?_⟩
    · rw [heq, mem_range'_cast] at hn ⊢
      omega
    · refine (mintWaitRound_reached hcommitted hzero hsize).mpr ?_
      rw [acceptInOrder_eq_iff.mpr heq, hcommitted]

/-- **The submissions form a run from the watermark exactly if none succeeds behind a failure.** -/
theorem mintsPrefix_iff (hwater : a.watermark = some w) :
    MintsPrefix w (commitTokenMints x a) ↔ (a.enters = true → SubmitsInOrder x a w) := by
  have hquiet : ∀ noBalance, MintsPrefix w ⟨noBalance, [], 0, 0⟩ := fun noBalance =>
    (mintsPrefix_iff_range rfl (show 0 < size by decide)).mpr rfl
  unfold commitTokenMints MintAnswers.enters
  rw [hwater]
  dsimp only
  cases a.myTurn with
  | false => exact iff_of_true (hquiet false) fun h => absurd h (by simp)
  | true =>
    cases a.transactor with
    | false => exact iff_of_true (hquiet false) fun h => absurd h (by simp)
    | true =>
      rw [if_neg (by decide), if_neg (by decide)]
      cases a.balance with
      | none => exact iff_of_true (hquiet false) fun h => absurd h (by simp)
      | some balance =>
        by_cases hzero : low balance = 0
        · dsimp only
          rw [if_pos hzero]
          exact iff_of_true (hquiet true) fun h => absurd h (by simp [hzero])
        · dsimp only
          rw [if_neg hzero]
          obtain ⟨-, hattempts, hcommitted⟩ :=
            mintLoop_spec x a w mintBatchSize 0 ⟨false, [], 0, 0⟩ (by decide)
          rw [nil_append] at hattempts
          rw [Nat.zero_add, ← length_succeeded, ← hattempts] at hcommitted
          have hlength := length_mintAttempts_le x a w mintBatchSize 0
          rw [mintsPrefix_iff_range hcommitted.symm, hattempts]
          · have hiff := orderedFrom_iff (x := x) (a := a) (w := w) (i := 0)
              (by decide : mintBatchSize < size)
            rw [Nat.add_zero] at hiff
            rw [hiff]
            simp [hzero, SubmitsInOrder]
          · rw [hcommitted, hattempts, length_succeeded]
            exact (countP_le_length.trans hlength).trans_lt (by decide)

theorem mintsPrefix_last_fails :
    MintsPrefix 0 (commitTokenMints (recordedAmounts [5, 7]) (answersFailing 1 [1])) := by
  refine (mintsPrefix_iff rfl).mpr fun _ => ?_
  unfold SubmitsInOrder OrderedFrom
  decide +kernel

/-- The first submission fails, and the vault never reaches the awaited watermark. -/
theorem first_fails :
    ¬ MintsPrefix 0 (commitTokenMints (recordedAmounts [5, 7]) (answersFailing 1 [0])) := by
  rintro ⟨h, -⟩
  have hsucceeded : succeeded (commitTokenMints (recordedAmounts [5, 7])
    (answersFailing 1 [0])).attempts = [1] := by decide +kernel
  rw [hsucceeded] at h
  have := h 1 mem_cons_self 0 (by decide) (by decide)
  exact absurd this (by decide)

end Failures

/-! ## The wait -/

section Wait

variable (version before committed : ℕ) (waterMark newVersion : ℕ → Option ℕ)

/-- The queries that the wait makes in so many rounds, from the `i`-th on after `wait` sleeps. -/
def mintQueries : ℕ → ℕ → ℕ → ℕ
  | 0, _, _ => 0
  | rounds + 1, i, wait =>
    match mintWaitRound version before committed wait (waterMark i) (newVersion i) with
    | .nothing => 0
    | .failed => mintQueries rounds (i + 1) wait + 1
    | .again => mintQueries rounds (i + 1) (wait + 1) + 1
    | .reached | .timeOut | .newConfig => 1

/-- The query finds the awaited watermark, or there is a newer version behind it. -/
def endsWait (i : ℕ) : Bool :=
  (waterMark i).any fun w => decide (low w = add (low before) committed) ||
    (newVersion i).any fun v => decide (version < v)

variable {version before committed waterMark newVersion}

theorem mintQueries_succ (hpos : committed ≠ 0) (rounds i wait : ℕ) :
    mintQueries version before committed waterMark newVersion (rounds + 1) i wait =
      if waterMark i = none then
        mintQueries version before committed waterMark newVersion rounds (i + 1) wait + 1
      else if endsWait version before committed waterMark newVersion i = true ∨ 20 < wait + 1 then 1
      else mintQueries version before committed waterMark newVersion rounds (i + 1) (wait + 1) +
        1 := by
  rw [mintQueries, mintWaitRound.eq_def, if_neg hpos, endsWait]
  cases waterMark i with
  | none => simp
  | some w =>
    dsimp only
    split_ifs <;> simp_all
    omega

theorem forall_mintQueries_le (hpos : committed ≠ 0) {n : ℕ} : ∀ {i wait : ℕ}, wait ≤ 20 →
    wait + n ≤ 21 →
    ((∀ rounds, mintQueries version before committed waterMark newVersion rounds i wait ≤ n) ↔
      (∃ j < n, endsWait version before committed waterMark newVersion (i + j) = true) ∨
        wait + n = 21 ∧ ∀ j < n, waterMark (i + j) ≠ none) := by
  induction n with
  | zero =>
    intro i wait hwait _
    refine iff_of_false (fun h => ?_) (by simp; omega)
    have := h 1
    rw [mintQueries_succ hpos] at this
    split_ifs at this <;> omega
  | succ n ih =>
    intro i wait hwait hsum
    rw [← Nat.and_forall_add_one, Nat.exists_lt_succ_left, Nat.forall_lt_succ_left]
    simp only [mintQueries_succ hpos]
    cases hw : waterMark i with
    | none =>
      have hrest := ih (i := i + 1) hwait (by omega)
      simp only [Nat.succ_add_eq_add_succ] at hrest
      simp [mintQueries, hw, endsWait, hrest]
      omega
    | some w =>
      cases hends : endsWait version before committed waterMark newVersion i with
      | true => simp [mintQueries]
      | false =>
        by_cases hout : 20 < wait + 1
        · obtain rfl : n = 0 := by omega
          simp [mintQueries, hout]
          omega
        · have hrest := ih (i := i + 1) (show wait + 1 ≤ 20 by omega) (by omega)
          simp only [Nat.succ_add_eq_add_succ] at hrest
          simp [mintQueries, hout, hrest]

/-- **The wait makes at most 21 queries** iff there is nothing to wait for, one of the first 21 ends
it, or none of them fails. -/
theorem mintQueries_le_iff :
    (∀ rounds, mintQueries version before committed waterMark newVersion rounds 0 0 ≤ 21) ↔
      committed = 0 ∨
        (∃ i < 21, endsWait version before committed waterMark newVersion i = true) ∨
        ∀ i < 21, waterMark i ≠ none := by
  by_cases hpos : committed = 0
  · refine iff_of_true (fun rounds => ?_) (.inl hpos)
    cases rounds <;> simp [mintQueries, mintWaitRound, hpos]
  · rw [forall_mintQueries_le hpos (by omega) (by omega)]
    simp [hpos]

/-- **A vault that does not answer is asked again and again.** -/
theorem mintQueries_unanswered :
    ¬ ∀ rounds, mintQueries 1 0 1 (fun _ => none) (fun _ => none) rounds 0 0 ≤ 21 :=
  fun h => absurd (h 22) (by decide)

end Wait

end XChain
