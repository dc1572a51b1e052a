import XChain.Lib.Machine
import XChain.Sentinel.Scan

/-!
# The block ranges of one scan

One call of `scanVaultEvents`, with the ranges it queries and the `uint64` subtractions it evaluates
on record. The code guards none of the subtractions, and when the horizon is below the next block to
scan it moves back to the horizon.

* **`ScanCall.wellFormed_iff`**: a call is well formed exactly if the head of each round is sound.
-/

namespace XChain

open StepMachine List Option ScanPc Word64 GoText
open Word64 (add size sub sub_of_le)

structure ScanQuery where
  lastBlock : ℕ
  endBlock : ℕ
  head : ℕ
deriving DecidableEq

/-- A call: its control state, its queries, and the subtractions `a - b` it evaluated. -/
structure ScanCall where
  pc : ScanPc
  queried : List ScanQuery
  subtractions : List (ℕ × ℕ)

inductive ScanAct
  | query (configVersion : ℕ) (answers : ScanAnswers)
  | file
  | finish (batchNumber : ℕ)

/-- The head that is reported; the error of `BlockNumber` leaves a zero. -/
def ScanAct.head : ScanAct → ℕ
  | .query _ answers => answers.blockNumber.getD 0
  | _ => 0

def windowQueries (lastBlock lastCurrentBlock currentBlock : ℕ) : List ScanQuery :=
  match scanWindow lastBlock lastCurrentBlock currentBlock with
  | .range a b => [⟨a, b, currentBlock⟩]
  | _ => []

def endSubtraction (lastBlock scanHorizon : ℕ) : ℕ × ℕ :=
  if sub (add lastBlock scanRangeMulti) 1 ≤ scanHorizon then
    (add lastBlock scanRangeMulti, 1)
  else (add lastBlock scanRangeDouble, 1)

/-- The subtractions evaluated for a window, in the order of the source; the last one is logged. -/
def windowSubtractions (lastBlock lastCurrentBlock currentBlock : ℕ) : List (ℕ × ℕ) :=
  (if currentBlock = lastCurrentBlock then [(lastCurrentBlock, lastBlock)] else []) ++
    match scanWindow lastBlock lastCurrentBlock currentBlock with
    | .omitted => []
    | .tooShort => [(currentBlock, blockDelay)]
    | .range a b => [(currentBlock, blockDelay), (add lastBlock scanRangeMulti, 1),
        endSubtraction lastBlock (sub currentBlock blockDelay), (b, a)]

namespace ScanCall

def start (startBlock : ℕ) : ScanCall := ⟨.looping ⟨startBlock, startBlock, 0, 0⟩, [], []⟩

def asksHead (l : ScanLocal) (configVersion : ℕ) (answers : ScanAnswers) : Bool :=
  l.eventCount = 0 ∧ !answers.newVersion.any fun v => decide (configVersion < v)

section Step

variable (L : Imports) (vaultAddrFrom : Address)

def step (s : ScanCall) : ScanAct → Option ScanCall
  | .query configVersion answers => match s.pc with
    | .looping l => (s.pc.query configVersion answers).map fun pc =>
      if asksHead l configVersion answers then
        { pc := pc
          queried := s.queried ++
            windowQueries l.lastBlock l.lastCurrentBlock (answers.blockNumber.getD 0)
          subtractions := s.subtractions ++
            windowSubtractions l.lastBlock l.lastCurrentBlock (answers.blockNumber.getD 0) }
      else { s with pc := pc }
    | _ => none
  | .file => (s.pc.file L vaultAddrFrom).map fun r => { s with pc := r.1 }
  | .finish batchNumber => match s.pc with
    | .filing f => (s.pc.finish vaultAddrFrom batchNumber).map fun pc => { s with
        pc := pc
        subtractions := s.subtractions ++
          if f.rawBatch = [] then [(f.endBlock, f.startBlock)] else [] }
    | _ => none

end Step

def Adjacent : ℕ → List ScanQuery → Prop
  | _, [] => True
  | b, q :: qs => q.lastBlock = b ∧ Adjacent (q.endBlock + 1) qs

structure WellFormed (startBlock : ℕ) (s : ScanCall) : Prop where
  ranges : ∀ q ∈ s.queried, q.lastBlock ≤ q.endBlock ∧ q.endBlock + blockDelay ≤ q.head
  adjacent : Adjacent startBlock s.queried
  batch : ∀ b, s.pc = .returned b → b.startBlock ≤ b.endBlock ∧
    (b.batch = [] → maxEmptyBatchBlocks ≤ b.endBlock - b.startBlock)
  noWrap : ∀ p ∈ s.subtractions, p.2 ≤ p.1

/-- The head repeats within `CatchupWithinBlocks`, or its horizon is not before the next block. -/
def SoundHead (l : ScanLocal) (head : ℕ) : Prop :=
  (head = l.lastCurrentBlock → l.lastBlock ≤ l.lastCurrentBlock) ∧
    (head = l.lastCurrentBlock ∧ l.lastCurrentBlock - l.lastBlock < catchupWithinBlocks ∨
      blockDelay ≤ head ∧ (minScanBlockNumber ≤ head - blockDelay →
        l.lastBlock ≤ head - blockDelay ∧ l.lastBlock + scanRangeMulti < size))

instance (l : ScanLocal) (head : ℕ) : Decidable (SoundHead l head) :=
  inferInstanceAs (Decidable (_ ∧ _))

/-- A step in a control state asks for no head, or for a sound one. -/
def SoundAt : ScanAct → ScanPc → Prop
  | .query configVersion answers, .looping l =>
    asksHead l configVersion answers = true → SoundHead l (answers.blockNumber.getD 0)
  | _, _ => True

instance : (a : ScanAct) → (pc : ScanPc) → Decidable (SoundAt a pc)
  | .query configVersion answers, .looping l => inferInstanceAs
    (Decidable (asksHead l configVersion answers = true → SoundHead l (answers.blockNumber.getD 0)))
  | .query .., .idle => isTrue trivial
  | .query .., .filing _ => isTrue trivial
  | .query .., .returned _ => isTrue trivial
  | .file, _ => isTrue trivial
  | .finish _, _ => isTrue trivial

def Sound (s : ScanCall) (a : ScanAct) : Prop := SoundAt a s.pc

instance (s : ScanCall) (a : ScanAct) : Decidable (Sound s a) :=
  inferInstanceAs (Decidable (SoundAt a s.pc))

/-! ## One round -/

section Window

variable {l : ScanLocal} {head : ℕ}

variable (hlast : l.lastBlock < size)
include hlast

theorem SoundHead.window (hhead : head < size) (h : SoundHead l head) :
    (head = l.lastCurrentBlock ∧ scanWindow l.lastBlock l.lastCurrentBlock head = .omitted) ∨
      (blockDelay ≤ head ∧ scanWindow l.lastBlock l.lastCurrentBlock head = .tooShort) ∨
      ∃ b, scanWindow l.lastBlock l.lastCurrentBlock head = .range l.lastBlock b ∧
        l.lastBlock ≤ b ∧ b + blockDelay ≤ head ∧ l.lastBlock + scanRangeMulti < size := by
  obtain ⟨hsame, hcases⟩ := h
  by_cases homitted : head = l.lastCurrentBlock ∧
      sub l.lastCurrentBlock l.lastBlock < catchupWithinBlocks
  · exact .inl ⟨homitted.1, if_pos homitted⟩
  · have hfar : ¬ (head = l.lastCurrentBlock ∧
        l.lastCurrentBlock - l.lastBlock < catchupWithinBlocks) := by
      rintro ⟨rfl, hlt⟩
      rw [sub_of_le (hsame rfl) hhead] at homitted
      exact homitted ⟨rfl, hlt⟩
    obtain ⟨hdelay, hlong⟩ := hcases.resolve_left hfar
    have hhorizon : sub head blockDelay = head - blockDelay := sub_of_le hdelay hhead
    unfold scanWindow
    rw [if_neg homitted, hhorizon]
    dsimp only
    by_cases hshort : head - blockDelay < minScanBlockNumber
    · rw [if_pos hshort]
      exact .inr (.inl ⟨hdelay, rfl⟩)
    · rw [if_neg hshort]
      obtain ⟨hle, hend⟩ := hlong (by omega)
      have hwindow : l.lastBlock ≤ windowEnd l.lastBlock (head - blockDelay) := by
        unfold windowEnd sub add scanRangeMulti scanRangeDouble at *
        unfold size at *
        split_ifs <;> omega
      refine .inr (.inr ⟨min (windowEnd l.lastBlock (head - blockDelay)) (head - blockDelay), ?_,
        le_min hwindow hle, ?_, hend⟩)
      · rw [min_eq_left (le_min hwindow hle)]
      · have hmin := min_le_right (windowEnd l.lastBlock (head - blockDelay)) (head - blockDelay)
        omega

theorem SoundHead.noWrap (hhead : head < size) (h : SoundHead l head) :
    ∀ p ∈ windowSubtractions l.lastBlock l.lastCurrentBlock head, p.2 ≤ p.1 := by
  have hrepeat : ∀ p ∈ (if head = l.lastCurrentBlock then [(l.lastCurrentBlock, l.lastBlock)]
      else []), p.2 ≤ p.1 := by
    intro p hp
    split_ifs at hp with hsame
    · rw [mem_singleton.mp hp]
      exact h.1 hsame
    · cases hp
  unfold windowSubtractions
  rcases h.window hlast hhead with ⟨-, hw⟩ | ⟨hdelay, hw⟩ | ⟨b, hw, hle, hhorizon, hend⟩
  · rw [hw, append_nil]
    exact hrepeat
  · rw [hw]
    refine forall_mem_append.mpr ⟨hrepeat, fun p hp => ?_⟩
    rw [mem_singleton.mp hp]
    exact hdelay
  · rw [hw]
    have hmulti : 1 ≤ add l.lastBlock scanRangeMulti := by
      unfold add
      rw [Nat.mod_eq_of_lt hend]
      exact Nat.le_add_left_of_le (by decide)
    have hdouble : 1 ≤ add l.lastBlock scanRangeDouble := by
      unfold add
      unfold scanRangeMulti at hend
      rw [Nat.mod_eq_of_lt (by unfold scanRangeDouble; omega)]
      exact Nat.le_add_left_of_le (by decide)
    refine forall_mem_append.mpr ⟨hrepeat, ?_⟩
    simp only [forall_mem_cons]
    refine ⟨Nat.le_trans (Nat.le_add_left ..) hhorizon, hmulti, ?_, hle, fun _ hp => by cases hp⟩
    unfold endSubtraction
    split_ifs
    · exact hmulti
    · exact hdouble

omit hlast in
theorem scanWindow_cases (lastBlock lastCurrentBlock currentBlock : ℕ) :
    (scanWindow lastBlock lastCurrentBlock currentBlock = .omitted ∧
      currentBlock = lastCurrentBlock ∧
      sub lastCurrentBlock lastBlock < catchupWithinBlocks) ∨
    (scanWindow lastBlock lastCurrentBlock currentBlock = .tooShort ∧
      sub currentBlock blockDelay < minScanBlockNumber) ∨
    ∃ b, scanWindow lastBlock lastCurrentBlock currentBlock = .range (min lastBlock b) b ∧
      b = min (windowEnd lastBlock (sub currentBlock blockDelay))
        (sub currentBlock blockDelay) := by
  unfold scanWindow
  by_cases homitted : currentBlock = lastCurrentBlock ∧
      sub lastCurrentBlock lastBlock < catchupWithinBlocks
  · rw [if_pos homitted]
    exact .inl ⟨rfl, homitted⟩
  · rw [if_neg homitted]
    by_cases hshort : sub currentBlock blockDelay < minScanBlockNumber
    · rw [if_pos hshort]
      exact .inr (.inl ⟨rfl, hshort⟩)
    · rw [if_neg hshort]
      exact .inr (.inr ⟨_, rfl, rfl⟩)

theorem soundHead_of_noWrap (hhead : head < size)
    (hwrap : ∀ p ∈ windowSubtractions l.lastBlock l.lastCurrentBlock head, p.2 ≤ p.1)
    (hquery : ∀ q ∈ windowQueries l.lastBlock l.lastCurrentBlock head, q.lastBlock = l.lastBlock) :
    SoundHead l head := by
  unfold windowQueries at hquery
  obtain ⟨hrepeat, hrest⟩ := forall_mem_append.mp hwrap
  have hsame : head = l.lastCurrentBlock → l.lastBlock ≤ l.lastCurrentBlock := fun heq =>
    hrepeat (l.lastCurrentBlock, l.lastBlock) (by rw [if_pos heq]; exact mem_singleton_self _)
  refine ⟨hsame, ?_⟩
  rcases scanWindow_cases l.lastBlock l.lastCurrentBlock head with
    ⟨-, rfl, hlt⟩ | ⟨hw, hshort⟩ | ⟨b, hw, hb⟩
  · rw [sub_of_le (hsame rfl) hhead] at hlt
    exact .inl ⟨rfl, hlt⟩
  · rw [hw] at hrest
    have hdelay : blockDelay ≤ head := hrest _ (mem_singleton_self _)
    rw [sub_of_le hdelay hhead] at hshort
    exact .inr ⟨hdelay, fun hlong => absurd hlong (Nat.not_le_of_lt hshort)⟩
  · rw [hw] at hrest hquery
    have hdelay : blockDelay ≤ head := hrest _ mem_cons_self
    have hmulti : 1 ≤ add l.lastBlock scanRangeMulti := hrest _ (mem_cons_of_mem _ mem_cons_self)
    rw [sub_of_le hdelay hhead] at hb
    -- the window is not moved back to its end
    have hend : l.lastBlock ≤ b := min_eq_left_iff.mp (hquery _ (mem_singleton_self _))
    rw [hb] at hend
    obtain ⟨hwindowEnd, hle⟩ := le_min_iff.mp hend
    refine .inr ⟨hdelay, fun hlong => ⟨hle, ?_⟩⟩
    unfold windowEnd sub add at hwindowEnd
    unfold add at hmulti
    unfold scanRangeMulti scanRangeDouble minScanBlockNumber at *
    unfold size at *
    split_ifs at hwindowEnd <;> omega

end Window

variable {configVersion : ℕ} {answers : ScanAnswers} {l : ScanLocal}

theorem query_looping {q : ScanPc} (h : (looping l).query configVersion answers = some q) :
    (asksHead l configVersion answers = false ∧ q = .idle) ∨
      (asksHead l configVersion answers = true ∧
        ((scanWindow l.lastBlock l.lastCurrentBlock (answers.blockNumber.getD 0) = .omitted ∧
            q = .looping l) ∨
          (scanWindow l.lastBlock l.lastCurrentBlock (answers.blockNumber.getD 0) = .tooShort ∧
            q = .idle) ∨
          ∃ a b, scanWindow l.lastBlock l.lastCurrentBlock (answers.blockNumber.getD 0) =
              .range a b ∧
            (q = .idle ∨ ∃ f : ScanFiling, q = .filing f ∧ f.startBlock = l.startBlock ∧
              f.endBlock = b))) := by
  unfold query at h
  rw [some.injEq] at h
  by_cases hcount : 0 < l.eventCount
  · rw [if_pos hcount] at h
    refine .inl ⟨decide_eq_false fun hask => ?_, h.symm⟩
    omega
  rw [if_neg hcount] at h
  by_cases hconfig : (answers.newVersion.any fun v => decide (configVersion < v)) = true
  · rw [if_pos hconfig] at h
    refine .inl ⟨decide_eq_false fun hask => ?_, h.symm⟩
    rw [hconfig] at hask
    cases hask.2
  rw [if_neg hconfig] at h
  refine .inr ⟨decide_eq_true ⟨by omega, by simpa using hconfig⟩, ?_⟩
  dsimp only at h
  rcases hw : scanWindow l.lastBlock l.lastCurrentBlock (answers.blockNumber.getD 0) with
    _ | _ | ⟨a, b⟩
  · rw [hw] at h
    exact .inl ⟨rfl, h.symm⟩
  · rw [hw] at h
    exact .inr (.inl ⟨rfl, h.symm⟩)
  · rw [hw] at h
    refine .inr (.inr ⟨a, b, rfl, ?_⟩)
    dsimp only at h
    cases hfilter : answers.filter a b with
    | none =>
      rw [hfilter] at h
      exact .inl h.symm
    | some logs =>
      rw [hfilter] at h
      split_ifs at h
      · exact .inr ⟨_, h.symm, rfl, rfl⟩
      · exact .inl h.symm

/-! ## The ranges of a call -/

def nextBlock : ℕ → List ScanQuery → ℕ
  | b, [] => b
  | _, q :: qs => nextBlock (q.endBlock + 1) qs

theorem nextBlock_concat (q : ScanQuery) : ∀ (qs : List ScanQuery) (b : ℕ),
    nextBlock b (qs ++ [q]) = q.endBlock + 1
  | [], _ => rfl
  | r :: qs, _ => nextBlock_concat q qs (r.endBlock + 1)

theorem adjacent_concat (q : ScanQuery) : ∀ (qs : List ScanQuery) (b : ℕ),
    Adjacent b (qs ++ [q]) ↔ Adjacent b qs ∧ q.lastBlock = nextBlock b qs
  | [], b => by simp [Adjacent, nextBlock]
  | r :: qs, b => by
    show r.lastBlock = b ∧ Adjacent (r.endBlock + 1) (qs ++ [q]) ↔ _
    rw [adjacent_concat q qs (r.endBlock + 1), ← and_assoc]
    rfl

theorem Adjacent.of_append : ∀ {qs rs : List ScanQuery} {b : ℕ}, Adjacent b (qs ++ rs) →
    Adjacent b qs
  | [], _, _, _ => trivial
  | _ :: _, _, _, ⟨hb, hrest⟩ => ⟨hb, hrest.of_append⟩

theorem Adjacent.le_nextBlock : ∀ {qs : List ScanQuery} {b : ℕ}, Adjacent b qs →
    (∀ q ∈ qs, q.lastBlock ≤ q.endBlock) → b ≤ nextBlock b qs
  | [], _, _, _ => le_rfl
  | q :: qs, b, ⟨hb, hrest⟩, hle => by
    have hq := hle q mem_cons_self
    have ih := hrest.le_nextBlock fun r hr => hle r (mem_cons_of_mem _ hr)
    unfold nextBlock
    omega

variable {startBlock : ℕ} {s t : ScanCall} {a : ScanAct} {L : Imports} {vaultAddrFrom : Address}
  {batchNumber : ℕ} {q : ScanQuery}

variable (startBlock) in
structure Inv (s : ScanCall) : Prop extends WellFormed startBlock s where
  looping : ∀ l, s.pc = .looping l → l.startBlock = startBlock ∧
    l.lastBlock = nextBlock startBlock s.queried ∧ l.lastBlock < size
  filing : ∀ f, s.pc = .filing f → f.startBlock = startBlock ∧ startBlock ≤ f.endBlock ∧
    f.endBlock + 1 = nextBlock startBlock s.queried ∧ f.endBlock + 1 < size

theorem inv_start (hstart : startBlock < size) : Inv startBlock (start startBlock) where
  ranges _ hq := by cases hq
  adjacent := trivial
  batch _ hb := by cases hb
  noWrap _ hp := by cases hp
  looping l hl := by
    cases hl
    exact ⟨rfl, rfl, hstart⟩
  filing f hf := by cases hf

theorem step_query
    (h : step L vaultAddrFrom s (.query configVersion answers) = some t) :
    ∃ l, s.pc = .looping l ∧ (looping l).query configVersion answers = some t.pc ∧
      (asksHead l configVersion answers = false → t.queried = s.queried ∧
        t.subtractions = s.subtractions) ∧
      (asksHead l configVersion answers = true →
        t.queried = s.queried ++
          windowQueries l.lastBlock l.lastCurrentBlock (answers.blockNumber.getD 0) ∧
        t.subtractions = s.subtractions ++
          windowSubtractions l.lastBlock l.lastCurrentBlock (answers.blockNumber.getD 0)) := by
  unfold step at h
  cases hpc : s.pc with
  | looping l =>
    rw [hpc] at h
    obtain ⟨pc, hquery, ht⟩ := map_eq_some_iff.mp h
    refine ⟨l, rfl, ?_⟩
    by_cases hask : asksHead l configVersion answers = true
    · rw [if_pos hask] at ht
      subst ht
      exact ⟨hquery, fun hno => absurd (hask.symm.trans hno) (by decide), fun _ => ⟨rfl, rfl⟩⟩
    · rw [if_neg hask] at ht
      subst ht
      exact ⟨hquery, fun _ => ⟨rfl, rfl⟩, fun hyes => absurd hyes hask⟩
  | idle | filing f | returned b => rw [hpc] at h; cases h

theorem step_finish (h : step L vaultAddrFrom s (.finish batchNumber) = some t) :
    ∃ f, s.pc = .filing f ∧ t.queried = s.queried ∧
      t.subtractions = s.subtractions ++
        (if f.rawBatch = [] then [(f.endBlock, f.startBlock)] else []) ∧
      ((t.pc = .returned ⟨f.rawBatch, f.nodup, vaultAddrFrom, f.startBlock, f.endBlock⟩ ∧
          (f.rawBatch = [] → maxEmptyBatchBlocks ≤ sub f.endBlock f.startBlock)) ∨
        t.pc = .looping { f.toScanLocal with lastBlock := add f.endBlock 1 }) := by
  unfold step at h
  cases hpc : s.pc with
  | filing f =>
    rw [hpc] at h
    obtain ⟨pc, hfinish, rfl⟩ := map_eq_some_iff.mp h
    refine ⟨f, rfl, rfl, rfl, ?_⟩
    unfold finish at hfinish
    dsimp only at hfinish ⊢
    cases hrest : f.rest with
    | cons log rest =>
      rw [hrest] at hfinish
      cases hfinish
    | nil =>
      rw [hrest] at hfinish
      have heq := some.inj hfinish
      split_ifs at heq with hempty hlong hlong
      · exact .inl ⟨heq.symm, fun _ => hlong⟩
      · exact .inr heq.symm
      · exact .inl ⟨heq.symm, fun hnil => absurd hnil hempty⟩
      · exact .inr heq.symm
  | idle | looping l | returned b => rw [hpc] at h; cases h

theorem step_file (h : step L vaultAddrFrom s .file = some t) :
    ∃ f g : ScanFiling, s.pc = .filing f ∧ t = { s with pc := .filing g } ∧
      g.startBlock = f.startBlock ∧ g.endBlock = f.endBlock := by
  obtain ⟨r, hfile, rfl⟩ := map_eq_some_iff.mp h
  obtain ⟨f, log, rest, hpc, -, -, hr⟩ := file_cases hfile
  refine ⟨f, _, hpc, congrArg (fun pc => { s with pc := pc }) hr, ?_, ?_⟩
  · rfl
  · rfl

theorem step_records (h : step L vaultAddrFrom s a = some t) :
    (∀ b, s.pc ≠ .returned b) ∧ s.queried <+: t.queried ∧ s.subtractions <+: t.subtractions := by
  cases a with
  | query configVersion answers =>
    obtain ⟨l, hpc, -, hno, hyes⟩ := step_query h
    refine ⟨fun b hb => (nomatch hpc.symm.trans hb), ?_⟩
    cases hask : asksHead l configVersion answers with
    | false =>
      rw [(hno hask).1, (hno hask).2]
      exact ⟨prefix_rfl, prefix_rfl⟩
    | true =>
      rw [(hyes hask).1, (hyes hask).2]
      exact ⟨prefix_append _ _, prefix_append _ _⟩
  | file =>
    obtain ⟨f, g, hpc, rfl, -⟩ := step_file h
    exact ⟨fun b hb => (nomatch hpc.symm.trans hb), prefix_rfl, prefix_rfl⟩
  | finish batchNumber =>
    obtain ⟨f, hpc, hqueried, hsubtractions, -⟩ := step_finish h
    rw [hqueried, hsubtractions]
    exact ⟨fun b hb => (nomatch hpc.symm.trans hb), prefix_rfl, prefix_append _ _⟩

theorem WellFormed.of_step (h : step L vaultAddrFrom s a = some t) (ht : WellFormed startBlock t) :
    WellFormed startBlock s := by
  obtain ⟨hpc, hqueried, hsubtractions⟩ := step_records h
  refine ⟨fun q hq => ht.ranges q (hqueried.subset hq), ?_, fun b hb => absurd hb (hpc b),
    fun p hp => ht.noWrap p (hsubtractions.subset hp)⟩
  obtain ⟨rest, hrest⟩ := hqueried
  exact (hrest ▸ ht.adjacent).of_append

theorem WellFormed.of_run : ∀ {as : List ScanAct} {s : ScanCall},
    run (step L vaultAddrFrom) s as = some t → WellFormed startBlock t → WellFormed startBlock s
  | [], _, h, ht => by
    cases h
    exact ht
  | _ :: _, _, h, ht => by
    obtain ⟨u, hu, hrun⟩ := run_cons_eq_some.mp h
    exact (WellFormed.of_run hrun ht).of_step hu

theorem mem_windowQueries {lastBlock lastCurrentBlock currentBlock : ℕ} :
    q ∈ windowQueries lastBlock lastCurrentBlock currentBlock ↔
      scanWindow lastBlock lastCurrentBlock currentBlock = .range q.lastBlock q.endBlock ∧
        q.head = currentBlock := by
  unfold windowQueries
  rcases scanWindow lastBlock lastCurrentBlock currentBlock with _ | _ | ⟨a, b⟩
  · simp
  · simp
  · cases q
    simp [eq_comm, and_assoc]

variable (hi : Inv startBlock s)
include hi

/-- **A round whose head is not sound is not well formed.** -/
theorem Inv.sound (hhead : a.head < size) (h : step L vaultAddrFrom s a = some t)
    (ht : WellFormed startBlock t) : Sound s a := by
  cases a with
  | file | finish batchNumber => exact trivial
  | query configVersion answers =>
    obtain ⟨l, hpc, -, -, hyes⟩ := step_query h
    obtain ⟨-, hlast, hlt⟩ := hi.looping l hpc
    unfold Sound
    rw [hpc]
    intro hask
    obtain ⟨hqueried, hsubtractions⟩ := hyes hask
    refine soundHead_of_noWrap hlt hhead (fun p hp => ht.noWrap p ?_) fun q hq => ?_
    · rw [hsubtractions]
      exact mem_append_right _ hp
    · have hwindow := (mem_windowQueries.mp hq).1
      have hone :
          windowQueries l.lastBlock l.lastCurrentBlock (answers.blockNumber.getD 0) = [q] := by
        unfold windowQueries at hq ⊢
        rw [hwindow] at hq ⊢
        rw [mem_singleton.mp hq]
      have hadjacent := ht.adjacent
      rw [hqueried, hone, adjacent_concat] at hadjacent
      exact hadjacent.2.trans hlast.symm

theorem Inv.of_no_query (hpc : s.pc = .looping l) (hqueried : t.queried = s.queried)
    (hwrap : ∀ p ∈ t.subtractions, p.2 ≤ p.1) (htpc : t.pc = .idle ∨ t.pc = .looping l) :
    Inv startBlock t where
  ranges := hqueried ▸ hi.ranges
  adjacent := hqueried ▸ hi.adjacent
  batch b hb := by
    rcases htpc with h | h
    · cases h.symm.trans hb
    · cases h.symm.trans hb
  noWrap := hwrap
  looping l' hl := by
    rcases htpc with h | h
    · cases h.symm.trans hl
    · cases h.symm.trans hl
      exact hqueried ▸ hi.looping l hpc
  filing f hf := by
    rcases htpc with h | h
    · cases h.symm.trans hf
    · cases h.symm.trans hf

theorem Inv.of_query (hhead : q.head < size) (hqueried : t.queried = s.queried ++ [q])
    (hlast : q.lastBlock = nextBlock startBlock s.queried) (hle : q.lastBlock ≤ q.endBlock)
    (hdelay : q.endBlock + blockDelay ≤ q.head) (hwrap : ∀ p ∈ t.subtractions, p.2 ≤ p.1) (htpc :
      t.pc = .idle ∨ ∃ f, t.pc = .filing f ∧ f.startBlock = startBlock ∧ f.endBlock = q.endBlock) :
    Inv startBlock t where
  ranges := by
    rw [hqueried]
    refine forall_mem_append.mpr ⟨hi.ranges, fun r hr => ?_⟩
    exact mem_singleton.mp hr ▸ ⟨hle, hdelay⟩
  adjacent := by
    rw [hqueried, adjacent_concat]
    exact ⟨hi.adjacent, hlast⟩
  batch b hb := by
    rcases htpc with h | ⟨f, h, -⟩
    · cases h.symm.trans hb
    · cases h.symm.trans hb
  noWrap := hwrap
  looping l hl := by
    rcases htpc with h | ⟨f, h, -⟩
    · cases h.symm.trans hl
    · cases h.symm.trans hl
  filing f hf := by
    rcases htpc with h | ⟨g, h, hstart, hend⟩
    · cases h.symm.trans hf
    · cases h.symm.trans hf
      have hnext := hi.adjacent.le_nextBlock fun r hr => (hi.ranges r hr).1
      rw [hqueried, nextBlock_concat, hend]
      unfold blockDelay at hdelay
      exact ⟨hstart, by omega, rfl, by omega⟩

/-- **A round whose head is sound keeps the ranges in order.** -/
theorem Inv.query (hhead : answers.blockNumber.getD 0 < size)
    (hsound : Sound s (.query configVersion answers))
    (h : step L vaultAddrFrom s (.query configVersion answers) = some t) : Inv startBlock t := by
  obtain ⟨l, hpc, hquery, hno, hyes⟩ := step_query h
  obtain ⟨hstart, hlast, hlt⟩ := hi.looping l hpc
  unfold Sound at hsound
  rw [hpc] at hsound
  rcases query_looping hquery with ⟨hask, hidle⟩ | ⟨hask, hcases⟩
  · obtain ⟨hqueried, hsubtractions⟩ := hno hask
    exact hi.of_no_query hpc hqueried (hsubtractions ▸ hi.noWrap) (.inl hidle)
  · obtain ⟨hqueried, hsubtractions⟩ := hyes hask
    have hs : SoundHead l (answers.blockNumber.getD 0) := hsound hask
    have hwrap : ∀ p ∈ t.subtractions, p.2 ≤ p.1 := by
      rw [hsubtractions]
      exact forall_mem_append.mpr ⟨hi.noWrap, hs.noWrap hlt hhead⟩
    unfold windowQueries at hqueried
    rcases hcases with ⟨hw, hq⟩ | ⟨hw, hq⟩ | ⟨a, b, hw, hq⟩
    · rw [hw, append_nil] at hqueried
      exact hi.of_no_query hpc hqueried hwrap (.inr hq)
    · rw [hw, append_nil] at hqueried
      exact hi.of_no_query hpc hqueried hwrap (.inl hq)
    · rw [hw] at hqueried
      rcases hs.window hlt hhead with ⟨-, hw'⟩ | ⟨-, hw'⟩ | ⟨b', hw', hle, hdelay, -⟩ <;>
        cases hw.symm.trans hw'
      · cases hw.symm.trans hw'
        refine hi.of_query hhead hqueried hlast hle hdelay hwrap (hq.imp_right ?_)
        rintro ⟨f, hf, hfstart, hfend⟩
        exact ⟨f, hf, hfstart.trans hstart, hfend⟩

theorem Inv.finish (h : step L vaultAddrFrom s (.finish batchNumber) = some t) :
    Inv startBlock t := by
  obtain ⟨f, hpc, hqueried, hsubtractions, hcases⟩ := step_finish h
  obtain ⟨hstart, hle, hnext, hlt⟩ := hi.filing f hpc
  have hwrap : ∀ p ∈ t.subtractions, p.2 ≤ p.1 := by
    rw [hsubtractions]
    refine forall_mem_append.mpr ⟨hi.noWrap, fun p hp => ?_⟩
    split_ifs at hp
    · rw [mem_singleton.mp hp]
      exact hstart.trans_le hle
    · cases hp
  refine { ranges := hqueried ▸ hi.ranges, adjacent := hqueried ▸ hi.adjacent, noWrap := hwrap
           batch := fun b hb => ?_, looping := fun l hl => ?_, filing := fun g hg => ?_ }
  · rcases hcases with ⟨hret, hempty⟩ | hloop
    · cases hret.symm.trans hb
      refine ⟨hstart.trans_le hle, fun hnil => ?_⟩
      rw [sub_of_le (hstart.trans_le hle) (by omega)] at hempty
      exact hempty hnil
    · cases hloop.symm.trans hb
  · rcases hcases with ⟨hret, -⟩ | hloop
    · cases hret.symm.trans hl
    · cases hloop.symm.trans hl
      have hadd : add f.endBlock 1 = f.endBlock + 1 := Nat.mod_eq_of_lt hlt
      rw [hqueried, ← hnext]
      exact ⟨hstart, hadd, hadd ▸ hlt⟩
  · rcases hcases with ⟨hret, -⟩ | hloop
    · cases hret.symm.trans hg
    · cases hloop.symm.trans hg

theorem Inv.step (hhead : a.head < size) (hsound : Sound s a)
    (h : step L vaultAddrFrom s a = some t) : Inv startBlock t := by
  cases a with
  | query configVersion answers => exact hi.query hhead hsound h
  | finish batchNumber => exact hi.finish h
  | file =>
    obtain ⟨f, g, hpc, rfl, hstart, hend⟩ := step_file h
    refine { hi with batch := fun b hb => ?_, looping := fun l hl => ?_, filing := fun g' hg => ?_ }
    · cases hb
    · cases hl
    · cases hg
      rw [hstart, hend]
      exact hi.filing f hpc

omit hi

/-! ## The whole call -/

theorem wellFormed_iff_of_inv : ∀ {as : List ScanAct} {s : ScanCall}, Inv startBlock s →
    (∀ a ∈ as, a.head < size) → run (ScanCall.step L vaultAddrFrom) s as = some t →
      (WellFormed startBlock t ↔ Along (ScanCall.step L vaultAddrFrom) Sound s as)
  | [], s, hi, _, hrun => by
    cases hrun
    exact iff_of_true hi.toWellFormed trivial
  | a :: as, s, hi, hheads, hrun => by
    obtain ⟨u, hu, hrun⟩ := run_cons_eq_some.mp hrun
    obtain ⟨hhead, hheads⟩ := forall_mem_cons.mp hheads
    rw [along_cons_of_some hu]
    constructor
    · intro ht
      have hsound := hi.sound hhead hu (WellFormed.of_run hrun ht)
      exact ⟨hsound, (wellFormed_iff_of_inv (hi.step hhead hsound hu) hheads hrun).mp ht⟩
    · rintro ⟨hsound, hrest⟩
      exact (wellFormed_iff_of_inv (hi.step hhead hsound hu) hheads hrun).mpr hrest

/-- **A call is well formed exactly if every head is sound.** -/
theorem wellFormed_iff {as : List ScanAct} (hstart : startBlock < size)
    (hheads : ∀ a ∈ as, a.head < size)
    (hrun : run (ScanCall.step L vaultAddrFrom) (start startBlock) as = some t) :
    WellFormed startBlock t ↔ Along (ScanCall.step L vaultAddrFrom) Sound (start startBlock) as :=
  wellFormed_iff_of_inv (inv_start hstart) hheads hrun

def sampleStep : ScanCall → ScanAct → Option ScanCall :=
  ScanCall.step sampleImports (sampleAddress 7)

def quietRound (head : ℕ) : ScanAct :=
  .query 1 ⟨none, some head, fun _ _ => some [], true⟩

def quietScan : List ScanAct :=
  [quietRound 131, .finish 7, quietRound 131, quietRound 140, .finish 7]

theorem wellFormed_quietScan : ∃ t, run sampleStep (start 100) quietScan = some t ∧
      t.queried = [⟨100, 119, 131⟩, ⟨120, 121, 140⟩] ∧ WellFormed 100 t :=
  exists_run (by decide +kernel) fun hrun => ⟨by decide +kernel,
    (wellFormed_iff (by decide) (by decide +kernel) hrun).mpr (by decide +kernel)⟩

/-- **A scanner that has caught up moves back**: block `100` is queried again. -/
theorem caughtUp_scan : ∃ t, run sampleStep (start 101) [quietRound 112, .finish 7] = some t ∧
      t.queried = [⟨100, 100, 112⟩] ∧ (100, 101) ∈ t.subtractions ∧
      t.pc = .returned ⟨[], nodup_nil, sampleAddress 7, 101, 100⟩ ∧ ¬ WellFormed 101 t := by
  refine ⟨_, rfl, rfl, by decide, rfl, fun ht => ?_⟩
  exact absurd (ht.adjacent.1) (by decide)

end ScanCall

end XChain
