import XChain.Core.HeaderChain

/-!
# The chain indexer

`ChainIndexer` of `core/chain_indexer.go`. The canonical chain is cut into sections of equal size; a
background loop processes one section after the other and stores the hash of its last block as the
section head. New heads and reorgs are announced after the chain database was updated.

The loop reads the headers of a section without the lock and stores it if the head of the previous
section is still the same. A reorg within the section does not touch the previous one, so abandoned
headers may be stored. Child indexers are left out.

* **`sections_canonical`**: without outstanding reorgs all stored sections are canonical.
-/

namespace XChain

open Word64 StepMachine Nat List Function GoText
open Or (inl inr)

/-- The headers of a canonical chain by number, given by their hashes; a hash determines the hash of
the parent. -/
structure HeaderLine (parent : Hash → Hash) where
  hashes : List Hash
  ne_zero : ∀ h ∈ hashes, h ≠ zeroHash
  linked : hashes.IsChain fun a b => parent b = a
  length_lt : hashes.length < Word64.size

structure IndexerConfig where
  sectionSize : ℕ
  confirmsReq : ℕ
  sectionSize_pos : 0 < sectionSize

namespace ChainIndexer

structure Announcement where
  head : ℕ
  reorg : Bool
deriving DecidableEq

/-- Where the loop is: it waits, reads the headers of a section, or is back with a result. -/
inductive Phase
  | idle
  | reading (sec : ℕ) (oldHead lastHead : Hash) (read : List Hash)
  | processed (sec : ℕ) (oldHead : Hash) (result : Option Hash)

/-- The indexer, with the chain and the announcements that are still to come. -/
structure State (parent : Hash → Hash) where
  chain : HeaderLine parent
  queue : List Announcement
  knownSections : ℕ
  storedSections : ℕ
  sectionHead : ℕ → Hash
  content : ℕ → List Hash
  update : Bool
  timers : ℕ
  phase : Phase

/-- What can happen: the chain moves to another one with a common ancestor, an announcement is
handled, the loop makes a step. -/
inductive Action (parent : Hash → Hash)
  | setChain (chain : HeaderLine parent) (ancestor : ℕ)
  | newHead
  | start
  | process
  | commit (ok : Bool)
  | finish
  | timer

section Step

variable {parent : Hash → Hash} (cfg : IndexerConfig)

def setValidSections (s : State parent) (sections : ℕ) : State parent :=
  { s with
    sectionHead := fun j =>
      if sections ≤ j ∧ j < s.storedSections then zeroHash else s.sectionHead j
    storedSections := sections }

def reorgTo (s : State parent) (head : ℕ) : State parent :=
  let changed := head / cfg.sectionSize
  let s := if changed < s.knownSections then { s with knownSections := changed } else s
  if changed < s.storedSections then setValidSections s changed else s

def extendTo (s : State parent) (head : ℕ) : State parent :=
  if cfg.confirmsReq ≤ head then
    let sections := (head + 1 - cfg.confirmsReq) / cfg.sectionSize
    if s.knownSections < sections then { s with knownSections := sections, update := true } else s
  else s

def processOne (s : State parent) (sec : ℕ) (oldHead lastHead : Hash) (read : List Hash) :
    State parent :=
  match s.chain.hashes[sec * cfg.sectionSize + read.length]? with
  | none => { s with phase := .processed sec oldHead none }
  | some h =>
    if parent h ≠ lastHead then { s with phase := .processed sec oldHead none }
    else { s with phase := .reading sec oldHead h (read ++ [h]) }

def reschedule (s : State parent) : State parent :=
  if s.storedSections < s.knownSections then { s with timers := s.timers + 1 } else s

def step (s : State parent) : Action parent → Option (State parent)
  | .setChain chain ancestor =>
    if ancestor < s.chain.hashes.length ∧ ancestor < chain.hashes.length ∧
        chain.hashes.take (ancestor + 1) = s.chain.hashes.take (ancestor + 1) then
      let head : Announcement := ⟨chain.hashes.length - 1, false⟩
      some { s with
        chain := chain
        queue := s.queue ++ if ancestor + 1 = s.chain.hashes.length then [head]
          else [⟨ancestor, true⟩, head] }
    else none
  | .newHead =>
    match s.queue with
    | [] => none
    | a :: rest =>
      if a.reorg = true then some (reorgTo cfg { s with queue := rest } a.head)
      else some (extendTo cfg { s with queue := rest } a.head)
  | .start =>
    match s.phase with
    | .idle =>
      if s.update = true then
        if s.storedSections < s.knownSections then
          let oldHead := if 0 < s.storedSections then s.sectionHead (s.storedSections - 1)
            else zeroHash
          some { s with update := false, phase := .reading s.storedSections oldHead oldHead [] }
        else some { s with update := false }
      else none
    | _ => none
  | .process =>
    match s.phase with
    | .reading sec oldHead lastHead read =>
      if read.length < cfg.sectionSize then some (processOne cfg s sec oldHead lastHead read)
      else none
    | _ => none
  | .commit ok =>
    match s.phase with
    | .reading sec oldHead lastHead read =>
      if read.length = cfg.sectionSize then
        if ok = true then
          some { s with
            content := update s.content sec read
            phase := .processed sec oldHead (some lastHead) }
        else some { s with phase := .processed sec oldHead none }
      else none
    | _ => none
  | .finish =>
    match s.phase with
    | .processed sec oldHead result =>
      match result with
      | some newHead =>
        if oldHead = s.sectionHead (sub sec 1) then
          some (reschedule { setValidSections
            { s with sectionHead := update s.sectionHead sec newHead } (sec + 1) with
            phase := .idle })
        else some { s with knownSections := s.storedSections, phase := .idle }
      | none => some { s with knownSections := s.storedSections, phase := .idle }
    | _ => none
  | .timer => if 0 < s.timers then some { s with timers := s.timers - 1, update := true } else none

end Step

/-! ## Segments of a chain -/

def segment (hashes : List Hash) (n m : ℕ) : List Hash := (hashes.drop n).take m

theorem segment_congr {l l' : List Hash} {k n m : ℕ} (h : l'.take k = l.take k) (hk : n + m ≤ k) :
    segment l' n m = segment l n m := by
  have hcut : ∀ x : List Hash, segment x n m = ((x.take k).drop n).take m := by
    intro x
    rw [segment, drop_take, take_take, min_eq_left (by omega)]
  rw [hcut, hcut, h]

variable {l : List Hash} {n m : ℕ}

theorem length_segment (h : n + m ≤ l.length) : (segment l n m).length = m := by
  rw [segment, length_take, length_drop]
  omega

theorem le_of_length_segment (h : (segment l n m).length = m) (hm : 0 < m) : n + m ≤ l.length := by
  rw [segment, length_take, length_drop] at h
  omega

theorem segment_getElem_last (hm : 0 < m) : (segment l n m)[m - 1]? = l[n + m - 1]? := by
  rw [segment, getElem?_take_of_lt (by omega), getElem?_drop]
  congr 1
  omega

theorem segment_succ {h : Hash} (hget : l[n + m]? = some h) :
    segment l n (m + 1) = segment l n m ++ [h] := by
  rw [segment, take_add_one, getElem?_drop, hget]
  rfl

theorem linked_eq {parent : Hash → Hash} : ∀ {l l' : List Hash} {h : Hash},
    l.length = l'.length → (l ++ [h]).IsChain (fun a b => parent b = a) →
      (l' ++ [h]).IsChain (fun a b => parent b = a) → l = l' := by
  intro l
  induction l using reverseRecOn with
  | nil =>
    intro l' h hlen _ _
    exact (length_eq_zero_iff.mp hlen.symm).symm
  | append_singleton l x ih =>
    intro l' h hlen hl hl'
    rcases eq_nil_or_concat l' with rfl | ⟨l', y, rfl⟩
    · simp at hlen
    · rw [concat_eq_append] at *
      rw [isChain_append] at hl hl'
      have hx : parent h = x := hl.2.2 x (by simp) h (by simp)
      have hy : parent h = y := hl'.2.2 y (by simp) h (by simp)
      subst hx
      subst hy
      rw [ih (by simpa using hlen) hl.1 hl'.1]

/-! ## Stored sections -/

section Invariant

variable {parent : Hash → Hash} (cfg : IndexerConfig) (s : State parent)

/-- A section is canonical: it was made from the headers of the chain, its head is the last one. -/
structure Canonical (j : ℕ) : Prop where
  content_eq : s.content j = segment s.chain.hashes (j * cfg.sectionSize) cfg.sectionSize
  head_eq : s.chain.hashes[(j + 1) * cfg.sectionSize - 1]? = some (s.sectionHead j)

/-- A reorg that reaches a section is still to be announced. -/
def Outstanding (j : ℕ) : Prop := ∃ a ∈ s.queue, a.reorg = true ∧ a.head / cfg.sectionSize ≤ j

/-- The headers read of a section are on the chain, unless a reorg that reaches them is outstanding.
-/
def Tracks (sec : ℕ) (read : List Hash) : Prop :=
  read = segment s.chain.hashes (sec * cfg.sectionSize) read.length ∨ Outstanding cfg s sec ∨
    s.storedSections < sec

structure Reading (sec : ℕ) (oldHead lastHead : Hash) (read : List Hash) : Prop where
  stored_le : s.storedSections ≤ sec
  sec_lt : sec + 1 < Word64.size
  oldHead_ne : 0 < sec → oldHead ≠ zeroHash
  length_le : read.length ≤ cfg.sectionSize
  last : (oldHead :: read).getLast? = some lastHead
  linked : read.IsChain fun a b => parent b = a
  ne_zero : ∀ h ∈ read, h ≠ zeroHash
  tracks : Tracks cfg s sec read

structure Returned (sec : ℕ) (oldHead newHead : Hash) : Prop where
  stored_le : s.storedSections ≤ sec
  sec_lt : sec + 1 < Word64.size
  oldHead_ne : 0 < sec → oldHead ≠ zeroHash
  newHead_ne : newHead ≠ zeroHash
  length_eq : (s.content sec).length = cfg.sectionSize
  last : (s.content sec).getLast? = some newHead
  tracks : Tracks cfg s sec (s.content sec)

def InFlight : Prop :=
  match s.phase with
  | .idle => True
  | .reading sec oldHead lastHead read => Reading cfg s sec oldHead lastHead read
  | .processed _ _ none => True
  | .processed sec oldHead (some newHead) => Returned cfg s sec oldHead newHead

structure Counted : Prop where
  known_lt : s.knownSections < Word64.size
  stored_lt : s.storedSections < Word64.size
  queue_lt : ∀ a ∈ s.queue, a.head + 1 < Word64.size
  head_zero : ∀ j, s.storedSections ≤ j → s.sectionHead j = zeroHash

structure Indexed : Prop extends Counted s where
  head_ne : ∀ j < s.storedSections, s.sectionHead j ≠ zeroHash
  stored : ∀ j < s.storedSections, Canonical cfg s j ∨ Outstanding cfg s j
  inFlight : InFlight cfg s

def Phase.busyWith : Phase → Option ℕ
  | .reading sec _ _ (_ :: _) => some sec
  | .processed sec _ (some _) => some sec
  | _ => none

/-- No reorg is announced whose common ancestor is in the section in flight. -/
def Calm : Action parent → Prop
  | .newHead => ∀ a ∈ s.queue.head?,
      a.reorg = true → s.phase.busyWith ≠ some (a.head / cfg.sectionSize)
  | _ => True

instance (a : Action parent) : Decidable (Calm cfg s a) :=
  match a with
  | .newHead => inferInstanceAs (Decidable (∀ a ∈ s.queue.head?,
      a.reorg = true → s.phase.busyWith ≠ some (a.head / cfg.sectionSize)))
  | .setChain .. | .start | .process | .commit _ | .finish | .timer => .isTrue trivial

variable {cfg s}

theorem next_section (j : ℕ) : j * cfg.sectionSize + cfg.sectionSize = (j + 1) * cfg.sectionSize :=
  (succ_mul _ _).symm

theorem Canonical.le_length {j : ℕ} (h : Canonical cfg s j) :
    (j + 1) * cfg.sectionSize ≤ s.chain.hashes.length := by
  have hlt := (List.getElem?_eq_some_iff.mp h.head_eq).1
  omega

theorem Canonical.of_segment {j : ℕ} {head : Hash}
    (hc : s.content j = segment s.chain.hashes (j * cfg.sectionSize) cfg.sectionSize)
    (hlast : (s.content j).getLast? = some head) (hlen : (s.content j).length = cfg.sectionSize)
    (hhead : s.sectionHead j = head) : Canonical cfg s j where
  content_eq := hc
  head_eq := by
    rw [← next_section, ← segment_getElem_last cfg.sectionSize_pos, ← hc, hhead, ← hlast,
      getLast?_eq_getElem?, hlen]

theorem Tracks.nil (sec : ℕ) : Tracks cfg s sec [] := inl (by simp [segment])

variable {t : State parent} {oldHead newHead : Hash} {sec : ℕ} {read : List Hash}

theorem InFlight.mono (hphase : t.phase = s.phase)
    (hstored : t.storedSections ≤ s.storedSections) (hcontent : t.content = s.content)
    (htracks : ∀ sec read, s.phase.busyWith = some sec → read.length ≤ cfg.sectionSize →
      Tracks cfg s sec read → Tracks cfg t sec read)
    (h : InFlight cfg s) : InFlight cfg t := by
  unfold InFlight at h ⊢
  rw [hphase]
  cases hp : s.phase with
  | idle => trivial
  | reading sec oldHead lastHead read =>
    rw [hp] at h
    refine { h with stored_le := hstored.trans h.stored_le, tracks := ?_ }
    cases read with
    | nil => exact Tracks.nil sec
    | cons x read => exact htracks sec _ (by rw [hp]; rfl) h.length_le h.tracks
  | processed sec oldHead result =>
    cases result with
    | none => trivial
    | some newHead =>
      rw [hp] at h
      exact
        { stored_le := hstored.trans h.stored_le
          __ := h
          length_eq := by rw [hcontent]; exact h.length_eq
          last := by rw [hcontent]; exact h.last
          tracks := by
            rw [hcontent]
            exact htracks sec _ (by rw [hp]; rfl) h.length_eq.le h.tracks }

/-! ## The chain moves -/

section SetChain

variable {chain : HeaderLine parent} {ancestor : ℕ}

def moved (s : State parent) (chain : HeaderLine parent) (ancestor : ℕ) : State parent :=
  { s with
    chain := chain
    queue := s.queue ++ if ancestor + 1 = s.chain.hashes.length then
        [⟨chain.hashes.length - 1, false⟩]
      else [⟨ancestor, true⟩, ⟨chain.hashes.length - 1, false⟩] }

theorem Outstanding.moved {j : ℕ} (h : Outstanding cfg s j) :
    Outstanding cfg (moved s chain ancestor) j := by
  obtain ⟨a, ha, hr⟩ := h
  exact ⟨a, mem_append_left _ ha, hr⟩

variable (hsame : chain.hashes.take (ancestor + 1) = s.chain.hashes.take (ancestor + 1))
include hsame

theorem segment_moved {j n m : ℕ} (hlen : 0 < m → n + m ≤ s.chain.hashes.length)
    (hj : n + m ≤ (j + 1) * cfg.sectionSize) :
    segment chain.hashes n m = segment s.chain.hashes n m ∨
      Outstanding cfg (moved s chain ancestor) j := by
  by_cases hk : n + m ≤ ancestor + 1
  · exact inl (segment_congr hsame hk)
  rcases Nat.eq_zero_or_pos m with rfl | hm
  · exact inl (by simp [segment])
  right
  have hle := hlen hm
  refine ⟨⟨ancestor, true⟩, mem_append_right _ ?_, rfl, ?_⟩
  · rw [if_neg (by omega)]
    exact mem_cons_self
  · have hlt : ancestor < (j + 1) * cfg.sectionSize := by omega
    exact Nat.lt_succ_iff.mp ((Nat.div_lt_iff_lt_mul cfg.sectionSize_pos).mpr hlt)

theorem Tracks.moved (hlen : read.length ≤ cfg.sectionSize) (h : Tracks cfg s sec read) :
    Tracks cfg (moved s chain ancestor) sec read := by
  rcases h with h | h | h
  · have hseg : segment chain.hashes (sec * cfg.sectionSize) read.length =
        segment s.chain.hashes (sec * cfg.sectionSize) read.length ∨
          Outstanding cfg (ChainIndexer.moved s chain ancestor) sec := by
      refine segment_moved hsame (fun hm => ?_) ?_
      · exact le_of_length_segment (by rw [← h]) hm
      · rw [← next_section]
        omega
    rcases hseg with hseg | hseg
    · exact inl (h.trans hseg.symm)
    · exact inr (inl hseg)
  · exact inr (inl h.moved)
  · exact inr (inr h)

theorem Indexed.moved (h : Indexed cfg s) (hlt : ancestor < chain.hashes.length) :
    Indexed cfg (moved s chain ancestor) where
  __ := h
  queue_lt a ha := by
    have hlength := chain.length_lt
    rcases mem_append.mp ha with ha | ha
    · exact h.queue_lt a ha
    · split at ha
      · cases mem_singleton.mp ha
        change chain.hashes.length - 1 + 1 < _
        omega
      · rcases mem_cons.mp ha with rfl | ha
        · change ancestor + 1 < _
          omega
        · cases mem_singleton.mp ha
          change chain.hashes.length - 1 + 1 < _
          omega
  stored j hj := by
    rcases h.stored j hj with hc | ho
    · have hseg : segment chain.hashes (j * cfg.sectionSize) cfg.sectionSize =
          segment s.chain.hashes (j * cfg.sectionSize) cfg.sectionSize ∨
            Outstanding cfg (ChainIndexer.moved s chain ancestor) j :=
        segment_moved hsame (fun _ => (next_section j).le.trans hc.le_length) (next_section j).le
      rcases hseg with hseg | ho
      · refine inl ⟨hc.content_eq.trans hseg.symm, Eq.trans ?_ hc.head_eq⟩
        change chain.hashes[_]? = _
        rw [← next_section, ← segment_getElem_last cfg.sectionSize_pos, hseg,
          segment_getElem_last cfg.sectionSize_pos]
      · exact inr ho
    · exact inr ho.moved
  inFlight :=
    InFlight.mono (s := s) rfl le_rfl rfl (fun _ _ _ hlen ht => ht.moved hsame hlen) h.inFlight

end SetChain

/-! ## Announcements -/

section NewHead

variable {a : Announcement} {rest : List Announcement}

theorem Outstanding.next {j : ℕ} (h : Outstanding cfg s j) (hqueue : s.queue = a :: rest) :
    a.reorg = true ∧ a.head / cfg.sectionSize ≤ j ∨ Outstanding cfg { s with queue := rest } j := by
  obtain ⟨b, hb, hr⟩ := h
  rw [hqueue] at hb
  rcases mem_cons.mp hb with rfl | hb
  · exact inl hr
  · exact inr ⟨b, hb, hr⟩

/-- The state after a reorg from a section on, whether or not the section was known and stored. -/
def cut (s : State parent) (changed : ℕ) : State parent :=
  { s with
    knownSections := min changed s.knownSections
    storedSections := min changed s.storedSections
    sectionHead := fun j =>
      if changed ≤ j ∧ j < s.storedSections then zeroHash else s.sectionHead j }

theorem reorgTo_eq (s : State parent) (head : ℕ) :
    reorgTo cfg s head = cut s (head / cfg.sectionSize) := by
  have hstored : ∀ (t : State parent) (changed : ℕ),
      (if changed < t.storedSections then setValidSections t changed else t) =
        { t with
          storedSections := min changed t.storedSections
          sectionHead := fun j =>
            if changed ≤ j ∧ j < t.storedSections then zeroHash else t.sectionHead j } := by
    intro t changed
    split
    · rename_i hlt
      rw [setValidSections, min_eq_left hlt.le]
    · rename_i hle
      have hhead : (fun j => if changed ≤ j ∧ j < t.storedSections then zeroHash
          else t.sectionHead j) = t.sectionHead := by
        funext j
        rw [if_neg (by omega)]
      rw [hhead, min_eq_right (Nat.le_of_not_lt hle)]
  rw [reorgTo, hstored]
  unfold cut
  split
  · rename_i hlt
    rw [min_eq_left hlt.le]
  · rename_i hle
    rw [min_eq_right (Nat.le_of_not_lt hle)]

theorem Canonical.frame {j : ℕ} (h : Canonical cfg s j) (hchain : t.chain = s.chain)
    (hcontent : t.content j = s.content j) (hhead : t.sectionHead j = s.sectionHead j) :
    Canonical cfg t j where
  content_eq := by rw [hchain, hcontent, h.content_eq]
  head_eq := by rw [hchain, hhead, h.head_eq]

theorem Indexed.cut (h : Indexed cfg s) (hqueue : s.queue = a :: rest)
    (hcalm : a.reorg = true → s.phase.busyWith ≠ some (a.head / cfg.sectionSize)) :
    Indexed cfg (cut { s with queue := rest } (a.head / cfg.sectionSize)) where
  known_lt := lt_of_le_of_lt (min_le_right _ _) h.known_lt
  stored_lt := lt_of_le_of_lt (min_le_right _ _) h.stored_lt
  queue_lt b hb := h.queue_lt b (hqueue ▸ mem_cons_of_mem _ hb)
  head_zero j hj := by
    change (if _ then _ else _) = _
    split
    · rfl
    · exact h.head_zero j (by change min _ s.storedSections ≤ j at hj; dsimp only at *; omega)
  head_ne j hj := by
    change (if _ then _ else _) ≠ _
    have hlt := lt_min_iff.mp hj
    rw [if_neg (by omega)]
    exact h.head_ne j hlt.2
  stored j hj := by
    have hlt := lt_min_iff.mp hj
    rcases h.stored j hlt.2 with hc | ho
    · exact inl (hc.frame rfl rfl (if_neg (by omega)))
    · rcases ho.next hqueue with ⟨-, hle⟩ | ho
      · omega
      · exact inr ho
  inFlight := by
    refine InFlight.mono (s := s) rfl (min_le_right _ _) rfl ?_ h.inFlight
    intro sec read hbusy _ ht
    rcases ht with hseg | ho | hlt
    · exact inl hseg
    · rcases ho.next hqueue with ⟨hr, hle⟩ | ho
      · -- the reorg reaches the section before, so that one is dropped
        have hne : a.head / cfg.sectionSize ≠ sec := by
          rintro rfl
          exact hcalm hr hbusy
        exact inr (inr (min_lt_iff.mpr (inl (lt_of_le_of_ne hle hne))))
      · exact inr (inl ho)
    · exact inr (inr (min_lt_iff.mpr (inr hlt)))

variable (cfg) in
theorem extendTo_eq (s : State parent) (head : ℕ) : ∃ known update,
    extendTo cfg s head = { s with knownSections := known, update := update } ∧
      (known = s.knownSections ∨ known ≤ head + 1) := by
  unfold extendTo
  dsimp only
  split
  · split
    · refine ⟨_, _, rfl, inr ((div_le_self _ _).trans (sub_le _ _))⟩
    · exact ⟨_, _, rfl, inl rfl⟩
  · exact ⟨_, _, rfl, inl rfl⟩

theorem Indexed.extend (h : Indexed cfg s) (hqueue : s.queue = a :: rest) (ha : a.reorg ≠ true)
    {known : ℕ} (update : Bool) (hknown : known = s.knownSections ∨ known ≤ a.head + 1) :
    Indexed cfg { s with queue := rest, knownSections := known, update := update } where
  known_lt := by
    have hlt := h.queue_lt a (hqueue ▸ mem_cons_self)
    rcases hknown with rfl | hle
    · exact h.known_lt
    · exact lt_of_le_of_lt hle hlt
  __ := h
  queue_lt b hb := h.queue_lt b (hqueue ▸ mem_cons_of_mem _ hb)
  stored j hj := by
    rcases h.stored j hj with hc | ho
    · exact inl (hc.frame rfl rfl rfl)
    · exact inr ((ho.next hqueue).resolve_left fun hr => ha hr.1)
  inFlight := by
    refine InFlight.mono (s := s) rfl le_rfl rfl ?_ h.inFlight
    intro sec read _ _ ht
    rcases ht with hseg | ho | hlt
    · exact inl hseg
    · exact inr (inl ((ho.next hqueue).resolve_left fun hr => ha hr.1))
    · exact inr (inr hlt)

end NewHead

/-! ## The loop -/

theorem Indexed.frame (h : Indexed cfg s) (hchain : t.chain = s.chain)
    (hqueue : t.queue = s.queue) (hknown : t.knownSections < Word64.size)
    (hstored : t.storedSections = s.storedSections) (hhead : t.sectionHead = s.sectionHead)
    (hcontent : ∀ j < s.storedSections, t.content j = s.content j) (hf : InFlight cfg t) :
    Indexed cfg t where
  known_lt := hknown
  stored_lt := hstored ▸ h.stored_lt
  queue_lt := hqueue ▸ h.queue_lt
  head_zero := by rw [hstored, hhead]; exact h.head_zero
  head_ne := by rw [hstored, hhead]; exact h.head_ne
  stored j hj := by
    rw [hstored] at hj
    refine (h.stored j hj).imp (fun hc => ?_) fun ho => ?_
    · exact hc.frame hchain (hcontent j hj) (by rw [hhead])
    · unfold Outstanding
      rw [hqueue]
      exact ho
  inFlight := hf

theorem Reading.process {oldHead lastHead h : Hash} (hr : Reading cfg s sec oldHead lastHead read)
    (hlt : read.length < cfg.sectionSize)
    (hget : s.chain.hashes[sec * cfg.sectionSize + read.length]? = some h)
    (hparent : parent h = lastHead) : Reading cfg s sec oldHead h (read ++ [h]) := by
  have hlinked : (read ++ [h]).IsChain fun a b => parent b = a := by
    refine isChain_append.mpr ⟨hr.linked, isChain_singleton h, ?_⟩
    intro x hx y hy
    cases hy
    have hlast := hr.last
    cases read with
    | nil => cases hx
    | cons z read =>
      rw [getLast?_cons_cons] at hlast
      rw [hparent]
      exact Option.some.inj (hlast.symm.trans hx)
  have hsucc := segment_succ hget
  have hread : read = segment s.chain.hashes (sec * cfg.sectionSize) read.length := by
    have hle := (List.getElem?_eq_some_iff.mp hget).1.le
    refine linked_eq (length_segment hle).symm hlinked ?_
    rw [← hsucc]
    exact (s.chain.linked.drop _).take _
  exact
    { hr with
      length_le := by rw [length_append]; exact hlt
      last := by rw [← cons_append, getLast?_concat]
      linked := hlinked
      ne_zero := by
        intro x hx
        rcases mem_append.mp hx with hx | hx
        · exact hr.ne_zero x hx
        · cases mem_singleton.mp hx
          exact s.chain.ne_zero _ (mem_of_getElem? hget)
      tracks := by
        left
        rw [length_append, length_singleton, hsucc, ← hread] }

theorem Reading.commit {oldHead lastHead : Hash} (hr : Reading cfg s sec oldHead lastHead read)
    (hlen : read.length = cfg.sectionSize) :
    Returned cfg { s with content := update s.content sec read } sec oldHead lastHead := by
  have hcontent : update s.content sec read sec = read := update_self ..
  have hlast : read.getLast? = some lastHead := by
    have hpos := cfg.sectionSize_pos
    have hl := hr.last
    cases read with
    | nil => simp only [length_nil] at hlen; omega
    | cons x read => exact getLast?_cons_cons ▸ hl
  exact
    { hr with
      newHead_ne := hr.ne_zero lastHead (mem_of_getLast? hlast)
      length_eq := (congrArg length hcontent).trans hlen
      last := (congrArg getLast? hcontent).trans hlast
      tracks := by
        change Tracks cfg s sec (update s.content sec read sec)
        rw [hcontent]
        exact hr.tracks }

theorem Returned.stored_eq (hf : Returned cfg s sec oldHead newHead) (h : Indexed cfg s)
    (hold : oldHead = s.sectionHead (sub sec 1)) : s.storedSections = sec := by
  by_contra hne
  have hlt : s.storedSections < sec := lt_of_le_of_ne hf.stored_le hne
  have hsec := hf.sec_lt
  have hpos : 0 < sec := by omega
  rw [sub_of_le hpos (by omega)] at hold
  exact hf.oldHead_ne hpos (hold.trans (h.head_zero _ (by omega)))

def withSection (s : State parent) (newHead : Hash) : State parent :=
  { s with
    sectionHead := update s.sectionHead s.storedSections newHead
    storedSections := s.storedSections + 1
    phase := .idle }

theorem setValidSections_succ (s : State parent) (newHead : Hash) :
    { setValidSections
      { s with sectionHead := update s.sectionHead s.storedSections newHead }
      (s.storedSections + 1) with phase := .idle } = withSection s newHead := by
  have hhead : (fun j => if s.storedSections + 1 ≤ j ∧ j < s.storedSections then zeroHash
      else update s.sectionHead s.storedSections newHead j) =
      update s.sectionHead s.storedSections newHead := by
    funext j
    rw [if_neg (by omega)]
  rw [setValidSections, withSection, hhead]

variable (h : Indexed cfg s)
include h

theorem Indexed.store (hf : Returned cfg s s.storedSections oldHead newHead) :
    Indexed cfg (withSection s newHead) where
  __ := h
  stored_lt := hf.sec_lt
  head_zero j hj := by
    have hlt : s.storedSections < j := hj
    exact (update_of_ne hlt.ne' ..).trans (h.head_zero j hlt.le)
  head_ne j hj := by
    rcases Nat.lt_succ_iff_lt_or_eq.mp hj with hlt | rfl
    · exact ne_of_eq_of_ne (update_of_ne hlt.ne ..) (h.head_ne j hlt)
    · exact ne_of_eq_of_ne (update_self ..) hf.newHead_ne
  stored j hj := by
    rcases Nat.lt_succ_iff_lt_or_eq.mp hj with hlt | rfl
    · rcases h.stored j hlt with hc | ho
      · exact inl (hc.frame rfl rfl (update_of_ne hlt.ne ..))
      · exact inr ho
    · rcases hf.tracks with hseg | ho | hlt
      · rw [hf.length_eq] at hseg
        exact inl (Canonical.of_segment hseg hf.last hf.length_eq (update_self ..))
      · exact inr ho
      · exact absurd hlt (lt_irrefl _)
  inFlight := trivial

theorem Indexed.reschedule : Indexed cfg (reschedule s) := by
  unfold ChainIndexer.reschedule
  split
  · exact h.frame rfl rfl h.known_lt rfl rfl (fun _ _ => rfl)
      (InFlight.mono (s := s) rfl le_rfl rfl (fun _ _ _ _ ht => ht) h.inFlight)
  · exact h

/-! ## Steps and runs -/

theorem start_indexed (hstep : step cfg s .start = some t) : Indexed cfg t := by
  simp only [step] at hstep
  split at hstep
  · rename_i hphase
    split at hstep
    · split at hstep
      · rename_i hlt
        cases hstep
        have hknown := h.known_lt
        refine h.frame rfl rfl h.known_lt rfl rfl (fun _ _ => rfl) ?_
        exact
          { stored_le := le_rfl
            sec_lt := by omega
            oldHead_ne := by
              intro hpos
              rw [if_pos hpos]
              exact h.head_ne _ (by omega)
            length_le := zero_le _
            last := rfl
            linked := isChain_nil
            ne_zero := nofun
            tracks := Tracks.nil _ }
      · cases hstep
        refine h.frame rfl rfl h.known_lt rfl rfl (fun _ _ => rfl) ?_
        exact InFlight.mono (s := s) rfl le_rfl rfl (fun _ _ _ _ ht => ht) h.inFlight
    · cases hstep
  · cases hstep

theorem process_indexed (hstep : step cfg s .process = some t) : Indexed cfg t := by
  have hfail : ∀ sec oldHead, Indexed cfg { s with phase := .processed sec oldHead none } :=
    fun _ _ => h.frame rfl rfl h.known_lt rfl rfl (fun _ _ => rfl) trivial
  simp only [step] at hstep
  split at hstep
  · rename_i sec oldHead lastHead read hphase
    obtain ⟨hlen, rfl⟩ := of_guard hstep
    have hr : Reading cfg s sec oldHead lastHead read := by
      have hf := h.inFlight
      unfold InFlight at hf
      rwa [hphase] at hf
    unfold processOne
    split
    · exact hfail _ _
    · rename_i x hget
      split
      · exact hfail _ _
      · rename_i hparent
        have hnext := hr.process hlen hget (not_not.mp hparent)
        exact h.frame rfl rfl h.known_lt rfl rfl (fun _ _ => rfl) { hnext with }
  · cases hstep

theorem commit_indexed {ok : Bool} (hstep : step cfg s (.commit ok) = some t) : Indexed cfg t := by
  simp only [step] at hstep
  split at hstep
  · rename_i sec oldHead lastHead read hphase
    have hr : Reading cfg s sec oldHead lastHead read := by
      have hf := h.inFlight
      unfold InFlight at hf
      rwa [hphase] at hf
    split at hstep
    · rename_i hlen
      split at hstep
      · cases hstep
        refine h.frame rfl rfl h.known_lt rfl rfl (fun j hj => ?_) { hr.commit hlen with }
        exact update_of_ne (hj.trans_le hr.stored_le).ne ..
      · cases hstep
        exact h.frame rfl rfl h.known_lt rfl rfl (fun _ _ => rfl) trivial
    · cases hstep
  · cases hstep

theorem finish_indexed (hstep : step cfg s .finish = some t) : Indexed cfg t := by
  have hfail : Indexed cfg { s with knownSections := s.storedSections, phase := .idle } :=
    h.frame rfl rfl h.stored_lt rfl rfl (fun _ _ => rfl) trivial
  simp only [step] at hstep
  split at hstep
  · rename_i sec oldHead result hphase
    split at hstep
    · rename_i newHead
      split at hstep
      · rename_i hold
        cases hstep
        have hf : Returned cfg s sec oldHead newHead := by
          have hf := h.inFlight
          unfold InFlight at hf
          rwa [hphase] at hf
        obtain rfl := hf.stored_eq h hold
        rw [setValidSections_succ]
        exact (h.store hf).reschedule
      · cases hstep
        exact hfail
    · cases hstep
      exact hfail
  · cases hstep

theorem step_indexed {a : Action parent} (hcalm : Calm cfg s a) (hstep : step cfg s a = some t) :
    Indexed cfg t := by
  cases a with
  | setChain chain ancestor =>
    obtain ⟨hok, rfl⟩ := of_guard hstep
    exact h.moved hok.2.2 hok.2.1
  | newHead =>
    simp only [step] at hstep
    split at hstep
    · cases hstep
    · rename_i b rest hqueue
      split at hstep
      · cases hstep
        rw [reorgTo_eq]
        exact h.cut hqueue (hcalm b (by rw [hqueue]; rfl))
      · rename_i hb
        cases hstep
        obtain ⟨known, update, heq, hknown⟩ := extendTo_eq cfg { s with queue := rest } b.head
        rw [heq]
        exact h.extend hqueue hb update hknown
  | start => exact start_indexed h hstep
  | process => exact process_indexed h hstep
  | commit ok => exact commit_indexed h hstep
  | finish => exact finish_indexed h hstep
  | timer =>
    simp only [step] at hstep
    split at hstep
    · cases hstep
      exact h.frame rfl rfl h.known_lt rfl rfl (fun _ _ => rfl)
        (InFlight.mono (s := s) rfl le_rfl rfl (fun _ _ _ _ ht => ht) h.inFlight)
    · cases hstep

omit h

variable (cfg s) in
structure Start : Prop extends Counted s where
  idle : s.phase = .idle
  stored : ∀ j < s.storedSections, Canonical cfg s j

theorem Start.indexed (h : Start cfg s) : Indexed cfg s where
  __ := h
  head_ne j hj := s.chain.ne_zero _ (mem_of_getElem? (h.stored j hj).head_eq)
  stored j hj := inl (h.stored j hj)
  inFlight := by
    unfold InFlight
    rw [h.idle]
    trivial

end Invariant

/-- **Indexed sections are canonical.** -/
theorem sections_canonical {parent : Hash → Hash} {cfg : IndexerConfig} {start s : State parent}
    {as : List (Action parent)} (hstart : Start cfg start)
    (hrun : run (step cfg) start as = some s)
    (hcalm : Along (step cfg) (Calm cfg) start as)
    (hqueue : ∀ a ∈ s.queue, a.reorg = false) : ∀ j < s.storedSections, Canonical cfg s j := by
  have hindexed : Indexed cfg s :=
    run_invariant_along (fun _ _ _ h hok hstep => step_indexed h hok hstep)
      hstart.indexed hcalm hrun
  intro j hj
  refine (hindexed.stored j hj).resolve_right ?_
  rintro ⟨a, ha, hr, -⟩
  rw [hqueue a ha] at hr
  cases hr

/-! ## A reorg into the section in flight -/

open HeaderChain (hashOf)

/-- Blocks 1, 2 and 3 in a row, on them block 4, and 5 followed by 6. -/
def forkParent (h : Hash) : Hash :=
  match h.bytes.head? with
  | some 2 => hashOf 1
  | some 3 => hashOf 2
  | some 4 => hashOf 3
  | some 5 => hashOf 3
  | some 6 => hashOf 5
  | _ => zeroHash

def oldLine : HeaderLine forkParent where
  hashes := [hashOf 1, hashOf 2, hashOf 3, hashOf 4]
  ne_zero := by decide
  linked := by decide
  length_lt := by decide

def newLine : HeaderLine forkParent where
  hashes := [hashOf 1, hashOf 2, hashOf 3, hashOf 5, hashOf 6]
  ne_zero := by decide
  linked := by decide
  length_lt := by decide

def pairs : IndexerConfig := ⟨2, 0, by decide⟩

def fresh : State forkParent where
  chain := oldLine
  queue := [⟨3, false⟩]
  knownSections := 0
  storedSections := 0
  sectionHead := fun _ => zeroHash
  content := fun _ => []
  update := false
  timers := 0
  phase := .idle

theorem fresh_start : Start pairs fresh where
  idle := rfl
  known_lt := by decide
  stored_lt := by decide
  queue_lt := by decide
  head_zero _ _ := rfl
  stored _ hj := absurd hj (not_lt_zero _)

def oneSection : List (Action forkParent) := [.start, .process, .process, .commit true, .finish]

theorem sections_canonical_between : ∃ s, run (step pairs) fresh
    (.newHead :: oneSection ++ [.setChain newLine 2, .newHead, .newHead] ++ oneSection) = some s ∧
      s.storedSections = 2 ∧ ∀ j < s.storedSections, Canonical pairs s j := by
  refine exists_run (by decide +kernel) fun hrun => ⟨by decide +kernel, ?_⟩
  exact sections_canonical fresh_start hrun (by decide +kernel) (by decide +kernel)

/-- **The abandoned section is stored**: block 4 was read and is replaced by 5 before the commit. -/
theorem stale_section_stored : Start pairs fresh ∧ ∃ s, run (step pairs) fresh
    (.newHead :: oneSection ++ [.timer, .start, .process, .process, .commit true,
      .setChain newLine 2, .newHead, .newHead, .finish]) = some s ∧
      s.queue = [] ∧ 1 < s.storedSections ∧ ¬ Canonical pairs s 1 := by
  refine ⟨fresh_start, ?_⟩
  refine exists_run (by decide +kernel) fun _ =>
    ⟨isEmpty_iff.mp (by decide +kernel), by decide +kernel, fun hc => ?_⟩
  exact absurd hc.head_eq (by decide +kernel)

end ChainIndexer

end XChain
