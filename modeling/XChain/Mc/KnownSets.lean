import XChain.Mc.Gossip

/-!
# What a peer is known to have

`MarkTransaction`, `MarkBlock` and `MarkVaultEventWithSigs` drop known hashes until there is room
for one more; the sending methods add their hashes without a look at the limit.

* **`known_bounded_iff`**: the three sets stay within their limits if and only if every send finds
  room for its hashes.
-/

namespace XChain.KnownSets

open StepMachine List Function

def maxKnownTxs : ℕ := 32768
def maxKnownBlocks : ℕ := 1024

/-- The set a hash goes to. -/
inductive Kind
  | tx | block | vaultEvent
  deriving DecidableEq

def maxKnown : Kind → ℕ
  | .tx => maxKnownTxs
  | .block => maxKnownBlocks
  | .vaultEvent => maxKnownVaultEventWishSigs

/-- The queues of `broadcastloop`. -/
inductive Queue
  | txs | vaultEvents | props | anns
  deriving DecidableEq

def Queue.kind : Queue → Kind
  | .txs => .tx
  | .vaultEvents => .vaultEvent
  | .props | .anns => .block

def Queue.capacity : Queue → ℕ
  | .txs => 512
  | .vaultEvents => maxQueuedVaultEvents
  | .props | .anns => 8

structure Peer (Hash : Type) where
  known : Kind → Finset Hash
  queued : Queue → List (List Hash)

/-- A call of a marking method with the hashes its eviction pops, of a sending method, of its
asynchronous form, or a round of `broadcastloop`. -/
inductive Call (Hash : Type)
  | mark (k : Kind) (hash : Hash) (popped : Finset Hash)
  | send (k : Kind) (hashes : List Hash)
  | asyncSend (q : Queue) (hashes : List Hash)
  | broadcastloop (q : Queue)

namespace Call

variable {Hash : Type} (hash : Hash) (hashes : List Hash) (popped : Finset Hash)

def markTransaction : Call Hash := .mark .tx hash popped
def markBlock : Call Hash := .mark .block hash popped
def markVaultEventWithSigs : Call Hash := .mark .vaultEvent hash popped
def sendTransactions : Call Hash := .send .tx hashes
def sendVaultEventWithSigs : Call Hash := .send .vaultEvent hashes
def sendNewBlockHashes : Call Hash := .send .block hashes
def sendNewBlock : Call Hash := .send .block [hash]
def asyncSendTransactions : Call Hash := .asyncSend .txs hashes
def asyncSendVaultEventWithSigs : Call Hash := .asyncSend .vaultEvents hashes
def asyncSendNewBlockHash : Call Hash := .asyncSend .anns [hash]
def asyncSendNewBlock : Call Hash := .asyncSend .props [hash]

end Call

variable {Hash : Type} [DecidableEq Hash]

def newPeer : Peer Hash := ⟨fun _ => ∅, fun _ => []⟩

/-- The set of known hashes with more of them, without eviction. -/
def Peer.add (p : Peer Hash) (k : Kind) (hashes : List Hash) : Peer Hash :=
  { p with known := update p.known k (p.known k ∪ hashes.toFinset) }

def step (p : Peer Hash) : Call Hash → Option (Peer Hash)
  | .mark k hash popped =>
    -- hashes are popped while the set is not below its limit
    if popped ⊆ p.known k ∧ popped.card = (p.known k).card + 1 - maxKnown k then
      some { p with known := update p.known k (insert hash (p.known k \ popped)) }
    else none
  | .send k hashes => some (p.add k hashes)
  | .asyncSend q hashes =>
    if (p.queued q).length < q.capacity then
      some (Peer.add { p with queued := update p.queued q (p.queued q ++ [hashes]) } q.kind hashes)
    else some p
  | .broadcastloop q =>
    match p.queued q with
    | [] => none
    | hashes :: rest =>
      some (Peer.add { p with queued := update p.queued q rest } q.kind hashes)

def Peer.Bounded (p : Peer Hash) : Prop := ∀ k, (p.known k).card ≤ maxKnown k

/-- The hashes a call adds without eviction. -/
def Call.adds (p : Peer Hash) : Call Hash → Option (Kind × List Hash)
  | .mark .. => none
  | .send k hashes => some (k, hashes)
  | .asyncSend q hashes =>
    if (p.queued q).length < q.capacity then some (q.kind, hashes) else none
  | .broadcastloop q => (p.queued q).head?.map (q.kind, ·)

/-- There is room for those hashes of the call that are not known yet. -/
def Fits (p : Peer Hash) (c : Call Hash) : Prop :=
  ∀ k hashes, c.adds p = some (k, hashes) →
    (hashes.toFinset \ p.known k).card + (p.known k).card ≤ maxKnown k

theorem card_mark_le {s popped : Finset Hash} {n : ℕ} (hash : Hash) (hn : 0 < n) (hsub : popped ⊆ s)
    (h : popped.card = s.card + 1 - n) : (insert hash (s \ popped)).card ≤ n := by
  have := Finset.card_insert_le hash (s \ popped)
  rw [Finset.card_sdiff_of_subset hsub] at this
  omega

variable {p t : Peer Hash} {c : Call Hash}

/-- What a call does to the sets: it adds the hashes of a send, or keeps within the limit. -/
theorem step_cases (h : step p c = some t) :
    (∃ k hashes, c.adds p = some (k, hashes) ∧
      t.known = update p.known k (p.known k ∪ hashes.toFinset)) ∨
    c.adds p = none ∧ (t.known = p.known ∨
      ∃ k s, s.card ≤ maxKnown k ∧ t.known = update p.known k s) := by
  cases c with
  | mark k hash popped =>
    simp only [step] at h
    split_ifs at h with hpop
    cases h
    have hmax : 0 < maxKnown k := by cases k <;> decide
    exact .inr ⟨rfl, .inr ⟨k, _, card_mark_le hash hmax hpop.1 hpop.2, rfl⟩⟩
  | send k hashes =>
    cases h
    exact .inl ⟨k, hashes, rfl, rfl⟩
  | asyncSend q hashes =>
    simp only [step, Call.adds] at h ⊢
    split_ifs at h ⊢
    · cases h
      exact .inl ⟨_, _, rfl, rfl⟩
    · cases h
      exact .inr ⟨rfl, .inl rfl⟩
  | broadcastloop q =>
    simp only [step, Call.adds] at h ⊢
    split at h
    · cases h
    · cases h
      exact .inl ⟨_, _, by rw [‹p.queued q = _›]; rfl, rfl⟩

omit [DecidableEq Hash] in
theorem update_bounded {k : Kind} {s : Finset Hash} (hp : p.Bounded) (hs : s.card ≤ maxKnown k)
    (ht : t.known = update p.known k s) : t.Bounded := by
  intro k'
  rw [ht]
  by_cases hk : k' = k
  · subst hk
    rwa [update_self]
  · rw [update_of_ne hk]
    exact hp k'

theorem step_bounded (hp : p.Bounded) (hfits : Fits p c) (h : step p c = some t) : t.Bounded := by
  obtain ⟨k, hashes, hadds, ht⟩ | ⟨-, ht | ⟨k, s, hs, ht⟩⟩ := step_cases h
  · have hroom := hfits k hashes hadds
    rw [Finset.card_sdiff_add_card, Finset.union_comm] at hroom
    exact update_bounded hp hroom ht
  · exact fun k => ht ▸ hp k
  · exact update_bounded hp hs ht

theorem step_unbounded (hfits : ¬ Fits p c) (h : step p c = some t) : ¬ t.Bounded := by
  intro hbounded
  refine hfits fun k hashes hadds => ?_
  obtain ⟨k', hashes', hadds', ht⟩ | ⟨hnone, -⟩ := step_cases h
  · obtain ⟨rfl, rfl⟩ := Prod.mk.inj (Option.some.inj (hadds'.symm.trans hadds))
    have hmax := hbounded k'
    rw [ht, update_self, Finset.union_comm] at hmax
    rwa [Finset.card_sdiff_add_card]
  · cases hnone.symm.trans hadds

/-- **When the known sets are bounded.** -/
theorem known_bounded_iff {calls : List (Call Hash)} {u : Peer Hash}
    (h : run step newPeer calls = some u) :
    (∀ bs cs t, calls = bs ++ cs → run step newPeer bs = some t → t.Bounded) ↔
      Along step Fits newPeer calls := by
  have hnew : (newPeer : Peer Hash).Bounded := fun _ => Nat.zero_le _
  have hstep (p : Peer Hash) c t (hp : p.Bounded) := @step_bounded _ _ p t c hp
  have hbad (p : Peer Hash) c t (_ : p.Bounded) := @step_unbounded _ _ p t c
  constructor
  · intro hbounded
    refine along_of_no_bad hstep hbad hnew h fun bs cs t hsplit ht => ?_
    exact not_not.mpr (hbounded bs cs t hsplit ht)
  · intro halong bs cs t hsplit ht
    exact run_invariant_along hstep hnew (hsplit ▸ halong).of_append ht

/-- A peer after a send, and another hash in the place of 0. -/
def markedPeer (hashes : List ℕ) : Peer ℕ :=
  { newPeer.add .block hashes with
    known := update (newPeer.add .block hashes).known .block (insert 3000 (hashes.toFinset \ {0})) }

/-- A send fills the set, a mark evicts a hash, and a known one is sent. -/
theorem known_bounded_full : ∃ u, run step newPeer [.sendNewBlockHashes (range 1024),
      .markBlock 3000 {0}, .sendNewBlock 1] = some u ∧ u.Bounded ∧ 0 ∉ u.known .block := by
  obtain ⟨hashes, hrange⟩ : ∃ hashes, hashes = range 1024 := ⟨_, rfl⟩
  have hmem : ∀ n, n ∈ hashes ↔ n < 1024 := by simp [hrange]
  have hcard : hashes.toFinset.card = 1024 := by
    rw [hrange, toFinset_card_of_nodup nodup_range, length_range]
  rw [← hrange]
  have hknown : (newPeer.add .block hashes).known .block = hashes.toFinset := by
    simp [Peer.add, newPeer]
  have hmark : step (newPeer.add .block hashes) (.markBlock 3000 {0}) =
      some (markedPeer hashes) := by
    rw [markedPeer, ← hknown]
    refine if_pos ⟨by simp [hknown, hmem], ?_⟩
    rw [hknown, hcard]
    rfl
  have hrun : run step newPeer [.sendNewBlockHashes hashes, .markBlock 3000 {0},
      .sendNewBlock 1] = some ((markedPeer hashes).add .block [1]) := by
    change (step (newPeer.add .block hashes) _).bind _ = _
    rw [hmark]
    rfl
  refine ⟨_, hrun, (known_bounded_iff hrun).mpr ⟨?_, ?_⟩ _ [] _ (append_nil _).symm hrun, ?_⟩
  · rintro k _ ⟨⟩
    simp [newPeer, hcard, maxKnown, maxKnownBlocks]
  · rintro _ ⟨⟩
    refine ⟨fun _ _ => nofun, fun t ht => ⟨?_, fun _ _ => trivial⟩⟩
    cases hmark.symm.trans ht
    rintro k _ ⟨⟩
    have hfit : (insert 3000 (hashes.toFinset \ {0})).card ≤ 1024 :=
      card_mark_le _ (by decide) (by simp [hmem]) (by rw [hcard]; rfl)
    have hone : ([1].toFinset \ (markedPeer hashes).known .block).card = 0 := by
      simp [markedPeer, hmem]
    rw [hone, Nat.zero_add]
    simpa [markedPeer, maxKnown, maxKnownBlocks] using hfit
  · simp [Peer.add, markedPeer]

/-- 1025 announced blocks are all remembered. -/
theorem known_unbounded : ∃ t : Peer ℕ,
    run step newPeer [Call.sendNewBlockHashes (range 1025)] = some t ∧
      maxKnownBlocks < (t.known .block).card := by
  refine ⟨_, rfl, ?_⟩
  show 1024 < (∅ ∪ (range 1025).toFinset).card
  rw [Finset.empty_union, toFinset_card_of_nodup nodup_range, length_range]
  decide

end XChain.KnownSets
