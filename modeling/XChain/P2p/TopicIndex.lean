import XChain.P2p.TopicTable

set_option linter.unusedSectionVars false

/-!
# The two indices of the topic table

What each operation of the topic table does to the entries, as they are seen through the index of
the topics and through that of the nodes.

* **`exists_deleteEntry`**: an entry that is there is deleted from both indices;
* **`exists_evictTail`**: a topic with entries loses its oldest one; without, the loop does not end.
-/

namespace XChain.Topics

open GoMap List Option Table TopicTable Nat AList Word64 Sigma
open AList (lookup_erase lookup_erase_ne lookup_insert lookup_insert_ne)

variable {T N : Type} [DecidableEq T] [DecidableEq N]

/-! ## Invariants -/

/-- The two indices have the same entries, the counter is right and within the limits, and the
request queue has the topics. -/
structure Core (s : TopicTable T N) : Prop where
  topic_node : ∀ x i e, topicEntry s x i = some e →
    e.topic = x ∧ e.fifoIdx = i ∧ nodeEntry s e.node x = some e
  node_topic : ∀ v x e, nodeEntry s v x = some e →
    e.node = v ∧ e.topic = x ∧ topicEntry s x e.fifoIdx = some e
  requested : (s.requested.toList.map (·.topic)).Perm s.topics.keys
  topics_eq : s.globalEntries = topicTotal s
  nodes_eq : s.globalEntries = nodeTotal s
  le_max : s.globalEntries ≤ maxEntries
  le_perTopic : ∀ x ti, s.topics.lookup x = some ti → ti.entries.entries.length ≤ maxEntriesPerTopic

/-- The entries of a topic lie between the tail and the head of its fifo. -/
def Fifo (s : TopicTable T N) : Prop :=
  ∀ x ti, s.topics.lookup x = some ti → ti.fifoTail ≤ ti.fifoHead ∧
    ∀ i e, ti.entries.lookup i = some e → ti.fifoTail ≤ i ∧ i < ti.fifoHead

structure Inv (s : TopicTable T N) : Prop extends Core s where
  fifo : Fifo s

theorem inv_newTopicTable : Inv (newTopicTable : TopicTable T N) where
  topic_node _ _ _ h := by cases h
  node_topic _ _ _ h := by cases h
  requested := .refl _
  topics_eq := rfl
  nodes_eq := rfl
  le_max := zero_le _
  le_perTopic _ _ h := by cases h
  fifo _ _ h := by cases h

theorem Core.consistent {s : TopicTable T N} (h : Core s) : Consistent s where
  __ := h
  same e := by
    constructor
    · rintro ⟨x, i, he⟩
      exact ⟨e.node, x, (h.topic_node x i e he).2.2⟩
    · rintro ⟨v, x, he⟩
      exact ⟨x, e.fifoIdx, (h.node_topic v x e he).2.2⟩

/-! ## Operations that change no entry -/

section Unchanged

variable {s s' : TopicTable T N}

theorem Core.congr_nodes (h : Core s) (hview : ∀ v x, nodeEntry s' v x = nodeEntry s v x)
    (htotal : nodeTotal s' = nodeTotal s) (htopics : s'.topics = s.topics)
    (hrequested : s'.requested = s.requested) (hglobal : s'.globalEntries = s.globalEntries) :
    Core s' := by
  have htopic : ∀ x i, topicEntry s' x i = topicEntry s x i := fun x i => by
    rw [topicEntry, htopics]
    rfl
  refine ⟨fun x i e he => ?_, fun v x e he => ?_, ?_, ?_, ?_, ?_, ?_⟩
  · rw [hview]
    exact h.topic_node x i e (htopic x i ▸ he)
  · rw [htopic]
    exact h.node_topic v x e (hview v x ▸ he)
  · rw [hrequested, htopics]
    exact h.requested
  · rw [hglobal, topicTotal, htopics]
    exact h.topics_eq
  · rw [hglobal, htotal]
    exact h.nodes_eq
  · rw [hglobal]
    exact h.le_max
  · rw [htopics]
    exact h.le_perTopic

theorem Core.congr_topics (h : Core s) (hview : ∀ x i, topicEntry s' x i = topicEntry s x i)
    (htotal : topicTotal s' = topicTotal s)
    (hrequested : (s'.requested.toList.map (·.topic)).Perm s'.topics.keys)
    (hperTopic : ∀ x ti, s'.topics.lookup x = some ti →
      ti.entries.entries.length ≤ maxEntriesPerTopic)
    (hnodes : s'.nodes = s.nodes) (hglobal : s'.globalEntries = s.globalEntries) : Core s' := by
  have hnode : ∀ v x, nodeEntry s' v x = nodeEntry s v x := fun v x => by
    rw [nodeEntry, hnodes]
    rfl
  refine ⟨fun x i e he => ?_, fun v x e he => ?_, hrequested, ?_, ?_, ?_, hperTopic⟩
  · rw [hnode]
    exact h.topic_node x i e (hview x i ▸ he)
  · rw [hview]
    exact h.node_topic v x e (hnode v x ▸ he)
  · rw [hglobal, htotal]
    exact h.topics_eq
  · rw [hglobal, nodeTotal, hnodes]
    exact h.nodes_eq
  · rw [hglobal]
    exact h.le_max

theorem Fifo.congr (h : Fifo s) (htopics : s'.topics = s.topics) : Fifo s' := by
  unfold Fifo
  rw [htopics]
  exact h

theorem Inv.congr_nodes (h : Inv s) (hview : ∀ v x, nodeEntry s' v x = nodeEntry s v x)
    (htotal : nodeTotal s' = nodeTotal s) (htopics : s'.topics = s.topics)
    (hrequested : s'.requested = s.requested) (hglobal : s'.globalEntries = s.globalEntries) :
    Inv s' :=
  ⟨h.toCore.congr_nodes hview htotal htopics hrequested hglobal, h.fifo.congr htopics⟩

theorem Inv.congr (h : Inv s) (hnodes : s'.nodes = s.nodes) (htopics : s'.topics = s.topics)
    (hrequested : s'.requested = s.requested) (hglobal : s'.globalEntries = s.globalEntries) :
    Inv s' := by
  refine h.congr_nodes (fun v x => ?_) ?_ htopics hrequested hglobal
  · rw [nodeEntry, hnodes]
    rfl
  · rw [nodeTotal, hnodes]
    rfl

theorem nodeEntry_setNode (s : TopicTable T N) (v : N) (n : NodeInfo T N) (u : N) (x : T) :
    nodeEntry (s.setNode v n) u x =
      if u = v then n.entries.lookup x else nodeEntry s u x := by
  unfold nodeEntry setNode
  by_cases hu : u = v
  · subst hu
    rw [if_pos rfl, lookup_insert, bind_some]
  · rw [if_neg hu, lookup_insert_ne hu]

theorem topicEntry_setTopic (s : TopicTable T N) (y : T) (ti : TopicInfo T N) (x : T) (i : ℕ) :
    topicEntry (s.setTopic y ti) x i =
      if x = y then ti.entries.lookup i else topicEntry s x i := by
  unfold topicEntry setTopic
  by_cases hx : x = y
  · subst hx
    rw [if_pos rfl, lookup_insert, bind_some]
  · rw [if_neg hx, lookup_insert_ne hx]

theorem nodeEntry_of_lookup {v : N} {n : NodeInfo T N} (h : s.nodes.lookup v = some n) (x : T) :
    nodeEntry s v x = n.entries.lookup x := by
  rw [nodeEntry, h, bind_some]

variable {ti : TopicInfo T N} {x : T}

theorem topicEntry_of_lookup (h : s.topics.lookup x = some ti) (i : ℕ) :
    topicEntry s x i = ti.entries.lookup i := by
  rw [topicEntry, h, bind_some]

theorem Inv.updateNode (h : Inv s) {v : N} {n n' : NodeInfo T N} (hv : s.nodes.lookup v = some n)
    (hentries : n'.entries = n.entries) : Inv (s.setNode v n') := by
  refine h.congr_nodes (fun u x => ?_) ?_ rfl rfl rfl
  · rw [nodeEntry_setNode]
    split
    · rename_i hu
      rw [hu, nodeEntry_of_lookup hv, hentries]
    · rfl
  · have hinsert : nodeTotal (s.setNode v n') + _ = nodeTotal s + _ := total_insert_of_some n' hv
    rw [hentries] at hinsert
    exact Nat.add_right_cancel hinsert

variable (env : Env T N) {t : Table T (TopicInfo T N)}

theorem Inv.getOrNewNode (h : Inv s) (v : N) : Inv (getOrNewNode env v s) := by
  unfold Topics.getOrNewNode
  cases hv : s.nodes.lookup v with
  | some n => exact h
  | none =>
    refine h.congr_nodes (fun u x => ?_) ?_ rfl rfl rfl
    · refine (nodeEntry_setNode s v _ u x).trans ?_
      split
      · rename_i hu
        rw [hu, nodeEntry, hv]
        rfl
      · rfl
    · exact total_insert_of_none _ hv

theorem getOrNewNode_isSome (v : N) (s : TopicTable T N) :
    ∃ n, (getOrNewNode env v s).nodes.lookup v = some n := by
  unfold getOrNewNode
  cases hv : s.nodes.lookup v with
  | some n => exact ⟨n, hv⟩
  | none => exact ⟨_, lookup_insert _⟩

theorem length_eq_zero_iff {β γ : Type} [DecidableEq β] {t : Table β γ} :
    t.entries.length = 0 ↔ ∀ k, t.lookup k = none := by
  rw [List.length_eq_zero_iff]
  constructor
  · intro hnil k
    refine lookup_eq_none.mpr fun hk => ?_
    rw [AList.mem_keys, AList.keys, List.keys, hnil] at hk
    cases hk
  · intro hnone
    refine List.eq_nil_iff_forall_not_mem.mpr fun e he => ?_
    have := mem_entries.mp he
    rw [hnone e.1] at this
    cases this

theorem nodeEntry_checkDeleteNode (v : N) (s : TopicTable T N) (u : N) (x : T) :
    nodeEntry (checkDeleteNode env v s) u x = nodeEntry s u x := by
  unfold checkDeleteNode
  cases hv : s.nodes.lookup v with
  | none => rfl
  | some n =>
    dsimp only
    split_ifs with hempty
    · unfold nodeEntry
      by_cases hu : u = v
      · subst hu
        rw [lookup_erase, hv]
        exact (length_eq_zero_iff.mp hempty x).symm
      · rw [lookup_erase_ne hu]
    · rfl
    · rfl

theorem checkDeleteNode_frame (v : N) (s : TopicTable T N) :
    (checkDeleteNode env v s).topics = s.topics ∧
      (checkDeleteNode env v s).globalEntries = s.globalEntries ∧
      (checkDeleteNode env v s).waitReads = s.waitReads := by
  unfold checkDeleteNode
  split
  · exact ⟨rfl, rfl, rfl⟩
  · split_ifs <;> exact ⟨rfl, rfl, rfl⟩

theorem Core.checkDeleteNode (h : Core s) (v : N) : Core (checkDeleteNode env v s) := by
  have hview := nodeEntry_checkDeleteNode env v s
  unfold Topics.checkDeleteNode at hview ⊢
  cases hv : s.nodes.lookup v with
  | none => exact h
  | some n =>
    rw [hv] at hview
    dsimp only at hview ⊢
    split_ifs at hview ⊢ with hempty hnow
    · refine h.congr_nodes hview ?_ rfl rfl rfl
      have herase : nodeTotal { s with nodes := s.nodes.erase v } + _ = nodeTotal s :=
        total_erase hv
      rw [hempty] at herase
      exact herase
    · exact h.congr_nodes hview rfl rfl rfl rfl
    · exact h

theorem checkDeleteNode_lookup_ne {u v : N} (hu : u ≠ v) (s : TopicTable T N) :
    (checkDeleteNode env v s).nodes.lookup u = s.nodes.lookup u := by
  unfold checkDeleteNode
  split
  · rfl
  · split_ifs
    · exact lookup_erase_ne hu
    · rfl
    · rfl

theorem Inv.checkDeleteNode (h : Inv s) (v : N) : Inv (checkDeleteNode env v s) :=
  ⟨h.toCore.checkDeleteNode env v, h.fifo.congr (checkDeleteNode_frame env v s).1⟩

omit [DecidableEq N] in
theorem keys_insert_perm (h : t.lookup x = none) : (t.insert x ti).keys.Perm (x :: t.keys) := by
  rw [AList.keys, AList.entries_insert_of_notMem (AList.lookup_eq_none.mp h)]
  exact .refl _

omit [DecidableEq N] in
theorem keys_insert_of_some {ti ti' : TopicInfo T N} (h : t.lookup x = some ti) :
    (t.insert x ti').keys.Perm t.keys := by
  change (map fst (t.insert x ti').entries).Perm (map fst t.entries)
  exact ((entries_perm_erase h).map fst).symm

theorem Core.getOrNewTopic (h : Core s) (x : T) : Core (getOrNewTopic x s) := by
  unfold Topics.getOrNewTopic
  cases hx : s.topics.lookup x with
  | some ti => exact h
  | none =>
    refine h.congr_topics (fun y i => ?_) ?_ ?_ (fun y ti hti => ?_) rfl rfl
    · unfold topicEntry
      by_cases hy : y = x
      · subst hy
        rw [lookup_insert, hx]
        rfl
      · rw [lookup_insert_ne hy]
    · exact total_insert_of_none _ hx
    · refine ((GoHeap.push_perm requestLess s.requested _).map _).trans ?_
      exact (h.requested.cons x).trans (keys_insert_perm hx).symm
    · rcases lookup_insert_eq_some.mp hti with ⟨-, rfl⟩ | ⟨-, hti⟩
      · exact zero_le _
      · exact h.le_perTopic y ti hti

theorem Inv.getOrNewTopic (h : Inv s) (x : T) : Inv (getOrNewTopic x s) := by
  refine ⟨h.toCore.getOrNewTopic x, ?_⟩
  unfold Topics.getOrNewTopic
  cases hx : s.topics.lookup x with
  | some ti => exact h.fifo
  | none =>
    intro y ti hti
    rcases lookup_insert_eq_some.mp hti with ⟨-, rfl⟩ | ⟨-, hti⟩
    · exact ⟨le_refl _, fun i e he => by cases he⟩
    · exact h.fifo y ti hti

theorem getOrNewTopic_isSome (x : T) (s : TopicTable T N) :
    ∃ ti, (getOrNewTopic x s).topics.lookup x = some ti := by
  unfold getOrNewTopic
  cases hx : s.topics.lookup x with
  | some ti => exact ⟨ti, hx⟩
  | none => exact ⟨_, lookup_insert _⟩

theorem exists_requestIndex (h : Core s) (hx : s.topics.lookup x = some ti) :
    ∃ item, s.requested[requestIndex s.requested x]? = some item ∧ item.topic = x := by
  have hkey : x ∈ s.topics.keys := mem_keys.mp (lookup_isSome.mp (hx ▸ rfl))
  obtain ⟨item, hitem, htopic⟩ := mem_map.mp (h.requested.mem_iff.mpr hkey)
  have hlt : requestIndex s.requested x < s.requested.toList.length :=
    findIdx_lt_length_of_exists ⟨item, hitem, decide_eq_true htopic⟩
  refine ⟨s.requested.toList[requestIndex s.requested x], ?_, ?_⟩
  · rw [← Array.getElem?_toList, getElem?_eq_getElem hlt]
  · exact of_decide_eq_true (findIdx_getElem (w := hlt))

theorem Core.checkDeleteTopic (h : Core s) (x : T) : Core (checkDeleteTopic env x s) := by
  unfold Topics.checkDeleteTopic
  cases hx : s.topics.lookup x with
  | none => exact h
  | some ti =>
    dsimp only
    split_ifs with hempty hwait
    · obtain ⟨item, hitem, htopic⟩ := exists_requestIndex h hx
      refine h.congr_topics (fun y i => ?_) ?_ ?_ (fun y ti' hti => ?_) rfl rfl
      · unfold topicEntry
        by_cases hy : y = x
        · subst hy
          rw [lookup_erase, hx]
          exact (length_eq_zero_iff.mp hempty i).symm
        · rw [lookup_erase_ne hy]
      · have herase : topicTotal { s with topics := s.topics.erase x } + _ = topicTotal s :=
          total_erase hx
        rw [hempty] at herase
        exact herase
      · have hqueue := (GoHeap.remove_perm requestLess hitem).map (·.topic)
        have hkeys := (entries_perm_erase hx).map fst
        rw [map_cons, htopic] at hqueue
        exact (hqueue.symm.trans (h.requested.trans hkeys)).cons_inv
      · exact h.le_perTopic y ti' (lookup_erase_eq_some.mp hti).2
    · exact h.congr_topics (fun _ _ => rfl) rfl h.requested h.le_perTopic rfl rfl
    · exact h

theorem checkDeleteTopic_lookup_ne {y x : T} (hy : y ≠ x) (s : TopicTable T N) :
    (checkDeleteTopic env x s).topics.lookup y = s.topics.lookup y := by
  unfold checkDeleteTopic
  split
  · rfl
  · split_ifs
    · exact lookup_erase_ne hy
    · rfl
    · rfl

theorem checkDeleteTopic_frame (x : T) (s : TopicTable T N) :
    (checkDeleteTopic env x s).nodes = s.nodes ∧
      (checkDeleteTopic env x s).globalEntries = s.globalEntries := by
  unfold checkDeleteTopic
  split
  · exact ⟨rfl, rfl⟩
  · split_ifs <;> exact ⟨rfl, rfl⟩

theorem checkDeleteTopic_lookup {y x : T}
    (h : (checkDeleteTopic env x s).topics.lookup y = some ti) : s.topics.lookup y = some ti := by
  unfold checkDeleteTopic at h
  split at h
  · exact h
  · split_ifs at h
    · exact (lookup_erase_eq_some.mp h).2
    · exact h
    · exact h

theorem Inv.checkDeleteTopic (h : Inv s) (x : T) : Inv (checkDeleteTopic env x s) :=
  ⟨h.toCore.checkDeleteTopic env x, fun y ti hti => h.fifo y ti (checkDeleteTopic_lookup env hti)⟩

end Unchanged

/-! ## Deleting an entry -/

section Delete

variable (env : Env T N) {s : TopicTable T N} {e : TopicEntry T N}

/-- The table with an entry out of both indices, before node and topic are looked at. -/
def dropEntry (s : TopicTable T N) (e : TopicEntry T N) (n : NodeInfo T N) (ti : TopicInfo T N) :
    TopicTable T N :=
  { (s.setNode e.node { n with entries := n.entries.erase e.topic }).setTopic e.topic
      { ti with entries := ti.entries.erase e.fifoIdx } with
    globalEntries := sub s.globalEntries 1 }

theorem checkDeleteNode_setTopic (v : N) (s : TopicTable T N) (x : T) (ti : TopicInfo T N)
    (globalEntries : ℕ) :
    checkDeleteNode env v { s.setTopic x ti with globalEntries := globalEntries } =
      { (checkDeleteNode env v s).setTopic x ti with globalEntries := globalEntries } := by
  unfold checkDeleteNode setTopic
  dsimp only
  cases s.nodes.lookup v with
  | none => rfl
  | some n =>
    dsimp only
    split_ifs <;> rfl

theorem checkDeleteTopic_counter (x : T) (s : TopicTable T N) (globalEntries : ℕ) :
    checkDeleteTopic env x { s with globalEntries := globalEntries } =
      { checkDeleteTopic env x s with globalEntries := globalEntries } := by
  unfold checkDeleteTopic
  dsimp only
  cases s.topics.lookup x with
  | none => rfl
  | some ti =>
    dsimp only
    split_ifs <;> rfl

variable {n : NodeInfo T N}

theorem checkDeleteNode_of_ne {v : N} (hn : s.nodes.lookup v = some n)
    (hne : n.entries.entries.length ≠ 0) : checkDeleteNode env v s = s := by
  unfold checkDeleteNode
  rw [hn]
  exact if_neg hne

variable {ti : TopicInfo T N} {s' : TopicTable T N} {x : T}

theorem checkDeleteTopic_of_ne (ht : s.topics.lookup x = some ti)
    (hne : ti.entries.entries.length ≠ 0) : checkDeleteTopic env x s = s := by
  unfold checkDeleteTopic
  rw [ht]
  exact if_neg hne

theorem unlinkNode_eq (s : TopicTable T N) (e : TopicEntry T N) (n : NodeInfo T N) :
    unlinkNode env s e n = checkDeleteNode env e.node
      (s.setNode e.node { n with entries := n.entries.erase e.topic }) := by
  unfold unlinkNode
  dsimp only
  split_ifs with hempty
  · rfl
  · exact (checkDeleteNode_of_ne env (lookup_insert s.nodes) hempty).symm

theorem unlinkTopic_eq (s : TopicTable T N) (e : TopicEntry T N) (ti : TopicInfo T N) :
    unlinkTopic env s e ti = checkDeleteTopic env e.topic
      { s.setTopic e.topic { ti with entries := ti.entries.erase e.fifoIdx } with
        globalEntries := sub s.globalEntries 1 } := by
  unfold unlinkTopic
  dsimp only
  refine Eq.trans ?_ (checkDeleteTopic_counter env _ _ _).symm
  split_ifs with hempty
  · rw [(checkDeleteTopic_frame env _ _).2]
    rfl
  · rw [checkDeleteTopic_of_ne env (lookup_insert s.topics) hempty]
    rfl

theorem deleteEntry_eq
    (hn : s.nodes.lookup e.node = some n) (ht : s.topics.lookup e.topic = some ti) :
    deleteEntry env s e =
      .ok (checkDeleteTopic env e.topic (checkDeleteNode env e.node (dropEntry s e n ti))) := by
  have htopics : (unlinkNode env s e n).topics.lookup e.topic = some ti := by
    rw [unlinkNode_eq, (checkDeleteNode_frame env _ _).1]
    exact ht
  have hglobal : (unlinkNode env s e n).globalEntries = s.globalEntries := by
    rw [unlinkNode_eq, (checkDeleteNode_frame env _ _).2.1]
    rfl
  unfold deleteEntry
  rw [hn]
  dsimp only
  rw [htopics]
  dsimp only
  rw [unlinkTopic_eq, hglobal, unlinkNode_eq, ← checkDeleteNode_setTopic]
  rfl

theorem nodeEntry_dropEntry
    (hn : s.nodes.lookup e.node = some n) (v : N) (x : T) :
    nodeEntry (dropEntry s e n ti) v x =
      if v = e.node ∧ x = e.topic then none else nodeEntry s v x := by
  unfold nodeEntry dropEntry setTopic setNode
  by_cases hv : v = e.node
  · subst hv
    rw [lookup_insert, hn, bind_some, bind_some]
    by_cases hx : x = e.topic
    · rw [if_pos ⟨rfl, hx⟩, hx, lookup_erase]
    · rw [if_neg fun h => hx h.2, lookup_erase_ne hx]
  · rw [if_neg fun h => hv h.1, lookup_insert_ne hv]

theorem topicEntry_dropEntry
    (ht : s.topics.lookup e.topic = some ti) (x : T) (i : ℕ) :
    topicEntry (dropEntry s e n ti) x i =
      if x = e.topic ∧ i = e.fifoIdx then none else topicEntry s x i := by
  unfold topicEntry dropEntry setTopic setNode
  by_cases hx : x = e.topic
  · subst hx
    rw [lookup_insert, ht, bind_some, bind_some]
    by_cases hi : i = e.fifoIdx
    · rw [if_pos ⟨rfl, hi⟩, hi, lookup_erase]
    · rw [if_neg fun h => hi h.2, lookup_erase_ne hi]
  · rw [if_neg fun h => hx h.1, lookup_insert_ne hx]

theorem Core.dropEntry (h : Core s)
    (hn : s.nodes.lookup e.node = some n) (ht : s.topics.lookup e.topic = some ti)
    (hne : n.entries.lookup e.topic = some e) (hte : ti.entries.lookup e.fifoIdx = some e) :
    Core (dropEntry s e n ti) ∧
      (Topics.dropEntry s e n ti).globalEntries + 1 = s.globalEntries := by
  -- the counter is not zero
  have htopics : topicTotal (Topics.dropEntry s e n ti) + 1 = topicTotal s := by
    have hinsert : topicTotal (Topics.dropEntry s e n ti) + ti.entries.entries.length =
        topicTotal s + (ti.entries.erase e.fifoIdx).entries.length := total_insert_of_some _ ht
    have hlength := length_erase hte
    omega
  have hnodes : nodeTotal (Topics.dropEntry s e n ti) + 1 = nodeTotal s := by
    have hinsert : nodeTotal (Topics.dropEntry s e n ti) + n.entries.entries.length =
        nodeTotal s + (n.entries.erase e.topic).entries.length := total_insert_of_some _ hn
    have hlength := length_erase hne
    omega
  have hmax : s.globalEntries < Word64.size := lt_of_le_of_lt h.le_max (by decide)
  have hglobal : (Topics.dropEntry s e n ti).globalEntries = s.globalEntries - 1 :=
    sub_of_le (by rw [h.topics_eq]; omega) hmax
  have htopicsEq := h.topics_eq
  have hnodesEq := h.nodes_eq
  refine ⟨⟨fun x i d hd => ?_, fun v x d hd => ?_, ?_, by omega, by omega, ?_,
    fun x ti' hti => ?_⟩, by omega⟩
  · rw [topicEntry_dropEntry ht] at hd
    obtain ⟨hother, hd⟩ := ite_none_left_eq_some.mp hd
    obtain ⟨htopic, hidx, hnode⟩ := h.topic_node x i d hd
    refine ⟨htopic, hidx, ?_⟩
    rw [nodeEntry_dropEntry hn, if_neg, hnode]
    rintro ⟨hv, hx⟩
    -- an entry of the node for the topic is the one that goes
    rw [hv, hx, nodeEntry_of_lookup hn, hne] at hnode
    cases hnode
    exact hother ⟨hx, hidx.symm⟩
  · rw [nodeEntry_dropEntry hn] at hd
    obtain ⟨hother, hd⟩ := ite_none_left_eq_some.mp hd
    obtain ⟨hnode, htopic, hidx⟩ := h.node_topic v x d hd
    refine ⟨hnode, htopic, ?_⟩
    rw [topicEntry_dropEntry ht, if_neg, hidx]
    rintro ⟨hx, hi⟩
    rw [hx, hi, topicEntry_of_lookup ht, hte] at hidx
    cases hidx
    exact hother ⟨hnode.symm, hx⟩
  · exact h.requested.trans (keys_insert_of_some ht).symm
  · rw [hglobal]
    exact le_trans (sub_le _ _) h.le_max
  · rcases lookup_insert_eq_some.mp hti with ⟨-, rfl⟩ | ⟨-, hti⟩
    · have hlength := length_erase hte
      have hle := h.le_perTopic _ _ ht
      dsimp only
      omega
    · exact h.le_perTopic x ti' hti

/-- What deleting an entry does. The topic goes with its last entry, if it may be forgotten. -/
structure Deleted (s : TopicTable T N) (e : TopicEntry T N) (s' : TopicTable T N) : Prop where
  core : Core s'
  counter : s'.globalEntries + 1 = s.globalEntries
  node_view : ∀ v x, nodeEntry s' v x = if v = e.node ∧ x = e.topic then none else nodeEntry s v x
  node_ne : ∀ v, v ≠ e.node → s'.nodes.lookup v = s.nodes.lookup v
  topic_ne : ∀ x, x ≠ e.topic → s'.topics.lookup x = s.topics.lookup x
  topic_self : ∀ ti, s.topics.lookup e.topic = some ti → s'.topics.lookup e.topic =
    if ti.entries.entries.length = 1 ∧ env.minWait s.waitReads = true then none
    else some { ti with entries := ti.entries.erase e.fifoIdx }

theorem checkDeleteTopic_lookup_self (ht : s.topics.lookup x = some ti) :
    (checkDeleteTopic env x s).topics.lookup x =
      if ti.entries.entries.length = 0 ∧ env.minWait s.waitReads = true then none else some ti := by
  unfold checkDeleteTopic
  rw [ht]
  dsimp only
  split_ifs with hempty hwait hboth hboth hboth
  · exact lookup_erase _ _
  · exact absurd ⟨hempty, hwait⟩ hboth
  · exact absurd hboth.2 hwait
  · exact ht
  · exact absurd hboth.1 hempty
  · exact ht

/-- **An entry that is there is deleted**, from both indices. -/
theorem exists_deleteEntry (h : Core s) (he : nodeEntry s e.node e.topic = some e) :
    ∃ s', deleteEntry env s e = .ok s' ∧ Deleted env s e s' := by
  obtain ⟨n, hn, hne⟩ := bind_eq_some_iff.mp he
  obtain ⟨-, -, hte⟩ := h.node_topic _ _ _ he
  obtain ⟨ti, ht, hte⟩ := bind_eq_some_iff.mp hte
  obtain ⟨hcore, hcounter⟩ := h.dropEntry hn ht hne hte
  have hlength := length_erase hte
  obtain ⟨htopics, hglobal, hwait⟩ := checkDeleteNode_frame env e.node (dropEntry s e n ti)
  obtain ⟨hnodes, hsame⟩ := checkDeleteTopic_frame env e.topic
    (checkDeleteNode env e.node (dropEntry s e n ti))
  refine ⟨_, deleteEntry_eq env hn ht, (hcore.checkDeleteNode env _).checkDeleteTopic env _, ?_,
    fun v x => ?_, fun v hv => ?_, fun x hx => ?_, fun ti' ht' => ?_⟩
  · rw [hsame, hglobal]
    exact hcounter
  · unfold nodeEntry
    rw [hnodes]
    exact (nodeEntry_checkDeleteNode env _ _ v x).trans (nodeEntry_dropEntry hn v x)
  · rw [hnodes, checkDeleteNode_lookup_ne env hv]
    exact lookup_insert_ne hv
  · rw [checkDeleteTopic_lookup_ne env hx, htopics]
    exact lookup_insert_ne hx
  · cases ht.symm.trans ht'
    have hself : (checkDeleteNode env e.node (dropEntry s e n ti)).topics.lookup e.topic =
        some { ti with entries := ti.entries.erase e.fifoIdx } := by
      rw [htopics]
      exact lookup_insert _
    rw [checkDeleteTopic_lookup_self env hself, hwait]
    refine if_congr (and_congr_left fun _ => ?_) rfl rfl
    dsimp only
    omega

theorem Deleted.topic_lookup (h : Deleted env s e s') {ti' : TopicInfo T N}
    (ht : s.topics.lookup e.topic ≠ none) (hx : s'.topics.lookup x = some ti') :
    ∃ ti, s.topics.lookup x = some ti ∧ ti'.fifoTail = ti.fifoTail ∧ ti'.fifoHead = ti.fifoHead ∧
      ti'.entries = if x = e.topic then ti.entries.erase e.fifoIdx else ti.entries := by
  by_cases hxe : x = e.topic
  · subst hxe
    obtain ⟨ti, hti⟩ := ne_none_iff_exists'.mp ht
    rw [h.topic_self ti hti] at hx
    obtain ⟨-, hx⟩ := ite_none_left_eq_some.mp hx
    cases hx
    exact ⟨ti, hti, rfl, rfl, (if_pos rfl).symm⟩
  · rw [h.topic_ne x hxe] at hx
    exact ⟨ti', hx, rfl, rfl, (if_neg hxe).symm⟩

theorem Deleted.fifo (h : Deleted env s e s') (hf : Fifo s) (ht : s.topics.lookup e.topic ≠ none) :
    Fifo s' := by
  intro x ti' hx
  obtain ⟨ti, hti, htail, hhead, hentries⟩ := h.topic_lookup env ht hx
  rw [htail, hhead, hentries]
  refine ⟨(hf x ti hti).1, fun i d hd => ?_⟩
  split_ifs at hd
  · exact (hf x ti hti).2 i d (lookup_erase_eq_some.mp hd).2
  · exact (hf x ti hti).2 i d hd

end Delete

/-! ## Evicting the oldest entry -/

section Evict

variable (env : Env T N) {s : TopicTable T N} {entries : Table ℕ (TopicEntry T N)}
  {ti : TopicInfo T N} {x : T}

theorem fifoTailFrom_eq_some {e : TopicEntry T N} :
    ∀ {rounds i : ℕ}, fifoTailFrom entries rounds i = some e →
      ∃ j, entries.lookup j = some e ∧ ∀ l, i ≤ l → l < j → entries.lookup l = none
  | 0, _, h => by cases h
  | rounds + 1, i, h => by
    rw [fifoTailFrom] at h
    cases hi : entries.lookup i with
    | some d =>
      rw [hi] at h
      cases h
      exact ⟨i, hi, fun l hil hli => absurd hil (not_le.mpr hli)⟩
    | none =>
      rw [hi] at h
      obtain ⟨j, hj, hbefore⟩ := fifoTailFrom_eq_some h
      refine ⟨j, hj, fun l hil hlj => ?_⟩
      rcases Nat.eq_or_lt_of_le hil with rfl | hil
      · exact hi
      · exact hbefore l hil hlj

theorem fifoTailFrom_eq_none :
    ∀ {rounds i : ℕ}, fifoTailFrom entries rounds i = none →
      ∀ l, i ≤ l → l < i + rounds → entries.lookup l = none
  | 0, _, _, l, hil, hli => absurd hil (not_le.mpr hli)
  | rounds + 1, i, h, l, hil, hli => by
    rw [fifoTailFrom] at h
    cases hi : entries.lookup i with
    | some d =>
      rw [hi] at h
      cases h
    | none =>
      rw [hi] at h
      rcases Nat.eq_or_lt_of_le hil with rfl | hil
      · exact hi
      · exact fifoTailFrom_eq_none h l hil (by omega)

theorem evictTail_of_empty (ht : s.topics.lookup x = some ti)
    (hempty : ti.entries.entries.length = 0) : evictTail env x s = .error .diverges := by
  have hnone : ti.getFifoTail = none := by
    unfold TopicInfo.getFifoTail
    cases hfrom : fifoTailFrom ti.entries (ti.fifoHead - ti.fifoTail) ti.fifoTail with
    | none => rfl
    | some e =>
      obtain ⟨j, hj, -⟩ := fifoTailFrom_eq_some hfrom
      rw [length_eq_zero_iff.mp hempty j] at hj
      cases hj
  unfold evictTail
  rw [ht]
  dsimp only
  rw [hnone]

theorem Core.updateTopic (h : Core s) {ti ti' : TopicInfo T N} (hx : s.topics.lookup x = some ti)
    (hentries : ti'.entries = ti.entries) : Core (s.setTopic x ti') := by
  refine h.congr_topics (fun y i => ?_) ?_ (h.requested.trans (keys_insert_of_some hx).symm)
    (fun y ti'' hy => ?_) rfl rfl
  · rw [topicEntry_setTopic]
    split
    · rename_i hy
      rw [hy, topicEntry_of_lookup hx, hentries]
    · rfl
  · have hinsert : topicTotal (s.setTopic x ti') + _ = topicTotal s + _ :=
      total_insert_of_some ti' hx
    rw [hentries] at hinsert
    exact Nat.add_right_cancel hinsert
  · rcases lookup_insert_eq_some.mp hy with ⟨-, rfl⟩ | ⟨-, hy⟩
    · rw [hentries]
      exact h.le_perTopic x ti hx
    · exact h.le_perTopic y ti'' hy

/-- **A topic with entries loses its oldest one.** -/
theorem exists_evictTail (h : Inv s) (ht : s.topics.lookup x = some ti)
    (hpos : ti.entries.entries.length ≠ 0) :
    ∃ e s', evictTail env x s = .ok s' ∧ Inv s' ∧ nodeEntry s e.node x = some e ∧
      Deleted env (s.setTopic x { ti with fifoTail := e.fifoIdx + 1 }) e s' := by
  cases hfrom : fifoTailFrom ti.entries (ti.fifoHead - ti.fifoTail) ti.fifoTail with
  | none =>
    -- all indices of entries are among those that were tried
    refine absurd (length_eq_zero_iff.mpr fun i => ?_) hpos
    cases hi : ti.entries.lookup i with
    | none => rfl
    | some e =>
      obtain ⟨htail, hhead⟩ := (h.fifo x ti ht).2 i e hi
      rw [fifoTailFrom_eq_none hfrom i htail (by omega)] at hi
      cases hi
  | some e =>
    obtain ⟨j, hj, hbefore⟩ := fifoTailFrom_eq_some hfrom
    obtain ⟨htopic, hidx, hnode⟩ := h.topic_node x j e (topicEntry_of_lookup ht j ▸ hj)
    subst htopic hidx
    have hcore : Core (s.setTopic e.topic { ti with fifoTail := e.fifoIdx + 1 }) :=
      h.toCore.updateTopic ht rfl
    obtain ⟨s', hdelete, hdeleted⟩ := exists_deleteEntry env hcore hnode
    have htail : ti.getFifoTail = some (e, { ti with fifoTail := e.fifoIdx + 1 }) := by
      rw [TopicInfo.getFifoTail, hfrom]
      rfl
    refine ⟨e, s', ?_, ⟨hdeleted.core, fun y ti' hy => ?_⟩, hnode, hdeleted⟩
    · unfold evictTail
      rw [ht]
      dsimp only
      rw [htail]
      exact hdelete
    · obtain ⟨ti'', hti'', htail', hhead', hentries⟩ :=
        hdeleted.topic_lookup env (by rw [setTopic, lookup_insert]; nofun) hy
      rw [htail', hhead', hentries]
      rcases lookup_insert_eq_some.mp hti'' with ⟨rfl, rfl⟩ | ⟨hne, hti''⟩
      · -- what is left lies after the entry
        obtain ⟨-, hfifo⟩ := h.fifo _ ti ht
        refine ⟨(hfifo _ e hj).2, fun i d hd => ?_⟩
        rw [if_pos rfl] at hd
        obtain ⟨hne, hd⟩ := lookup_erase_eq_some.mp hd
        refine ⟨lt_of_le_of_ne (not_lt.mp fun hlt => ?_) (Ne.symm hne), (hfifo i d hd).2⟩
        rw [hbefore i (hfifo i d hd).1 hlt] at hd
        cases hd
      · rw [if_neg hne]
        exact h.fifo y ti'' hti''

end Evict

end XChain.Topics
