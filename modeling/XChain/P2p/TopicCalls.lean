import XChain.P2p.TopicIndex

set_option linter.unusedSectionVars false

/-!
# Calls of the topic table

What `addEntry` and the calls of the topic table make of its indices.

* **`calls_consistent_iff`**: every call returns and leaves a consistent table, as long as each new
  entry finds room, and only then;
* **`full_table_forgets`**: a table full of topics with one entry each; the next registration for
  the first of them is lost from the index of the topics.
-/

namespace XChain.Topics

open GoMap List StepMachine Nat GoHeap
open Except (error ok)
open StepMachine (ok_bind)
open AList (lookup_insert lookup_insert_ne)

variable {T N : Type} [DecidableEq T] [DecidableEq N] (env : Env T N) {s : TopicTable T N}

/-! ## The entries of a node -/

section Clear

theorem exists_foldlM_delete
    (body : TopicTable T N → Entry T (TopicEntry T N) → Except Fault (TopicTable T N))
    (hbody : ∀ s e, body s e = deleteEntry env s e.2 ∨ body s e = .ok s) {v : N} :
    ∀ (es : List (Entry T (TopicEntry T N))) {s : TopicTable T N}, Inv s →
      (es.map Sigma.fst).Nodup → (∀ e ∈ es, nodeEntry s v e.1 = some e.2) →
      ∃ s', es.foldlM body s = .ok s' ∧ Inv s' ∧
        (∀ x, x ∉ es.map Sigma.fst → nodeEntry s' v x = nodeEntry s v x) ∧
        ((∀ s e, body s e = deleteEntry env s e.2) → ∀ e ∈ es, nodeEntry s' v e.1 = none)
  | [], s, h, _, _ => ⟨s, rfl, h, fun _ _ => rfl, nofun⟩
  | e :: es, s, h, hnodup, hes => by
    rw [map_cons, nodup_cons] at hnodup
    have he := hes e mem_cons_self
    obtain ⟨hnode, htopic, hidx⟩ := h.node_topic v e.1 e.2 he
    -- one round: the other entries stay
    have hround : ∃ s₁, body s e = .ok s₁ ∧ Inv s₁ ∧
        (∀ x, x ≠ e.1 → nodeEntry s₁ v x = nodeEntry s v x) ∧
        ((∀ s e, body s e = deleteEntry env s e.2) → nodeEntry s₁ v e.1 = none) := by
      obtain ⟨s₁, hdelete, hdeleted⟩ := exists_deleteEntry env h.toCore
        (e := e.2) (by rw [hnode, htopic]; exact he)
      have hthere : s.topics.lookup e.2.topic ≠ none := by
        intro hnone
        rw [topicEntry, ← htopic, hnone] at hidx
        cases hidx
      rcases hbody s e with hb | hb
      · refine ⟨s₁, hb.trans hdelete, ⟨hdeleted.core, hdeleted.fifo env h.fifo hthere⟩,
          fun x hx => ?_, fun _ => ?_⟩
        · rw [hdeleted.node_view, if_neg fun hboth => hx (hboth.2.trans htopic)]
        · rw [hdeleted.node_view, if_pos ⟨hnode.symm, htopic.symm⟩]
      · refine ⟨s, hb, h, fun _ _ => rfl, fun hall => ?_⟩
        have hsame : s₁ = s := by
          have := (hall s e).symm.trans hb
          rw [hdelete] at this
          exact ok.inj this
        rw [← hsame, hdeleted.node_view, if_pos ⟨hnode.symm, htopic.symm⟩]
    obtain ⟨s₁, hs₁, hinv, hother, hgone⟩ := hround
    obtain ⟨s', hs', hinv', hother', hgone'⟩ := exists_foldlM_delete body hbody es hinv hnodup.2
      fun d hd => by
        rw [hother d.1 fun hde => hnodup.1 (hde ▸ mem_map_of_mem hd)]
        exact hes d (mem_cons_of_mem e hd)
    refine ⟨s', ?_, hinv', fun x hx => ?_, fun hall d hd => ?_⟩
    · rw [foldlM_cons, hs₁]
      exact hs'
    · rw [map_cons, mem_cons, not_or] at hx
      rw [hother' x hx.2, hother x hx.1]
    · rcases mem_cons.mp hd with rfl | hd
      · rw [hother' _ hnodup.1]
        exact hgone hall
      · exact hgone' hall d hd

theorem visit_entries {v : N} {n : NodeInfo T N} (hv : s.nodes.lookup v = some n) :
    ((env.visitEntries.visit n.entries.entries).map Sigma.fst).Nodup ∧
      ∀ e, e ∈ env.visitEntries.visit n.entries.entries ↔ nodeEntry s v e.1 = some e.2 := by
  have hperm := env.visitEntries.visit_perm n.entries.entries
  refine ⟨(hperm.map _).nodup_iff.mpr n.entries.nodupKeys, fun e => ?_⟩
  rw [hperm.mem_iff, nodeEntry_of_lookup hv]
  exact Table.mem_entries

theorem exists_clearNode (h : Inv s) {v : N} {n : NodeInfo T N} (hv : s.nodes.lookup v = some n) :
    ∃ s', clearNode env v s = .ok s' ∧ Inv s' ∧ ∀ x, nodeEntry s' v x = none := by
  obtain ⟨hnodup, hmem⟩ := visit_entries env hv
  obtain ⟨s', hs', hinv, hother, hgone⟩ := exists_foldlM_delete env
    (fun s e => deleteEntry env s e.2) (fun _ _ => .inl rfl) _ h hnodup
    fun e he => (hmem e).mp he
  refine ⟨s', ?_, hinv, fun x => ?_⟩
  · unfold clearNode
    rw [hv]
    exact hs'
  · cases hx : nodeEntry s v x with
    | some e => exact hgone (fun _ _ => rfl) ⟨x, e⟩ ((hmem ⟨x, e⟩).mpr hx)
    | none =>
      rw [hother x, hx]
      intro hmap
      obtain ⟨e, he, rfl⟩ := mem_map.mp hmap
      rw [(hmem e).mp he] at hx
      cases hx

end Clear

/-! ## Adding an entry -/

section Add

variable {node : N} {topic : T} {te : TopicInfo T N} {n : NodeInfo T N} {fifoIdx : ℕ}
  {s' : TopicTable T N}

/-- There is room for the entry. -/
structure Ready (node : N) (topic : T) (fifoIdx : ℕ) (s : TopicTable T N) : Prop where
  inv : Inv s
  node_there : ∃ n, s.nodes.lookup node = some n
  node_empty : ∀ x, nodeEntry s node x = none
  topic_there : ∃ te, s.topics.lookup topic = some te ∧ te.fifoHead = fifoIdx ∧
    te.entries.entries.length < maxEntriesPerTopic

theorem getOrNewNode_view (v u : N) (x : T) (s : TopicTable T N) :
    nodeEntry (getOrNewNode env v s) u x = nodeEntry s u x := by
  unfold getOrNewNode
  cases hv : s.nodes.lookup v with
  | some n => rfl
  | none =>
    refine (nodeEntry_setNode s v _ u x).trans ?_
    split
    · rename_i hu
      rw [hu, nodeEntry, hv]
      rfl
    · rfl

theorem getOrNewTopic_nodes (x : T) (s : TopicTable T N) : (getOrNewTopic x s).nodes = s.nodes := by
  unfold getOrNewTopic
  split <;> rfl

theorem node_of_deleted {s s' : TopicTable T N} {e : TopicEntry T N} (hd : Deleted env s e s')
    (he : nodeEntry s e.node e.topic = some e) (hempty : ∀ x, nodeEntry s node x = none) :
    s'.nodes.lookup node = s.nodes.lookup node := by
  refine hd.node_ne node fun hnode => ?_
  rw [← hnode, hempty] at he
  cases he

theorem nodeEntry_congr {s s' : TopicTable T N} {v : N}
    (h : s'.nodes.lookup v = s.nodes.lookup v) (x : T) : nodeEntry s' v x = nodeEntry s v x := by
  rw [nodeEntry, h]
  rfl

theorem exists_makeRoomInTopic (h : Inv s) (hte : s.topics.lookup topic = some te)
    (hnode : ∃ n, s.nodes.lookup node = some n) (hempty : ∀ x, nodeEntry s node x = none) :
    ∃ s', makeRoomInTopic env topic te s = .ok s' ∧ Ready node topic te.fifoHead s' := by
  unfold makeRoomInTopic
  split_ifs with hfull
  · obtain ⟨e, s', hs', hinv, he, hdeleted⟩ := exists_evictTail env h hte (by rw [hfull]; decide)
    obtain ⟨-, htopic, hidx⟩ := h.node_topic _ _ _ he
    subst htopic
    have hsame := node_of_deleted env hdeleted he hempty
    have hself := hdeleted.topic_self _ (lookup_insert s.topics)
    rw [if_neg (by rintro ⟨hone, -⟩; dsimp only at hone; rw [hfull] at hone; cases hone)] at hself
    refine ⟨s', hs', hinv, hsame ▸ hnode, fun x => ?_, _, hself, rfl, ?_⟩
    · rw [nodeEntry_congr hsame]
      exact hempty x
    · have hlength := Table.length_erase (topicEntry_of_lookup hte _ ▸ hidx)
      dsimp only
      omega
  · exact ⟨s, rfl, h, hnode, hempty, te, hte, rfl,
      lt_of_le_of_ne (h.le_perTopic topic te hte) hfull⟩

/-- **`addEntry` reaches the test whether the table is full.** -/
theorem exists_prepareEntry (h : Inv s) (node : N) (topic : T) :
    ∃ p, prepareEntry env node topic s = .ok p ∧ Ready node topic p.fifoIdx p.table := by
  obtain ⟨n, hn⟩ := getOrNewNode_isSome env node s
  obtain ⟨s₁, hs₁, hinv₁, hempty₁⟩ := exists_clearNode env (h.getOrNewNode env node) hn
  generalize hs₂ : getOrNewNode env node s₁ = s₂
  have hinv₂ : Inv s₂ := hs₂ ▸ hinv₁.getOrNewNode env node
  have hempty₂ : ∀ x, nodeEntry s₂ node x = none := fun x => by
    rw [← hs₂, getOrNewNode_view]
    exact hempty₁ x
  generalize hs₃ : getOrNewTopic topic { s₂ with clockReads := s₂.clockReads + 1 } = s₃
  have hread : Inv { s₂ with clockReads := s₂.clockReads + 1 } := hinv₂.congr rfl rfl rfl rfl
  have hinv₃ : Inv s₃ := hs₃ ▸ hread.getOrNewTopic topic
  have hnodes₃ : s₃.nodes = s₂.nodes := hs₃ ▸ getOrNewTopic_nodes topic _
  obtain ⟨te, hte⟩ := getOrNewTopic_isSome topic { s₂ with clockReads := s₂.clockReads + 1 }
  rw [hs₃] at hte
  obtain ⟨s₄, hs₄, hready⟩ := exists_makeRoomInTopic env hinv₃ hte
    (by rw [hnodes₃, ← hs₂]; exact getOrNewNode_isSome env node s₁)
    (fun x => (nodeEntry_congr (by rw [hnodes₃]) x).trans (hempty₂ x))
  refine ⟨⟨env.now s₂.clockReads, te.fifoHead, s₄⟩, ?_, hready⟩
  unfold prepareEntry
  rw [hs₁, ok_bind, hs₂]
  dsimp only
  rw [hs₃, hte]
  dsimp only
  rw [hs₄]
  rfl

variable (hn : s.nodes.lookup node = some n)
include hn

variable (hte : s.topics.lookup topic = some te)
include hte

theorem insertEntry_eq (fifoIdx : ℕ) (tm : ℤ) :
    insertEntry node topic fifoIdx tm s =
      { (s.setTopic topic { te with
            fifoHead := te.fifoHead + 1
            entries := te.entries.insert fifoIdx ⟨s.nextEntry, topic, fifoIdx, node⟩ }).setNode node
          { n with entries := n.entries.insert topic ⟨s.nextEntry, topic, fifoIdx, node⟩ } with
        globalEntries := Word64.add s.globalEntries 1
        expire := Function.update s.expire s.nextEntry
          (Word64.addInt64 tm fallbackRegistrationExpiry)
        nextEntry := s.nextEntry + 1 } := by
  unfold insertEntry
  rw [hn, hte]
  rfl

theorem nodeEntry_insertEntry (fifoIdx : ℕ) (tm : ℤ) (v : N) (x : T) :
    nodeEntry (insertEntry node topic fifoIdx tm s) v x =
      if v = node ∧ x = topic then some ⟨s.nextEntry, topic, fifoIdx, node⟩
      else nodeEntry s v x := by
  rw [insertEntry_eq hn hte]
  refine (nodeEntry_setNode _ node _ v x).trans ?_
  by_cases hv : v = node
  · subst hv
    rw [if_pos rfl]
    by_cases hx : x = topic
    · rw [if_pos ⟨rfl, hx⟩, hx, lookup_insert]
    · rw [if_neg fun h => hx h.2, lookup_insert_ne hx, nodeEntry_of_lookup hn]
  · rw [if_neg hv, if_neg fun h => hv h.1]
    rfl

theorem topicEntry_insertEntry (fifoIdx : ℕ) (tm : ℤ) (x : T) (i : ℕ) :
    topicEntry (insertEntry node topic fifoIdx tm s) x i =
      if x = topic ∧ i = fifoIdx then some ⟨s.nextEntry, topic, fifoIdx, node⟩
      else topicEntry s x i := by
  rw [insertEntry_eq hn hte]
  refine (topicEntry_setTopic s topic _ x i).trans ?_
  by_cases hx : x = topic
  · subst hx
    rw [if_pos rfl]
    by_cases hi : i = fifoIdx
    · rw [if_pos ⟨rfl, hi⟩, hi, lookup_insert]
    · rw [if_neg fun h => hi h.2, lookup_insert_ne hi, topicEntry_of_lookup hte]
  · rw [if_neg hx, if_neg fun h => hx h.1]

omit hte

omit hn

theorem add_one_of_le {g : ℕ} (hg : g ≤ maxEntries) : Word64.add g 1 = g + 1 :=
  mod_eq_of_lt (lt_of_le_of_lt (succ_le_succ hg) (by decide))

/-- **The new entry is in both indices**, if there was room for it. -/
theorem Ready.insertEntry (h : Ready node topic fifoIdx s) (tm : ℤ)
    (hmax : s.globalEntries < maxEntries) : Inv (insertEntry node topic fifoIdx tm s) := by
  obtain ⟨hinv, ⟨n, hn⟩, hempty, te, hte, rfl, hroom⟩ := h
  have hnode := nodeEntry_insertEntry hn hte te.fifoHead tm
  have htopic := topicEntry_insertEntry hn hte te.fifoHead tm
  -- both places were free
  have hfreeNode : n.entries.lookup topic = none := nodeEntry_of_lookup hn topic ▸ hempty topic
  have hfreeTopic : te.entries.lookup te.fifoHead = none := by
    cases he : te.entries.lookup te.fifoHead with
    | none => rfl
    | some e => exact absurd ((hinv.fifo topic te hte).2 _ e he).2 (lt_irrefl _)
  have hglobal : (Topics.insertEntry node topic te.fifoHead tm s).globalEntries =
      s.globalEntries + 1 := add_one_of_le hinv.le_max
  have htopics : topicTotal (Topics.insertEntry node topic te.fifoHead tm s) =
      topicTotal s + 1 := by
    rw [insertEntry_eq hn hte]
    refine Nat.add_right_cancel ((Table.total_insert_of_some _ hte).trans ?_)
    rw [Table.length_insert_of_none _ hfreeTopic, Nat.add_right_comm]
    rfl
  have hnodes : nodeTotal (Topics.insertEntry node topic te.fifoHead tm s) = nodeTotal s + 1 := by
    rw [insertEntry_eq hn hte]
    refine Nat.add_right_cancel ((Table.total_insert_of_some _ hn).trans ?_)
    rw [Table.length_insert_of_none _ hfreeNode, Nat.add_right_comm]
    rfl
  have hlookup : ∀ x ti, (Topics.insertEntry node topic te.fifoHead tm s).topics.lookup x =
      some ti → x = topic ∧ ti = { te with
        fifoHead := te.fifoHead + 1
        entries := te.entries.insert te.fifoHead ⟨s.nextEntry, topic, te.fifoHead, node⟩ } ∨
      s.topics.lookup x = some ti := fun x ti hx => by
    rw [insertEntry_eq hn hte] at hx
    rcases Table.lookup_insert_eq_some.mp hx with ⟨rfl, rfl⟩ | ⟨-, hx⟩
    · exact .inl ⟨rfl, rfl⟩
    · exact .inr hx
  have htopicsEq := hinv.topics_eq
  have hnodesEq := hinv.nodes_eq
  refine ⟨⟨fun x i d hd => ?_, fun v x d hd => ?_, ?_, by omega, by omega, by omega,
    fun x ti hx => ?_⟩, fun x ti hx => ?_⟩
  · rw [htopic] at hd
    split_ifs at hd with hplace
    · cases hd
      refine ⟨hplace.1.symm, hplace.2.symm, ?_⟩
      rw [hnode, if_pos ⟨rfl, hplace.1⟩]
    · obtain ⟨hdx, hdi, hold⟩ := hinv.topic_node x i d hd
      refine ⟨hdx, hdi, ?_⟩
      rw [hnode, if_neg, hold]
      rintro ⟨hdv, -⟩
      rw [hdv, hempty] at hold
      cases hold
  · rw [hnode] at hd
    split_ifs at hd with hplace
    · cases hd
      refine ⟨hplace.1.symm, hplace.2.symm, ?_⟩
      rw [htopic, if_pos ⟨hplace.2, rfl⟩]
    · obtain ⟨hdv, hdx, hold⟩ := hinv.node_topic v x d hd
      refine ⟨hdv, hdx, ?_⟩
      rw [htopic, if_neg, hold]
      rintro ⟨rfl, hi⟩
      rw [topicEntry_of_lookup hte, hi, hfreeTopic] at hold
      cases hold
  · rw [insertEntry_eq hn hte]
    exact hinv.requested.trans (keys_insert_of_some hte).symm
  · rcases hlookup x ti hx with ⟨rfl, rfl⟩ | hx
    · dsimp only
      rw [Table.length_insert_of_none _ hfreeTopic]
      exact hroom
    · exact hinv.le_perTopic x ti hx
  · rcases hlookup x ti hx with ⟨rfl, rfl⟩ | hx
    · obtain ⟨hle, hfifo⟩ := hinv.fifo x te hte
      refine ⟨le_succ_of_le hle, fun i d hd => ?_⟩
      rcases Table.lookup_insert_eq_some.mp hd with ⟨rfl, -⟩ | ⟨-, hd⟩
      · exact ⟨hle, lt_succ_self _⟩
      · exact ⟨(hfifo i d hd).1, lt_succ_of_lt (hfifo i d hd).2⟩
    · exact hinv.fifo x ti hx

theorem Core.front_there (h : Core s) {item : RequestItem T} (hitem : s.requested[0]? = some item) :
    ∃ ti, s.topics.lookup item.topic = some ti := by
  have hmem : item ∈ s.requested.toList := by
    rw [← Array.getElem?_toList] at hitem
    exact mem_of_getElem? hitem
  have hkey := h.requested.mem_iff.mp (mem_map_of_mem hmem)
  exact Option.isSome_iff_exists.mp (AList.lookup_isSome.mpr (AList.mem_keys.mpr hkey))

theorem evictLeast_eq (h : Core s) :
    evictLeast env s = match s.requested[0]? with
      | none => .error .nilDereference
      | some item => evictTail env item.topic s := by
  have hdrop : dropRequested s.topics s.requested.size s.requested = s.requested := by
    cases hsize : s.requested.size with
    | zero => rfl
    | succ k =>
      rw [dropRequested, if_neg]
      cases hitem : s.requested[0]? with
      | none => exact Bool.false_ne_true
      | some item =>
        obtain ⟨ti, hti⟩ := h.front_there hitem
        rw [Option.any_some, hti]
        exact Bool.false_ne_true
  unfold evictLeast
  generalize dropRequested s.topics s.requested.size s.requested = requested at hdrop ⊢
  subst hdrop
  rfl

/-- There is space, or the front topic is not forgotten with its entry. -/
def HasRoom (topic : T) (s : TopicTable T N) : Prop :=
  s.globalEntries = maxEntries → ∃ item ti, s.requested[0]? = some item ∧
    s.topics.lookup item.topic = some ti ∧ ti.entries.entries.length ≠ 0 ∧
    (item.topic = topic → ti.entries.entries.length = 1 → env.minWait s.waitReads = false)

theorem Ready.exists_makeRoom (h : Ready node topic fifoIdx s) (hroom : HasRoom env topic s) :
    ∃ s', makeRoom env s = .ok s' ∧ Ready node topic fifoIdx s' ∧
      s'.globalEntries < maxEntries := by
  unfold makeRoom
  split_ifs with hfull
  · obtain ⟨item, ti, hitem, hti, hpos, hkept⟩ := hroom hfull
    obtain ⟨e, s', hs', hinv, he, hdeleted⟩ := exists_evictTail env h.inv hti hpos
    obtain ⟨-, htopic, hidx⟩ := h.inv.node_topic _ _ _ he
    rw [← htopic] at he hidx hti hkept hs' hdeleted
    have hcounter := hdeleted.counter
    change _ = s.globalEntries at hcounter
    have hsame := node_of_deleted env hdeleted he h.node_empty
    refine ⟨s', ?_, ⟨hinv, hsame ▸ h.node_there, fun x => ?_, ?_⟩, by omega⟩
    · rw [evictLeast_eq env h.inv.toCore, hitem]
      dsimp only
      rw [← htopic]
      exact hs'
    · rw [nodeEntry_congr hsame]
      exact h.node_empty x
    · obtain ⟨te, hte, hhead, hlt⟩ := h.topic_there
      by_cases hx : topic = e.topic
      · -- the topic of the new entry loses its oldest one, but stays
        subst hx
        cases hti.symm.trans hte
        have hself := hdeleted.topic_self _ (lookup_insert s.topics)
        rw [if_neg fun hlast =>
          Bool.false_ne_true ((hkept rfl hlast.1).symm.trans hlast.2)] at hself
        have hlength := Table.length_erase (topicEntry_of_lookup hti _ ▸ hidx)
        refine ⟨_, hself, hhead, ?_⟩
        dsimp only
        omega
      · refine ⟨te, ?_, hhead, hlt⟩
        rw [hdeleted.topic_ne topic hx]
        exact (lookup_insert_ne hx).trans hte
  · exact ⟨s, rfl, h, lt_of_le_of_ne h.inv.le_max hfull⟩

theorem Ready.makeRoom_of_not (h : Ready node topic fifoIdx s) (hroom : ¬ HasRoom env topic s)
    (hs' : makeRoom env s = .ok s') : Core s' ∧ s'.topics.lookup topic = none := by
  obtain ⟨hfull, hnone⟩ := Classical.not_imp.mp hroom
  rw [makeRoom, if_pos hfull, evictLeast_eq env h.inv.toCore] at hs'
  cases hitem : s.requested[0]? with
  | none =>
    rw [hitem] at hs'
    cases hs'
  | some item =>
    rw [hitem] at hs'
    dsimp only at hs'
    obtain ⟨ti, hti⟩ := h.inv.toCore.front_there hitem
    by_cases hpos : ti.entries.entries.length = 0
    · rw [evictTail_of_empty env hti hpos] at hs'
      cases hs'
    · -- the front topic is that of the new entry, has one entry, and may be forgotten
      have hlast : item.topic = topic ∧ ti.entries.entries.length = 1 ∧
          env.minWait s.waitReads = true := by
        by_contra hnot
        refine hnone ⟨item, ti, hitem, hti, hpos, fun htopic hone => ?_⟩
        exact Bool.not_eq_true _ ▸ fun hwait => hnot ⟨htopic, hone, hwait⟩
      obtain ⟨htopic, hone, hwait⟩ := hlast
      obtain ⟨e, s'', hs'', hinv, he, hdeleted⟩ := exists_evictTail env h.inv hti hpos
      cases hs'.symm.trans hs''
      obtain ⟨-, hetopic, -⟩ := h.inv.node_topic _ _ _ he
      refine ⟨hinv.toCore, ?_⟩
      rw [← hetopic] at hdeleted
      have hself := hdeleted.topic_self _ (lookup_insert s.topics)
      rw [if_pos ⟨hone, hwait⟩] at hself
      rw [← htopic, ← hetopic]
      exact hself

def Room (node : N) (topic : T) (s : TopicTable T N) : Prop :=
  ∀ p, prepareEntry env node topic s = .ok p → HasRoom env topic p.table

theorem exists_addEntry (h : Inv s) (hroom : Room env node topic s) :
    ∃ s', addEntry env node topic s = .ok s' ∧ Inv s' := by
  obtain ⟨p, hp, hready⟩ := exists_prepareEntry env h node topic
  obtain ⟨s', hs', hready', hmax⟩ := hready.exists_makeRoom env (hroom p hp)
  refine ⟨_, ?_, hready'.insertEntry p.tm hmax⟩
  unfold addEntry
  rw [hp, ok_bind]
  rw [hs']
  rfl

theorem addEntry_of_not_room (h : Inv s) (hroom : ¬ Room env node topic s)
    (hs' : addEntry env node topic s = .ok s') : ¬ Consistent s' := by
  intro hconsistent
  obtain ⟨p, hp, hnot⟩ := Classical.not_forall.mp hroom |>.imp fun _ => Classical.not_imp.mp
  obtain ⟨p', hp', hready⟩ := exists_prepareEntry env h node topic
  cases hp.symm.trans hp'
  unfold addEntry at hs'
  rw [hp] at hs'
  change (makeRoom env p.table >>= _) = _ at hs'
  obtain ⟨s₁, hs₁, hs'⟩ := bind_eq_ok hs'
  obtain ⟨hcore, hgone⟩ := hready.makeRoom_of_not env hnot hs₁
  cases hs'
  have htopics := hconsistent.topics_eq
  rw [show (insertEntry node topic p.fifoIdx p.tm s₁).globalEntries = s₁.globalEntries + 1 from
    add_one_of_le hcore.le_max, topicTotal, insertEntry, hgone] at htopics
  exact absurd (htopics.trans hcore.topics_eq.symm) (succ_ne_self _)

end Add

/-! ## The calls -/

section Calls

theorem exists_collectNode (h : Inv s) (tm : ℤ) (v : N) :
    ∃ s', collectNode env tm s v = .ok s' ∧ Inv s' := by
  unfold collectNode
  cases hv : s.nodes.lookup v with
  | none => exact ⟨s, rfl, h⟩
  | some n =>
    obtain ⟨hnodup, hmem⟩ := visit_entries env hv
    obtain ⟨s', hs', hinv, -, -⟩ := exists_foldlM_delete env (expireEntry env tm)
      (fun s e => by unfold expireEntry; split_ifs <;> simp) _ h hnodup
      fun e he => (hmem e).mp he
    refine ⟨_, ?_, hinv.checkDeleteNode env v⟩
    dsimp only
    rw [hs']
    rfl

theorem Inv.foldl_checkDeleteTopic : ∀ (xs : List T) {s : TopicTable T N}, Inv s →
    Inv (xs.foldl (fun s x => Topics.checkDeleteTopic env x s) s)
  | [], _, h => h
  | x :: xs, _, h => Inv.foldl_checkDeleteTopic xs (h.checkDeleteTopic env x)

theorem exists_collectGarbage (h : Inv s) : ∃ s', collectGarbage env s = .ok s' ∧ Inv s' := by
  unfold collectGarbage
  dsimp only
  split_ifs with hearly
  · exact ⟨_, rfl, h.congr rfl rfl rfl rfl⟩
  · have hstart : Inv { s with
        clockReads := s.clockReads + 1, lastGarbageCollection := env.now s.clockReads } :=
      h.congr rfl rfl rfl rfl
    obtain ⟨s', hs', hinv⟩ := exists_foldlM
      (fun s v hs => exists_collectNode env hs (env.now _) v) _ hstart
    exact ⟨_, by rw [hs']; rfl, hinv.foldl_checkDeleteTopic env _⟩

theorem Inv.reprioritize (h : Inv s) {x : T} {ti : TopicInfo T N}
    (hx : s.topics.lookup x = some ti) (priority requestCnt : ℕ) :
    Inv { s with
      requestCnt := requestCnt
      requested := fix requestLess
        (s.requested.setIfInBounds (requestIndex s.requested x) ⟨x, priority⟩)
        (requestIndex s.requested x) } := by
  obtain ⟨item, hitem, htopic⟩ := exists_requestIndex h.toCore hx
  refine ⟨h.toCore.congr_topics (fun _ _ => rfl) rfl ?_ h.le_perTopic rfl rfl, h.fifo⟩
  refine ((fix_perm requestLess _ _).map _).trans ?_
  rw [Array.toList_setIfInBounds, map_set]
  have hsame : (s.requested.toList.map (·.topic))[requestIndex s.requested x]? = some x := by
    rw [getElem?_map, Array.getElem?_toList, hitem, Option.map_some, htopic]
  obtain ⟨hlt, hget⟩ := List.getElem?_eq_some_iff.mp hsame
  have hset := set_getElem_self hlt
  rw [hget] at hset
  exact hset.symm ▸ h.requested

theorem exists_getEntries (h : Inv s) (topic : T) :
    ∃ s', getEntries env topic s = .ok s' ∧ Inv s' := by
  obtain ⟨s₁, hs₁, hinv⟩ := exists_collectGarbage env h
  unfold getEntries
  rw [hs₁, ok_bind]
  cases hx : s₁.topics.lookup topic with
  | none => exact ⟨s₁, rfl, hinv⟩
  | some ti => exact ⟨_, rfl, hinv.reprioritize hx _ _⟩

theorem exists_getTicket (h : Inv s) (node : N) : ∃ s', getTicket env node s = .ok s' ∧ Inv s' := by
  obtain ⟨s₁, hs₁, hinv₁⟩ := exists_collectGarbage env h
  have hread : Inv { s₁ with clockReads := s₁.clockReads + 1 } := hinv₁.congr rfl rfl rfl rfl
  generalize hs₂ : getOrNewNode env node { s₁ with clockReads := s₁.clockReads + 1 } = s₂
  have hinv₂ : Inv s₂ := hs₂ ▸ hread.getOrNewNode env node
  obtain ⟨n, hn⟩ := getOrNewNode_isSome env node { s₁ with clockReads := s₁.clockReads + 1 }
  rw [hs₂] at hn
  refine ⟨s₂.setNode node { n with lastIssuedTicket := (n.lastIssuedTicket + 1) % 2 ^ 32 }, ?_,
    hinv₂.updateNode hn rfl⟩
  unfold getTicket
  rw [hs₁, ok_bind]
  dsimp only
  rw [hs₂, hn]

theorem Inv.applyTicket (h : Inv s) (topic : T) (issueTime waitPeriod : ℕ) (tm : ℤ)
    (n : NodeInfo T N) :
    ∃ s', Inv s' ∧ (applyTicket topic issueTime waitPeriod tm n s = .done s' ∨
      Topics.applyTicket topic issueTime waitPeriod tm n s = .register s') := by
  unfold Topics.applyTicket
  split_ifs
  · cases n.entries.lookup topic with
    | none => exact ⟨s, h, .inr rfl⟩
    | some e =>
      refine ⟨_, ?_, .inl rfl⟩
      exact h.congr rfl rfl rfl rfl
  · exact ⟨s, h, .inl rfl⟩

variable {node : N} {n : NodeInfo T N}

theorem Inv.judgeTicket (h : Inv s) (hn : s.nodes.lookup node = some n) (serialNo : ℕ) (topic : T)
    (issueTime waitPeriod : ℕ) :
    ∃ s', Inv s' ∧ (judgeTicket env node serialNo topic issueTime waitPeriod n s = .done s' ∨
      Topics.judgeTicket env node serialNo topic issueTime waitPeriod n s = .register s') := by
  have hread : Inv { s with clockReads := s.clockReads + 1 } := h.congr rfl rfl rfl rfl
  unfold Topics.judgeTicket
  dsimp only
  split_ifs
  · exact ⟨s, h, .inl rfl⟩
  · exact ⟨_, hread, .inl rfl⟩
  · exact hread.applyTicket topic issueTime waitPeriod _ n
  · refine Inv.applyTicket ?_ topic issueTime waitPeriod _ n
    exact hread.updateNode hn rfl

theorem checkTicket_eq {s₁ : TopicTable T N} (hgc : collectGarbage env s = .ok s₁)
    (hn : (getOrNewNode env node s₁).nodes.lookup node = some n) (serialNo : ℕ) (topic : T)
    (issueTime waitPeriod : ℕ) :
    checkTicket env node serialNo topic issueTime waitPeriod s =
      .ok (judgeTicket env node serialNo topic issueTime waitPeriod n
        (getOrNewNode env node s₁)) := by
  unfold checkTicket
  rw [hgc, ok_bind]
  dsimp only
  rw [hn]

theorem exists_checkTicket (h : Inv s) (node : N) (serialNo : ℕ) (topic : T)
    (issueTime waitPeriod : ℕ) :
    ∃ s', Inv s' ∧ (checkTicket env node serialNo topic issueTime waitPeriod s = .ok (.done s') ∨
      checkTicket env node serialNo topic issueTime waitPeriod s = .ok (.register s')) := by
  obtain ⟨s₁, hs₁, hinv₁⟩ := exists_collectGarbage env h
  obtain ⟨n, hn⟩ := getOrNewNode_isSome env node s₁
  have hcheck := checkTicket_eq env hs₁ hn serialNo topic issueTime waitPeriod
  obtain ⟨s', hinv, hdone | hregister⟩ :=
    (hinv₁.getOrNewNode env node).judgeTicket env hn serialNo topic issueTime waitPeriod
  · exact ⟨s', hinv, .inl (hcheck.trans (congrArg _ hdone))⟩
  · exact ⟨s', hinv, .inr (hcheck.trans (congrArg _ hregister))⟩

def CallRoom (s : TopicTable T N) : Call T N → Prop
  | .useTicket node serialNo topic issueTime waitPeriod => ∀ s',
    checkTicket env node serialNo topic issueTime waitPeriod s = .ok (.register s') →
      Room env node topic s'
  | _ => True

variable {s' : TopicTable T N} {issueTime waitPeriod : ℕ} {serialNo : ℕ} {topic : T}

theorem useTicket_of_done
    (h : checkTicket env node serialNo topic issueTime waitPeriod s = .ok (.done s')) :
    useTicket env node serialNo topic issueTime waitPeriod s = .ok s' := by
  unfold useTicket
  rw [h]
  rfl

theorem useTicket_of_register
    (h : checkTicket env node serialNo topic issueTime waitPeriod s = .ok (.register s')) :
    useTicket env node serialNo topic issueTime waitPeriod s = addEntry env node topic s' := by
  unfold useTicket
  rw [h]
  rfl

theorem exists_call (h : Inv s) (c : Call T N) (hroom : CallRoom env s c) :
    ∃ s', call env s c = .ok s' ∧ Inv s' := by
  cases c with
  | useTicket node serialNo topic issueTime waitPeriod =>
    obtain ⟨s', hinv, hdone | hregister⟩ :=
      exists_checkTicket env h node serialNo topic issueTime waitPeriod
    · exact ⟨s', useTicket_of_done env hdone, hinv⟩
    · obtain ⟨s'', hs'', hinv''⟩ := exists_addEntry env hinv (hroom s' hregister)
      exact ⟨s'', (useTicket_of_register env hregister).trans hs'', hinv''⟩
  | getEntries topic => exact exists_getEntries env h topic
  | getTicket node => exact exists_getTicket env h node

theorem call_of_not_room (h : Inv s) (c : Call T N) (hroom : ¬ CallRoom env s c)
    (hs' : call env s c = .ok s') : ¬ Consistent s' := by
  cases c with
  | useTicket node serialNo topic issueTime waitPeriod =>
    obtain ⟨s₁, hregister, hnot⟩ :=
      Classical.not_forall.mp hroom |>.imp fun _ => Classical.not_imp.mp
    obtain ⟨s₂, hinv, hdone | hregister'⟩ :=
      exists_checkTicket env h node serialNo topic issueTime waitPeriod
    · cases hregister.symm.trans hdone
    · cases hregister.symm.trans hregister'
      exact addEntry_of_not_room env hinv hnot
        ((useTicket_of_register env hregister).symm.trans hs')
  | getEntries topic | getTicket node => exact absurd trivial hroom

def step (s : TopicTable T N) (c : Call T N) : Option (TopicTable T N) := (call env s c).toOption

theorem step_eq_some {c : Call T N} : step env s c = some s' ↔ call env s c = .ok s' := by
  unfold step
  cases call env s c with
  | error f => exact ⟨nofun, nofun⟩
  | ok t => exact ⟨fun h => congrArg _ (Option.some.inj h), fun h => congrArg _ (ok.inj h)⟩

/-- **Every call returns and leaves a consistent table, as long as each new entry finds room.** -/
theorem calls_consistent_iff (calls : List (Call T N)) :
    (∀ done, done <+: calls → ∃ s, run (step env) newTopicTable done = some s ∧
        Consistent s) ↔
      Along (step env) (CallRoom env) newTopicTable calls := by
  constructor
  · refine along_of_fronts (I := Inv) (fun s c t hs hok ht => ?_)
      (fun s c t hs hok ht => ?_) inv_newTopicTable
    · obtain ⟨t', ht', hinv⟩ := exists_call env hs c hok
      cases ht'.symm.trans ((step_eq_some env).mp ht)
      exact hinv
    · exact call_of_not_room env hs c hok ((step_eq_some env).mp ht)
  · rintro halong done ⟨rest, rfl⟩
    obtain ⟨s, hs, hinv⟩ := exists_run_along (I := Inv) (fun s c hs hok => by
      obtain ⟨t, ht, hinv⟩ := exists_call env hs c hok
      exact ⟨t, (step_eq_some env).mpr ht, hinv⟩) inv_newTopicTable halong.of_append
    exact ⟨s, hs, hinv.toCore.consistent⟩

end Calls

/-! ## A full table -/

section Full

variable {topic : T}

theorem prepareEntry_of_empty {node : N} {n : NodeInfo T N} {te : TopicInfo T N}
    (hn : s.nodes.lookup node = some n) (hempty : n.entries.entries = []) (hte : (getOrNewTopic
      topic { s with clockReads := s.clockReads + 1 }).topics.lookup topic = some te)
    (hroom : te.entries.entries.length ≠ maxEntriesPerTopic) :
    prepareEntry env node topic s = .ok ⟨env.now s.clockReads, te.fifoHead,
      getOrNewTopic topic { s with clockReads := s.clockReads + 1 }⟩ := by
  have hget : getOrNewNode env node s = s := by
    unfold getOrNewNode
    rw [hn]
  have hclear : clearNode env node s = .ok s := by
    unfold clearNode
    rw [hn]
    dsimp only
    rw [hempty, (env.visitEntries.visit_perm []).eq_nil]
    rfl
  unfold prepareEntry
  rw [hget, hclear, ok_bind, hget]
  dsimp only
  rw [hte]
  dsimp only
  rw [makeRoomInTopic, if_neg hroom]
  rfl

/-- The clock stands still, topics may always be forgotten, and no tickets are stored. -/
def quietEnv : Env ℕ ℕ where
  now _ := 0
  minWait _ := true
  noRegTimeout _ := 0
  fetch _ := (0, 0)
  visitNodes := Ranging.listed
  visitTopics := Ranging.listed
  visitEntries := Ranging.listed

def arrived (node reads : ℕ) (s : TopicTable ℕ ℕ) : TopicTable ℕ ℕ :=
  { s with nodes := s.nodes.insert node ⟨∅, 0, 0, 0⟩, clockReads := s.clockReads + reads }

theorem checkTicket_of_new {s : TopicTable ℕ ℕ} {node : ℕ} (hnode : s.nodes.lookup node = none)
    (hlast : s.lastGarbageCollection = 0) (topic : ℕ) :
    checkTicket quietEnv node 0 topic 0 0 s = .ok (.register (arrived node 2 s)) := by
  have hgc : collectGarbage quietEnv s = .ok { s with clockReads := s.clockReads + 1 } := by
    refine if_pos ?_
    rw [show quietEnv.now s.clockReads = 0 from rfl, hlast]
    decide
  have hget : getOrNewNode quietEnv node { s with clockReads := s.clockReads + 1 } =
      arrived node 1 s := by
    unfold getOrNewNode
    rw [hnode]
    rfl
  have hwindow : inWindow (quietEnv.now (arrived node 1 s).clockReads) 0 0 = true := by
    change inWindow 0 0 0 = true
    decide
  rw [checkTicket_eq quietEnv hgc (n := ⟨∅, 0, 0, 0⟩) (by rw [hget]; exact lookup_insert _),
    hget, judgeTicket]
  rw [if_neg (lt_irrefl 0), if_neg fun h => lt_irrefl 0 h.1, if_pos rfl, applyTicket,
    if_pos hwindow]
  rfl

theorem call_of_new {s : TopicTable ℕ ℕ} {node topic : ℕ} {te : TopicInfo ℕ ℕ}
    (hnode : s.nodes.lookup node = none) (hlast : s.lastGarbageCollection = 0)
    (hte : (getOrNewTopic topic (arrived node 3 s)).topics.lookup topic = some te)
    (hroom : te.entries.entries.length ≠ maxEntriesPerTopic) :
    call quietEnv s (.useTicket node 0 topic 0 0) =
      (makeRoom quietEnv (getOrNewTopic topic (arrived node 3 s))).map
        (insertEntry node topic te.fifoHead 0) := by
  have hprepare := prepareEntry_of_empty quietEnv (s := arrived node 2 s)
    (lookup_insert s.nodes) rfl hte hroom
  refine (useTicket_of_register quietEnv (checkTicket_of_new hnode hlast topic)).trans ?_
  unfold addEntry
  rw [hprepare]
  rfl

theorem getOrNewTopic_of_some {ti : TopicInfo T N} (h : s.topics.lookup topic = some ti) :
    getOrNewTopic topic s = s := by
  rw [getOrNewTopic, h]

theorem getOrNewTopic_of_none (h : s.topics.lookup topic = none) :
    getOrNewTopic topic s = { s with
      topics := s.topics.insert topic ⟨∅, 0, 0⟩
      requested := push requestLess s.requested ⟨topic, s.requestCnt⟩ } := by
  rw [getOrNewTopic, h]

/-- Nodes below `k` are registered, each for a topic of its own. -/
structure Filled (k : ℕ) (s : TopicTable ℕ ℕ) : Prop where
  inv : Inv s
  counter : s.globalEntries = k
  last : s.lastGarbageCollection = 0
  unrequested : s.requestCnt = 0
  nodes_new : ∀ v, k ≤ v → s.nodes.lookup v = none
  topics_new : ∀ x, k ≤ x → s.topics.lookup x = none
  queue : s.requested.toList = (List.range k).map fun x => ⟨x, 0⟩
  single : ∀ x, x < k → ∃ ti, s.topics.lookup x = some ti ∧ ti.entries.entries.length = 1

theorem filled_zero : Filled 0 newTopicTable :=
  ⟨inv_newTopicTable, rfl, rfl, rfl, fun _ _ => rfl, fun _ _ => rfl, rfl, nofun⟩

theorem Filled.exists_next {k : ℕ} {s : TopicTable ℕ ℕ} (h : Filled k s) (hk : k < maxEntries) :
    ∃ s', call quietEnv s (.useTicket k 0 k 0 0) = .ok s' ∧ Filled (k + 1) s' := by
  generalize ht : getOrNewTopic k (arrived k 3 s) = t
  have hnode := h.nodes_new k (le_refl k)
  have htopic := h.topics_new k (le_refl k)
  have htEq : t = { arrived k 3 s with
      topics := s.topics.insert k ⟨∅, 0, 0⟩
      requested := push requestLess s.requested ⟨k, s.requestCnt⟩ } :=
    ht.symm.trans (getOrNewTopic_of_none htopic)
  have hte : t.topics.lookup k = some ⟨∅, 0, 0⟩ := by
    rw [htEq]
    exact lookup_insert _
  have hn : t.nodes.lookup k = some ⟨∅, 0, 0, 0⟩ := by
    rw [htEq]
    exact lookup_insert _
  have hglobal : t.globalEntries = k := by
    rw [htEq]
    exact h.counter
  have hnotFull : t.globalEntries ≠ maxEntries := by omega
  have hcall : call quietEnv s (.useTicket k 0 k 0 0) = .ok (insertEntry k k 0 0 t) := by
    have hcallEq := call_of_new hnode h.last (ht ▸ hte) (by decide)
    rw [ht, makeRoom, if_neg hnotFull] at hcallEq
    exact hcallEq
  refine ⟨_, hcall, ?_⟩
  have hpush : push requestLess s.requested ⟨k, 0⟩ = s.requested.push ⟨k, 0⟩ := by
    refine push_of_not_less requestLess fun item hitem => ?_
    rw [h.queue] at hitem
    obtain ⟨x, -, rfl⟩ := mem_map.mp hitem
    rfl
  have hinv : Inv (insertEntry k k 0 0 t) := by
    obtain ⟨s', hs', hinv⟩ := exists_call quietEnv h.inv (.useTicket k 0 k 0 0)
      fun s₁ hs₁ p hp hfull => by
        cases (checkTicket_of_new hnode h.last k).symm.trans hs₁
        cases (prepareEntry_of_empty quietEnv (s := arrived k 2 s) (lookup_insert s.nodes) rfl
          (ht ▸ hte) (by decide)).symm.trans hp
        exact absurd (ht ▸ hfull) hnotFull
    cases hcall.symm.trans hs'
    exact hinv
  rw [insertEntry_eq hn hte] at hinv ⊢
  refine ⟨hinv, ?_, ?_, ?_, fun v hv => ?_, fun x hx => ?_, ?_, fun x hx => ?_⟩
  · rw [hglobal, add_one_of_le (le_of_lt hk)]
  · rw [htEq]
    exact h.last
  · rw [htEq]
    exact h.unrequested
  · have hne : v ≠ k := by omega
    refine (lookup_insert_ne hne).trans ?_
    rw [htEq]
    exact (lookup_insert_ne hne).trans (h.nodes_new v (by omega))
  · have hne : x ≠ k := by omega
    refine (lookup_insert_ne hne).trans ?_
    rw [htEq]
    exact (lookup_insert_ne hne).trans (h.topics_new x (by omega))
  · rw [htEq, range_succ, map_append, ← h.queue]
    change (push requestLess s.requested ⟨k, s.requestCnt⟩).toList = _
    rw [h.unrequested, hpush, Array.toList_push]
    rfl
  · by_cases hne : x = k
    · subst hne
      exact ⟨_, lookup_insert _, rfl⟩
    · obtain ⟨ti, hti, hone⟩ := h.single x (by omega)
      refine ⟨ti, (lookup_insert_ne hne).trans ?_, hone⟩
      rw [htEq]
      exact (lookup_insert_ne hne).trans hti

def fillCalls (k : ℕ) : List (Call ℕ ℕ) := (List.range k).map fun i => .useTicket i 0 i 0 0

theorem exists_filled : ∀ k, k ≤ maxEntries →
    ∃ s, run (step quietEnv) newTopicTable (fillCalls k) = some s ∧ Filled k s
  | 0, _ => ⟨newTopicTable, rfl, filled_zero⟩
  | k + 1, hk => by
    obtain ⟨s, hs, hfilled⟩ := exists_filled k (le_of_succ_le hk)
    obtain ⟨s', hs', hfilled'⟩ := hfilled.exists_next hk
    refine ⟨s', ?_, hfilled'⟩
    rw [fillCalls, range_succ, map_append, run_append]
    change (run (step quietEnv) newTopicTable (fillCalls k)).bind _ = _
    rw [hs]
    exact run_cons_eq_some.mpr ⟨s', (step_eq_some quietEnv).mpr hs', rfl⟩

/-- **A registration is lost**: it goes to the topic that was just removed. -/
theorem full_table_forgets :
    ∃ s s', run (step quietEnv) newTopicTable (fillCalls maxEntries) = some s ∧
      Consistent s ∧ call quietEnv s (.useTicket maxEntries 0 0 0 0) = .ok s' ∧
      nodeEntry s' maxEntries 0 ≠ none ∧ s'.topics.lookup 0 = none ∧ ¬ Consistent s' := by
  obtain ⟨s, hs, h⟩ := exists_filled maxEntries (le_refl _)
  obtain ⟨ti, hti, hone⟩ := h.single 0 (by decide)
  have hnode := h.nodes_new maxEntries (le_refl _)
  generalize ht : getOrNewTopic 0 (arrived maxEntries 3 s) = t
  have htEq : t = arrived maxEntries 3 s := ht.symm.trans (getOrNewTopic_of_some hti)
  have hte : t.topics.lookup 0 = some ti := by
    rw [htEq]
    exact hti
  have hfront : t.requested[0]? = some ⟨0, 0⟩ := by
    rw [htEq, ← Array.getElem?_toList]
    change s.requested.toList[0]? = _
    rw [h.queue, getElem?_map, getElem?_range (by decide)]
    rfl
  have hglobal : t.globalEntries = maxEntries := by
    rw [htEq]
    exact h.counter
  have hprepare := prepareEntry_of_empty quietEnv (s := arrived maxEntries 2 s)
    (lookup_insert s.nodes) rfl (ht ▸ hte) (by rw [hone]; decide)
  have hcheck := checkTicket_of_new hnode h.last 0
  -- the table is ready for the entry, and has no room for it
  have hready : Ready maxEntries 0 ti.fifoHead t := by
    obtain ⟨s₁, hinv, hdone | hregister⟩ := exists_checkTicket quietEnv h.inv maxEntries 0 0 0 0
    · cases hcheck.symm.trans hdone
    · cases hcheck.symm.trans hregister
      obtain ⟨p, hp, hready⟩ := exists_prepareEntry quietEnv hinv maxEntries 0
      cases hprepare.symm.trans hp
      exact ht ▸ hready
  have hnot : ¬ HasRoom quietEnv 0 t := fun hroom => by
    obtain ⟨item, ti', hitem, hti', -, hkept⟩ := hroom hglobal
    cases hfront.symm.trans hitem
    cases hte.symm.trans hti'
    cases hkept rfl hone
  obtain ⟨e, s₁, hs₁, -, he, hdeleted⟩ := exists_evictTail quietEnv hready.inv hte (by omega)
  have hmake : makeRoom quietEnv t = .ok s₁ := by
    rw [makeRoom, if_pos hglobal, evictLeast_eq quietEnv hready.inv.toCore, hfront]
    exact hs₁
  obtain ⟨-, hgone⟩ := hready.makeRoom_of_not quietEnv hnot hmake
  have hcall := call_of_new hnode h.last (ht ▸ hte) (by rw [hone]; decide)
  rw [ht, hmake] at hcall
  have hroom : ¬ CallRoom quietEnv s (.useTicket maxEntries 0 0 0 0) := fun hroom =>
    hnot (ht ▸ hroom _ hcheck _ hprepare)
  -- another node than the new one loses its entry
  obtain ⟨-, htopic, -⟩ := hready.inv.node_topic _ _ _ he
  have hsame := node_of_deleted quietEnv hdeleted (htopic.symm ▸ he) hready.node_empty
  change s₁.nodes.lookup maxEntries = t.nodes.lookup maxEntries at hsame
  obtain ⟨n, hn⟩ := hready.node_there
  refine ⟨s, _, hs, h.inv.toCore.consistent, hcall, ?_, ?_,
    call_of_not_room quietEnv h.inv _ hroom hcall⟩
  · unfold nodeEntry insertEntry
    rw [hsame, hn]
    rw [lookup_insert, Option.bind_some, lookup_insert]
    nofun
  · unfold insertEntry
    rw [hgone]
    exact hgone

end Full

end XChain.Topics
