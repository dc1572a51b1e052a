import XChain.Lib.Slots
import XChain.Mc.Fetcher

/-!
# The import queue of the fetcher

A block is marked in `queued` from `enqueue` until its import has ended or it is dropped. In between
it is either in the priority queue or with a goroutine.

* **`import_deduplicated`**: what holds in every state of the fetcher.
-/

namespace XChain.Fetcher

open List Option Function StepMachine Slots GoMap GoMap.Table State AList

variable {Hash Header Tx Peer : Type} {T : Types Hash Header Tx} {s t : State Hash Header Tx Peer}

/-! ## Announcements under their hash -/

def State.announcedAs (s : State Hash Header Tx Peer) (id : ℕ) (hash : Hash) : Prop :=
  ∃ a, s.store[id]? = some a ∧ a.hash = hash

theorem header_of_store {j : ℕ}
    (hstore : ∀ (id : ℕ) (a : Announce Hash Header Peer), s.store[id]? = some a →
      ∃ b : Announce Hash Header Peer, t.store[id]? = some b ∧ b.hash = a.hash ∧
        (a.header.isSome → b.header.isSome)) (hj : (s.header j).isSome) :
    (t.header j).isSome := by
  obtain ⟨x, hx⟩ := isSome_iff_exists.mp hj
  obtain ⟨a, ha, hax⟩ := bind_eq_some_iff.mp hx
  obtain ⟨b, hb, -, hsome⟩ := hstore j a ha
  obtain ⟨y, hy⟩ := isSome_iff_exists.mp (hsome (hax ▸ rfl))
  exact isSome_iff_exists.mpr ⟨y, bind_eq_some_iff.mpr ⟨b, hb, hy⟩⟩

section SetHeader

variable {id : ℕ} {a : Announce Hash Header Peer} {x : Header}

variable (ha : s.store[id]? = some a)
include ha

theorem store_setHeader (j : ℕ) (c : Announce Hash Header Peer) (hc : s.store[j]? = some c) :
    ∃ d : Announce Hash Header Peer,
      (s.setHeader id a x).store[j]? = some d ∧ d.hash = c.hash ∧
        (c.header.isSome → d.header.isSome) := by
  by_cases hj : j = id
  · subst hj
    obtain rfl : a = c := some.inj (ha.symm.trans hc)
    exact ⟨_, List.getElem?_set_self (List.getElem?_eq_some_iff.mp ha).1, rfl, fun _ => rfl⟩
  · exact ⟨c, (getElem?_set_ne (Ne.symm hj)).trans hc, rfl, fun hs => hs⟩

theorem header_setHeader {j : ℕ} (hj : (s.header j).isSome) :
    ((s.setHeader id a x).header j).isSome :=
  header_of_store (store_setHeader ha) hj

theorem header_setHeader_self :
    (s.setHeader id a x).announcedAs id a.hash ∧ ((s.setHeader id a x).header id).isSome := by
  have hself : (s.setHeader id a x).store[id]? = some { a with header := some x } :=
    List.getElem?_set_self (List.getElem?_eq_some_iff.mp ha).1
  exact ⟨⟨_, hself, rfl⟩, isSome_iff_exists.mpr ⟨_, bind_eq_some_iff.mpr ⟨_, hself, rfl⟩⟩⟩

end SetHeader

variable [DecidableEq Hash]

/-- Every announcement is kept under its hash, and its header has that hash. -/
structure Kept (T : Types Hash Header Tx) (s : State Hash Header Tx Peer) : Prop where
  hashed : ∀ a ∈ s.store, ∀ h, a.header = some h → T.hash h = a.hash
  announced : ∀ hash ids, s.announced.lookup hash = some ids → ∀ id ∈ ids, s.announcedAs id hash
  fetching : ∀ hash id, s.fetching.lookup hash = some id → s.announcedAs id hash
  fetched : ∀ hash ids, s.fetched.lookup hash = some ids → ∀ id ∈ ids,
    s.announcedAs id hash ∧ (s.header id).isSome
  completing : ∀ hash id, s.completing.lookup hash = some id →
    s.announcedAs id hash ∧ (s.header id).isSome

theorem Kept.of_sub (h : Kept T s) (hstore : t.store = s.store)
    (hannounced : ∀ hash ids, t.announced.lookup hash = some ids → s.announced.lookup hash =
      some ids)
    (hfetching : ∀ hash id, t.fetching.lookup hash = some id → s.fetching.lookup hash = some id)
    (hfetched : ∀ hash ids, t.fetched.lookup hash = some ids → s.fetched.lookup hash = some ids)
    (hcompleting : ∀ hash id, t.completing.lookup hash = some id →
      s.completing.lookup hash = some id) : Kept T t := by
  have has : ∀ {id hash}, s.announcedAs id hash → t.announcedAs id hash := by
    intro id hash ha
    unfold announcedAs
    rwa [hstore]
  have hheader : ∀ id, t.header id = s.header id := by
    intro id
    unfold header
    rw [hstore]
  refine ⟨?_, fun hash ids hl id hid => ?_, fun hash id hl => ?_, fun hash ids hl id hid => ?_,
    fun hash id hl => ?_⟩
  · rw [hstore]
    exact h.hashed
  · exact has (h.announced hash ids (hannounced hash ids hl) id hid)
  · exact has (h.fetching hash id (hfetching hash id hl))
  · rw [hheader]
    exact (h.fetched hash ids (hfetched hash ids hl) id hid).imp_left has
  · rw [hheader]
    exact (h.completing hash id (hcompleting hash id hl)).imp_left has

theorem Kept.of_maps (h : Kept T s) (hstore : t.store = s.store)
    (hannounced : t.announced = s.announced) (hfetching : t.fetching = s.fetching)
    (hfetched : t.fetched = s.fetched) (hcompleting : t.completing = s.completing) : Kept T t :=
  h.of_sub hstore (fun _ _ hl => hannounced ▸ hl) (fun _ _ hl => hfetching ▸ hl)
    (fun _ _ hl => hfetched ▸ hl) fun _ _ hl => hcompleting ▸ hl

theorem Kept.of_store (h : Kept T s)
    (hhashed : ∀ a ∈ t.store, ∀ x, a.header = some x → T.hash x = a.hash)
    (hstore : ∀ (id : ℕ) (a : Announce Hash Header Peer), s.store[id]? = some a →
      ∃ b : Announce Hash Header Peer, t.store[id]? = some b ∧ b.hash = a.hash ∧
        (a.header.isSome → b.header.isSome))
    (hannounced : t.announced = s.announced) (hfetching : t.fetching = s.fetching)
    (hfetched : t.fetched = s.fetched) (hcompleting : t.completing = s.completing) : Kept T t := by
  have has : ∀ {id hash}, s.announcedAs id hash → t.announcedAs id hash := by
    rintro id hash ⟨a, ha, rfl⟩
    obtain ⟨b, hb, hhash, -⟩ := hstore id a ha
    exact ⟨b, hb, hhash⟩
  refine ⟨hhashed, ?_, ?_, ?_, ?_⟩
  · rw [hannounced]
    exact fun hash ids hl id hid => has (h.announced hash ids hl id hid)
  · rw [hfetching]
    exact fun hash id hl => has (h.fetching hash id hl)
  · rw [hfetched]
    exact fun hash ids hl id hid => (h.fetched hash ids hl id hid).imp has (header_of_store hstore)
  · rw [hcompleting]
    exact fun hash id hl => (h.completing hash id hl).imp has (header_of_store hstore)

theorem Kept.setHeader {id : ℕ} {a : Announce Hash Header Peer} {x : Header} (h : Kept T s)
    (ha : s.store[id]? = some a) (hx : T.hash x = a.hash) :
    Kept T (s.setHeader id a x) := by
  refine h.of_store ?_ (store_setHeader ha) rfl rfl rfl rfl
  intro c hc y hy
  rcases mem_or_eq_of_mem_set hc with hc | rfl
  · exact h.hashed c hc y hy
  · cases hy
    exact hx

variable [DecidableEq Peer]

/-! ## Marked blocks -/

def State.pending (T : Types Hash Header Tx) (s : State Hash Header Tx Peer) : List Hash :=
  s.queue.map (fun op => T.hash op.block.header) ++ s.imports.map fun block => T.hash block.header

def State.marked (s : State Hash Header Tx Peer) (peer : Peer) : ℕ :=
  s.queued.entries.countP fun e => e.2.origin = peer

/-- The queue and the counts per peer agree. -/
structure Queued (T : Types Hash Header Tx) (s : State Hash Header Tx Peer) : Prop where
  pending : (s.pending T).Perm s.queued.keys
  counted : ∀ peer, s.queues peer = s.marked peer
  limited : ∀ peer, s.queues peer ≤ blockLimit

variable {height i : ℕ} {known : Bool}

omit [DecidableEq Hash] in
theorem Queued.of_eq (h : Queued T s) (hqueue : t.queue = s.queue)
    (himports : t.imports = s.imports) (hqueued : t.queued = s.queued)
    (hqueues : t.queues = s.queues) : Queued T t := by
  refine ⟨?_, ?_, ?_⟩
  · unfold State.pending
    rw [hqueue, himports, hqueued]
    exact h.pending
  · unfold marked
    rw [hqueued, hqueues]
    exact h.counted
  · rw [hqueues]
    exact h.limited

theorem Queued.enqueue (h : Queued T s) (peer : Peer) (block : Block Header Tx) (height : ℕ) :
    Queued T (s.enqueue T peer block height) := by
  unfold State.enqueue
  dsimp only
  split_ifs with hlimit hfar hmarked
  · exact h.of_eq rfl rfl rfl rfl
  · exact h.of_eq rfl rfl rfl rfl
  · exact h
  · have hnone : s.queued.lookup (T.hash block.header) = none := by simpa using hmarked
    have herase := erase_of_lookup_none hnone
    have hmark : ∀ p, marked { s with
        queues := update s.queues peer (s.queues peer + 1)
        queued := s.queued.insert (T.hash block.header) ⟨peer, block⟩
        queue := s.queue ++ [⟨peer, block⟩] } p = s.marked p + (decide (peer = p)).toNat := by
      intro p
      unfold marked
      rw [countP_insert, herase]
    refine ⟨?_, fun p => ?_, ?_⟩
    · unfold State.pending
      rw [keys_insert, erase_of_not_mem (lookup_eq_none.mp hnone), map_append, append_assoc]
      exact perm_middle.trans (h.pending.cons _)
    · rw [hmark]
      dsimp only
      by_cases hp : peer = p
      · subst hp
        rw [update_self, h.counted]
        simp
      · rw [update_of_ne (Ne.symm hp), h.counted]
        simp [hp]
    · dsimp only
      rw [forall_update_iff s.queues fun _ n => n ≤ blockLimit]
      exact ⟨by omega, fun p _ => h.limited p⟩

theorem Queued.forgetBlock {hash : Hash} (h : Queued T s)
    (hpending : (s.pending T).Perm (hash :: t.pending T)) (hqueued : t.queued = s.queued)
    (hqueues : t.queues = s.queues) : Queued T (t.forgetBlock hash) := by
  have hkey : hash ∈ s.queued :=
    mem_keys.mpr (h.pending.mem_iff.mp (hpending.mem_iff.mpr mem_cons_self))
  obtain ⟨op, hop⟩ := isSome_iff_exists.mp (lookup_isSome.mpr hkey)
  unfold State.forgetBlock
  rw [hqueued, hop]
  dsimp only
  have hmark : ∀ p, ((s.queued.erase hash).entries.countP fun e => e.2.origin = p) +
      (decide (op.origin = p)).toNat = s.marked p := fun p => countP_erase _ hop
  refine ⟨?_, fun p => ?_, ?_⟩
  · rw [keys_erase]
    exact cons_perm_iff_perm_erase.mp (hpending.symm.trans h.pending) |>.2
  · have hp := hmark p
    change _ = (((s.queued.erase hash).entries.countP fun e => e.2.origin = p : ℕ) : ℤ)
    dsimp only
    rw [hqueues]
    by_cases hpo : p = op.origin
    · subst hpo
      rw [update_self, h.counted, ← hp]
      simp
    · rw [update_of_ne hpo, h.counted, ← hp]
      simp [Ne.symm hpo]
  · have := h.limited op.origin
    dsimp only
    rw [hqueues, forall_update_iff s.queues fun _ n => n ≤ blockLimit]
    exact ⟨by omega, fun p _ => h.limited p⟩

theorem Queued.pop (h : Queued T s) (ht : s.pop T height i known = some t) : Queued T t := by
  obtain ⟨op, hop, rfl⟩ := map_eq_some_iff.mp ht
  obtain ⟨hi, rfl⟩ := List.getElem?_eq_some_iff.mp hop
  have hperm : (s.queue[i] :: s.queue.eraseIdx i).Perm s.queue := getElem_cons_eraseIdx_perm hi
  dsimp only
  split_ifs
  · refine ⟨?_, h.counted, h.limited⟩
    refine Perm.trans ?_ h.pending
    exact (((perm_append_singleton _ _).trans hperm).map _).append_right _
  · exact h.forgetBlock ((hperm.symm.map _).append_right _) rfl rfl
  · refine ⟨?_, h.counted, h.limited⟩
    refine Perm.trans ?_ h.pending
    unfold State.pending
    rw [map_append, ← append_assoc]
    refine (perm_append_singleton _ _).trans ?_
    exact (hperm.map fun op => T.hash op.block.header).append_right _

theorem Queued.done {j : ℕ} (h : Queued T s) (ht : s.done T j = some t) : Queued T t := by
  obtain ⟨block, hblock, rfl⟩ := map_eq_some_iff.mp ht
  obtain ⟨hj, rfl⟩ := List.getElem?_eq_some_iff.mp hblock
  have hperm : (s.imports[j] :: s.imports.eraseIdx j).Perm s.imports :=
    getElem_cons_eraseIdx_perm hj
  refine h.forgetBlock ?_ rfl rfl
  exact ((hperm.symm.map _).append_left _).trans perm_middle

/-! ## What keeps announcements in place -/

theorem Kept.forgetHash (h : Kept T s) (hash : Hash) : Kept T (s.forgetHash hash) :=
  h.of_sub rfl (fun _ _ hl => (lookup_erase_eq_some.mp hl).2)
    (fun _ _ hl => (lookup_erase_eq_some.mp hl).2) (fun _ _ hl => (lookup_erase_eq_some.mp hl).2)
    fun _ _ hl => (lookup_erase_eq_some.mp hl).2

theorem Kept.enqueue (h : Kept T s) (peer : Peer) (block : Block Header Tx) (height : ℕ) :
    Kept T (s.enqueue T peer block height) := by
  unfold State.enqueue
  dsimp only
  split_ifs
  · exact h.forgetHash _
  · exact h.forgetHash _
  · exact h
  · exact h.of_maps rfl rfl rfl rfl rfl

theorem Kept.forgetBlock (h : Kept T s) (hash : Hash) : Kept T (s.forgetBlock hash) := by
  unfold State.forgetBlock
  split
  · exact h.of_maps rfl rfl rfl rfl rfl
  · exact h

theorem Kept.notify (h : Kept T s) (peer : Peer) (hash : Hash) (number height : ℕ) :
    Kept T (s.notify peer hash number height) := by
  unfold State.notify
  dsimp only
  split_ifs
  · exact h
  · exact h
  · exact h
  · have hstore : Kept T { s with store := s.store ++ [⟨hash, number, none, peer⟩] } := by
      refine h.of_store ?_ ?_ rfl rfl rfl rfl
      · intro a ha x hx
        rcases mem_append.mp ha with ha | ha
        · exact h.hashed a ha x hx
        · rw [mem_singleton.mp ha] at hx
          cases hx
      · exact fun id a ha => ⟨a, getElem?_concat_eq_some.mpr (.inl ha), rfl, fun hs => hs⟩
    refine { hstore with announced := fun x ids hl id hid => ?_ }
    rcases lookup_insert_eq_some.mp hl with ⟨rfl, rfl⟩ | ⟨-, hl⟩
    · rcases mem_append.mp hid with hid | hid
      · cases hold : s.announced.lookup x with
        | none =>
          rw [hold] at hid
          cases hid
        | some old =>
          rw [hold] at hid
          exact hstore.announced x old hold id hid
      · rw [mem_singleton.mp hid]
        exact ⟨_, getElem?_concat_length, rfl⟩
    · exact hstore.announced x ids hl id hid

variable {v : Visit Hash} {a : Act Hash Header Tx Peer}

theorem Kept.fetch (h : Kept T s) (ht : s.fetch v = some t) : Kept T t := by
  obtain ⟨id, hid, rfl⟩ := map_eq_some_iff.mp ht
  obtain ⟨ids, hl, hpick⟩ := bind_eq_some_iff.mp hid
  have hforget := h.forgetHash v.hash
  split_ifs
  · exact hforget
  · refine { hforget with fetching := fun x j hx => ?_ }
    rcases lookup_insert_eq_some.mp hx with ⟨rfl, rfl⟩ | ⟨-, hx⟩
    · exact h.announced v.hash ids hl id (mem_of_getElem? hpick)
    · exact hforget.fetching x j hx

theorem Kept.complete (h : Kept T s) (ht : s.complete v = some t) : Kept T t := by
  obtain ⟨id, hid, rfl⟩ := map_eq_some_iff.mp ht
  obtain ⟨ids, hl, hpick⟩ := bind_eq_some_iff.mp hid
  have hforget := h.forgetHash v.hash
  split_ifs
  · exact hforget
  · refine { hforget with completing := fun x j hx => ?_ }
    rcases lookup_insert_eq_some.mp hx with ⟨rfl, rfl⟩ | ⟨-, hx⟩
    · exact h.fetched v.hash ids hl id (mem_of_getElem? hpick)
    · exact hforget.completing x j hx

/-! ## Deliveries -/

def Block.Matches (T : Types Hash Header Tx) (block : Block Header Tx) : Prop :=
  T.deriveSha block.transactions = T.txHash block.header ∧
    T.calcUncleHash block.uncles = T.uncleHash block.header

structure Inv (T : Types Hash Header Tx) (s : State Hash Header Tx Peer) : Prop where
  queued : Queued T s
  kept : Kept T s
  filtered : ∀ x ∈ s.filtered, T.hash x.2.header = x.1 ∧ x.2.Matches T

theorem Inv.forgetHash (h : Inv T s) (hash : Hash) : Inv T (s.forgetHash hash) :=
  ⟨h.queued.of_eq rfl rfl rfl rfl, h.kept.forgetHash hash, h.filtered⟩

theorem Inv.enqueue (h : Inv T s) (peer : Peer) (block : Block Header Tx) (height : ℕ) :
    Inv T (s.enqueue T peer block height) := by
  refine ⟨h.queued.enqueue peer block height, h.kept.enqueue peer block height, ?_⟩
  have hsame : (s.enqueue T peer block height).filtered = s.filtered := by
    unfold State.enqueue
    dsimp only
    split_ifs <;> rfl
  rw [hsame]
  exact h.filtered

structure SplitOk (T : Types Hash Header Tx) (r : Split Hash Header Tx Peer) : Prop where
  state : Inv T r.state
  incomplete : ∀ id ∈ r.incomplete, (r.state.header id).isSome
  complete : ∀ x ∈ r.complete, x.1.Matches T

theorem SplitOk.filterHeader {r : Split Hash Header Tx Peer} (h : SplitOk T r)
    (x : Delivered Header) : SplitOk T (filterHeader T r x) := by
  unfold State.filterHeader
  dsimp only
  split
  · exact h
  rename_i id hid
  by_cases hasked : r.state.fetched.lookup (T.hash x.header) = none ∧
      r.state.completing.lookup (T.hash x.header) = none ∧
        (r.state.queued.lookup (T.hash x.header)).isNone
  · obtain ⟨a, ha, hhash⟩ := h.state.kept.fetching _ id hid
    rw [ha]
    have hkept := h.state.kept.setHeader (x := x.header) ha hhash.symm
    have hqueued : Queued T (r.state.setHeader id a x.header) :=
      h.state.queued.of_eq rfl rfl rfl rfl
    have hincomplete : ∀ j ∈ r.incomplete, ((r.state.setHeader id a x.header).header j).isSome :=
      fun j hj => header_setHeader ha (h.incomplete j hj)
    obtain ⟨has, hnew⟩ := header_setHeader_self (x := x.header) ha
    dsimp only
    split_ifs with hdrop hempty
    · exact ⟨h.state.forgetHash _, h.incomplete, h.complete⟩
    · refine ⟨⟨hqueued.of_eq rfl rfl rfl rfl, { hkept with completing := fun y j hy => ?_ },
        h.state.filtered⟩, hincomplete, fun y hy => ?_⟩
      · rcases lookup_insert_eq_some.mp hy with ⟨rfl, rfl⟩ | ⟨-, hy⟩
        · exact ⟨hhash ▸ has, hnew⟩
        · exact hkept.completing y j hy
      · rcases mem_append.mp hy with hy | hy
        · exact h.complete y hy
        · rw [mem_singleton.mp hy]
          exact ⟨hempty.1.symm, hempty.2.symm⟩
    · refine ⟨⟨hqueued, hkept, h.state.filtered⟩, fun j hj => ?_, h.complete⟩
      rcases mem_append.mp hj with hj | hj
      · exact hincomplete j hj
      · rw [mem_singleton.mp hj]
        exact hnew
  · rw [if_neg hasked]
    exact h

variable (h : Inv T s)
include h

theorem Inv.schedule (id : ℕ) : Inv T (s.schedule T id) := by
  unfold State.schedule
  split
  · exact h
  · rename_i x hx
    split_ifs
    · exact h
    · refine ⟨h.queued.of_eq rfl rfl rfl rfl, ⟨h.kept.hashed, h.kept.announced, h.kept.fetching,
        fun hash ids hl j hj => ?_, h.kept.completing⟩, h.filtered⟩
      rcases lookup_insert_eq_some.mp hl with ⟨rfl, rfl⟩ | ⟨-, hl⟩
      · rcases mem_append.mp hj with hj | hj
        · cases hold : s.fetched.lookup (T.hash x) with
          | none =>
            rw [hold] at hj
            cases hj
          | some old =>
            rw [hold] at hj
            exact h.kept.fetched _ old hold j hj
        · rw [mem_singleton.mp hj]
          obtain ⟨a, ha, hax⟩ := bind_eq_some_iff.mp hx
          exact ⟨⟨a, ha, (h.kept.hashed a (mem_of_getElem? ha) x hax).symm⟩, hx ▸ rfl⟩
      · exact h.kept.fetched hash ids hl j hj

theorem Inv.deliver {x : Block Header Tx × ℕ} (hx : x.1.Matches T) : Inv T (s.deliver T x) := by
  unfold State.deliver
  split
  · exact h
  · rename_i a ha
    obtain ⟨id, hid, hstore⟩ := bind_eq_some_iff.mp ha
    have henq := h.enqueue a.origin x.1 x.2
    refine ⟨henq.queued.of_eq rfl rfl rfl rfl, henq.kept.of_maps rfl rfl rfl rfl rfl, ?_⟩
    intro y hy
    rcases mem_append.mp hy with hy | hy
    · exact h.filtered y hy
    · rw [mem_singleton.mp hy]
      obtain ⟨⟨b, hb, hhash⟩, -⟩ := h.kept.completing _ id hid
      obtain rfl : a = b := some.inj (hstore.symm.trans hb)
      exact ⟨hhash.symm, hx⟩

omit h in
theorem Inv.deliver_all {blocks : List (Block Header Tx × ℕ)} :
    ∀ {s : State Hash Header Tx Peer}, Inv T s → (∀ x ∈ blocks, x.1.Matches T) →
      Inv T (blocks.foldl (State.deliver T) s) := by
  induction blocks with
  | nil => exact fun h _ => h
  | cons x blocks ih =>
    intro s h hall
    exact ih (h.deliver (hall x mem_cons_self)) fun y hy => hall y (mem_cons_of_mem _ hy)

theorem Inv.filterHeaders (headers : List (Delivered Header)) :
    Inv T (s.filterHeaders T headers) := by
  have hsplit : ∀ (l : List (Delivered Header)) {r : Split Hash Header Tx Peer}, SplitOk T r →
      SplitOk T (l.foldl (filterHeader T) r) := by
    intro l
    induction l with
    | nil => exact fun hr => hr
    | cons x l ih => exact fun hr => ih (hr.filterHeader x)
  have hschedule : ∀ (l : List ℕ) {t : State Hash Header Tx Peer}, Inv T t →
      Inv T (l.foldl (State.schedule T) t) := by
    intro l
    induction l with
    | nil => exact fun ht => ht
    | cons id l ih => exact fun ht => ih (ht.schedule id)
  have hr := hsplit headers (r := ⟨s, [], []⟩) ⟨h, nofun, nofun⟩
  exact Inv.deliver_all (hschedule _ hr.state) hr.complete

omit h in
theorem Inv.matchBody {r : State Hash Header Tx Peer × List (Block Header Tx)} (h : Inv T r.1)
    (hblocks : ∀ b ∈ r.2, b.Matches T) (known : Hash → Bool) (body : List Tx × List Header)
    (e : Entry Hash ℕ) : Inv T (matchBody T known body r e).1 ∧
      ∀ b ∈ (matchBody T known body r e).2, b.Matches T := by
  unfold State.matchBody
  split
  · exact ⟨h, hblocks⟩
  · split_ifs with hmatch
    · exact ⟨h.forgetHash _, hblocks⟩
    · refine ⟨h, fun b hb => ?_⟩
      rcases mem_append.mp hb with hb | hb
      · exact hblocks b hb
      · rw [mem_singleton.mp hb]
        exact hmatch.2
    · exact ⟨h, hblocks⟩

theorem Inv.filterBodies (bodies : List (BodyItem Hash Header Tx)) (heights : ℕ → ℕ) :
    Inv T (s.filterBodies T bodies heights) := by
  have hentries : ∀ (known : Hash → Bool) (body : List Tx × List Header) (l : List (Entry Hash ℕ))
      {r : State Hash Header Tx Peer × List (Block Header Tx)}, Inv T r.1 ∧
        (∀ b ∈ r.2, b.Matches T) → Inv T (l.foldl (State.matchBody T known body) r).1 ∧
          ∀ b ∈ (l.foldl (State.matchBody T known body) r).2, b.Matches T := by
    intro known body l
    induction l with
    | nil => exact fun hr => hr
    | cons e l ih => exact fun hr => ih (hr.1.matchBody hr.2 known body e)
  have hall : ∀ (l : List (BodyItem Hash Header Tx))
      {r : State Hash Header Tx Peer × List (Block Header Tx)}, Inv T r.1 ∧
        (∀ b ∈ r.2, b.Matches T) → Inv T (l.foldl (filterBody T) r).1 ∧
          ∀ b ∈ (l.foldl (filterBody T) r).2, b.Matches T := by
    intro l
    induction l with
    | nil => exact fun hr => hr
    | cons x l ih => exact fun hr => ih (hentries x.2.1 x.1 _ hr)
  obtain ⟨hinv, hmatches⟩ := hall bodies (r := (s, [])) ⟨h, nofun⟩
  refine Inv.deliver_all hinv fun x hx => ?_
  obtain ⟨y, hy, rfl⟩ := mem_map.mp hx
  exact hmatches y.1 (fst_mem_of_mem_zipIdx hy)

/-! ## The loop -/

omit h in
theorem inv_new : Inv T (new : State Hash Header Tx Peer) := by
  refine ⟨⟨Perm.nil, fun _ => rfl, fun _ => Int.natCast_nonneg _⟩, ⟨?_, ?_, ?_, ?_, ?_⟩, ?_⟩
  · exact nofun
  · intro hash ids hl
    cases hl
  · intro hash id hl
    cases hl
  · intro hash ids hl
    cases hl
  · intro hash id hl
    cases hl
  · exact nofun

theorem Inv.of_eq (hqueued : Queued T t)
    (hkept : Kept T t) (hfiltered : t.filtered = s.filtered) : Inv T t :=
  ⟨hqueued, hkept, hfiltered ▸ h.filtered⟩

theorem Inv.setPhase (phase : Phase) : Inv T { s with phase := phase } :=
  ⟨⟨h.queued.pending, h.queued.counted, h.queued.limited⟩, h.kept.of_maps rfl rfl rfl rfl rfl,
    h.filtered⟩

omit h in
theorem filtered_forgetBlock (hash : Hash) : (s.forgetBlock hash).filtered = s.filtered := by
  unfold forgetBlock
  split <;> rfl

theorem Inv.pop (ht : s.pop T height i known = some t) : Inv T t := by
  have hqueued := h.queued.pop ht
  obtain ⟨op, -, rfl⟩ := map_eq_some_iff.mp ht
  have hpopped : Kept T { s with queue := s.queue.eraseIdx i } := h.kept.of_maps rfl rfl rfl rfl rfl
  dsimp only at hqueued ⊢
  split_ifs at hqueued ⊢
  · exact h.of_eq hqueued (h.kept.of_maps rfl rfl rfl rfl rfl) rfl
  · exact h.of_eq hqueued (hpopped.forgetBlock _) (filtered_forgetBlock _)
  · exact h.of_eq hqueued (h.kept.of_maps rfl rfl rfl rfl rfl) rfl

theorem Inv.done {j : ℕ} (ht : s.done T j = some t) : Inv T t := by
  have hqueued := h.queued.done ht
  obtain ⟨block, -, rfl⟩ := map_eq_some_iff.mp ht
  have hgone : Kept T { s with imports := s.imports.eraseIdx j } :=
    h.kept.of_maps rfl rfl rfl rfl rfl
  exact h.of_eq hqueued ((hgone.forgetHash _).forgetBlock _) (filtered_forgetBlock _)

theorem Inv.notify (peer : Peer) (hash : Hash) (number height : ℕ) :
    Inv T (s.notify peer hash number height) := by
  have hkept := h.kept.notify peer hash number height
  unfold State.notify at hkept ⊢
  dsimp only at hkept ⊢
  split_ifs at hkept ⊢
  · exact h
  · exact h
  · exact h
  · exact h.of_eq (h.queued.of_eq rfl rfl rfl rfl) hkept rfl

theorem Inv.fetch (ht : s.fetch v = some t) : Inv T t := by
  have hkept := h.kept.fetch ht
  obtain ⟨id, -, rfl⟩ := map_eq_some_iff.mp ht
  dsimp only at hkept ⊢
  split_ifs at hkept ⊢ <;> exact h.of_eq (h.queued.of_eq rfl rfl rfl rfl) hkept rfl

theorem Inv.complete (ht : s.complete v = some t) : Inv T t := by
  have hkept := h.kept.complete ht
  obtain ⟨id, -, rfl⟩ := map_eq_some_iff.mp ht
  dsimp only at hkept ⊢
  split_ifs at hkept ⊢ <;> exact h.of_eq (h.queued.of_eq rfl rfl rfl rfl) hkept rfl

omit h in
theorem Inv.forget_all {expired : List Hash} :
    ∀ {s : State Hash Header Tx Peer}, Inv T s → Inv T (expired.foldl State.forgetHash s) := by
  induction expired with
  | nil => exact fun h => h
  | cons hash expired ih => exact fun h => ih (h.forgetHash hash)

theorem Inv.event (ht : event T s a = some t) : Inv T t := by
  cases a with
  | notify peer hash number height =>
    cases ht
    exact h.notify peer hash number height
  | inject peer block height =>
    cases ht
    exact h.enqueue peer block height
  | done j => exact h.done ht
  | fetchTimer due => exact run_invariant (fun _ _ _ hi hs => hi.fetch hs) h ht
  | completeTimer visits =>
    obtain ⟨-, ht⟩ := ite_none_right_eq_some.mp ht
    exact run_invariant (fun _ _ _ hi hs => hi.complete hs) h ht
  | headers headers =>
    cases ht
    exact h.filterHeaders headers
  | bodies bodies heights =>
    cases ht
    exact h.filterBodies bodies heights
  | cleanup expired height | pop i known | wait => cases ht

theorem Inv.step (ht : step T s a = some t) : Inv T t := by
  unfold XChain.Fetcher.step at ht
  split at ht
  · split at ht
    · obtain ⟨-, rfl⟩ := of_guard ht
      exact h.forget_all.setPhase _
    · cases ht
  · split at ht
    · exact h.pop ht
    · obtain ⟨-, rfl⟩ := of_guard ht
      exact h.setPhase _
    · cases ht
  · obtain ⟨u, hu, rfl⟩ := map_eq_some_iff.mp ht
    exact (h.event hu).setPhase _

omit h

/-! ## Block import -/

/-- **Block import is deduplicated and bounded.** -/
theorem import_deduplicated {as : List (Act Hash Header Tx Peer)}
    (h : run (step T) new as = some s) :
    (∀ peer, s.queues peer = s.marked peer ∧ s.queues peer ≤ blockLimit) ∧ (s.pending T).Nodup ∧
      ∀ x ∈ s.filtered, T.hash x.2.header = x.1 ∧ x.2.Matches T := by
  have hinv : Inv T s := run_invariant (fun _ _ _ hi hs => hi.step hs) inv_new h
  refine ⟨fun peer => ⟨hinv.queued.counted peer, hinv.queued.limited peer⟩, ?_, hinv.filtered⟩
  exact hinv.queued.pending.nodup_iff.mpr s.queued.keys_nodup

def parityTypes : Types ℕ ℕ ℕ := ⟨id, id, (· % 2), fun _ => 0, length, length⟩

def importRun : List (Act ℕ ℕ ℕ Bool) :=
  [.cleanup [] 10, .wait, .notify true 11 11 10, .cleanup [] 10, .wait, .fetchTimer
    [⟨11, 0, false⟩],
    .cleanup [] 10, .wait, .headers [⟨11, false, 10⟩], .cleanup [] 10, .wait,
    .completeTimer [⟨11, 0, false⟩], .cleanup [] 10, .wait,
    .bodies [(([7], []), fun _ => false, .listed)] fun _ => 10, .cleanup [] 10, .pop 0 false]

theorem import_deduplicated_fetched : ∃ s : State ℕ ℕ ℕ Bool,
    run (step parityTypes) new importRun = some s ∧ s.imports.length = 1 ∧ s.filtered.length = 1 ∧
      (∀ peer, s.queues peer = s.marked peer ∧ s.queues peer ≤ blockLimit) ∧
      (s.pending parityTypes).Nodup ∧
      ∀ x ∈ s.filtered, parityTypes.hash x.2.header = x.1 ∧ x.2.Matches parityTypes :=
  exists_run (by decide +kernel) fun hrun =>
    ⟨by decide +kernel, by decide +kernel, import_deduplicated hrun⟩

end XChain.Fetcher
