import XChain.Lib.Slots
import XChain.Rpc.Client

/-!
# Responses reach their own call

The table `respWait` says under which ids operations wait for responses. An operation leaves it by a
response, because its write failed, because the connection was lost or because the client quits; an
id that is used again takes the place of the older operation.

* **`responses_reach_calls`**: what holds in every state of the client.
-/

namespace XChain.RpcClient

open List Option Client StepMachine Slots GoMap.Table AList Sigma
open GoText (Bytes)

/-- The responses passed to an operation are for its ids, one for each id at most. -/
structure RequestOp.Ok (op : RequestOp) : Prop where
  own : ∀ msg ∈ op.answers, msg.id ∈ op.ids
  once : (op.answers.map Message.id).Nodup
  sub : op.sub = true → op.ids.length = 1

/-- An operation has a response for an id, or its write failed, or it ended with an error. -/
def RequestOp.Settled (op : RequestOp) (id : Bytes) : Prop :=
  id ∈ op.answers.map Message.id ∨ op.failed = true ∨ (op.closed = true ∧ op.err ≠ none)

/-- An operation after number `k` was registered under the id. -/
def Superseded (ops : List RequestOp) (k : ℕ) (id : Bytes) : Prop :=
  ∃ j op, k < j ∧ ops[j]? = some op ∧ id ∈ op.ids

/-- Each waiting id belongs to the newest request that has it. -/
structure Book (ops : List RequestOp) (table : GoMap.Table Bytes ℕ) : Prop where
  ok : ∀ op ∈ ops, op.Ok
  waits : ∀ id k, table.lookup id = some k → ∃ op, ops[k]? = some op ∧ id ∈ op.ids ∧
    op.closed = false ∧ id ∉ op.answers.map Message.id
  newest : ∀ id k, table.lookup id = some k → ¬ Superseded ops k id
  settled : ∀ k op, ops[k]? = some op → ∀ id ∈ op.ids,
    table.lookup id = some k ∨ Superseded ops k id ∨ op.Settled id

section Update

variable {ops : List RequestOp} {table table' : GoMap.Table Bytes ℕ} {k : ℕ}
  {op op' : RequestOp}

theorem superseded_set (hk : ops[k]? = some op) (hids : op'.ids = op.ids) {j : ℕ} {id : Bytes} :
    Superseded (ops.set k op') j id ↔ Superseded ops j id := by
  have hlt : k < ops.length := (List.getElem?_eq_some_iff.mp hk).1
  constructor
  · rintro ⟨i, x, hji, hi, hx⟩
    by_cases hik : i = k
    · subst hik
      rw [getElem?_set_self hlt] at hi
      cases hi
      exact ⟨i, op, hji, hk, hids ▸ hx⟩
    · rw [getElem?_set_ne (Ne.symm hik)] at hi
      exact ⟨i, x, hji, hi, hx⟩
  · rintro ⟨i, x, hji, hi, hx⟩
    by_cases hik : i = k
    · subst hik
      cases hk.symm.trans hi
      exact ⟨i, op', hji, getElem?_set_self hlt, hids ▸ hx⟩
    · exact ⟨i, x, hji, by rwa [getElem?_set_ne (Ne.symm hik)], hx⟩

variable (h : Book ops table)
include h

variable (hk : ops[k]? = some op)
include hk

/-- **One operation changes.** Entries of it may leave the table if their ids are settled. -/
theorem Book.update (hids : op'.ids = op.ids) (hok : op'.Ok)
    (hsub : ∀ id j, table'.lookup id = some j → table.lookup id = some j) (hwaits : ∀ id,
      table'.lookup id = some k → op'.closed = false ∧ id ∉ op'.answers.map Message.id) (hleft : ∀
      id j, table.lookup id = some j → table'.lookup id = some j ∨ (j = k ∧ op'.Settled id))
    (hsettled : ∀ id, op.Settled id → op'.Settled id) : Book (ops.set k op') table' := by
  have hlt : k < ops.length := (List.getElem?_eq_some_iff.mp hk).1
  refine ⟨?_, ?_, ?_, ?_⟩
  · intro x hx
    rcases mem_or_eq_of_mem_set hx with hx | rfl
    · exact h.ok x hx
    · exact hok
  · intro id j hj
    obtain ⟨x, hx, hmem, hopen, hnew⟩ := h.waits id j (hsub id j hj)
    by_cases hjk : j = k
    · subst hjk
      cases hk.symm.trans hx
      exact ⟨op', getElem?_set_self hlt, hids ▸ hmem, hwaits id hj⟩
    · exact ⟨x, by rwa [getElem?_set_ne (Ne.symm hjk)], hmem, hopen, hnew⟩
  · intro id j hj
    rw [superseded_set hk hids]
    exact h.newest id j (hsub id j hj)
  · intro j x hx id hid
    rw [superseded_set hk hids]
    by_cases hjk : j = k
    · subst hjk
      rw [getElem?_set_self hlt] at hx
      cases hx
      rcases h.settled j op hk id (hids ▸ hid) with hj | hj | hj
      · exact (hleft id j hj).imp_right fun hj => .inr hj.2
      · exact .inr (.inl hj)
      · exact .inr (.inr (hsettled id hj))
    · rw [getElem?_set_ne (Ne.symm hjk)] at hx
      rcases h.settled j x hx id hid with hj | hj
      · exact .inl ((hleft id j hj).resolve_right fun hj => hjk hj.1)
      · exact .inr hj

theorem Book.answer {msg : Message} (hmsg : table.lookup msg.id = some k) (hids : op'.ids = op.ids)
    (hsub : op'.sub = op.sub) (hanswers : op'.answers = op.answers ++ [msg])
    (hfailed : op'.failed = op.failed) (hclosed : op'.closed = op.sub) :
    Book (ops.set k op') (table.erase msg.id) := by
  obtain ⟨x, hx, hmem, hopen, hnew⟩ := h.waits msg.id k hmsg
  cases hk.symm.trans hx
  have hok := h.ok op (mem_of_getElem? hk)
  refine h.update hk hids ⟨?_, ?_, ?_⟩ ?_ ?_ ?_ ?_
  · intro m hm
    rw [hanswers] at hm
    rw [hids]
    rcases mem_append.mp hm with hm | hm
    · exact hok.own m hm
    · rwa [mem_singleton.mp hm]
  · rw [hanswers, map_append, map_singleton, ← concat_eq_append, nodup_concat]
    exact ⟨hnew, hok.once⟩
  · rw [hids, hsub]
    exact hok.sub
  · exact fun id j hj => (lookup_erase_eq_some.mp hj).2
  · intro id hid
    obtain ⟨hne, hid⟩ := lookup_erase_eq_some.mp hid
    obtain ⟨y, hy, hmemy, -, hnewy⟩ := h.waits id k hid
    cases hk.symm.trans hy
    refine ⟨?_, ?_⟩
    · -- a subscription has one id only
      rw [hclosed, Bool.eq_false_iff]
      intro hs
      obtain ⟨z, hz⟩ := length_eq_one_iff.mp (hok.sub hs)
      rw [hz, mem_singleton] at hmem hmemy
      exact hne (hmemy.trans hmem.symm)
    · rw [hanswers, map_append, mem_append, map_singleton, mem_singleton]
      exact fun hor => hor.elim hnewy hne
  · intro id j hj
    by_cases hid : id = msg.id
    · subst hid
      refine .inr ⟨some.inj (hj.symm.trans hmsg), .inl ?_⟩
      rw [hanswers, map_append]
      exact mem_append_right _ (mem_singleton.mpr rfl)
    · exact .inl (lookup_erase_eq_some.mpr ⟨hid, hj⟩)
  · rintro id (hid | hid | hid)
    · refine .inl ?_
      rw [hanswers, map_append]
      exact mem_append_left _ hid
    · exact .inr (.inl (hfailed.trans hid))
    · rw [hopen] at hid
      exact Bool.noConfusion hid.1

theorem Book.fail (hlast : k + 1 = ops.length) :
    Book (ops.set k { op with failed := true })
      (op.ids.foldl (fun table id => table.erase id) table) := by
  have hok := h.ok op (mem_of_getElem? hk)
  have hlookup : ∀ id j, (op.ids.foldl (fun table id => table.erase id) table).lookup id = some j ↔
      id ∉ op.ids ∧ table.lookup id = some j := by
    intro id j
    rw [lookup_foldl_erase]
    by_cases hid : id ∈ op.ids <;> simp [hid]
  refine h.update hk rfl { hok with } ?_ ?_ ?_ ?_
  · exact fun id j hj => ((hlookup id j).mp hj).2
  · intro id hj
    obtain ⟨hid, hj⟩ := (hlookup id k).mp hj
    obtain ⟨x, hx, hmem, -⟩ := h.waits id k hj
    cases hk.symm.trans hx
    exact absurd hmem hid
  · intro id j hj
    by_cases hid : id ∈ op.ids
    · -- nothing was registered after the operation
      refine .inr ⟨?_, .inr (.inl rfl)⟩
      obtain ⟨x, hx, -⟩ := h.waits id j hj
      have hjlt : j < ops.length := (List.getElem?_eq_some_iff.mp hx).1
      by_contra hne
      exact h.newest id j hj ⟨k, op, by omega, hk, hid⟩
    · exact .inl ((hlookup id j).mpr ⟨hid, hj⟩)
  · exact fun id hid => hid.imp_right fun _ => .inl rfl

theorem Book.receive (n : ℕ) : Book (ops.set k { op with received := n }) table := by
  have hok := h.ok op (mem_of_getElem? hk)
  refine h.update hk rfl { hok with } (fun _ _ hj => hj) ?_
    (fun _ _ hj => .inl hj) fun _ hid => hid
  intro id hid
  obtain ⟨x, hx, -, hopen, hnew⟩ := h.waits id k hid
  cases hk.symm.trans hx
  exact ⟨hopen, hnew⟩

end Update

variable {ops : List RequestOp}

theorem superseded_append {op : RequestOp} {k : ℕ} {id : Bytes} (hk : k < ops.length) :
    Superseded (ops ++ [op]) k id ↔ Superseded ops k id ∨ id ∈ op.ids := by
  constructor
  · rintro ⟨j, x, hkj, hj, hx⟩
    rcases getElem?_concat_eq_some.mp hj with hj | ⟨-, rfl⟩
    · exact .inl ⟨j, x, hkj, hj, hx⟩
    · exact .inr hx
  · rintro (⟨j, x, hkj, hj, hx⟩ | hid)
    · exact ⟨j, x, hkj, getElem?_concat_eq_some.mpr (.inl hj), hx⟩
    · exact ⟨ops.length, op, hk, getElem?_concat_length, hid⟩

theorem Book.register {table : GoMap.Table Bytes ℕ} (h : Book ops table) (r : Request) :
    Book (ops ++ [r.op]) (r.op.ids.foldl (fun table id => table.insert id ops.length) table) := by
  have hfresh : r.op.answers = [] ∧ r.op.closed = false := by cases r <;> exact ⟨rfl, rfl⟩
  have hold : ∀ {id k}, table.lookup id = some k → k < ops.length := by
    intro id k hk
    obtain ⟨x, hx, -⟩ := h.waits id k hk
    exact (List.getElem?_eq_some_iff.mp hx).1
  refine ⟨?_, ?_, ?_, ?_⟩
  · intro x hx
    rcases mem_append.mp hx with hx | hx
    · exact h.ok x hx
    · rw [mem_singleton.mp hx]
      refine ⟨?_, ?_, ?_⟩
      · rw [hfresh.1]
        exact nofun
      · rw [hfresh.1]
        exact nodup_nil
      · cases r with
        | batch ids => exact Bool.noConfusion
        | subscribe id => exact fun _ => rfl
  · intro id k hk
    rw [lookup_foldl_insert] at hk
    split at hk
    · cases hk
      refine ⟨r.op, getElem?_concat_length, by assumption, hfresh.2, ?_⟩
      rw [hfresh.1]
      exact not_mem_nil
    · obtain ⟨x, hx, hrest⟩ := h.waits id k hk
      exact ⟨x, getElem?_concat_eq_some.mpr (.inl hx), hrest⟩
  · intro id k hk
    rw [lookup_foldl_insert] at hk
    split at hk
    · cases hk
      rintro ⟨j, x, hj, hx, -⟩
      have := (List.getElem?_eq_some_iff.mp hx).1
      rw [length_append, length_singleton] at this
      omega
    · rename_i hid
      rw [superseded_append (hold hk)]
      exact fun hor => hor.elim (h.newest id k hk) hid
  · intro k x hx id hid
    rw [lookup_foldl_insert]
    rcases getElem?_concat_eq_some.mp hx with hx | ⟨rfl, rfl⟩
    · rw [superseded_append (List.getElem?_eq_some_iff.mp hx).1]
      by_cases hmem : id ∈ r.op.ids
      · exact .inr (.inl (.inr hmem))
      · rw [if_neg hmem]
        exact (h.settled k x hx id hid).imp_right (Or.imp_left .inl)
    · rw [if_pos hid]
      exact .inl rfl

/-! ## Closing all operations -/

def closedBy (err : Error) (closing : Bool) (op : RequestOp) : RequestOp :=
  if closing then { op with err := some err, closed := true } else op

theorem closeOps_spec (err : Error) : ∀ (table : List (GoMap.Entry Bytes ℕ)) (didClose : List ℕ)
    (ops : List RequestOp),
    (∀ e ∈ table, e.2 ∉ didClose → ∃ op, ops[e.2]? = some op ∧ op.closed = false) →
    ∃ ops', closeOps err table didClose ops = some ops' ∧ ops'.length = ops.length ∧
      ∀ k, ops'[k]? = ops[k]?.map (closedBy err (k ∈ table.map snd ∧ k ∉ didClose))
  | [], didClose, ops, _ => ⟨ops, rfl, rfl, fun k => by cases ops[k]? <;> simp [closedBy]⟩
  | ⟨id, k⟩ :: table, didClose, ops, hopen => by
    unfold closeOps
    by_cases hk : k ∈ didClose
    · rw [if_pos hk]
      obtain ⟨ops', hops, hlen, hspec⟩ := closeOps_spec err table didClose ops
        fun e he => hopen e (mem_cons_of_mem _ he)
      refine ⟨ops', hops, hlen, fun j => ?_⟩
      have hiff : (j ∈ (⟨id, k⟩ :: table : List (GoMap.Entry Bytes ℕ)).map snd ∧
          j ∉ didClose) ↔ (j ∈ table.map snd ∧ j ∉ didClose) := by
        rw [map_cons, mem_cons]
        constructor
        · rintro ⟨rfl | hj, hnot⟩
          · exact absurd hk hnot
          · exact ⟨hj, hnot⟩
        · exact fun hj => ⟨.inr hj.1, hj.2⟩
      rw [hspec, decide_eq_decide.mpr hiff]
    · rw [if_neg hk]
      obtain ⟨op, hop, hclosed⟩ := hopen ⟨id, k⟩ mem_cons_self hk
      have hlt : k < ops.length := (List.getElem?_eq_some_iff.mp hop).1
      rw [hop]
      dsimp only
      rw [hclosed, if_neg Bool.false_ne_true]
      obtain ⟨ops', hops, hlen, hspec⟩ := closeOps_spec err table (k :: didClose)
        (ops.set k { op with err := some err, closed := true }) (by
          intro e he hnot
          rw [mem_cons, not_or] at hnot
          rw [getElem?_set_ne (Ne.symm hnot.1)]
          exact hopen e (mem_cons_of_mem _ he) hnot.2)
      refine ⟨ops', hops, hlen.trans length_set, fun j => ?_⟩
      by_cases hjk : j = k
      · subst hjk
        rw [hspec, getElem?_set_self hlt, hop]
        simp [closedBy, hk]
      · have hiff : (j ∈ (⟨id, k⟩ :: table : List (GoMap.Entry Bytes ℕ)).map snd ∧
            j ∉ didClose) ↔ (j ∈ table.map snd ∧ j ∉ k :: didClose) := by
          rw [map_cons, mem_cons, mem_cons, not_or]
          exact ⟨fun h => ⟨h.1.resolve_left hjk, hjk, h.2⟩, fun h => ⟨.inr h.1, h.2.2⟩⟩
        rw [hspec, getElem?_set_ne (Ne.symm hjk), decide_eq_decide.mpr hiff]

section Close

variable (ranging : Order)

/-- **All operations of the table are closed with the error.** -/
theorem closeRequestOps_spec {c : Client} (h : Book c.ops c.respWait) (err : Error) :
    ∃ ops', c.closeRequestOps ranging err = { c with ops := ops', respWait := ∅, subs := ∅ } ∧
      ops'.length = c.ops.length ∧ Book ops' ∅ := by
  have hmem : ∀ id k, (⟨id, k⟩ : GoMap.Entry Bytes ℕ) ∈ ranging.visit c.respWait.entries ↔
      c.respWait.lookup id = some k := by
    intro id k
    rw [(ranging.visit_perm _).mem_iff]
    exact mem_lookup_iff.symm
  obtain ⟨ops', hops, hlen, hspec⟩ := closeOps_spec err (ranging.visit c.respWait.entries) [] c.ops
    (by
    rintro ⟨id, k⟩ he -
    obtain ⟨op, hop, -, hopen, -⟩ := h.waits id k ((hmem id k).mp he)
    exact ⟨op, hop, hopen⟩)
  refine ⟨ops', ?_, hlen, ?_⟩
  · unfold closeRequestOps
    rw [hops]
  -- an operation afterwards is one from before, possibly closed
  have hback : ∀ {k op'}, ops'[k]? = some op' → ∃ op b, c.ops[k]? = some op ∧
      op' = closedBy err b op ∧ ((∃ id, c.respWait.lookup id = some k) → b = true) := by
    intro k op' hk
    rw [hspec] at hk
    obtain ⟨op, hop, rfl⟩ := map_eq_some_iff.mp hk
    refine ⟨op, _, hop, rfl, ?_⟩
    rintro ⟨id, hid⟩
    exact decide_eq_true ⟨mem_map.mpr ⟨_, (hmem id k).mpr hid, rfl⟩, not_mem_nil⟩
  have hids : ∀ (b : Bool) (op : RequestOp), (closedBy err b op).ids = op.ids := by
    intro b op
    cases b <;> rfl
  have hsup : ∀ {k id}, Superseded c.ops k id → Superseded ops' k id := by
    rintro k id ⟨j, op, hkj, hop, hid⟩
    exact ⟨j, _, hkj, (hspec j).trans (congrArg _ hop), (hids _ op).symm ▸ hid⟩
  refine ⟨?_, fun id k hk => ?_, fun id k hk => ?_, ?_⟩
  · intro op' hmem'
    obtain ⟨k, hk⟩ := getElem?_of_mem hmem'
    obtain ⟨op, b, hop, rfl, -⟩ := hback hk
    have hok := h.ok op (mem_of_getElem? hop)
    cases b <;> exact { hok with }
  · cases hk
  · cases hk
  · intro k op' hk id hid
    obtain ⟨op, b, hop, rfl, hb⟩ := hback hk
    rw [hids] at hid
    rcases h.settled k op hop id hid with hj | hj | hj
    · cases hb ⟨id, hj⟩
      exact .inr (.inr (.inr (.inr ⟨rfl, some_ne_none _⟩)))
    · exact .inr (.inl (hsup hj))
    · refine .inr (.inr ?_)
      cases b with
      | false => exact hj
      | true => exact hj.imp_right (Or.imp_right fun _ => ⟨rfl, some_ne_none _⟩)

end Close

/-! ## The client -/

/-- Who holds the write lock. -/
structure Locked (c : Client) : Prop where
  free : c.lock = false → c.sender = .idle ∧ c.sendDone = none
  held : c.lock = true → c.lastOp ≠ none
  last : ∀ k, c.lastOp = some k → k + 1 = c.ops.length
  done : c.sendDone ≠ none → c.sender = .idle

structure Inv (c : Client) : Prop where
  fault : c.fault = none
  book : Book c.ops c.respWait
  locked : Locked c
  finished : c.dispatch = .draining ∨ c.dispatch = .ended → c.respWait = ∅

theorem inv_newClient : Inv newClient := by
  refine ⟨rfl, ⟨nofun, ?_, ?_, ?_⟩, ⟨fun _ => ⟨rfl, rfl⟩, ?_, ?_, ?_⟩, ?_⟩
  · intro id k hk
    cases hk
  · intro id k hk
    cases hk
  · intro k op hk
    cases hk
  · exact Bool.noConfusion
  · intro k hk
    cases hk
  · exact fun h => absurd rfl h
  · rintro (h | h) <;> cases h

section Steps

variable (unmarshal : Bytes → Except Error Bytes) (ranging : Order) {c : Client}

theorem Locked.of_ops {d : Client} (h : Locked c) (hlen : d.ops.length = c.ops.length)
    (hlock : d.lock = c.lock) (hlast : d.lastOp = c.lastOp) (hsender : d.sender = c.sender)
    (hdone : d.sendDone = c.sendDone) : Locked d := by
  refine ⟨?_, ?_, ?_, ?_⟩
  · rw [hlock, hsender, hdone]
    exact h.free
  · rw [hlock, hlast]
    exact h.held
  · rw [hlast, hlen]
    exact h.last
  · rw [hdone, hsender]
    exact h.done

variable (h : Inv c)
include h

theorem inv_register (r : Request) (hd : c.dispatch = .select) (hl : c.lock = false) :
    Inv (c.register r.op) := by
  refine ⟨h.fault, h.book.register r, ⟨Bool.noConfusion, fun _ => some_ne_none _, ?_, ?_⟩, ?_⟩
  · intro k hk
    cases hk
    change _ = (c.ops ++ [r.op]).length
    rw [length_append, length_singleton]
  · exact fun hdone => absurd (h.locked.free hl).2 hdone
  · rintro (hover | hover) <;> exact nomatch hd.symm.trans hover

theorem inv_finish (err : Option Error) (hs : c.sender ≠ .idle) : Inv (c.finish err) := by
  refine { h with locked := ⟨?_, h.locked.held, h.locked.last, fun _ => rfl⟩ }
  exact fun hl => absurd (h.locked.free hl).1 hs

theorem inv_sent {err : Option Error} (hd : c.dispatch = .select)
    (hdone : c.sendDone = some err) : Inv (c.sent err) := by
  have hpending : c.sendDone ≠ none := by
    rw [hdone]
    exact some_ne_none err
  have hlock : c.lock = true := by
    by_contra hl
    exact hpending (h.locked.free (Bool.eq_false_iff.mpr hl)).2
  have hidle := h.locked.done hpending
  have hover : ¬ (c.dispatch = .draining ∨ c.dispatch = .ended) := by
    rintro (hover | hover) <;> exact nomatch hd.symm.trans hover
  have hlocked : Locked { c with sendDone := none, lock := false, lastOp := none } := by
    refine ⟨fun _ => ⟨hidle, rfl⟩, Bool.noConfusion, ?_, fun _ => hidle⟩
    intro k hk
    cases hk
  cases err with
  | none => exact ⟨h.fault, h.book, hlocked, fun ho => absurd ho hover⟩
  | some e =>
    obtain ⟨k, hk⟩ := ne_none_iff_exists'.mp (h.locked.held hlock)
    have hlen := h.locked.last k hk
    obtain ⟨op, hop⟩ : ∃ op, c.ops[k]? = some op :=
      ⟨_, getElem?_eq_getElem (show k < c.ops.length by omega)⟩
    unfold sent
    dsimp only
    rw [hk]
    dsimp only
    rw [hop]
    exact ⟨h.fault, h.book.fail hop hlen, hlocked.of_ops length_set rfl rfl rfl rfl,
      fun ho => absurd ho hover⟩

theorem inv_closeRequestOps (err : Error) :
    Inv (c.closeRequestOps ranging err) ∧ (c.closeRequestOps ranging err).respWait = ∅ := by
  obtain ⟨ops', hclose, hlen, hbook⟩ := closeRequestOps_spec ranging h.book err
  rw [hclose]
  exact ⟨⟨h.fault, hbook, h.locked.of_ops hlen rfl rfl rfl rfl, fun _ => rfl⟩, rfl⟩

theorem inv_quit : Inv (c.quit ranging) := by
  obtain ⟨hinv, hempty⟩ := inv_closeRequestOps ranging h .clientQuit
  exact ⟨hinv.fault, hinv.book, hinv.locked.of_ops rfl rfl rfl rfl rfl, fun _ => hempty⟩

theorem inv_handleResponse (msg : Message) (hd : ¬ (c.dispatch = .draining ∨
    c.dispatch = .ended)) : Inv (c.handleResponse unmarshal msg) := by
  unfold handleResponse
  split
  · exact h
  · rename_i k hk
    obtain ⟨op, hop, hmem, hopen, hnew⟩ := h.book.waits msg.id k hk
    have hok := h.book.ok op (mem_of_getElem? hop)
    rw [hop]
    dsimp only
    split
    · rename_i hsub
      unfold subscribed
      dsimp only
      rw [hopen, if_neg Bool.false_ne_true]
      exact ⟨h.fault, h.book.answer hop hk rfl rfl rfl rfl hsub.symm,
        h.locked.of_ops length_set rfl rfl rfl rfl, fun ho => absurd ho hd⟩
    · rename_i hsub
      -- the responses are for different ids of the operation, and this one is for another
      have hroom : op.answers.length - op.received < op.capacity := by
        have hnodup : (msg.id :: op.answers.map Message.id).Nodup := nodup_cons.mpr ⟨hnew, hok.once⟩
        have hsubset : msg.id :: op.answers.map Message.id ⊆ op.ids := by
          intro id hid
          rcases mem_cons.mp hid with rfl | hid
          · exact hmem
          · obtain ⟨m, hm, rfl⟩ := mem_map.mp hid
            exact hok.own m hm
        have hle := (subperm_of_subset hnodup hsubset).length_le
        rw [length_cons, length_map] at hle
        rw [RequestOp.capacity, if_neg hsub]
        omega
      unfold forward
      rw [hopen, if_neg Bool.false_ne_true, if_pos hroom]
      exact ⟨h.fault, h.book.answer hop hk rfl rfl rfl rfl (Bool.eq_false_iff.mpr hsub).symm,
        h.locked.of_ops length_set rfl rfl rfl rfl, fun ho => absurd ho hd⟩

theorem inv_handle {batch : List (Option Message)} (hd : c.dispatch = .handling batch) :
    Inv (c.handle unmarshal ranging batch) := by
  match batch with
  | [] =>
    refine ⟨h.fault, h.book, h.locked.of_ops rfl rfl rfl rfl rfl, ?_⟩
    rintro (hover | hover) <;> cases hover
  | none :: rest => exact inv_quit ranging h
  | some msg :: rest =>
    have hover : ¬ (Dispatch.handling rest = .draining ∨ Dispatch.handling rest = .ended) := by
      rintro (hover | hover) <;> cases hover
    have hnext : Inv { c with dispatch := .handling rest } :=
      ⟨h.fault, h.book, h.locked.of_ops rfl rfl rfl rfl rfl, fun ho => absurd ho hover⟩
    unfold handle
    dsimp only
    split_ifs
    · exact hnext
    · exact inv_handleResponse unmarshal hnext msg hover
    · exact hnext

theorem inv_readFailed {d : Client} {j : ℕ} {err : Error}
    (hd : c.readFailed ranging j err = some d) : Inv d := by
  have hset : Inv { c with readers := c.readers.set j .gone } :=
    { h with locked := h.locked.of_ops rfl rfl rfl rfl rfl }
  unfold readFailed at hd
  dsimp only at hd
  split at hd
  · cases hd
    obtain ⟨hinv, hempty⟩ := inv_closeRequestOps ranging hset err
    exact ⟨hinv.fault, hinv.book, hinv.locked.of_ops rfl rfl rfl rfl rfl, fun _ => hempty⟩
  · cases hd
    refine ⟨h.fault, h.book, h.locked.of_ops rfl rfl rfl rfl rfl, ?_⟩
    rintro (hover | hover) <;> cases hover
  · rename_i hdrain
    cases hd
    exact ⟨h.fault, h.book, h.locked.of_ops rfl rfl rfl rfl rfl, fun _ => h.finished (.inl hdrain)⟩
  · cases hd

omit h

theorem inv_step (c : Client) (a : Act) (d : Client) (h : Inv c)
    (hd : step unmarshal c a = some d) : Inv d := by
  obtain ⟨-, hd⟩ := ite_none_left_eq_some.mp hd
  cases a with
  | request r =>
    obtain ⟨⟨hselect, hlock⟩, rfl⟩ := of_guard hd
    exact inv_register h r hselect hlock
  | write err =>
    obtain ⟨⟨hs, -⟩, rfl⟩ := of_guard hd
    have hfinish := inv_finish h err (by rw [hs]; exact Sender.noConfusion)
    exact { hfinish with locked := hfinish.locked.of_ops rfl rfl rfl rfl rfl }
  | connect err =>
    obtain ⟨⟨hs, -, hdone⟩, hd⟩ := ite_none_right_eq_some.mp hd
    have hbusy : c.sender ≠ .idle := by rw [hs]; exact Sender.noConfusion
    cases err with
    | some e =>
      cases hd
      exact inv_finish h (some e) hbusy
    | none =>
      cases hd
      refine { h with locked := ⟨?_, h.locked.held, h.locked.last, ?_⟩ }
      · exact fun hl => absurd (h.locked.free hl).1 hbusy
      · exact fun hn => absurd hdone hn
  | reconnected =>
    obtain ⟨⟨hselect, hs⟩, rfl⟩ := of_guard hd
    have hbusy : c.sender ≠ .idle := by rw [hs]; exact Sender.noConfusion
    have hlocked : Locked { c with sender := .writing, writeConn := true } := by
      refine ⟨?_, h.locked.held, h.locked.last, ?_⟩
      · exact fun hl => absurd (h.locked.free hl).1 hbusy
      · exact fun hn => absurd (h.locked.done hn) hbusy
    unfold reconnected
    dsimp only
    split
    · refine ⟨h.fault, h.book, hlocked.of_ops rfl rfl rfl rfl rfl, ?_⟩
      rintro (hover | hover) <;> cases hover
    · exact { h with locked := hlocked.of_ops rfl rfl rfl rfl rfl }
  | abandon =>
    obtain ⟨⟨-, hs, -⟩, rfl⟩ := of_guard hd
    exact inv_finish h _ (by rw [hs]; exact Sender.noConfusion)
  | sendDone =>
    dsimp only at hd
    split at hd
    · rename_i err hselect hdone
      cases hd
      exact inv_sent h hselect hdone
    · cases hd
  | decode j batch | fail j err =>
    obtain ⟨-, rfl⟩ := of_guard hd
    exact { h with locked := h.locked.of_ops rfl rfl rfl rfl rfl }
  | readResp j =>
    dsimp only at hd
    split at hd
    · cases hd
      refine ⟨h.fault, h.book, h.locked.of_ops rfl rfl rfl rfl rfl, ?_⟩
      rintro (hover | hover) <;> cases hover
    · cases hd
      exact { h with locked := h.locked.of_ops rfl rfl rfl rfl rfl }
    · cases hd
  | readErr j ranging =>
    dsimp only at hd
    split at hd
    · exact inv_readFailed ranging h hd
    · cases hd
  | handle ranging =>
    dsimp only at hd
    split at hd
    · rename_i batch hbatch
      cases hd
      exact inv_handle unmarshal ranging h hbatch
    · cases hd
  | close ranging =>
    obtain ⟨-, rfl⟩ := of_guard hd
    exact inv_quit ranging h
  | receive k =>
    dsimp only at hd
    split at hd
    · rename_i op hop
      obtain ⟨-, rfl⟩ := of_guard hd
      exact ⟨h.fault, h.book.receive hop _, h.locked.of_ops length_set rfl rfl rfl rfl, h.finished⟩
    · cases hd

/-- **Responses reach their own call.** -/
theorem responses_reach_calls {as : List Act}
    (h : run (step unmarshal) newClient as = some c) :
    c.fault = none ∧
      (∀ op ∈ c.ops, (∀ msg ∈ op.answers, msg.id ∈ op.ids) ∧ (op.answers.map Message.id).Nodup) ∧
      (c.dispatch = .ended → ∀ k op, c.ops[k]? = some op → ∀ id ∈ op.ids,
        id ∈ op.answers.map Message.id ∨ op.failed = true ∨ Superseded c.ops k id ∨
          (op.closed = true ∧ op.err ≠ none)) := by
  have hinv := run_invariant (inv_step unmarshal) inv_newClient h
  refine ⟨hinv.fault, fun op hop => ?_, fun hended k op hop id hid => ?_⟩
  · exact ⟨(hinv.book.ok op hop).own, (hinv.book.ok op hop).once⟩
  · rcases hinv.book.settled k op hop id hid with hk | hk | hk | hk | hk
    · rw [hinv.finished (.inr hended), lookup_empty] at hk
      cases hk
    · exact .inr (.inr (.inl hk))
    · exact .inl hk
    · exact .inr (.inl hk)
    · exact .inr (.inr (.inr hk))

end Steps

def closedRun : List Act :=
  let answer (id : UInt32) : Message := ⟨formatID id, [], [], none, []⟩
  [.request (.batch [1, 2]), .write none, .sendDone, .request (.batch [3]), .write none, .sendDone,
    .decode 0 [some (answer 2), some (answer 2), some (answer 9)], .readResp 0, .handle .listed,
    .handle .listed, .handle .listed, .handle .listed, .receive 0, .close .listed,
    .fail 0 (.other []), .readErr 0 .listed]

theorem responses_reach_calls_closed : ∃ c : Client,
    run (step .ok) newClient closedRun = some c ∧ c.dispatch = .ended ∧
      (c.ops.map fun op => (op.answers.length, op.closed, op.err)) =
        [(1, true, some .clientQuit), (0, true, some .clientQuit)] ∧
      c.fault = none ∧
      (∀ op ∈ c.ops, (∀ msg ∈ op.answers, msg.id ∈ op.ids) ∧ (op.answers.map Message.id).Nodup) ∧
      (c.dispatch = .ended → ∀ k op, c.ops[k]? = some op → ∀ id ∈ op.ids,
        id ∈ op.answers.map Message.id ∨ op.failed = true ∨ Superseded c.ops k id ∨
          (op.closed = true ∧ op.err ≠ none)) :=
  exists_run (by decide +kernel) fun hrun =>
    ⟨by decide +kernel, by decide +kernel, responses_reach_calls .ok hrun⟩

end XChain.RpcClient
