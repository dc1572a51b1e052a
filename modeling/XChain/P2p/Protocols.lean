import XChain.Lib.Table
import XChain.Lib.Word

/-!
# Message codes of the subprotocols

`p2p/peer.go`: after the handshake each side runs `matchProtocols` over its own protocols and the
capabilities the other side advertised, which gives the highest common version of each name a range
of message codes. A message of a protocol is sent under its code plus the offset of the range, and
`getProto` finds the protocol of a code. Offsets and codes are `uint64`.

* **`codes_agree`**: both sides select the same protocols at the same offsets; the ranges follow
  each other and messages arrive where they belong, exactly if all codes are `uint64`s.
-/

namespace XChain.Protocols

open GoMap List AList Table Word64

/-- A subprotocol; the functions it runs are left out. -/
structure Protocol (N : Type) where
  name : N
  version : ℕ
  length : ℕ
  length_lt : length < size

instance {N : Type} [DecidableEq N] : DecidableEq (Protocol N) := fun p q =>
  decidable_of_iff ((p.name, p.version, p.length) = (q.name, q.version, q.length)) <| by
    cases p
    cases q
    simp

structure Cap (N : Type) where
  name : N
  version : ℕ
deriving DecidableEq

structure ProtoRW (N : Type) where
  protocol : Protocol N
  offset : ℕ
deriving DecidableEq

def baseProtocolLength : ℕ := 16

def discMsg : ℕ := 1

def pingMsg : ℕ := 2

variable {N : Type} [LinearOrder N]

def Protocol.cap (p : Protocol N) : Cap N := ⟨p.name, p.version⟩

def Cap.less (a b : Cap N) : Prop := a.name < b.name ∨ (a.name = b.name ∧ a.version < b.version)

instance : DecidableRel (Cap.less (N := N)) := fun _ _ => by unfold Cap.less; infer_instance

def sortCaps (caps : List (Cap N)) : List (Cap N) := caps.insertionSort fun a b => ¬ b.less a

/-- The offset of the next range and the protocols matched so far. -/
structure Matching (N : Type) where
  offset : ℕ
  result : Table N (ProtoRW N)

/-- Assigns a match; an old version that matched is reverted. -/
def place (m : Matching N) (proto : Protocol N) : Matching N :=
  let offset := match m.result.lookup proto.name with
    | some old => sub m.offset old.protocol.length
    | none => m.offset
  ⟨add offset proto.length, m.result.insert proto.name ⟨proto, offset⟩⟩

def own (protocols : List (Protocol N)) (cap : Cap N) : Option (Protocol N) :=
  protocols.find? fun p => decide (p.name = cap.name ∧ p.version = cap.version)

def matchCap (protocols : List (Protocol N)) (m : Matching N) (cap : Cap N) : Matching N :=
  match own protocols cap with
  | none => m
  | some proto => place m proto

def matchProtocols (protocols : List (Protocol N)) (caps : List (Cap N)) : Table N (ProtoRW N) :=
  ((sortCaps caps).foldl (matchCap protocols) ⟨baseProtocolLength, ∅⟩).result

/-- The protocol responsible for a message code; the running ones are visited in any order. -/
def getProto (order : Ranging (Entry N (ProtoRW N))) (running : Table N (ProtoRW N)) (code : ℕ) :
    Option (ProtoRW N) :=
  ((order.visit running.entries).find? fun e =>
    decide (e.2.offset ≤ code ∧ code < add e.2.offset e.2.protocol.length)).map (·.2)

inductive Handled (N : Type)
  | ping
  | disconnect
  | ignored
  | proto (rw : ProtoRW N)
  | invalid

def handle (order : Ranging (Entry N (ProtoRW N))) (running : Table N (ProtoRW N)) (code : ℕ) :
    Handled N :=
  if code = pingMsg then .ping
  else if code = discMsg then .disconnect
  else if code < baseProtocolLength then .ignored
  else match getProto order running code with
    | none => .invalid
    | some rw => .proto rw

/-- The code under which a message is sent, if the protocol has its code. -/
def ProtoRW.writeMsg (rw : ProtoRW N) (code : ℕ) : Option ℕ :=
  if rw.protocol.length ≤ code then none else some (add code rw.offset)

def ProtoRW.readMsg (rw : ProtoRW N) (code : ℕ) : ℕ := sub code rw.offset

/-! ## The protocols that run and their codes -/

section Spec

/-- A side with protocols `P` runs for each name that both sides have in a common version its
protocol of the highest one. -/
structure Selects (P Q : List (Protocol N)) (running : Table N (ProtoRW N)) : Prop where
  common : ∀ p ∈ P, ∀ q ∈ Q, p.cap = q.cap → ∃ rw, running.lookup p.name = some rw
  own : ∀ x rw, running.lookup x = some rw → rw.protocol ∈ P ∧ rw.protocol.name = x
  other : ∀ x rw, running.lookup x = some rw → ∃ q ∈ Q, q.cap = rw.protocol.cap
  highest : ∀ x rw, running.lookup x = some rw → ∀ p ∈ P, ∀ q ∈ Q, p.cap = q.cap →
    p.name = x → p.version ≤ rw.protocol.version

def ProtoRW.covers (rw : ProtoRW N) (code : ℕ) : Prop :=
  rw.offset ≤ code ∧ code < rw.offset + rw.protocol.length

def total (running : Table N (ProtoRW N)) : ℕ :=
  (running.entries.map fun e => e.2.protocol.length).sum

/-- The ranges are disjoint, and together an interval from `baseProtocolLength` on. -/
structure Tiles (running : Table N (ProtoRW N)) : Prop where
  disjoint : ∀ x y rw rw' code, running.lookup x = some rw → running.lookup y = some rw' →
    rw.covers code → rw'.covers code → x = y
  interval : ∀ code, (∃ x rw, running.lookup x = some rw ∧ rw.covers code) ↔
    baseProtocolLength ≤ code ∧ code < baseProtocolLength + total running

/-- A message written on a protocol of one side is handed to this protocol of the other side, with
its code. -/
def Routes (running running' : Table N (ProtoRW N)) : Prop :=
  ∀ (order : Ranging (Entry N (ProtoRW N))) x rw code wire, running.lookup x = some rw →
    rw.writeMsg code = some wire → ∃ rw', running'.lookup x = some rw' ∧
      handle order running' wire = .proto rw' ∧ rw'.readMsg wire = code

end Spec

open Protocol

/-! ## The protocols that match -/

section Matched

def Cap.key (c : Cap N) : N ×ₗ ℕ := toLex (c.name, c.version)

theorem Cap.less_iff {a b : Cap N} : a.less b ↔ a.key < b.key := by
  unfold Cap.less Cap.key
  rw [Prod.Lex.toLex_lt_toLex]

omit [LinearOrder N] in
theorem Cap.key_inj {a b : Cap N} (h : a.key = b.key) : a = b := by
  cases a
  cases b
  cases h
  rfl

theorem pairwise_sortCaps {caps : List (Cap N)} (h : caps.Nodup) :
    (sortCaps caps).Pairwise fun a b => a.key < b.key := by
  have hle : ∀ a b : Cap N, ¬ b.less a ↔ a.key ≤ b.key := fun a b => by rw [Cap.less_iff, not_lt]
  have : Std.Total fun a b : Cap N => ¬ b.less a :=
    ⟨fun a b => by rw [hle, hle]; exact le_total _ _⟩
  have : IsTrans (Cap N) fun a b => ¬ b.less a :=
    ⟨fun a b c => by rw [hle, hle, hle]; exact le_trans⟩
  have hsorted := pairwise_insertionSort (fun a b : Cap N => ¬ b.less a) caps
  have hnodup : (sortCaps caps).Nodup := (perm_insertionSort _ caps).nodup_iff.mpr h
  refine (hsorted.and hnodup).imp fun ⟨hab, hne⟩ => ?_
  exact lt_of_le_of_ne ((hle _ _).mp hab) fun heq => hne (Cap.key_inj heq)

def matched (protocols : List (Protocol N)) (caps : List (Cap N)) : List (Protocol N) :=
  (sortCaps caps).filterMap (own protocols)

theorem foldl_matchCap (protocols : List (Protocol N)) :
    ∀ (caps : List (Cap N)) (m : Matching N),
      caps.foldl (matchCap protocols) m = (caps.filterMap (own protocols)).foldl place m
  | [], _ => rfl
  | cap :: caps, m => by
    rw [foldl_cons, foldl_matchCap]
    unfold matchCap
    cases hown : own protocols cap with
    | none => rw [filterMap_cons_none hown]
    | some proto => rw [filterMap_cons_some hown, foldl_cons]

variable {p : Protocol N} {protocols : List (Protocol N)}

theorem own_eq_some {cap : Cap N} (h : own protocols cap = some p) :
    p ∈ protocols ∧ p.cap = cap := by
  refine ⟨mem_of_find?_eq_some h, ?_⟩
  have hcap := find?_some h
  rw [decide_eq_true_eq] at hcap
  unfold Protocol.cap
  rw [hcap.1, hcap.2]

theorem own_cap (hnodup : (protocols.map cap).Nodup) (hp : p ∈ protocols) :
    own protocols p.cap = some p := by
  cases hown : own protocols p.cap with
  | none => exact absurd (decide_eq_true ⟨rfl, rfl⟩) (find?_eq_none.mp hown p hp)
  | some q =>
    obtain ⟨hq, hcap⟩ := own_eq_some hown
    rw [inj_on_of_nodup_map hnodup hq hp hcap]

variable {P Q : List (Protocol N)} {caps : List (Cap N)}

theorem mem_matched (hnodup : (P.map cap).Nodup) : p ∈ matched P caps ↔ p ∈ P ∧ p.cap ∈ caps := by
  unfold matched
  rw [mem_filterMap]
  constructor
  · rintro ⟨cap, hcap, hown⟩
    obtain ⟨hp, heq⟩ := own_eq_some hown
    exact ⟨hp, heq ▸ (perm_insertionSort _ caps).mem_iff.mp hcap⟩
  · rintro ⟨hp, hcap⟩
    exact ⟨p.cap, (perm_insertionSort _ caps).mem_iff.mpr hcap, own_cap hnodup hp⟩

theorem pairwise_matched (hcaps : caps.Nodup) :
    (matched P caps).Pairwise fun p q => p.cap.key < q.cap.key := by
  refine Pairwise.filterMap (own P) (fun a a' hlt b hb b' hb' => ?_) (pairwise_sortCaps hcaps)
  rw [(own_eq_some hb).2, (own_eq_some hb').2]
  exact hlt

/-- **Both sides match the same protocols, in the same order.** -/
theorem matched_comm (hP : (P.map cap).Nodup) (hQ : (Q.map cap).Nodup)
    (hlength : ∀ p ∈ P, ∀ q ∈ Q, p.cap = q.cap → p.length = q.length)
    {capsP capsQ : List (Cap N)} (hcapsP : capsP.Perm (P.map cap))
    (hcapsQ : capsQ.Perm (Q.map cap)) : matched P capsQ = matched Q capsP := by
  have hsortedP : (matched P capsQ).Pairwise fun p q => p.cap.key < q.cap.key :=
    pairwise_matched (hcapsQ.nodup_iff.mpr hQ)
  have hsortedQ : (matched Q capsP).Pairwise fun p q => p.cap.key < q.cap.key :=
    pairwise_matched (hcapsP.nodup_iff.mpr hP)
  have hsame : ∀ p ∈ P, ∀ q ∈ Q, p.cap = q.cap → p = q := by
    intro p hp q hq hcap
    have hlen := hlength p hp q hq hcap
    obtain ⟨hname, hversion⟩ := Cap.mk.inj hcap
    cases p
    cases q
    subst hlen hname hversion
    rfl
  refine Perm.eq_of_pairwise (fun p q _ _ hlt hgt => absurd hlt hgt.asymm) hsortedP hsortedQ ?_
  refine (perm_ext_iff_of_nodup ?_ ?_).mpr fun p => ?_
  · exact hsortedP.imp fun hlt heq => absurd (congrArg (·.cap.key) heq) hlt.ne
  · exact hsortedQ.imp fun hlt heq => absurd (congrArg (·.cap.key) heq) hlt.ne
  · rw [mem_matched hP, mem_matched hQ, hcapsQ.mem_iff, hcapsP.mem_iff, mem_map, mem_map]
    constructor
    · rintro ⟨hp, q, hq, hcap⟩
      have heq := hsame p hp q hq hcap.symm
      exact ⟨heq ▸ hq, p, hp, rfl⟩
    · rintro ⟨hp, q, hq, hcap⟩
      have heq := hsame q hq p hp hcap
      exact ⟨heq ▸ hq, p, hp, rfl⟩

end Matched

/-! ## The ranges of the loop -/

section Layout

variable {N : Type}

def highest [DecidableEq N] : List (Protocol N) → List (Protocol N)
  | [] => []
  | [p] => [p]
  | p :: q :: l => if p.name = q.name then highest (q :: l) else p :: highest (q :: l)

/-- The protocols with their ranges, one behind the other from an offset on. -/
def layout : ℕ → List (Protocol N) → List (ProtoRW N)
  | _, [] => []
  | o, p :: l => ⟨p, o⟩ :: layout (add o p.length) l

theorem map_layout : ∀ (o : ℕ) (l : List (Protocol N)), (layout o l).map (·.protocol) = l
  | _, [] => rfl
  | o, p :: l => by rw [layout, map_cons, map_layout]

theorem sub_add_length {o : ℕ} (ho : o < size) (p : Protocol N) :
    sub (add o p.length) p.length = o := by
  have := p.length_lt
  unfold sub add
  unfold size at *
  omega

variable [LinearOrder N] {p q : Protocol N} {m : Matching N}

theorem name_le_of_key_lt (h : p.cap.key < q.cap.key) : p.name ≤ q.name := by
  rcases Prod.Lex.lt_iff.mp h with hlt | ⟨heq, -⟩
  · exact hlt.le
  · exact heq.le

theorem version_lt_of_key_lt (h : p.cap.key < q.cap.key) (hname : p.name = q.name) :
    p.version < q.version := by
  rcases Prod.Lex.lt_iff.mp h with hlt | ⟨-, hlt⟩
  · exact absurd hname hlt.ne
  · exact hlt

theorem highest_sublist : ∀ l : List (Protocol N), (highest l).Sublist l
  | [] => Sublist.slnil
  | [_] => Sublist.refl _
  | p :: q :: l => by
    unfold highest
    split
    · exact (highest_sublist (q :: l)).cons p
    · exact (highest_sublist (q :: l)).cons_cons p

theorem pairwise_highest : ∀ {l : List (Protocol N)},
    l.Pairwise (fun p q => p.cap.key < q.cap.key) → (highest l).Pairwise (·.name < ·.name)
  | [], _ => Pairwise.nil
  | [p], _ => pairwise_singleton _ p
  | p :: q :: l, h => by
    obtain ⟨hfirst, hrest⟩ := pairwise_cons.mp h
    unfold highest
    split
    · exact pairwise_highest hrest
    · rename_i hne
      refine pairwise_cons.mpr ⟨fun r hr => ?_, pairwise_highest hrest⟩
      have hlt := lt_of_le_of_ne (name_le_of_key_lt (hfirst q mem_cons_self)) hne
      rcases mem_cons.mp ((highest_sublist _).subset hr) with rfl | hr
      · exact hlt
      · exact hlt.trans_le (name_le_of_key_lt ((pairwise_cons.mp hrest).1 r hr))

theorem exists_highest : ∀ {l : List (Protocol N)},
    l.Pairwise (fun p q => p.cap.key < q.cap.key) → ∀ {p}, p ∈ l →
      ∃ q ∈ highest l, q.name = p.name ∧ p.version ≤ q.version
  | [r], _, p, hp => by
    rw [mem_singleton.mp hp]
    exact ⟨r, mem_singleton_self r, rfl, le_rfl⟩
  | r :: q :: l, h, p, hp => by
    obtain ⟨hfirst, hrest⟩ := pairwise_cons.mp h
    unfold highest
    split
    · rename_i hname
      rcases mem_cons.mp hp with rfl | hp
      · obtain ⟨u, hu, hun, huv⟩ := exists_highest hrest mem_cons_self
        have hlt := version_lt_of_key_lt (hfirst q mem_cons_self) hname
        exact ⟨u, hu, hun.trans hname.symm, hlt.le.trans huv⟩
      · exact exists_highest hrest hp
    · rcases mem_cons.mp hp with rfl | hp
      · exact ⟨p, mem_cons_self, rfl, le_rfl⟩
      · obtain ⟨u, hu, h⟩ := exists_highest hrest hp
        exact ⟨u, mem_cons_of_mem r hu, h⟩

theorem place_of_none {p : Protocol N} (h : m.result.lookup p.name = none) :
    place m p = ⟨add m.offset p.length, m.result.insert p.name ⟨p, m.offset⟩⟩ := by
  unfold place
  rw [h]

theorem place_of_some {p : Protocol N} {old : ProtoRW N} (h : m.result.lookup p.name = some old) :
    place m p = ⟨add (sub m.offset old.protocol.length) p.length,
      m.result.insert p.name ⟨p, sub m.offset old.protocol.length⟩⟩ := by
  unfold place
  rw [h]

/-- **The loop lays out the highest versions.** -/
theorem lookup_foldl_place {x : N} : ∀ {l : List (Protocol N)} {p : Protocol N} {o : ℕ}
    {t : Table N (ProtoRW N)}, o < size →
    (p :: l).Pairwise (fun p q => p.cap.key < q.cap.key) →
    (∀ q ∈ l, q.name ≠ p.name → t.lookup q.name = none) →
    (l.foldl place ⟨add o p.length, t.insert p.name ⟨p, o⟩⟩).result.lookup x =
      ((layout o (highest (p :: l))).find? fun rw => decide (rw.protocol.name = x)).or (t.lookup x)
  | [], p, o, t, _, _, _ => by
    unfold highest layout
    rw [foldl_nil, layout, find?_singleton]
    by_cases hx : p.name = x
    · subst hx
      simp
    · rw [lookup_insert_ne (Ne.symm hx)]
      simp [hx]
  | q :: l, p, o, t, ho, hsorted, hfree => by
    obtain ⟨hfirst, hrest⟩ := pairwise_cons.mp hsorted
    have hle := name_le_of_key_lt (hfirst q mem_cons_self)
    rw [foldl_cons]
    by_cases hname : p.name = q.name
    · have hold : (t.insert p.name ⟨p, o⟩).lookup q.name = some ⟨p, o⟩ := by
        rw [hname, lookup_insert]
      rw [place_of_some hold, highest, if_pos hname]
      rw [sub_add_length ho, hname, insert_insert]
      refine lookup_foldl_place ho hrest fun r hr hne => ?_
      exact hfree r (mem_cons_of_mem q hr) (hname ▸ hne)
    · have hnone : (t.insert p.name ⟨p, o⟩).lookup q.name = none := by
        rw [lookup_insert_ne (Ne.symm hname)]
        exact hfree q mem_cons_self (Ne.symm hname)
      have hlt : ∀ r ∈ q :: l, p.name < r.name := by
        intro r hr
        rcases mem_cons.mp hr with rfl | hr
        · exact lt_of_le_of_ne hle hname
        · exact (lt_of_le_of_ne hle hname).trans_le
            (name_le_of_key_lt ((pairwise_cons.mp hrest).1 r hr))
      rw [place_of_none hnone, highest, if_neg hname, layout, find?_cons]
      have hnext : add o p.length < size := Nat.mod_lt _ (by decide)
      rw [lookup_foldl_place hnext hrest]
      · by_cases hx : p.name = x
        · -- no later protocol has the name
          subst hx
          have hlater : (layout (add o p.length) (highest (q :: l))).find?
              (fun rw => decide (rw.protocol.name = p.name)) = none := by
            refine find?_eq_none.mpr fun rw hrw heq => ?_
            have hmem : rw.protocol ∈ highest (q :: l) := by
              rw [← map_layout (add o p.length) (highest (q :: l))]
              exact mem_map_of_mem hrw
            exact (hlt _ ((highest_sublist _).subset hmem)).ne' (of_decide_eq_true heq)
          rw [hlater, lookup_insert]
          simp
        · rw [lookup_insert_ne (Ne.symm hx)]
          simp [hx]
      · intro r hr hne
        have hpr := (hlt r (mem_cons_of_mem q hr)).ne'
        rw [lookup_insert_ne hpr]
        exact hfree r (mem_cons_of_mem q hr) hpr

end Layout

/-! ## Ranges that fit -/

section Ranges

variable {N : Type}

def lengths (l : List (Protocol N)) : ℕ := (l.map (·.length)).sum

theorem lengths_cons (p : Protocol N) (l : List (Protocol N)) :
    lengths (p :: l) = p.length + lengths l := sum_cons

theorem layout_bounds : ∀ {l : List (Protocol N)} {o : ℕ}, o + lengths l < size →
    ∀ rw ∈ layout o l, o ≤ rw.offset ∧ rw.offset + rw.protocol.length ≤ o + lengths l
  | p :: l, o, hfits, rw, hrw => by
    rw [lengths_cons] at hfits ⊢
    have hadd : add o p.length = o + p.length := Nat.mod_eq_of_lt (by omega)
    rcases mem_cons.mp hrw with rfl | hrw
    · exact ⟨le_rfl, by dsimp only; omega⟩
    · have := layout_bounds (by omega) rw hrw
      omega

theorem pairwise_layout : ∀ {l : List (Protocol N)} {o : ℕ}, o + lengths l < size →
    (layout o l).Pairwise fun r r' => r.offset + r.protocol.length ≤ r'.offset
  | [], _, _ => Pairwise.nil
  | p :: l, o, hfits => by
    rw [lengths_cons] at hfits
    have hadd : add o p.length = o + p.length := Nat.mod_eq_of_lt (by omega)
    rw [layout, hadd]
    refine pairwise_cons.mpr ⟨fun rw hrw => ?_, pairwise_layout (by omega)⟩
    exact (layout_bounds (by omega) rw hrw).1

theorem exists_covers : ∀ {l : List (Protocol N)} {o code : ℕ}, o + lengths l < size →
    o ≤ code → code < o + lengths l → ∃ rw ∈ layout o l, rw.covers code
  | [], o, code, _, hge, hlt => absurd hge (Nat.not_le.mpr hlt)
  | p :: l, o, code, hfits, hge, hlt => by
    rw [lengths_cons] at hfits hlt
    have hadd : add o p.length = o + p.length := Nat.mod_eq_of_lt (by omega)
    rw [layout, hadd]
    by_cases hcode : code < o + p.length
    · exact ⟨⟨p, o⟩, mem_cons_self, hge, hcode⟩
    · obtain ⟨rw, hrw, hcovers⟩ := exists_covers (l := l) (o := o + p.length)
        (by omega) (Nat.not_lt.mp hcode) (by omega)
      exact ⟨rw, mem_cons_of_mem _ hrw, hcovers⟩

theorem exists_overflow : ∀ {l : List (Protocol N)} {o : ℕ}, o < size →
    size ≤ o + lengths l →
      ∃ rw ∈ layout o l, rw.offset < size ∧ size ≤ rw.offset + rw.protocol.length
  | [], o, ho, hover => absurd ho (Nat.not_lt.mpr hover)
  | p :: l, o, ho, hover => by
    rw [lengths_cons] at hover
    unfold layout
    by_cases hfirst : size ≤ o + p.length
    · exact ⟨⟨p, o⟩, mem_cons_self, ho, hfirst⟩
    · have hadd : add o p.length = o + p.length := Nat.mod_eq_of_lt (by omega)
      rw [hadd]
      obtain ⟨rw, hrw, h⟩ := exists_overflow (l := l) (o := o + p.length) (by omega) (by omega)
      exact ⟨rw, mem_cons_of_mem _ hrw, h⟩

end Ranges

/-! ## The running protocols -/

section Running

/-- The protocols of a list are running, with their ranges from `baseProtocolLength` on. -/
structure Laid (running : Table N (ProtoRW N)) (l : List (Protocol N)) : Prop where
  lookup : ∀ x rw, running.lookup x = some rw ↔
    rw ∈ layout baseProtocolLength l ∧ rw.protocol.name = x
  increasing : l.Pairwise (·.name < ·.name)

variable {running : Table N (ProtoRW N)} {l : List (Protocol N)} {caps : List (Cap N)} {code : ℕ}

theorem matchProtocols_eq (P : List (Protocol N)) (caps : List (Cap N)) :
    matchProtocols P caps = ((matched P caps).foldl place ⟨baseProtocolLength, ∅⟩).result := by
  rw [matchProtocols, foldl_matchCap, matched]

theorem nodup_of_increasing (h : l.Pairwise (·.name < ·.name)) (o : ℕ) :
    ((layout o l).map (·.protocol.name)).Nodup := by
  have hmap : (layout o l).map (·.protocol.name) = l.map (·.name) := by
    conv_rhs => rw [← map_layout o l, map_map]
    rfl
  rw [hmap]
  exact pairwise_map.mpr (h.imp fun hlt => hlt.ne)

theorem laid_matchProtocols (P : List (Protocol N)) (hcaps : caps.Nodup) :
    Laid (matchProtocols P caps) (highest (matched P caps)) := by
  have hsorted : (matched P caps).Pairwise fun p q => p.cap.key < q.cap.key :=
    pairwise_matched hcaps
  have hincreasing := pairwise_highest hsorted
  refine ⟨fun x rw => ?_, hincreasing⟩
  have hfind : (matchProtocols P caps).lookup x =
      (layout baseProtocolLength (highest (matched P caps))).find?
        fun rw => decide (rw.protocol.name = x) := by
    rw [matchProtocols_eq]
    rcases hmatched : matched P caps with _ | ⟨p, l⟩
    · rfl
    · rw [hmatched] at hsorted
      rw [foldl_cons, place_of_none rfl,
        lookup_foldl_place (show baseProtocolLength < size by decide) hsorted
          fun _ _ _ => rfl]
      exact Option.or_none
  rw [hfind]
  constructor
  · intro h
    exact ⟨mem_of_find?_eq_some h, by simpa using find?_some h⟩
  · rintro ⟨hrw, hname⟩
    -- the names differ, so the first that fits is the one
    cases hsome : (layout baseProtocolLength (highest (matched P caps))).find?
        fun rw => decide (rw.protocol.name = x) with
    | none => exact absurd (decide_eq_true hname) (find?_eq_none.mp hsome rw hrw)
    | some rw' =>
      have hname' : rw'.protocol.name = x := by simpa using find?_some hsome
      rw [inj_on_of_nodup_map (nodup_of_increasing hincreasing _)
        (mem_of_find?_eq_some hsome) hrw (hname'.trans hname.symm)]

variable (h : Laid running l)
include h

theorem Laid.total_eq : total running = lengths l := by
  have hperm : running.entries.Perm ((layout baseProtocolLength l).map
      fun rw => (⟨rw.protocol.name, rw⟩ : Entry N (ProtoRW N))) := by
    refine (perm_ext_iff_of_nodup ?_ ?_).mpr fun ⟨x, rw⟩ => ?_
    · exact NodupKeys.nodup running.nodupKeys
    · exact Nodup.of_map Sigma.fst (by
        rw [map_map]
        exact nodup_of_increasing h.increasing _)
    · rw [mem_entries, h.lookup, mem_map]
      constructor
      · rintro ⟨hrw, rfl⟩
        exact ⟨rw, hrw, rfl⟩
      · rintro ⟨rw', hrw', heq⟩
        cases heq
        exact ⟨hrw', rfl⟩
  unfold total lengths
  rw [(hperm.map _).sum_nat, map_map]
  conv_rhs => rw [← map_layout baseProtocolLength l, map_map]
  rfl

variable (hfits : baseProtocolLength + lengths l < size)
include hfits

theorem Laid.eq_of_covers {x y : N} {rw rw' : ProtoRW N} (hx : running.lookup x = some rw)
    (hy : running.lookup y = some rw') (hrw : rw.covers code) (hrw' : rw'.covers code) :
    rw = rw' := by
  by_contra hne
  have hpair : (layout baseProtocolLength l).Pairwise fun r r' =>
      ¬ (r.covers code ∧ r'.covers code) := by
    refine (pairwise_layout hfits).imp fun hle => ?_
    rintro ⟨⟨-, hlt⟩, hge, -⟩
    exact absurd (hle.trans hge) (Nat.not_le.mpr hlt)
  have : Std.Symm fun r r' : ProtoRW N => ¬ (r.covers code ∧ r'.covers code) :=
    ⟨fun r r' h hboth => h hboth.symm⟩
  exact hpair.forall ((h.lookup x rw).mp hx).1 ((h.lookup y rw').mp hy).1 hne ⟨hrw, hrw'⟩

theorem Laid.tiles : Tiles running where
  disjoint x y rw rw' code hx hy hrw hrw' := by
    have heq := h.eq_of_covers hfits hx hy hrw hrw'
    rw [← ((h.lookup x rw).mp hx).2, heq, ((h.lookup y rw').mp hy).2]
  interval code := by
    rw [h.total_eq]
    constructor
    · rintro ⟨x, rw, hx, hge, hlt⟩
      have hbounds := layout_bounds hfits rw ((h.lookup x rw).mp hx).1
      omega
    · rintro ⟨hge, hlt⟩
      obtain ⟨rw, hrw, hcovers⟩ := exists_covers hfits hge hlt
      exact ⟨rw.protocol.name, rw, (h.lookup _ rw).mpr ⟨hrw, rfl⟩, hcovers⟩

theorem Laid.getProto_eq (order : Ranging (Entry N (ProtoRW N))) {x : N} {rw : ProtoRW N}
    (hx : running.lookup x = some rw) (hrw : rw.covers code) :
    getProto order running code = some rw := by
  have hadd : ∀ y rw', running.lookup y = some rw' →
      add rw'.offset rw'.protocol.length = rw'.offset + rw'.protocol.length := by
    intro y rw' hy
    have hbounds := layout_bounds hfits rw' ((h.lookup y rw').mp hy).1
    exact Nat.mod_eq_of_lt (by omega)
  have hlookup : ∀ e ∈ order.visit running.entries, running.lookup e.1 = some e.2 :=
    fun e he => mem_entries.mp ((order.visit_perm _).mem_iff.mp he)
  unfold getProto
  cases hfind : (order.visit running.entries).find? fun e =>
      decide (e.2.offset ≤ code ∧ code < add e.2.offset e.2.protocol.length) with
  | none =>
    have hmem := (order.visit_perm _).mem_iff.mpr (mem_entries.mpr hx)
    refine absurd (decide_eq_true ?_) (find?_eq_none.mp hfind _ hmem)
    rw [hadd x rw hx]
    exact hrw
  | some e =>
    have he := hlookup e (mem_of_find?_eq_some hfind)
    have hcovers := find?_some hfind
    rw [decide_eq_true_eq, hadd _ _ he] at hcovers
    rw [Option.map_some, h.eq_of_covers hfits he hx hcovers hrw]

theorem Laid.routes : Routes running running := by
  intro order x rw code wire hx hwrite
  obtain ⟨hcode, hwire⟩ := Option.ite_none_left_eq_some.mp hwrite
  have hbounds := layout_bounds hfits rw ((h.lookup x rw).mp hx).1
  have hadd : add code rw.offset = code + rw.offset := Nat.mod_eq_of_lt (by omega)
  rw [hadd] at hwire
  obtain rfl := Option.some.inj hwire
  have hbase : baseProtocolLength ≤ code + rw.offset := by omega
  refine ⟨rw, hx, ?_, ?_⟩
  · unfold handle
    unfold baseProtocolLength at hbase
    rw [if_neg (by unfold pingMsg; omega), if_neg (by unfold discMsg; omega),
      if_neg (by unfold baseProtocolLength; omega),
      h.getProto_eq hfits order hx ⟨by omega, by omega⟩]
  · unfold ProtoRW.readMsg
    rw [sub_of_le (by omega) (by omega), Nat.add_sub_cancel]

omit hfits

theorem Laid.not_routes (hover : size ≤ baseProtocolLength + lengths l) :
    ¬ Routes running running := by
  intro hroutes
  obtain ⟨rw, hrw, hlt, hend⟩ := exists_overflow (by decide) hover
  have hlength := rw.protocol.length_lt
  have hx := (h.lookup _ rw).mpr ⟨hrw, rfl⟩
  have hwrite : rw.writeMsg 0 = some rw.offset := by
    unfold ProtoRW.writeMsg add
    rw [if_neg (by omega), Nat.zero_add, Nat.mod_eq_of_lt hlt]
  obtain ⟨rw', hx', hhandle, -⟩ := hroutes Ranging.listed _ rw 0 rw.offset hx hwrite
  obtain rfl := Option.some.inj (hx.symm.trans hx')
  have hproto : getProto Ranging.listed running rw.offset = some rw := by
    unfold handle at hhandle
    split_ifs at hhandle
    cases hget : getProto Ranging.listed running rw.offset with
    | none =>
      rw [hget] at hhandle
      cases hhandle
    | some rw' =>
      rw [hget] at hhandle
      cases hhandle
      rfl
  obtain ⟨e, hfind, he⟩ := Option.map_eq_some_iff.mp hproto
  have hcovers := find?_some hfind
  rw [decide_eq_true_eq, he] at hcovers
  -- the sum wraps to a number below the offset
  have hwrap : add rw.offset rw.protocol.length < rw.offset := by
    unfold add
    unfold size at *
    omega
  omega

omit h

theorem selects_matchProtocols {P Q : List (Protocol N)} (hP : (P.map cap).Nodup)
    (hQ : (Q.map cap).Nodup) (hcaps : caps.Perm (Q.map cap)) :
    Selects P Q (matchProtocols P caps) := by
  have hnodup : caps.Nodup := hcaps.nodup_iff.mpr hQ
  have hlaid := laid_matchProtocols P hnodup
  have hsorted : (matched P caps).Pairwise fun p q => p.cap.key < q.cap.key :=
    pairwise_matched hnodup
  have hmem : ∀ p ∈ P, ∀ q ∈ Q, p.cap = q.cap → p ∈ matched P caps := by
    intro p hp q hq hcap
    exact (mem_matched hP).mpr ⟨hp, hcaps.mem_iff.mpr (hcap ▸ mem_map_of_mem hq)⟩
  have hrunning : ∀ x rw, (matchProtocols P caps).lookup x = some rw →
      rw.protocol ∈ highest (matched P caps) := by
    intro x rw hx
    rw [← map_layout baseProtocolLength (highest (matched P caps))]
    exact mem_map_of_mem ((hlaid.lookup x rw).mp hx).1
  have hmatched : ∀ x rw, (matchProtocols P caps).lookup x = some rw →
      rw.protocol ∈ P ∧ rw.protocol.cap ∈ caps :=
    fun x rw hx => (mem_matched hP).mp ((highest_sublist _).subset (hrunning x rw hx))
  refine ⟨fun p hp q hq hcap => ?_, fun x rw hx => ?_, fun x rw hx => ?_, fun x rw hx => ?_⟩
  · obtain ⟨r, hr, hname, -⟩ := exists_highest hsorted (hmem p hp q hq hcap)
    rw [← map_layout baseProtocolLength (highest (matched P caps))] at hr
    obtain ⟨rw, hrw, rfl⟩ := mem_map.mp hr
    exact ⟨rw, (hlaid.lookup _ rw).mpr ⟨hrw, hname⟩⟩
  · exact ⟨(hmatched x rw hx).1, ((hlaid.lookup x rw).mp hx).2⟩
  · exact mem_map.mp (hcaps.mem_iff.mp (hmatched x rw hx).2)
  · intro p hp q hq hcap hname
    obtain ⟨r, hr, hrname, hversion⟩ := exists_highest hsorted (hmem p hp q hq hcap)
    -- of each name there is one
    have hnames : ((highest (matched P caps)).map (·.name)).Nodup :=
      pairwise_map.mpr (hlaid.increasing.imp fun hlt => hlt.ne)
    have heq := inj_on_of_nodup_map hnames (hrunning x rw hx) hr
      ((((hlaid.lookup x rw).mp hx).2.trans hname.symm).trans hrname.symm)
    rw [heq]
    exact hversion

/-- **Both ends agree on message codes.** -/
theorem codes_agree {P Q : List (Protocol N)} {capsP capsQ : List (Cap N)}
    (hP : (P.map Protocol.cap).Nodup) (hQ : (Q.map Protocol.cap).Nodup)
    (hlength : ∀ p ∈ P, ∀ q ∈ Q, p.cap = q.cap → p.length = q.length)
    (hcapsP : capsP.Perm (P.map Protocol.cap)) (hcapsQ : capsQ.Perm (Q.map Protocol.cap)) :
    Selects P Q (matchProtocols P capsQ) ∧ Selects Q P (matchProtocols Q capsP) ∧
      (∀ x, (matchProtocols P capsQ).lookup x = (matchProtocols Q capsP).lookup x) ∧
      ((Tiles (matchProtocols P capsQ) ∧ Tiles (matchProtocols Q capsP) ∧
          Routes (matchProtocols P capsQ) (matchProtocols Q capsP) ∧
          Routes (matchProtocols Q capsP) (matchProtocols P capsQ)) ↔
        baseProtocolLength + total (matchProtocols P capsQ) < size) := by
  have hsame : matchProtocols P capsQ = matchProtocols Q capsP := by
    rw [matchProtocols_eq, matchProtocols_eq, matched_comm hP hQ hlength hcapsP hcapsQ]
  have hlaid := laid_matchProtocols P (hcapsQ.nodup_iff.mpr hQ)
  refine ⟨selects_matchProtocols hP hQ hcapsQ, selects_matchProtocols hQ hP hcapsP,
    fun x => by rw [hsame], ?_⟩
  rw [← hsame, hlaid.total_eq]
  constructor
  · rintro ⟨-, -, hroutes, -⟩
    by_contra hover
    exact hlaid.not_routes (Nat.not_lt.mp hover) hroutes
  · intro hfits
    exact ⟨hlaid.tiles hfits, hlaid.tiles hfits, hlaid.routes hfits, hlaid.routes hfits⟩

def sampleProtocols : List (Protocol ℕ) :=
  [⟨5, 2, 3, by decide⟩, ⟨1, 63, 17, by decide⟩, ⟨1, 62, 8, by decide⟩]

def otherProtocols : List (Protocol ℕ) :=
  [⟨1, 62, 8, by decide⟩, ⟨3, 1, 4, by decide⟩, ⟨5, 2, 3, by decide⟩]

theorem codes_agree_sample :
    (matchProtocols sampleProtocols (otherProtocols.map Protocol.cap)).lookup 5 =
        some ⟨⟨5, 2, 3, by decide⟩, 24⟩ ∧
      Routes (matchProtocols sampleProtocols (otherProtocols.map Protocol.cap))
        (matchProtocols otherProtocols (sampleProtocols.map Protocol.cap)) := by
  have hagree := codes_agree (P := sampleProtocols) (Q := otherProtocols) (by decide) (by decide)
    (by decide) (.refl _) (.refl _)
  exact ⟨by decide +kernel, (hagree.2.2.2.mpr (by decide +kernel)).2.2.1⟩

/-- A protocol of length `2 ^ 64 - 1` gets no message. -/
theorem long_protocol_unroutable :
    ¬ Routes (matchProtocols [⟨0, 1, 18446744073709551615, by decide⟩] [⟨0, 1⟩])
      (matchProtocols [(⟨0, 1, 18446744073709551615, by decide⟩ : Protocol ℕ)] [⟨0, 1⟩]) := by
  have hlaid := laid_matchProtocols [(⟨0, 1, 18446744073709551615, by decide⟩ : Protocol ℕ)]
    (nodup_singleton ⟨0, 1⟩)
  exact hlaid.not_routes (by decide +kernel)

end Running

end XChain.Protocols
