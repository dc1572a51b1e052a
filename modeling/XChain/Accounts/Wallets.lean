import Mathlib

/-!
# Wallet lists

The account manager and the key store keep their wallets sorted by URL. The manager inserts and
removes at the place a binary search gives; the key store compares its wallets with the accounts it
finds on disk.

* **`wallets_tracked`**: the manager has what arrived and was not dropped, if no drop of an unknown
  URL comes in front of a wallet;
* **`refreshWallets_exact_iff`**: the key store misses an account exactly if a key file changed its
  address.
-/

namespace XChain.Accounts

open List

/-- Scheme and path, which `Cmp` compares in this order. -/
abbrev URL := List (Fin 256) ×ₗ List (Fin 256)

/-! ## The manager -/

section Manager

inductive WalletEvent (W : Type)
  | arrived (wallet : W)
  | dropped (wallet : W)

@[simp]
def WalletEvent.arrived? {W : Type} : WalletEvent W → Option W
  | .arrived wallet => some wallet
  | .dropped _ => none

@[simp]
def WalletEvent.dropped? {W : Type} : WalletEvent W → Option W
  | .arrived _ => none
  | .dropped wallet => some wallet

/-- `sort.Search` between two bounds. -/
def search (f : ℕ → Bool) : ℕ → ℕ → ℕ → ℕ
  | 0, i, _ => i
  | fuel + 1, i, j =>
    if i < j then
      let h := (i + j) / 2
      if f h then search f fuel i h else search f fuel (h + 1) j
    else i

variable {W : Type} (url : W → URL)

def position (slice : List W) (wallet : W) : ℕ :=
  search (fun i => slice[i]?.all (url wallet ≤ url ·)) slice.length 0 slice.length

def merge (slice : List W) (wallet : W) : List W :=
  let n := position url slice wallet
  if n = slice.length then slice ++ [wallet] else slice.take n ++ wallet :: slice.drop n

def drop (slice : List W) (wallet : W) : List W :=
  let n := position url slice wallet
  if n = slice.length then slice else slice.take n ++ slice.drop (n + 1)

def newManager (backends : List (List W)) : List W :=
  backends.flatten.foldl (merge url) []

def update (wallets : List W) : WalletEvent W → List W
  | .arrived wallet => merge url wallets wallet
  | .dropped wallet => drop url wallets wallet

/-- What the events make of a set of wallets. -/
def Tracked : Multiset W → List (WalletEvent W) → Multiset W → Prop
  | s, [], t => s = t
  | s, .arrived w :: es, t => Tracked (w ::ₘ s) es t
  | s, .dropped w :: es, t => (∃ v r, s = v ::ₘ r ∧ url v = url w ∧ Tracked r es t) ∨
      (∀ v ∈ s, url v ≠ url w) ∧ Tracked s es t

/-- A wallet that is dropped is there, or comes after all others. -/
def Known : List W → List (WalletEvent W) → Prop
  | _, [] => True
  | s, e :: es => (∀ w, e = .dropped w → (∃ v ∈ s, url v = url w) ∨ ∀ v ∈ s, url v < url w) ∧
      Known (update url s e) es

theorem search_eq {f : ℕ → Bool} {k : ℕ} (hf : ∀ i, f i = true ↔ k ≤ i) :
    ∀ {fuel i j : ℕ}, i ≤ k → k ≤ j → j - i ≤ fuel → search f fuel i j = k
  | 0, i, j, hi, hj, hfuel => by simp only [search]; omega
  | fuel + 1, i, j, hi, hj, hfuel => by
    simp only [search]
    split_ifs with hij hh
    · exact search_eq hf hi ((hf _).mp hh) (by omega)
    · rw [hf] at hh
      exact search_eq hf (by omega) hj (by omega)
    · omega

variable {url} {slice low high : List W} {w : W}

theorem exists_split (w : W) (hs : slice.Pairwise (url · ≤ url ·)) :
    ∃ low high, slice = low ++ high ∧ (∀ v ∈ low, url v < url w) ∧ ∀ v ∈ high, url w ≤ url v := by
  induction slice with
  | nil => exact ⟨[], [], by simp⟩
  | cons x slice ih =>
    obtain ⟨hx, hs⟩ := pairwise_cons.mp hs
    by_cases hlt : url x < url w
    · obtain ⟨low, high, rfl, hlow, hhigh⟩ := ih hs
      exact ⟨x :: low, high, rfl, by simpa [hlt] using hlow, hhigh⟩
    · refine ⟨[], x :: slice, rfl, by simp, ?_⟩
      have hle := not_lt.mp hlt
      simpa [hle] using fun v hv => hle.trans (hx v hv)

section Split

variable (hlow : ∀ v ∈ low, url v < url w) (hhigh : ∀ v ∈ high, url w ≤ url v)
include hlow hhigh

theorem position_append : position url (low ++ high) w = low.length := by
  refine search_eq (fun i => ?_) (Nat.zero_le _) (by simp) (by simp)
  rw [Option.all_eq_true]
  by_cases hi : i < low.length
  · simp [getElem?_append_left hi, hi, hi.not_ge, (hlow _ (getElem_mem hi)).not_ge]
  · simp only [getElem?_append_right (Nat.le_of_not_lt hi), decide_eq_true_eq]
    exact iff_of_true (fun v hv => hhigh v (mem_of_getElem? hv)) (Nat.le_of_not_lt hi)

theorem merge_append : merge url (low ++ high) w = low ++ w :: high := by
  simp only [merge, position_append hlow hhigh]
  cases high <;> simp

theorem drop_append : drop url (low ++ high) w = low ++ high.tail := by
  simp only [drop, position_append hlow hhigh]
  cases high <;> simp

end Split

theorem merge_spec (w : W) (hs : slice.Pairwise (url · ≤ url ·)) :
    (merge url slice w).Pairwise (url · ≤ url ·) ∧ (merge url slice w).Perm (w :: slice) := by
  obtain ⟨low, high, rfl, hlow, hhigh⟩ := exists_split w hs
  obtain ⟨hl, hh, hlh⟩ := pairwise_append.mp hs
  rw [merge_append hlow hhigh, pairwise_append, pairwise_cons]
  refine ⟨⟨hl, ⟨hhigh, hh⟩, fun v hv x hx => ?_⟩, perm_middle⟩
  rcases mem_cons.mp hx with rfl | hx
  · exact (hlow v hv).le
  · exact hlh v hv x hx

theorem foldl_merge (ws : List W) (hs : slice.Pairwise (url · ≤ url ·)) :
    (ws.foldl (merge url) slice).Pairwise (url · ≤ url ·) ∧
      (ws.foldl (merge url) slice).Perm (ws ++ slice) := by
  induction ws generalizing slice with
  | nil => exact ⟨hs, .refl _⟩
  | cons w ws ih =>
    obtain ⟨hw, hperm⟩ := merge_spec w hs
    exact ⟨(ih hw).1, (ih hw).2.trans ((hperm.append_left ws).trans perm_middle)⟩

/-- **One event** keeps the order. -/
theorem update_sorted (hs : slice.Pairwise (url · ≤ url ·)) (e : WalletEvent W) :
    (update url slice e).Pairwise (url · ≤ url ·) := by
  cases e with
  | arrived w => exact (merge_spec w hs).1
  | dropped w =>
    obtain ⟨low, high, rfl, hlow, hhigh⟩ := exists_split w hs
    rw [update, drop_append hlow hhigh]
    exact hs.sublist ((tail_sublist high).append_left low)

theorem foldl_update (es : List (WalletEvent W)) (hs : slice.Pairwise (url · ≤ url ·))
    (h : Known url slice es) : (es.foldl (update url) slice).Pairwise (url · ≤ url ·) ∧
      Tracked url slice es (es.foldl (update url) slice : List W) := by
  induction es generalizing slice with
  | nil => exact ⟨hs, rfl⟩
  | cons e es ih =>
    obtain ⟨hsorted, hrest⟩ := ih (update_sorted hs e) h.2
    refine ⟨hsorted, ?_⟩
    cases e with
    | arrived w =>
      rw [update, Multiset.coe_eq_coe.mpr (merge_spec w hs).2] at hrest
      exact hrest
    | dropped w =>
      have hw := h.1 w rfl
      obtain ⟨low, high, rfl, hlow, hhigh⟩ := exists_split w hs
      rw [foldl_cons]
      rw [update, drop_append hlow hhigh] at hrest ⊢
      cases high with
      | nil => exact .inr ⟨fun v hv => (hlow v (by simpa using hv)).ne, by simpa using hrest⟩
      | cons v high =>
        -- the first wallet that is not smaller has the URL
        refine .inl ⟨v, low ++ high, Multiset.coe_eq_coe.mpr perm_middle, ?_, hrest⟩
        rcases hw with ⟨x, hx, hxw⟩ | hall
        · refine le_antisymm ?_ (hhigh v mem_cons_self)
          rcases mem_append.mp hx with hx | hx
          · exact absurd hxw (hlow x hx).ne
          rcases mem_cons.mp hx with rfl | hx
          · exact hxw.le
          · exact hxw ▸ rel_of_pairwise_cons (pairwise_append.mp hs).2.1 hx
        · exact absurd (hall v (by simp)) (hhigh v mem_cons_self).not_gt

variable (url) in
/-- **The wallets of the manager** are sorted, and those that arrived and were not dropped. -/
theorem wallets_tracked (backends : List (List W)) (es : List (WalletEvent W))
    (h : Known url (newManager url backends) es) :
    (es.foldl (update url) (newManager url backends)).Pairwise (url · ≤ url ·) ∧
      Tracked url (backends.flatten : List W) es
        (es.foldl (update url) (newManager url backends) : List W) := by
  have hnil : ([] : List W).Pairwise (url · ≤ url ·) := Pairwise.nil
  obtain ⟨hsorted, hperm⟩ := foldl_merge backends.flatten hnil
  rw [append_nil] at hperm
  rw [← Multiset.coe_eq_coe.mpr hperm]
  exact foldl_update es hsorted h

theorem wallets_tracked_two : Tracked (fun n : Fin 256 => toLex ([n], []))
    ([1, 2] : List (Fin 256)) [.dropped 1, .arrived 3] ([2, 3] : List (Fin 256)) :=
  (wallets_tracked (fun n : Fin 256 => toLex ([n], [])) [[1, 2]] [.dropped 1, .arrived 3]
    ⟨by rintro w ⟨⟩; exact .inl ⟨1, by decide, rfl⟩, by rintro w ⟨⟩, trivial⟩).2

/-- **A wallet dropped before it arrives** takes another one with it. -/
theorem unknown_drop : let url := fun n : Fin 256 => toLex ([n], [])
    1 ∉ newManager url [[2, 3]] ∧ update url (newManager url [[2, 3]]) (.dropped 1) = [3] := by
  decide

end Manager

/-! ## The key store -/

section KeyStore

variable {Address : Type} [DecidableEq Address]

structure Account (Address : Type) where
  address : Address
  url : URL
  deriving DecidableEq

/-- `made` tells the wallets of one account apart. -/
structure KeystoreWallet (Address : Type) where
  account : Account Address
  made : ℕ

variable (made : ℕ)

/-- The new wallets, and the events that are sent. -/
def refreshWallets : List (Account Address) → List (KeystoreWallet Address) →
    List (KeystoreWallet Address) × List (WalletEvent (KeystoreWallet Address))
  | [], ws => ([], ws.map .dropped)
  | account :: accs, [] =>
    let r := refreshWallets accs []
    (⟨account, made⟩ :: r.1, .arrived ⟨account, made⟩ :: r.2)
  | account :: accs, w :: ws =>
    if w.account.url < account.url then
      let r := refreshWallets (account :: accs) ws
      (r.1, .dropped w :: r.2)
    else if account.url < w.account.url then
      let r := refreshWallets accs (w :: ws)
      (⟨account, made⟩ :: r.1, .arrived ⟨account, made⟩ :: r.2)
    else if w.account = account then
      let r := refreshWallets accs ws
      (w :: r.1, r.2)
    else refreshWallets accs (w :: ws)
  termination_by accs ws => accs.length + ws.length

/-- One wallet for each account, the old one if there is one, and the events that tell so. -/
structure Exact (accs : List (Account Address)) (ws : List (KeystoreWallet Address))
    (r : List (KeystoreWallet Address) × List (WalletEvent (KeystoreWallet Address))) : Prop where
  wallets : r.1 = accs.map fun a => (ws.find? (·.account = a)).getD ⟨a, made⟩
  dropped : r.2.filterMap (·.dropped?) = ws.filter (·.account ∉ accs)
  arrived : r.2.filterMap (·.arrived?) = (accs.filter (· ∉ ws.map (·.account))).map (⟨·, made⟩)

/-- What becomes of an account. -/
def outcome (ws : List (KeystoreWallet Address)) (a : Account Address) :
    Option (KeystoreWallet Address) :=
  if ∀ w ∈ ws, w.account.url = a.url → w.account = a then
    some ((ws.find? (·.account = a)).getD ⟨a, made⟩)
  else none

variable {made} {accs : List (Account Address)} {ws : List (KeystoreWallet Address)}
  {w : KeystoreWallet Address} {a : Account Address}

variable (ws) in
/-- A wallet before all accounts does not matter to them. -/
theorem past_wallet (h : ∀ b ∈ accs, w.account.url < b.url) :
    accs.filterMap (outcome made (w :: ws)) = accs.filterMap (outcome made ws) ∧
      (accs.filter fun a => (w :: ws).all (·.account.url ≠ a.url)) =
        accs.filter (fun a => ws.all (·.account.url ≠ a.url)) ∧ w.account ∉ accs := by
  refine ⟨filterMap_congr fun b hb => ?_, filter_congr fun b hb => ?_, fun hmem => ?_⟩
  · have hne : w.account ≠ b := fun heq => (h b hb).ne (heq ▸ rfl)
    simp [outcome, (h b hb).ne, hne]
  · simp [(h b hb).ne]
  · exact lt_irrefl _ (h _ hmem)

theorem filter_notMem_cons (h : ∀ v ∈ ws, v.account ≠ a) :
    ws.filter (·.account ∉ a :: accs) = ws.filter (·.account ∉ accs) :=
  filter_congr fun v hv => by simp [h v hv]

/-- **The outcome of a refresh**, changed accounts included. -/
theorem refreshWallets_eq (hws : ws.Pairwise (·.account.url < ·.account.url))
    (haccs : accs.Pairwise (·.url < ·.url)) :
    (refreshWallets made accs ws).1 = accs.filterMap (outcome made ws) ∧
      (refreshWallets made accs ws).2.filterMap (·.dropped?) = ws.filter (·.account ∉ accs) ∧
      (refreshWallets made accs ws).2.filterMap (·.arrived?) =
        (accs.filter fun a => ws.all (·.account.url ≠ a.url)).map (⟨·, made⟩) := by
  fun_induction refreshWallets made accs ws with
  | case1 ws => simp
  | case2 a accs r ih =>
    simp_all [outcome, r]
  | case3 a accs w ws hlt r ih =>
    obtain ⟨h1, h2, h3⟩ := ih hws.of_cons haccs
    have hall : ∀ b ∈ a :: accs, w.account.url < b.url := by
      simpa [hlt] using fun b hb => hlt.trans (rel_of_pairwise_cons haccs hb)
    obtain ⟨p1, p2, p3⟩ := past_wallet ws hall
    rw [p1, p2, filter_cons_of_pos (by simpa using p3)]
    exact ⟨h1, by simpa using h2, h3⟩
  | case4 a accs w ws hnot hlt r ih =>
    obtain ⟨h1, h2, h3⟩ := ih hws haccs.of_cons
    have hall : ∀ v ∈ w :: ws, a.url < v.account.url := by
      simpa [hlt] using fun v hv => hlt.trans (rel_of_pairwise_cons hws hv)
    have hne : ∀ v ∈ w :: ws, v.account ≠ a := fun v hv heq => (hall v hv).ne' (heq ▸ rfl)
    have hnone : (w :: ws).find? (·.account = a) = none := by simpa using hne
    have hout : outcome made (w :: ws) a = some ⟨a, made⟩ := by
      rw [outcome, if_pos fun v hv hurl => absurd hurl (hall v hv).ne', hnone]
      rfl
    refine ⟨?_, ?_, ?_⟩
    · rw [filterMap_cons_some hout, ← h1]
    · rw [filter_notMem_cons hne, ← h2]
      rfl
    · rw [filter_cons_of_pos (by simpa using fun v hv => (hall v hv).ne'), map_cons, ← h3]
      rfl
  | case5 accs w ws hnot hnot' r ih =>
    obtain ⟨h1, h2, h3⟩ := ih hws.of_cons haccs.of_cons
    have hne : ∀ v ∈ ws, v.account ≠ w.account := fun v hv heq =>
      (rel_of_pairwise_cons hws hv).ne (heq ▸ rfl)
    obtain ⟨p1, p2, p3⟩ := past_wallet ws fun b hb => rel_of_pairwise_cons haccs hb
    have hout : outcome made (w :: ws) w.account = some w := by
      have hurl : ∀ v ∈ ws, v.account.url = w.account.url → v.account = w.account := fun v hv heq =>
        absurd heq (rel_of_pairwise_cons hws hv).ne'
      simpa [outcome] using hurl
    refine ⟨?_, ?_, ?_⟩
    · rw [filterMap_cons_some hout, p1, ← h1]
    · rw [filter_cons_of_neg (by simp), filter_notMem_cons hne, ← h2]
    · rw [filter_cons_of_neg (by simp), p2, ← h3]
  | case6 a accs w ws hnot hnot' hne ih =>
    obtain ⟨h1, h2, h3⟩ := ih hws haccs.of_cons
    have hurl : w.account.url = a.url := le_antisymm (not_lt.mp hnot') (not_lt.mp hnot)
    have hall : ∀ v ∈ w :: ws, v.account ≠ a := by
      intro v hv heq
      rcases mem_cons.mp hv with rfl | hv
      · exact hne heq
      · exact (rel_of_pairwise_cons hws hv).ne (heq ▸ hurl)
    have hout : outcome made (w :: ws) a = none := by simp [outcome, hurl, hne]
    refine ⟨?_, ?_, ?_⟩
    · rw [filterMap_cons_none hout, h1]
    · rw [filter_notMem_cons hall, h2]
    · rw [filter_cons_of_neg (by simp [hurl]), h3]

/-- **The key store has a wallet for each account**, unless one changed its address. -/
theorem refreshWallets_exact_iff (hws : ws.Pairwise (·.account.url < ·.account.url))
    (haccs : accs.Pairwise (·.url < ·.url)) :
    Exact made accs ws (refreshWallets made accs ws) ↔
      ∀ w ∈ ws, ∀ a ∈ accs, w.account.url = a.url → w.account = a := by
  obtain ⟨h1, h2, h3⟩ := refreshWallets_eq hws haccs
  constructor
  · intro h w hw a ha hurl
    have hlen : (accs.filterMap (outcome made ws)).length = accs.length := by
      rw [← h1, h.wallets, length_map]
    have hsome := filterMap_length_eq_length.mp hlen a ha
    by_contra hne
    rw [outcome, if_neg fun hall => hne (hall w hw hurl)] at hsome
    cases hsome
  · intro h
    refine ⟨?_, h2, ?_⟩
    · rw [h1, ← filterMap_eq_map]
      exact filterMap_congr fun a ha => if_pos fun w hw => h w hw a ha
    · rw [h3]
      refine congrArg _ (filter_congr fun a ha => ?_)
      rw [Bool.eq_iff_iff]
      simp only [all_eq_true, decide_eq_true_eq, mem_map, not_exists, not_and]
      exact forall₂_congr fun w hw => not_congr ⟨h w hw a ha, fun heq => heq ▸ rfl⟩

/-- The account at a path. -/
def accountAt (n : Fin 256) : Account (Fin 256) := ⟨n, toLex ([], [n])⟩

/-- The account 2 keeps its wallet, 1 is dropped and 3 is new. -/
theorem refreshWallets_exact_mixed :
    refreshWallets 7 [accountAt 2, accountAt 3] [⟨accountAt 1, 0⟩, ⟨accountAt 2, 0⟩] =
      ([⟨accountAt 2, 0⟩, ⟨accountAt 3, 7⟩],
        [.dropped ⟨accountAt 1, 0⟩, .arrived ⟨accountAt 3, 7⟩]) ∧
    Exact 7 [accountAt 2, accountAt 3] [⟨accountAt 1, 0⟩, ⟨accountAt 2, 0⟩]
      (refreshWallets 7 [accountAt 2, accountAt 3] [⟨accountAt 1, 0⟩, ⟨accountAt 2, 0⟩]) :=
  ⟨by simp [refreshWallets, show (accountAt 1).url < (accountAt 2).url by decide],
    (refreshWallets_exact_iff (by decide) (by decide)).mpr (by decide)⟩

/-- **A key file with a new address** has no wallet until the next refresh. -/
theorem changed_hidden : refreshWallets 7 [⟨2, toLex ([], [])⟩] [⟨⟨1, toLex ([], [])⟩, 0⟩] =
    ([], [.dropped ⟨⟨1, toLex ([], [])⟩, 0⟩]) := by
  simp [refreshWallets]

end KeyStore

end XChain.Accounts
