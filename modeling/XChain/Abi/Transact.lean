import XChain.Lib.Word

/-!
# Sending transactions

`BoundContract.transact` of `accounts/abi/bind/base.go` over a store of `big.Int` values. The gas
price of the options is multiplied in place, so the next call starts from the price the last one
ended with.

* **`priceKept_iff`**: the options keep their price iff it is 0 or 1 or no call gets a nonce.
-/

namespace XChain.Bind

open Function List

def gasPriceInflation : ℤ := 150

def gasLimitInflation : ℕ := 110

/-- The values of `big.Int` pointers; those from `next` on are free. -/
structure Store where
  cells : ℕ → ℤ
  next : ℕ

structure Transaction (A : Type) where
  nonce : ℕ
  recipient : Option A
  value : ℤ
  gasLimit : ℕ
  gasPrice : ℤ
  data : List UInt8

structure TransactOpts (A : Type) where
  sender : A
  nonce : Option ℕ
  signer : Option (A → Transaction A → Except String (Transaction A))
  value : Option ℕ
  gasPrice : Option ℕ
  gasLimit : ℕ
  noSend : Bool

/-- A call: the contract, the input with its capacity, and the answers of the backend. -/
structure Call (A : Type) where
  address : A
  contract : Option A
  input : List UInt8
  inputCap : ℕ
  pendingNonceAt : Except String ℕ
  suggestGasPrice : Except String ℤ
  pendingCodeAt : Except String (List UInt8)
  estimateGas : Except String ℕ
  sendTransaction : Except String Unit

inductive Failure
  | error (text : String)
  | panic

variable {A : Type} (opts : TransactOpts A) (c : Call A) (s : Store)

def inflated (price : ℤ) : ℤ := price * gasPriceInflation / 100

def Store.inflate (p : ℕ) : Store :=
  { s with cells := Function.update s.cells p (inflated (s.cells p)) }

def resolveNonce : Except String ℕ :=
  match opts.nonce with
  | none => c.pendingNonceAt.mapError ("failed to retrieve account nonce: " ++ ·)
  | some p => .ok (Word64.ofInt (s.cells p))

def resolveGasPrice : Except String (Store × ℕ) :=
  match opts.gasPrice with
  | none => (c.suggestGasPrice.mapError ("failed to suggest gas price: " ++ ·)).map fun price =>
    (⟨Function.update s.cells s.next price, s.next + 1⟩, s.next)
  | some p => .ok (s, p)

def resolveGasLimit : Except String ℕ :=
  if opts.gasLimit ≠ 0 then .ok opts.gasLimit
  else do
    if c.contract.isSome then
      if (← c.pendingCodeAt) = [] then .error "no contract code at given address"
    c.estimateGas.mapError ("failed to estimate gas needed: " ++ ·)

def submit (tx : Transaction A) : Except String (Transaction A) :=
  match opts.signer with
  | none => .error "no signer to authorize the transaction with"
  | some signer => do
    let signed ← signer opts.sender tx
    unless opts.noSend do c.sendTransaction
    return signed

/-- `transact`: the store, the transaction that is created, and the result. Logging the first four
bytes of an input with less capacity panics. -/
def transact : Store × Option (Transaction A) × Except Failure (Transaction A) :=
  match resolveNonce opts c s with
  | .error e => (s, none, .error (.error e))
  | .ok nonce =>
    match resolveGasPrice opts c s with
    | .error e => (s, none, .error (.error e))
    | .ok (s, p) =>
      let s := s.inflate p
      match resolveGasLimit opts c with
      | .error e => (s, none, .error (.error e))
      | .ok gasLimit =>
        if c.inputCap < 4 then (s, none, .error .panic)
        else
          let tx := {
            nonce := nonce
            recipient := c.contract.map fun _ => c.address
            value := (opts.value.map s.cells).getD 0
            gasLimit := gasLimit * gasLimitInflation % Word64.size / 100
            gasPrice := s.cells p
            data := c.input }
          (s, some tx, (submit opts c tx).mapError .error)

def transactAll : List (Call A) → Store → Store × List (Transaction A)
  | [], s => (s, [])
  | c :: calls, s =>
    let r := transact opts c s
    let rest := transactAll calls r.1
    (rest.1, r.2.1.toList ++ rest.2)

/-- All transactions have the inflated price of the options, which is as before. -/
def PriceKept (p : ℕ) (calls : List (Call A)) : Prop :=
  (∀ tx ∈ (transactAll opts calls s).2, tx.gasPrice = inflated (s.cells p)) ∧
    (transactAll opts calls s).1.cells p = s.cells p

def getsNonce : Bool := opts.nonce.isSome || c.pendingNonceAt.toBool

/-! ## The price after a number of calls -/

variable {opts c s} {p : ℕ}

theorem transact_price (hp : opts.gasPrice = some p) :
    (transact opts c s).1.cells p =
        (if getsNonce opts c = true then inflated (s.cells p) else s.cells p) ∧
      ∀ tx ∈ (transact opts c s).2.1,
        getsNonce opts c = true ∧ tx.gasPrice = inflated (s.cells p) := by
  have hnonce : getsNonce opts c = (resolveNonce opts c s).toBool := by
    unfold getsNonce resolveNonce
    cases opts.nonce <;> cases c.pendingNonceAt <;> rfl
  rw [hnonce, transact, resolveGasPrice, hp]
  cases resolveNonce opts c s with
  | error e => simp [Except.toBool]
  | ok nonce =>
    cases resolveGasLimit opts c with
    | error e => simp [Except.toBool, Store.inflate]
    | ok gasLimit =>
      by_cases hlen : c.inputCap < 4 <;> simp [hlen, Except.toBool, Store.inflate]

theorem transactAll_price (hp : opts.gasPrice = some p) (calls : List (Call A)) :
    (transactAll opts calls s).1.cells p =
      inflated^[calls.countP (getsNonce opts)] (s.cells p) := by
  induction calls generalizing s with
  | nil => rfl
  | cons c calls ih =>
    rw [transactAll, ih, (transact_price hp).1, countP_cons]
    split_ifs <;> simp

theorem iterate_inflated_eq {price : ℤ} {n : ℕ} :
    inflated^[n] price = price ↔ price = 0 ∨ price = 1 ∨ n = 0 := by
  have hrise : ∀ n : ℕ, 2 ≤ price → price + n ≤ inflated^[n] price := by
    intro n h
    induction n with
    | zero => simp
    | succ n ih => rw [iterate_succ_apply', inflated, gasPriceInflation]; omega
  have hfall : ∀ n : ℕ, price < 0 → inflated^[n] price ≤ price - n := by
    intro n h
    induction n with
    | zero => simp
    | succ n ih => rw [iterate_succ_apply', inflated, gasPriceInflation]; omega
  constructor
  · intro h
    have := hrise n
    have := hfall n
    omega
  · rintro (rfl | rfl | rfl)
    · exact iterate_fixed rfl n
    · exact iterate_fixed rfl n
    · rfl

/-- **The options keep their price** iff inflating does not change it or no call gets that far. -/
theorem priceKept_iff (hp : opts.gasPrice = some p) (calls : List (Call A)) :
    PriceKept opts s p calls ↔ s.cells p = 0 ∨ s.cells p = 1 ∨
      ∀ c ∈ calls, getsNonce opts c = false := by
  have hcount : calls.countP (getsNonce opts) = 0 ↔ ∀ c ∈ calls, getsNonce opts c = false := by
    simp
  rw [← hcount, ← iterate_inflated_eq, ← transactAll_price hp]
  refine ⟨And.right, fun h => ⟨?_, h⟩⟩
  rw [transactAll_price hp, iterate_inflated_eq, hcount] at h
  clear hcount
  induction calls generalizing s with
  | nil => simp [transactAll]
  | cons c calls ih =>
    -- the call leaves the price as it is, so the others start from the same one
    have hsame : (transact opts c s).1.cells p = s.cells p := by
      rw [(transact_price hp).1]
      rcases h with h | h | h
      · simp [h, inflated]
      · simp [h, inflated, gasPriceInflation]
      · simp [h c mem_cons_self]
    intro tx htx
    rcases mem_append.mp htx with htx | htx
    · exact ((transact_price hp).2 tx (Option.mem_toList.mp htx)).2
    · rw [← hsame]
      refine ih ?_ tx htx
      rw [hsame]
      exact h.imp_right (Or.imp_right fun h c hc => h c (mem_cons_of_mem _ hc))

/-! ## A batch of mints -/

def gwei : ℤ := 1000000000

/-- `getTransactor` with `DefaultGasPrice` and `DefaultGasLimit`; the price is in cell 0. -/
def transactor (sender : A) (signer : A → Transaction A → Except String (Transaction A)) :
    TransactOpts A × Store :=
  (⟨sender, none, some signer, none, some 0, 300000, false⟩, ⟨fun _ => 20 * gwei, 1⟩)

def mintCall (nonce : ℕ) : Call ℕ :=
  ⟨1, some 1, [0, 0, 0, 0], 4, .ok nonce, .ok 0, .ok [0], .ok 0, .ok ()⟩

def keyed : TransactOpts ℕ × Store := transactor 0 fun _ tx => .ok tx

theorem priceKept_free : PriceKept keyed.1 ⟨fun _ => 1, 1⟩ 0 [mintCall 0, mintCall 1] :=
  (priceKept_iff rfl _).mpr (.inr (.inl rfl))

/-- **Two mints with one transactor**: the second pays one and a half times as much. -/
theorem mints_inflate :
    ((transactAll keyed.1 [mintCall 0, mintCall 1] keyed.2).2.map Transaction.gasPrice =
        [30 * gwei, 45 * gwei]) ∧
      (transactAll keyed.1 [mintCall 0, mintCall 1] keyed.2).1.cells 0 = 45 * gwei ∧
      ¬ PriceKept keyed.1 keyed.2 0 [mintCall 0, mintCall 1] :=
  ⟨rfl, rfl, fun h => absurd h.2 (by decide)⟩

end XChain.Bind
