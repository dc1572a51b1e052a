import XChain.Lib.Text

/-!
# Vault events and the key of their token mapping

The events a vault emits (`sentinel/event.go`), the token mappings of the configuration
(`sentinel/config.go`) and the two formatters that turn them into the key of the event store. A
`*big.Int` is an integer here, a Go string a byte string. `hexToAddress` and the SHA-256 `digest`
are parameters.

* **`tokenMapping_key_exact`**: writer and reader of the store use one key, and only for the
  matching mapping.
-/

namespace XChain

open GoText

/-- A deposit or burn event as it is recorded in xevents. -/
structure VaultEvent where
  vault : Address
  sourceChainid : ℤ
  sourceToken : Address
  mappedChainid : ℤ
  mappedToken : Address
  toAddr : Address
  amount : ℤ
  nonce : ℤ
  totalNonce : ℤ
  blockNumber : ℤ
  tip : ℤ
deriving DecidableEq

structure VaultEventWithSig where
  event : VaultEvent
  blssig : Bytes
deriving DecidableEq

structure TokenMapping where
  sourceChainId : UInt64
  sourceToken : Bytes
  mappedChainId : UInt64
  mappedToken : Bytes

/-! ## The two formatters -/

/-- `fmt.Sprintf("%d,%x,%d,%x", …)` over big integers and byte slices. -/
def tokenMappingString (sourceChainid : ℤ) (sourceToken : Bytes) (mappedChainid : ℤ)
    (mappedToken : Bytes) : Bytes :=
  formatInt sourceChainid ++ comma :: (hex sourceToken ++ comma ::
    (formatInt mappedChainid ++ comma :: hex mappedToken))

def VaultEvent.tokenMapping (e : VaultEvent) : Bytes :=
  tokenMappingString e.sourceChainid e.sourceToken.bytes e.mappedChainid e.mappedToken.bytes

section Keys

variable (digest : Bytes → Hash) (hexToAddress : Bytes → Address)

def VaultEvent.tokenMappingSha256 (e : VaultEvent) : Hash := digest e.tokenMapping

/-- `fmt.Sprintf("%d,%x,%d,%x", …)` over the fields of the configuration. -/
def TokenMapping.string (m : TokenMapping) : Bytes :=
  decimal m.sourceChainId.toNat ++ comma :: (hex (hexToAddress m.sourceToken).bytes ++ comma ::
    (decimal m.mappedChainId.toNat ++ comma :: hex (hexToAddress m.mappedToken).bytes))

/-- The key under which the events of a configured mapping are looked up. -/
def TokenMapping.sha256 (m : TokenMapping) : Hash := digest (m.string hexToAddress)

def VaultEvent.Matches (e : VaultEvent) (m : TokenMapping) : Prop :=
  e.sourceChainid = m.sourceChainId.toNat ∧ e.sourceToken = hexToAddress m.sourceToken ∧
    e.mappedChainid = m.mappedChainId.toNat ∧ e.mappedToken = hexToAddress m.mappedToken

/-! ## The key text determines its fields -/

theorem tokenMappingString_inj {c c' d d' : ℤ} {s s' t t' : Address}
    (h : tokenMappingString c s.bytes d t.bytes = tokenMappingString c' s'.bytes d' t'.bytes) :
    c = c' ∧ s = s' ∧ d = d' ∧ t = t' := by
  obtain ⟨hc, h⟩ := append_comma_inj (field_formatInt c) (field_formatInt c') h
  obtain ⟨hs, h⟩ := append_comma_inj (field_hex _) (field_hex _) h
  obtain ⟨hd, ht⟩ := append_comma_inj (field_formatInt d) (field_formatInt d') h
  exact ⟨formatInt_injective hc, FixedBytes.hex_inj hs, formatInt_injective hd,
    FixedBytes.hex_inj ht⟩

theorem TokenMapping.string_eq (m : TokenMapping) :
    m.string hexToAddress = tokenMappingString m.sourceChainId.toNat
      (hexToAddress m.sourceToken).bytes m.mappedChainId.toNat (hexToAddress m.mappedToken).bytes :=
  rfl

theorem tokenMapping_eq_string_iff (e : VaultEvent) (m : TokenMapping) :
    e.tokenMapping = m.string hexToAddress ↔ e.Matches hexToAddress m := by
  rw [TokenMapping.string_eq]
  constructor
  · exact fun h => tokenMappingString_inj h
  · rintro ⟨hc, hs, hd, ht⟩
    rw [VaultEvent.tokenMapping, hc, hs, hd, ht]

/-- **Writer and reader of the event store use the same, unambiguous key.** -/
theorem tokenMapping_key_exact :
    (Function.Injective fun q : ℕ × Address × ℕ × Address =>
      tokenMappingString q.1 q.2.1.bytes q.2.2.1 q.2.2.2.bytes) ∧
    (∀ (e : VaultEvent) (m : TokenMapping),
      e.tokenMapping = m.string hexToAddress ↔ e.Matches hexToAddress m) ∧
    (∀ (e : VaultEvent) (m : TokenMapping), e.Matches hexToAddress m →
      e.tokenMappingSha256 digest = m.sha256 digest hexToAddress) ∧
    ∀ (e : VaultEvent) (m : TokenMapping),
      e.tokenMappingSha256 digest = m.sha256 digest hexToAddress → ¬ e.Matches hexToAddress m →
        ∃ s t : Bytes, s ≠ t ∧ digest s = digest t := by
  refine ⟨?_, tokenMapping_eq_string_iff hexToAddress, ?_, ?_⟩
  · rintro ⟨c, s, d, t⟩ ⟨c', s', d', t'⟩ h
    obtain ⟨hc, rfl, hd, rfl⟩ := tokenMappingString_inj h
    obtain rfl := Int.ofNat.inj hc
    obtain rfl := Int.ofNat.inj hd
    rfl
  · intro e m h
    exact congrArg digest ((tokenMapping_eq_string_iff hexToAddress e m).mpr h)
  · intro e m hk hne
    exact ⟨_, _, fun h => hne ((tokenMapping_eq_string_iff hexToAddress e m).mp h), hk⟩

end Keys

end XChain
