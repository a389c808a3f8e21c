import NeoCoin.Address

/-!
# Transactions: what is signed and what is checked

The signing preimages of `blockchain/encoding_bin.go` (binary) and `blockchain/types.go` (legacy JSON), the signing hash, and the checks
`Verify` and `VerifyForConsensus`.
-/

namespace NeoCoin

open GoLib

/-! ## The binary preimage -/

/-- The rounds of `writeULEB128`: seven bits a byte, low bits first, the top bit set on every byte but the last. -/
def writeULEB128Loop : Nat → UInt64 → Bytes
  | 0, _ => []
  | k + 1, n =>
    let b := (n &&& 0x7f).toUInt8
    let n := n >>> 7
    if n ≠ 0 then (b ||| 0x80) :: writeULEB128Loop k n else [b]

/-- `writeULEB128`. A `uint64` has ten groups of seven bits. -/
def writeULEB128 (n : UInt64) : Bytes := writeULEB128Loop 10 n

/-- `strings.TrimPrefix(addr, AddressPrefix)`. -/
def trimAddressPrefix (addr : Bytes) : Bytes := if addressPrefix <+: addr then addr.drop addressPrefix.length else addr

/-- `decodeHex32`: the 32-byte hash of an address, from its long form (version, hash, checksum) or its raw form. -/
def decodeHex32 (addr : Bytes) : Result Bytes := do
  let b ← hexDecode (trimAddressPrefix addr)
  if b.length = 37 then .ok ((b.drop 1).take 32)
  else if b.length = 32 then .ok b
  else .error s!"expected 32 or 37 bytes, got {b.length}"

theorem decodeHex32_length {addr h : Bytes} (hd : decodeHex32 addr = .ok h) : h.length = 32 := by
  unfold decodeHex32 at hd
  obtain ⟨b, -, hb⟩ := bind_eq_ok.mp hd
  split at hb
  · rename_i h37
    cases hb
    rw [List.length_take, List.length_drop, h37]
    rfl
  · split at hb
    · rename_i h32
      cases hb
      exact h32
    · cases hb

/-- The length of the data as `uint64(len(data))`, and the data. -/
def writeData (data : Bytes) : Bytes := writeULEB128 (UInt64.ofNat data.length) ++ data

def binaryEncodingVersionV1 : UInt8 := 1

def txSigningPreimageBinaryV1 (tx : Transaction) : Result Bytes :=
  match tx.type with
  | .coinbase => do
    failIf (tx.chainID = 0) "missing chainId"
    let dest ← (decodeHex32 tx.toAddress).orError "invalid toAddress"
    .ok ([binaryEncodingVersionV1, 0] ++ leBytes 8 tx.chainID.toNat ++ dest ++ leBytes 8 tx.amount.toNat ++ writeData tx.data)
  | .transfer => do
    failIf (tx.chainID = 0) "missing chainId"
    failIf (tx.fromPubKey.bytes.length ≠ 32) "invalid fromPubKey length"
    let dest ← (decodeHex32 tx.toAddress).orError "invalid toAddress"
    .ok ([binaryEncodingVersionV1, 1] ++ leBytes 8 tx.chainID.toNat ++ tx.fromPubKey.bytes ++ dest ++ leBytes 8 tx.amount.toNat ++
      leBytes 8 tx.nonce.toNat ++ leBytes 8 tx.fee.toNat ++ writeData tx.data)
  | .other _ => .error "unknown tx type"

/-! ## The legacy preimage -/

section

variable (C : Crypto) (t : Transaction)

def Transaction.fromAddress : Result Bytes := do
  failIf (t.type ≠ .transfer) "from address only exists for transfer transactions"
  failIf (t.fromPubKey.bytes.length ≠ 32) s!"invalid fromPubKey length: {t.fromPubKey.bytes.length}"
  .ok (generateAddress C t.fromPubKey.bytes)

def omitEmpty (empty : Prop) [Decidable empty] (field : Bytes) : List Bytes := if empty then [] else [field]

/-- `json.Marshal` of the view that `signingHashLegacyJSON` hashes. -/
def signingViewJSON (t : Transaction) (fromAddr : Bytes) : Bytes :=
  Json.object ([Json.field "type" (Json.string t.type.name), Json.field "chainId" (Json.nat t.chainID.toNat)] ++
    omitEmpty (fromAddr = []) (Json.field "fromAddr" (Json.string fromAddr)) ++
    [Json.field "toAddress" (Json.string t.toAddress), Json.field "amount" (Json.nat t.amount.toNat),
      Json.field "fee" (Json.nat t.fee.toNat)] ++
    omitEmpty (t.nonce = 0) (Json.field "nonce" (Json.nat t.nonce.toNat)) ++
    omitEmpty (t.data = []) (Json.field "data" (Json.string t.data)))

/-- The bytes `signingHashLegacyJSON` hashes: a transfer names its sender, other types do not. -/
def signingPreimageLegacyJSON : Result Bytes :=
  if t.type = .transfer then do
    let fromAddr ← t.fromAddress C
    .ok (signingViewJSON t fromAddr)
  else .ok (signingViewJSON t [])

/-! ## The signing hash -/

def signingPreimage (C : Crypto) (tx : Transaction) (p : ConsensusParams) (height : UInt64) : Result Bytes :=
  if p.binaryEncodingActive height then txSigningPreimageBinaryV1 tx else signingPreimageLegacyJSON C tx

def txSigningHashForConsensus (C : Crypto) (tx : Transaction) (p : ConsensusParams) (height : UInt64) : Result Bytes := do
  let pre ← signingPreimage C tx p height
  .ok (C.sha256 pre)

def bytesToHex32 (b : Bytes) : Result Bytes := do
  failIf (b.length ≠ 32) "expected 32 bytes"
  .ok (hexEncode b)

def txIDHexForConsensus (C : Crypto) (tx : Transaction) (p : ConsensusParams) (height : UInt64) : Result Bytes := do
  let h ← txSigningHashForConsensus C tx p height
  bytesToHex32 h

/-- `TxIDHex`: the transaction id under the legacy encoding. -/
def txIDHex (C : Crypto) (tx : Transaction) : Result Bytes := do
  let pre ← signingPreimageLegacyJSON C tx
  .ok (hexEncode (C.sha256 pre))

/-! ## Verification -/

def Transaction.verifyWithSigningHash (h : Bytes) : Result Unit := do
  failIf (t.type ≠ .transfer) "signature verification only applies to transfer transactions"
  failIf (t.fromPubKey.bytes.length ≠ 32) s!"invalid fromPubKey length: {t.fromPubKey.bytes.length}"
  failIf (t.signature.bytes.length ≠ 64) s!"invalid signature length: {t.signature.bytes.length}"
  failIf (C.ed25519Verify t.fromPubKey.bytes h t.signature.bytes = false) "invalid signature"

def Transaction.verifyCoinbase : Result Unit := do
  failIf (t.chainID = 0) "chainId must be set"
  failIf (t.amount = 0) "coinbase amount must be > 0"
  (validateAddress C t.toAddress).wrap "invalid toAddress: "
  failIf (t.fromPubKey ≠ none ∨ t.signature ≠ none ∨ t.nonce ≠ 0 ∨ t.fee ≠ 0)
    "coinbase must not include fromPubKey/signature/nonce/fee"

/-- The checks on a transfer, which `Verify` and `VerifyForConsensus` share: they differ in the signing hash. -/
def Transaction.verifyTransfer (signingHash : Result Bytes) : Result Unit := do
  failIf (t.amount = 0) "amount must be > 0"
  (validateAddress C t.toAddress).wrap "invalid toAddress: "
  failIf (t.fromPubKey.bytes.length ≠ 32) s!"invalid fromPubKey length: {t.fromPubKey.bytes.length}"
  failIf (t.signature.bytes.length ≠ 64) s!"invalid signature length: {t.signature.bytes.length}"
  failIf (t.nonce = 0) "nonce must be > 0"
  failIf (t.chainID = 0) "chainId must be set"
  let h ← signingHash
  t.verifyWithSigningHash C h

def Transaction.verify : Result Unit :=
  match t.type with
  | .coinbase => t.verifyCoinbase C
  | .transfer => t.verifyTransfer C (do let pre ← signingPreimageLegacyJSON C t; .ok (C.sha256 pre))
  | .other name => .error s!"unknown transaction type: \"{text name}\""

def Transaction.verifyForConsensus (p : ConsensusParams) (height : UInt64) : Result Unit :=
  match t.type with
  | .coinbase => t.verify C
  | .transfer => t.verifyTransfer C (txSigningHashForConsensus C t p height)
  | .other name => .error s!"unknown transaction type: \"{text name}\""

/-! ## What a verified transaction satisfies -/

/-- What `VerifyForConsensus` establishes of a coinbase. -/
@[mk_iff] structure VerifiedCoinbase : Prop where
  chainID : t.chainID ≠ 0
  amount : t.amount ≠ 0
  toAddress : validateAddress C t.toAddress = .ok ()
  fromPubKey : t.fromPubKey = none
  signature : t.signature = none
  nonce : t.nonce = 0
  fee : t.fee = 0

/-- What `VerifyForConsensus` establishes of a transfer. -/
structure VerifiedTransfer (p : ConsensusParams) (height : UInt64) : Prop where
  amount : t.amount ≠ 0
  toAddress : validateAddress C t.toAddress = .ok ()
  fromPubKey : t.fromPubKey.bytes.length = 32
  signature : t.signature.bytes.length = 64
  nonce : t.nonce ≠ 0
  chainID : t.chainID ≠ 0
  signed : ∃ pre, signingPreimage C t p height = .ok pre ∧
    C.ed25519Verify t.fromPubKey.bytes (C.sha256 pre) t.signature.bytes = true

end

theorem verifyForConsensus_coinbase_iff (C : Crypto) {t : Transaction} (p : ConsensusParams) (height : UInt64)
    (ht : t.type = .coinbase) : t.verifyForConsensus C p height = .ok () ↔ VerifiedCoinbase C t := by
  simp only [Transaction.verifyForConsensus, Transaction.verify, ht, Transaction.verifyCoinbase, unit_bind_eq_ok, failIf_eq_ok,
    Result.wrap_eq_ok, not_or, not_not, ne_eq, verifiedCoinbase_iff]

theorem verifyForConsensus_transfer_iff (C : Crypto) {t : Transaction} (p : ConsensusParams) (height : UInt64)
    (ht : t.type = .transfer) : t.verifyForConsensus C p height = .ok () ↔ VerifiedTransfer C t p height := by
  simp only [Transaction.verifyForConsensus, ht, Transaction.verifyTransfer, txSigningHashForConsensus,
    Transaction.verifyWithSigningHash, ↓unit_bind_eq_ok, bind_eq_ok, failIf_eq_ok, Result.wrap_eq_ok, not_not, ne_eq, not_true_eq_false,
    not_false_eq_true, Bool.not_eq_false]
  constructor
  · rintro ⟨_, h1, h2, h3, h4, h5, h6, _, ⟨pre, hpre, heq⟩, -, -, -, h7⟩
    rw [Except.ok.injEq] at heq
    exact ⟨h1, h2, h3, h4, h5, h6, pre, hpre, by rw [heq]; exact h7⟩
  · rintro ⟨h1, h2, h3, h4, h5, h6, pre, hpre, h7⟩
    exact ⟨(), h1, h2, h3, h4, h5, h6, _, ⟨pre, hpre, rfl⟩, trivial, h3, h4, h7⟩

theorem fromAddress_ok_iff (C : Crypto) {t : Transaction} {addr : Bytes} : t.fromAddress C = .ok addr ↔
      t.type = .transfer ∧ t.fromPubKey.bytes.length = 32 ∧ addr = generateAddress C t.fromPubKey.bytes := by
  simp only [Transaction.fromAddress, unit_bind_eq_ok, failIf_eq_ok, not_not, Except.ok.injEq, @eq_comm _ addr]

end NeoCoin
