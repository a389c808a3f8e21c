import NeoCoin.Genesis

/-!
# The second implementation

`internal/blockchain` has its own copies of the transaction checks, the monetary policy and the state transition. What is written as in
`blockchain/` is used from there; what is not has its own definition: `decodeHex32` knows no prefix, `BlockReward` no least reward, a
block has two more fields, and the errors have other texts.
-/

namespace NeoCoin.Internal

open GoLib

/-! ## Transactions -/

/-- `decodeHex32`: 32 bytes in hexadecimal, without prefix or checksum. -/
def decodeHex32 (addrHex : Bytes) : Result Bytes := do
  let b ← hexDecode addrHex
  failIf (b.length ≠ 32) "expected 32 bytes"
  .ok b

def txSigningPreimageBinaryV1 (tx : Transaction) : Result Bytes :=
  match tx.type with
  | .coinbase => do
    failIf (tx.chainID = 0) "missing chainId"
    let dest ← (decodeHex32 tx.toAddress).orError "invalid toAddress"
    .ok ([binaryEncodingVersionV1, 0] ++ leBytes 8 tx.chainID.toNat ++ dest ++ leBytes 8 tx.amount.toNat ++ writeData tx.data)
  | .transfer => do
    failIf (tx.chainID = 0) "missing chainId"
    failIf (tx.fromPubKey.bytes.length ≠ 32) "invalid fromPubKey length"
    let dest ← (decodeHex32 tx.toAddress).orError "invalid toAddress"
    .ok ([binaryEncodingVersionV1, 1] ++ leBytes 8 tx.chainID.toNat ++ tx.fromPubKey.bytes ++ dest ++ leBytes 8 tx.amount.toNat ++
      leBytes 8 tx.nonce.toNat ++ leBytes 8 tx.fee.toNat ++ writeData tx.data)
  | .other _ => .error "unknown tx type"

section

variable (C : Crypto)

def fromAddress (t : Transaction) : Result Bytes := do
  failIf (t.type ≠ .transfer) "from address only exists for transfer transactions"
  failIf (t.fromPubKey.bytes.length ≠ 32) "invalid fromPubKey length: expected 32 bytes"
  .ok (generateAddress C t.fromPubKey.bytes)

def signingPreimageLegacyJSON (t : Transaction) : Result Bytes :=
  if t.type = .transfer then do
    let fromAddr ← fromAddress C t
    .ok (signingViewJSON t fromAddr)
  else .ok (signingViewJSON t [])

def txSigningHashForConsensus (tx : Transaction) (p : ConsensusParams) (height : UInt64) : Result Bytes := do
  let pre ← if p.binaryEncodingActive height then txSigningPreimageBinaryV1 tx else signingPreimageLegacyJSON C tx
  .ok (C.sha256 pre)

def verifyWithSigningHash (t : Transaction) (h : Bytes) : Result Unit := do
  failIf (t.type ≠ .transfer) "signature verification only applies to transfer transactions"
  failIf (t.fromPubKey.bytes.length ≠ 32) "invalid fromPubKey length"
  failIf (t.signature.bytes.length ≠ 64) "invalid signature length"
  failIf (C.ed25519Verify t.fromPubKey.bytes h t.signature.bytes = false) "signature verification failed"

def verifyCoinbase (t : Transaction) : Result Unit := do
  failIf (t.chainID = 0) "chainId must be set"
  failIf (t.amount = 0) "coinbase amount must be > 0"
  validateAddress C t.toAddress
  failIf (t.fromPubKey ≠ none ∨ t.signature ≠ none ∨ t.nonce ≠ 0 ∨ t.fee ≠ 0)
    "coinbase must not include fromPubKey/signature/nonce/fee"

/-- The checks on a transfer, which `Verify` and `VerifyForConsensus` share. -/
def verifyTransfer (t : Transaction) (signingHash : Result Bytes) : Result Unit := do
  failIf (t.amount = 0) "amount must be > 0"
  validateAddress C t.toAddress
  failIf (t.fromPubKey.bytes.length ≠ 32) "invalid fromPubKey length"
  failIf (t.signature.bytes.length ≠ 64) "invalid signature length"
  failIf (t.nonce = 0) "nonce must be > 0"
  failIf (t.chainID = 0) "chainId must be set"
  let h ← signingHash
  verifyWithSigningHash C t h

def verify (t : Transaction) : Result Unit :=
  match t.type with
  | .coinbase => verifyCoinbase C t
  | .transfer => verifyTransfer C t (do let pre ← signingPreimageLegacyJSON C t; .ok (C.sha256 pre))
  | .other _ => .error "unknown transaction type"

def verifyForConsensus (t : Transaction) (p : ConsensusParams) (height : UInt64) : Result Unit :=
  match t.type with
  | .coinbase => verify C t
  | .transfer => verifyTransfer C t (txSigningHashForConsensus C t p height)
  | .other _ => .error "unknown transaction type"

/-! ## Monetary policy -/

/-- `MonetaryPolicy.BlockReward`. A reward that has been halved away is the tail emission, whatever that is. -/
def blockReward (p : MonetaryPolicy) (height : UInt64) : UInt64 :=
  if p.halvingInterval = 0 then p.initialBlockReward
  else
    let halvings := height / p.halvingInterval
    if halvings ≥ 64 then p.tailEmission
    else
      let reward := p.initialBlockReward >>> halvings
      if reward = 0 then p.tailEmission
      else reward

/-! ## One block -/

structure Block extends NeoCoin.Block where
  stateRoot : GoSlice := none
  utxoRoot : GoSlice := none
  deriving DecidableEq, Repr

/-- `json.Marshal` of a block. -/
def blockJSON (b : Block) : Bytes :=
  Json.object ([Json.field "version" (Json.nat b.version.toNat), Json.field "height" (Json.nat b.height.toNat),
    Json.field "timestampUnix" (Json.int b.timestampUnix.toInt), Json.field "prevHash" (Json.goSlice b.prevHash),
    Json.field "nonce" (Json.nat b.nonce.toNat), Json.field "difficultyBits" (Json.nat b.difficultyBits.toNat),
    Json.field "minerAddress" (Json.string b.minerAddress),
    Json.field "transactions" (if b.transactions = [] then str "null" else Json.array (b.transactions.map transactionJSON)),
    Json.field "hash" (Json.goSlice b.hash)] ++
    omitEmpty (b.stateRoot.bytes = []) (Json.field "stateRoot" (Json.goSlice b.stateRoot)) ++
    omitEmpty (b.utxoRoot.bytes = []) (Json.field "utxoRoot" (Json.goSlice b.utxoRoot)))

def blockSizeForConsensus (b : Block) : Nat := (blockJSON b).length

def expectedCoinbase (p : ConsensusParams) (height : UInt64) (transfers : List Transaction) : UInt64 :=
  blockReward p.monetaryPolicy height + p.monetaryPolicy.minerFeeAmount (transferFees transfers)

def checkEconomics (p : ConsensusParams) (b : Block) (cb : Transaction) (rest : List Transaction) : Result Unit := do
  (validateAddress C b.minerAddress).wrap "invalid minerAddress: "
  failIf (cb.toAddress ≠ b.minerAddress) "coinbase toAddress must match minerAddress"
  failIf (cb.amount ≠ expectedCoinbase p b.height rest)
    s!"bad coinbase amount: expected {expectedCoinbase p b.height rest} got {cb.amount}"

def checkBlock (p : ConsensusParams) (b : Block) : Result Unit := do
  failIf (p.maxBlockSize > 0 ∧ p.maxBlockSize.toNat < blockSizeForConsensus b)
    s!"block too large: {blockSizeForConsensus b} bytes (max {p.maxBlockSize})"
  match b.transactions with
  | [] => .error "block has no transactions"
  | cb :: rest =>
    failIf (cb.type ≠ .coinbase) "first tx must be coinbase"
    if b.height > 0 then checkEconomics C p b cb rest else .ok ()

def applyCoinbase (p : ConsensusParams) (height : UInt64) (i : Nat) (tx : Transaction) (s : State) : Result State := do
  failIf (i ≠ 0) "coinbase must be first"
  verifyForConsensus C tx p height
  .ok (State.credit s tx.toAddress tx.amount)

def applyTransfer (p : ConsensusParams) (height : UInt64) (tx : Transaction) (s : State) : Result State := do
  verifyForConsensus C tx p height
  let fromAddr ← fromAddress C tx
  let sender := s.get fromAddr
  failIf (sender.nonce + 1 ≠ tx.nonce) s!"bad nonce for {text fromAddr}: expected {sender.nonce + 1} got {tx.nonce}"
  let totalDebit := tx.amount + tx.fee
  failIf (sender.balance < totalDebit) s!"insufficient funds for {text fromAddr}"
  .ok (State.credit (State.debit s fromAddr totalDebit tx.nonce) tx.toAddress tx.amount)

def applyTx (p : ConsensusParams) (height : UInt64) (i : Nat) (tx : Transaction) (s : State) : Result State :=
  match tx.type with
  | .coinbase => applyCoinbase C p height i tx s
  | .transfer => applyTransfer C p height tx s
  | .other name => .error s!"unknown tx type: \"{text name}\""

def applyTxs (p : ConsensusParams) (height : UInt64) : Nat → List Transaction → State → Result Unit × State
  | _, [], s => (.ok (), s)
  | i, tx :: txs, s =>
    match applyTx C p height i tx s with
    | .error e => (.error e, s)
    | .ok s' => applyTxs p height (i + 1) txs s'

def applyBlockToState (p : ConsensusParams) (s : State) (b : Block) : Result Unit × State :=
  match checkBlock C p b with
  | .error e => (.error e, s)
  | .ok () => applyTxs C p b.height 0 b.transactions s

/-! ## What is accepted -/

theorem verifyForConsensus_coinbase_iff {t : Transaction} (p : ConsensusParams) (height : UInt64)
    (ht : t.type = .coinbase) : verifyForConsensus C t p height = .ok () ↔ VerifiedCoinbase C t := by
  simp only [verifyForConsensus, verify, ht, verifyCoinbase, unit_bind_eq_ok, failIf_eq_ok, not_or, not_not, ne_eq,
    verifiedCoinbase_iff]

theorem checkEconomics_ok_iff (p : ConsensusParams) {b : Block} {cb : Transaction} {rest : List Transaction} :
    checkEconomics C p b cb rest = .ok () ↔
      validateAddress C b.minerAddress = .ok () ∧ cb.toAddress = b.minerAddress ∧ cb.amount = expectedCoinbase p b.height rest := by
  simp only [checkEconomics, unit_bind_eq_ok, failIf_eq_ok, Result.wrap_eq_ok, not_not]

end

theorem applyBlockToState_coinbase {C : Crypto} {p : ConsensusParams} {b : Block} {cb : Transaction} (s : State)
    (hb : b.transactions = [cb]) (hsize : p.maxBlockSize > 0 → blockSizeForConsensus b ≤ p.maxBlockSize.toNat)
    (htype : cb.type = .coinbase) (heconomics : b.height > 0 → checkEconomics C p b cb [] = .ok ()) (hcb : VerifiedCoinbase C cb) :
    applyBlockToState C p s b = (.ok (), State.credit s cb.toAddress cb.amount) := by
  have hcheck : checkBlock C p b = .ok () := by
    simp only [checkBlock, hb, bind_eq_ok, failIf_eq_ok, not_and, Nat.not_lt, not_not]
    refine ⟨(), hsize, (), htype, ?_⟩
    split
    · rename_i hheight
      exact heconomics hheight
    · rfl
  have hverify := (verifyForConsensus_coinbase_iff C p b.height htype).mpr hcb
  have htx : applyTx C p b.height 0 cb s = .ok (State.credit s cb.toAddress cb.amount) := by
    simp only [applyTx, htype, applyCoinbase, hverify]
    rfl
  rw [applyBlockToState, hcheck, hb]
  simp only [applyTxs, htx]

end NeoCoin.Internal
