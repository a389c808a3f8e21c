import NeoCoin.Internal.Ledger

/-!
# Blocks of the second implementation

The commitment, the header and the proof of work of `internal/blockchain/encoding.go`, `merkle.go` and `pow.go`, and the genesis block of
`consensus.go`. A Merkle root over nothing, or over a leaf of the wrong length, is an empty slice here and not an error. What is written
as in `blockchain/` is used from there.
-/

namespace NeoCoin.Internal

open GoLib

/-! ## The commitment to the transactions -/

variable (C : Crypto)

def merkleRoot (leaves : List Bytes) : Bytes :=
  if leaves.any (fun l => l.length ≠ 32) then []
  else (Merkle.root (hashNode C) (leaves.map (hashLeaf C))).getD []

def Block.signingHashes (b : Block) (p : ConsensusParams) : Result (List Bytes) :=
  b.transactions.mapM fun tx => txSigningHashForConsensus C tx p b.height

def Block.txRootLegacyForConsensus (b : Block) (p : ConsensusParams) : Result Bytes := do
  let hashes ← b.signingHashes C p
  .ok (C.sha256 hashes.flatten)

def Block.merkleRootV2ForConsensus (b : Block) (p : ConsensusParams) : Result Bytes := do
  let leaves ← b.signingHashes C p
  .ok (merkleRoot C leaves)

def Block.commitmentRoot (b : Block) (p : ConsensusParams) : Result Bytes :=
  if b.version = 2 then b.merkleRootV2ForConsensus C p else b.txRootLegacyForConsensus C p

/-! ## The header -/

/-- `copy(root[:], r)` into 32 zero bytes. -/
def copy32 (r : Bytes) : Bytes := (r ++ List.replicate 32 0).take 32

def blockHeaderPreimageBinaryV1 (b : Block) (nonce : UInt64) (p : ConsensusParams) : Result Bytes := do
  failIf (b.timestampUnix ≤ 0) "invalid timestamp"
  failIf (b.prevHash.bytes.length ≠ 0 ∧ b.prevHash.bytes.length ≠ 32) "invalid prevHash length"
  failIf (b.hash.bytes.length ≠ 0 ∧ b.hash.bytes.length ≠ 32) "invalid hash length"
  let miner ← (decodeHex32 b.minerAddress).orError "invalid minerAddress"
  let root ← b.commitmentRoot C p
  .ok (binaryEncodingVersionV1 :: leBytes 4 b.version.toNat ++ leBytes 8 b.height.toNat ++
    leBytes 8 b.timestampUnix.toUInt64.toNat ++ headerPrev b.prevHash.bytes ++ copy32 root ++ leBytes 4 b.difficultyBits.toNat ++
    miner ++ leBytes 8 nonce.toNat)

def Block.headerBytesForConsensus (b : Block) (p : ConsensusParams) (nonce : UInt64) : Result Bytes :=
  if p.binaryEncodingActive b.height then blockHeaderPreimageBinaryV1 C b nonce p
  else do
    let root ← b.commitmentRoot C p
    .ok (headerJSON b.toBlock nonce (if b.version = 2 then "merkleRootHex" else "txRootHex") root)

/-! ## Proof of work -/

def powRunLoop (p : ConsensusParams) (b : Block) : Nat → UInt64 → Option (Result (UInt64 × Bytes))
  | 0, _ => none
  | n + 1, nonce =>
    match b.headerBytesForConsensus C p nonce with
    | .error e => some (.error e)
    | .ok header =>
      let sum := C.sha256 header
      if beNat sum < powTarget b.toBlock then some (.ok (nonce, sum)) else powRunLoop p b n (nonce + 1)

/-- `ProofOfWork.Run`; `none` is a search that does not return. -/
def powRun (p : ConsensusParams) (b : Block) : Option (Result (UInt64 × Bytes)) := powRunLoop C p b (2 ^ 64) 0

def powValidate (p : ConsensusParams) (b : Block) : Result Bool := do
  let header ← b.headerBytesForConsensus C p b.nonce
  let sum := C.sha256 header
  if b.hash.bytes.length ≠ 0 ∧ b.hash.bytes ≠ sum then .ok false
  else .ok (decide (beNat sum < powTarget b.toBlock))

/-! ## Genesis -/

def loadGenesisConfig (raw : GenesisConfigJSON) : Result GenesisConfig := do
  failIf (raw.chainID = 0) "genesis chainId must be > 0"
  failIf (raw.timestamp ≤ 0) "genesis timestamp must be > 0"
  failIf (raw.initialSupply = 0) "genesis initialSupply must be > 0"
  (validateGenesisMinerAddress C raw.genesisMinerAddress).wrap "invalid genesisMinerAddress: "
  let policy ← parseMonetaryPolicy raw.monetaryPolicy
  let consensus ← parseConsensusParams raw.consensusParams
  .ok { network := raw.network, chainID := raw.chainID, timestamp := raw.timestamp
        genesisMinerAddress := raw.genesisMinerAddress, initialSupply := raw.initialSupply
        genesisMessage := raw.genesisMessage, monetaryPolicy := policy
        consensusParams := { consensus with monetaryPolicy := policy } }

def genesisTemplate (cfg : GenesisConfig) (consensus : ConsensusParams) : Block :=
  { version := blockVersionForHeight consensus 0, height := 0, timestampUnix := cfg.timestamp
    difficultyBits := consensus.genesisDifficultyBits, minerAddress := cfg.genesisMinerAddress
    transactions :=
      [{ type := .coinbase, chainID := cfg.chainID, toAddress := cfg.genesisMinerAddress, amount := cfg.initialSupply
         data := genesisMessageOrDefault cfg }] }

def buildGenesisBlock (cfg : GenesisConfig) (consensus : ConsensusParams) : Option (Result Block) :=
  let genesis := genesisTemplate cfg consensus
  match powRun C consensus genesis with
  | none => none
  | some (.error e) => some (.error e)
  | some (.ok (nonce, hash)) => some (.ok { genesis with nonce := nonce, hash := some hash })

def ensureBlockHash (b : Block) (consensus : ConsensusParams) : Result (Bytes × Block) := do
  let header ← b.headerBytesForConsensus C consensus b.nonce
  let sum := C.sha256 header
  .ok (sum, if b.hash.bytes.length = 0 then { b with hash := some sum } else b)

def validateGenesisBlock (b : Block) (cfg : GenesisConfig) (consensus : ConsensusParams) : Result Block := do
  failIf (b.height ≠ 0) s!"invalid genesis height: {b.height}"
  failIf (b.prevHash.bytes.length ≠ 0) "invalid genesis prevHash"
  failIf (b.version ≠ blockVersionForHeight consensus 0) s!"invalid genesis version: {b.version}"
  failIf (b.timestampUnix ≠ cfg.timestamp) s!"genesis timestamp mismatch: {b.timestampUnix} != {cfg.timestamp}"
  failIf (b.minerAddress ≠ cfg.genesisMinerAddress)
    s!"genesis miner mismatch: {text b.minerAddress} != {text cfg.genesisMinerAddress}"
  failIf (b.difficultyBits ≠ consensus.genesisDifficultyBits)
    s!"genesis difficulty mismatch: {b.difficultyBits} != {consensus.genesisDifficultyBits}"
  match b.transactions with
  | [cb] => validateGenesisCoinbase cb cfg
  | _ => .error "genesis must contain exactly one transaction"
  let ok ← powValidate C consensus b
  failIf (ok = false) "invalid genesis pow"
  let (_, b) ← ensureBlockHash C b consensus
  .ok b

end NeoCoin.Internal
