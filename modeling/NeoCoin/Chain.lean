import NeoCoin.Genesis

/-!
# The chain a node keeps

`Blockchain` of `blockchain/chain.go` with its load and its miner, and the rules hash of `blockchain/rules_hash.go`. Each call of the
store may fail, and may change the stored data also when it does.
-/

namespace NeoCoin

open GoLib

/-! ## Stored and derived data -/

/-- `ChainStore`: what each call returns on the stored data, and the data after it. -/
structure ChainStore (σ : Type) where
  readCanonical : σ → Result (List Block)
  appendCanonical : σ → Block → Result Unit × σ
  rewriteCanonical : σ → List Block → Result Unit × σ
  putBlock : σ → Block → Result Unit × σ
  readAllBlocks : σ → Result (GoMap Bytes Block)
  getRulesHash : σ → Result (Option Bytes)
  putRulesHash : σ → Bytes → Result Unit × σ
  getGenesisHash : σ → Result (Option Bytes)
  putGenesisHash : σ → Bytes → Result Unit × σ

structure TxLocation where
  height : UInt64
  blockHashHex : Bytes
  index : Nat
  deriving DecidableEq, Repr

structure AddressTxEntry where
  txID : Bytes
  location : TxLocation
  fromAddr : Bytes
  toAddress : Bytes
  amount : UInt64
  fee : UInt64
  nonce : UInt64
  deriving DecidableEq, Repr

/-- A chain of blocks from genesis to its tip, of which there is at least one. -/
abbrev Path := { l : List Block // l ≠ [] }

def Path.tip (path : Path) : Block := path.1.getLast path.2

def Path.snoc (path : Path) (b : Block) : Path := ⟨path.1 ++ [b], by simp⟩

structure Blockchain (σ : Type) where
  chainID : UInt64
  minerAddress : Bytes
  consensus : ConsensusParams
  blocks : Path
  state : State
  store : σ
  blocksByHash : GoMap Bytes Block
  bestTipHash : Bytes
  canonicalWork : Nat
  txIndex : GoMap Bytes TxLocation
  addressIndex : GoMap Bytes (List AddressTxEntry)
  deriving DecidableEq

def Block.hashHex (b : Block) : Bytes := hexEncode b.hash.bytes

def Block.prevHashHex (b : Block) : Bytes := hexEncode b.prevHash.bytes

/-! ## Indexes -/

section

variable (C : Crypto) (p : ConsensusParams)

def indexTx (b : Block) (index : GoMap Bytes TxLocation) (e : Transaction × Nat) : GoMap Bytes TxLocation :=
  if e.1.type ≠ .transfer then index
  else
    match txIDHexForConsensus C e.1 p b.height with
    | .error _ => index
    | .ok txid => index.set txid { height := b.height, blockHashHex := b.hashHex, index := e.2 }

/-- `indexTxsForBlockLocked`. -/
def indexTxsForBlock (index : GoMap Bytes TxLocation) (b : Block) : GoMap Bytes TxLocation :=
  b.transactions.zipIdx.foldl (indexTx C p b) index

/-- One round of `indexAddressTxsForBlockLocked`. The second append reads the map after the first. -/
def indexAddressTx (b : Block) (index : GoMap Bytes (List AddressTxEntry)) (e : Transaction × Nat) : GoMap Bytes (List AddressTxEntry) :=
  if e.1.type ≠ .transfer then index
  else
    match txIDHexForConsensus C e.1 p b.height, e.1.fromAddress C with
    | .ok txid, .ok fromAddr =>
      let entry : AddressTxEntry :=
        { txID := txid, location := { height := b.height, blockHashHex := b.hashHex, index := e.2 }, fromAddr
          toAddress := e.1.toAddress, amount := e.1.amount, fee := e.1.fee, nonce := e.1.nonce }
      let index := index.set fromAddr (index.get fromAddr ++ [entry])
      if e.1.toAddress ≠ fromAddr then index.set e.1.toAddress (index.get e.1.toAddress ++ [entry]) else index
    | _, _ => index

/-- `indexAddressTxsForBlockLocked`. -/
def indexAddressTxsForBlock (index : GoMap Bytes (List AddressTxEntry)) (b : Block) : GoMap Bytes (List AddressTxEntry) :=
  b.transactions.zipIdx.foldl (indexAddressTx C p b) index

/-- `reindexAllTxsLocked`. -/
def reindexAllTxs (blocks : List Block) : GoMap Bytes TxLocation :=
  blocks.foldl (indexTxsForBlock C p) ∅

/-- `reindexAllAddressTxsLocked`. -/
def reindexAllAddressTxs (blocks : List Block) : GoMap Bytes (List AddressTxEntry) :=
  blocks.foldl (indexAddressTxsForBlock C p) ∅

/-- `addToIndexLocked`. -/
def addToIndex (m : GoMap Bytes Block) (b : Block) : GoMap Bytes Block :=
  if b.hash.bytes.length = 0 then m else m.set b.hashHex b

def pathWork (blocks : List Block) : Nat := (blocks.map fun b => workForDifficultyBits b.difficultyBits).sum

/-! ## The rules hash -/

def writeBool (v : Bool) : Bytes := if v then [1] else [0]

def ConsensusParams.marshalBinary (p : ConsensusParams) : Bytes :=
  [3] ++ writeBool p.difficultyEnable ++ leBytes 8 p.targetBlockTime.toUInt64.toNat ++
    leBytes 4 p.difficultyWindow.toUInt64.toUInt32.toNat ++ leBytes 4 p.difficultyMaxStep.toNat ++
    leBytes 4 p.minDifficultyBits.toNat ++ leBytes 4 p.maxDifficultyBits.toNat ++ leBytes 4 p.genesisDifficultyBits.toNat ++
    leBytes 4 p.medianTimePastWindow.toUInt64.toUInt32.toNat ++ leBytes 8 p.maxTimeDrift.toUInt64.toNat ++
    writeBool p.merkleEnable ++ leBytes 8 p.merkleActivationHeight.toNat ++ writeBool p.binaryEncodingEnable ++
    leBytes 8 p.binaryEncodingActivationHeight.toNat ++ leBytes 8 p.maxBlockSize.toNat ++
    leBytes 8 p.monetaryPolicy.initialBlockReward.toNat ++ leBytes 8 p.monetaryPolicy.halvingInterval.toNat ++
    [p.monetaryPolicy.minerFeeShare] ++ leBytes 8 p.monetaryPolicy.tailEmission.toNat

/-- `ConsensusParams.MustRulesHash`. -/
def ConsensusParams.rulesHash : Bytes := C.sha256 p.marshalBinary

/-! ## Loading -/

/-- The part of `LoadBlockchain` about the rules hash: the data it leaves in the store. -/
def checkRulesHash {σ : Type} (C : Crypto) (S : ChainStore σ) (p : ConsensusParams) (ignoreRulesHash : Bool) (st : σ) : Result σ := do
  let cur := p.rulesHash C
  match ← S.getRulesHash st with
  | some stored =>
    failIf (stored.length ≠ 32) s!"invalid stored rules hash length: {stored.length}"
    failIf (stored ≠ cur ∧ ignoreRulesHash = false)
      s!"consensus params mismatch: stored rulesHash={text (hexEncode stored)} current rulesHash={text (hexEncode cur)} (set IGNORE_RULES_HASH_CHECK=true to bypass, or delete data/ to reinit)"
    .ok st
  | none =>
    (S.putRulesHash st cur).1
    .ok (S.putRulesHash st cur).2

/-- The part of `LoadBlockchain` about the genesis block. The outcome of storing a new genesis block by its hash is ignored. -/
def loadGenesis {σ : Type} (C : Crypto) (S : ChainStore σ) (cfg : GenesisConfig) (blocks : List Block) (st : σ) :
    Option (Result (Path × σ)) :=
  match blocks with
  | [] =>
    match buildGenesisBlock C cfg cfg.consensusParams with
    | none => none
    | some built => some do
      let genesis ← built
      (S.appendCanonical st genesis).1
      let st := (S.appendCanonical st genesis).2
      .ok (⟨[genesis], List.cons_ne_nil genesis []⟩, (S.putBlock st genesis).2)
  | first :: rest => some do
    let first ← validateGenesisBlock C first cfg cfg.consensusParams
    .ok (⟨first :: rest, List.cons_ne_nil first rest⟩, st)

/-- The part of `LoadBlockchain` about the stored genesis hash. -/
def checkGenesisHash {σ : Type} (S : ChainStore σ) (genesisHash : Bytes) (st : σ) : Result σ := do
  match ← S.getGenesisHash st with
  | some stored =>
    failIf (stored ≠ genesisHash)
      s!"genesis hash mismatch: stored={text (hexEncode stored)} current={text (hexEncode genesisHash)}"
    .ok st
  | none =>
    (S.putGenesisHash st genesisHash).1
    .ok (S.putGenesisHash st genesisHash).2

/-- The check of `LoadBlockchain` on the address of the miner. -/
def checkMinerAddress (minerAddress : Bytes) : Result Unit :=
  if minerAddress ≠ [] ∧ ¬addressPrefix <+: minerAddress then
    (do let _ ← hexDecode minerAddress; .ok ()).wrap "invalid MINER_ADDRESS (not hex or NEO00): "
  else .ok ()

/-- The end of `LoadBlockchain`: the state is recomputed and `initCanonicalIndexesLocked` fills in the rest. -/
def initChain {σ : Type} (C : Crypto) (cfg : GenesisConfig) (minerAddress : Bytes) (blocks : Path) (all : GoMap Bytes Block)
    (st : σ) : Result (Blockchain σ) := do
  let applied := applyBlocks C cfg.consensusParams blocks.1 ∅
  applied.1
  .ok { chainID := cfg.chainID, minerAddress, consensus := cfg.consensusParams, blocks, state := applied.2, store := st
        blocksByHash := blocks.1.foldl addToIndex all, bestTipHash := blocks.tip.hashHex, canonicalWork := pathWork blocks.1
        txIndex := reindexAllTxs C cfg.consensusParams blocks.1
        addressIndex := reindexAllAddressTxs C cfg.consensusParams blocks.1 }

/-- `LoadBlockchain`, on the decoded genesis file; `none` when the search for a proof of work does not return. -/
def loadBlockchain {σ : Type} (C : Crypto) (S : ChainStore σ) (chainID : UInt64) (minerAddress : Bytes) (raw : GenesisConfigJSON)
    (ignoreRulesHash : Bool) (st : σ) : Option (Result (Blockchain σ)) :=
  let before : Result (GenesisConfig × List Block × GoMap Bytes Block × σ) := do
    let cfg ← loadGenesisConfig C raw
    failIf (chainID ≠ 0 ∧ cfg.chainID ≠ chainID) s!"genesis chainId mismatch: env={chainID} genesis={cfg.chainID}"
    checkMinerAddress minerAddress
    let blocks ← S.readCanonical st
    let all ← S.readAllBlocks st
    let st ← checkRulesHash C S cfg.consensusParams ignoreRulesHash st
    .ok (cfg, blocks, all, st)
  match before with
  | .error e => some (.error e)
  | .ok (cfg, blocks, all, st) =>
    match loadGenesis C S cfg blocks st with
    | none => none
    | some loaded => some do
      let (path, st) ← loaded
      let (genesisHash, first) ← ensureBlockHash C (path.1.head path.2) cfg.consensusParams
      let st ← checkGenesisHash S genesisHash st
      initChain C cfg minerAddress ⟨first :: path.1.tail, List.cons_ne_nil first _⟩ all st

/-! ## Mining -/

def minFee : UInt64 := 1

/-- A transaction with the chain id of the node where it names none. -/
def Transaction.withChainID (tx : Transaction) (chainID : UInt64) : Transaction :=
  if tx.chainID = 0 then { tx with chainID := chainID } else tx

/-- The checks `MineTransfers` makes of one transfer. The chain id is filled in on a copy: the block gets the transfer as it came. -/
def checkMinable (chainID height : UInt64) (tx : Transaction) : Result Unit := do
  failIf (tx.type ≠ .transfer) "only transfer txs can be mined"
  let tx := tx.withChainID chainID
  failIf (tx.chainID ≠ chainID) s!"wrong chainId: {tx.chainID}"
  tx.verifyForConsensus C p height
  failIf (tx.fee < minFee) s!"fee too low: minFee={minFee}"

/-- The first loop of `MineTransfers`: the fees of the transfers, if all pass. -/
def checkAllMinable (chainID height : UInt64) : List Transaction → UInt64 → Result UInt64
  | [], fees => .ok fees
  | tx :: txs, fees => do
    checkMinable C p chainID height tx
    checkAllMinable chainID height txs (fees + tx.fee)

def coinbaseData (height : UInt64) : Bytes :=
  if height = 1 then str "Memphis" else str s!"block reward + fees (height={height})"

def mineCoinbase {σ : Type} (bc : Blockchain σ) (height fees : UInt64) : Transaction :=
  { type := .coinbase, chainID := bc.chainID, toAddress := bc.minerAddress
    amount := bc.consensus.monetaryPolicy.blockReward height + bc.consensus.monetaryPolicy.minerFeeAmount fees
    data := coinbaseData height }

/-- The time `MineTransfers` gives a block on top of `latest` when the clock reads `now`. -/
def mineTimestamp (latest : Block) (now : Int64) : Int64 :=
  if now ≤ latest.timestampUnix then latest.timestampUnix + 1 else now

/-- The block `MineTransfers` builds, before its proof of work. -/
def mineTemplate {σ : Type} (bc : Blockchain σ) (transfers : List Transaction) (fees : UInt64) (now : Int64) : Block :=
  let latest := bc.blocks.tip
  let height := latest.height + 1
  { version := blockVersionForHeight bc.consensus height, height := height, timestampUnix := mineTimestamp latest now
    prevHash := GoSlice.copy latest.hash.bytes, difficultyBits := nextDifficultyBitsFromPath bc.consensus bc.blocks.1
    minerAddress := bc.minerAddress, transactions := mineCoinbase bc height fees :: transfers }

def Blockchain.extend {σ : Type} (C : Crypto) (bc : Blockchain σ) (b : Block) (state : State) (store : σ) : Blockchain σ :=
  { bc with
    blocks := bc.blocks.snoc b
    state := state
    store := store
    blocksByHash := addToIndex bc.blocksByHash b
    bestTipHash := b.hashHex
    canonicalWork := bc.canonicalWork + workForDifficultyBits b.difficultyBits
    txIndex := indexTxsForBlock C bc.consensus bc.txIndex b
    addressIndex := indexAddressTxsForBlock C bc.consensus bc.addressIndex b }

/-- `MineTransfers` after the proof of work. The state of the node itself keeps the writes when the block or the store fails. -/
def commitMined {σ : Type} (C : Crypto) (S : ChainStore σ) (bc : Blockchain σ) (newBlock : Block) : Result Block × Blockchain σ :=
  match applyBlockToState C bc.consensus bc.state newBlock with
  | (.error e, state) => (.error e, { bc with state := state })
  | (.ok (), state) =>
    match S.appendCanonical bc.store newBlock with
    | (.error e, store) => (.error e, { bc with state := state, store := store })
    | (.ok (), store) => (.ok newBlock, bc.extend C newBlock state store)

/-- `MineTransfers`, with the reading `now` of the clock; `none` when the search for a nonce does not return. -/
def mineTransfers {σ : Type} (C : Crypto) (S : ChainStore σ) (bc : Blockchain σ) (transfers : List Transaction) (now : Int64) :
    Option (Result Block × Blockchain σ) :=
  match checkAllMinable C bc.consensus bc.chainID (bc.blocks.tip.height + 1) transfers 0 with
  | .error e => some (.error e, bc)
  | .ok fees =>
    let newBlock := mineTemplate bc transfers fees now
    match powRun C bc.consensus newBlock with
    | none => none
    | some (.error e) => some (.error e, bc)
    | some (.ok (nonce, hash)) => some (commitMined C S bc { newBlock with nonce := nonce, hash := some hash })

/-! ## The audit -/

/-- The checks of `AuditChain` on the header of block `b` at index `i`, with the reading `now` of the clock then. -/
def auditHeader (p : ConsensusParams) (blocks : List Block) (now : Int64) (i : Nat) (b : Block) : Result Unit :=
  if i = 0 then do
    failIf (b.height ≠ 0 ∨ b.prevHash.bytes.length ≠ 0) "invalid genesis header"
    failIf (b.version ≠ blockVersionForHeight p 0)
      s!"bad block version at {b.height}: expected {blockVersionForHeight p 0} got {b.version}"
  else do
    let prev := blocks.getD (i - 1) default
    failIf (b.height ≠ prev.height + 1) s!"bad height at {b.height}"
    failIf (b.prevHash.bytes ≠ prev.hash.bytes) s!"bad prev hash at {b.height}"
    validateBlockTime p blocks i now
    if p.difficultyEnable then
      let expected := expectedDifficultyBitsForBlockIndex p blocks i
      failIf (b.difficultyBits ≠ expected) s!"bad difficulty at {b.height}: expected {expected} got {b.difficultyBits}"
    failIf (b.version ≠ blockVersionForHeight p b.height)
      s!"bad block version at {b.height}: expected {blockVersionForHeight p b.height} got {b.version}"

def auditTx (height : UInt64) (tx : Transaction) : Result Unit := do
  failIf (tx.chainID = 0) s!"missing chainId at height {height}"
  (tx.verifyForConsensus C p height).wrap s!"invalid tx at height {height}: "

def auditBlock (blocks : List Block) (now : Int64) (i : Nat) (b : Block) : Result Unit := do
  auditHeader p blocks now i b
  failIf (b.difficultyBits = 0 ∨ b.difficultyBits > maxDifficultyBits)
    s!"difficultyBits out of range at {b.height}: {b.difficultyBits}"
  let ok ← powValidate C p b
  failIf (ok = false) s!"invalid pow at height {b.height}"
  b.transactions.forM (auditTx C p b.height)

/-- The loop of `AuditChain` from index `i` on, `clock i` being the reading of the clock there. -/
def auditBlocks (blocks : List Block) (clock : Nat → Int64) : Nat → List Block → Result Unit
  | _, [] => .ok ()
  | i, b :: rest => do
    auditBlock C p blocks (clock i) i b
    auditBlocks blocks clock (i + 1) rest

end

/-- `recomputeState`. The node keeps the map as far as it was computed. -/
def recomputeState {σ : Type} (C : Crypto) (bc : Blockchain σ) : Result Unit × Blockchain σ :=
  let applied := applyBlocks C bc.consensus bc.blocks.1 ∅
  (applied.1, { bc with state := applied.2 })

/-- `AuditChain`. A node always has a block, so that it does not find the chain empty. -/
def auditChain {σ : Type} (C : Crypto) (bc : Blockchain σ) (clock : Nat → Int64) : Result Unit × Blockchain σ :=
  match auditBlocks C bc.consensus bc.blocks.1 clock 0 bc.blocks.1 with
  | .error e => (.error e, bc)
  | .ok () => recomputeState C bc

end NeoCoin
