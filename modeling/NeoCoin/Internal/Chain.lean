import Mathlib.Data.Finset.Sort
import Mathlib.Data.Nat.Log
import NeoCoin.Internal.Block
import NeoCoin.Internal.Orphans
import NeoCoin.Internal.Store
import NeoCoin.Lib.Lru

/-!
# The chain of the second implementation

`Blockchain` of `internal/blockchain/chain.go`, with the checkpoints of `pruner.go`, the commitments of `state_commitment.go` and the
account locks of `accounts.go`. A call that does not return, because a search does not end or because it waits for a lock that it holds
itself, is `none`.
-/

namespace NeoCoin.Internal

open GoLib

/-! ## Data -/

instance : Inhabited Block := ⟨{}⟩

/-- `config.Config`: what the chain reads of it. -/
structure Config where
  storeMode : Bytes := str "pruned"
  checkpointInterval : Int64 := 100
  cacheMaxBalances : Int64 := 100000
  deriving DecidableEq, Repr

/-- `cfg.StoreMode == "pruned"`. -/
def Config.Pruned (cfg : Config) : Prop := cfg.storeMode = str "pruned"

instance (cfg : Config) : Decidable cfg.Pruned := inferInstanceAs (Decidable (_ = _))

def Config.interval (cfg : Config) : Int64 := if cfg.checkpointInterval = 0 then 100 else cfg.checkpointInterval

abbrev Path := { l : List Block // l ≠ [] }

def Path.tip (path : Path) : Block := path.1.getLast path.2

def Path.snoc (path : Path) (b : Block) : Path := ⟨path.1 ++ [b], by simp⟩

structure Blockchain (σ : Type) where
  chainID : UInt64
  minerAddress : Bytes
  consensus : ConsensusParams
  blocks : Path
  state : State
  store : σ
  blocksByHash : GoMap Bytes Block
  bestTipHash : Bytes
  canonicalWork : Nat
  balances : Lru Bytes Int64
  orphanPool : OrphanPool
  cfg : Config
  deriving DecidableEq

def addToIndex (m : GoMap Bytes Block) (b : Block) : GoMap Bytes Block :=
  if b.hash.bytes.length = 0 then m else m.set b.hashHex b

def pathWork (blocks : List Block) : Nat := (blocks.map fun b => workForDifficultyBits b.difficultyBits).sum

/-! ## Locks -/

/-- `sync.RWMutex`, as the goroutine that makes the call holds it. -/
inductive RWMutex where
  | unlocked
  | rLocked
  | locked
  deriving DecidableEq, Repr

/-- `Lock`: who holds the lock already waits for ever. -/
def RWMutex.lock : RWMutex → Option RWMutex
  | .unlocked => some .locked
  | .rLocked => none
  | .locked => none

def RWMutex.rLock : RWMutex → Option RWMutex
  | .unlocked => some .rLocked
  | .rLocked => none
  | .locked => none

def fnvHash (s : Bytes) : UInt32 := s.foldl (fun h b => (h ^^^ b.toUInt32) * 16777619) 2166136261

/-- `hashToShard`, with the mask of the 256 shards of `NewAccountManager(256)`. -/
def hashToShard (addr : Bytes) : UInt64 := (fnvHash addr).toUInt64 &&& 255

/-- The loop of `lockAccountsForBlock` over shards, with those it holds. -/
def lockShards : List UInt64 → List UInt64 → Option (List UInt64)
  | held, [] => some held
  | held, shard :: shards => if shard ∈ held then none else lockShards (shard :: held) shards

section

variable (C : Crypto)

/-- `collectAccountsForBlock`, in the order in which the block names the accounts. -/
def collectAccountsForBlock (b : Block) : List Bytes :=
  (b.transactions.flatMap fun tx =>
    match fromAddress C tx with
    | .ok fromAddr => [tx.toAddress, fromAddr]
    | .error _ => [tx.toAddress]).dedup

def lockAccountsForBlock (b : Block) : Option (List UInt64) :=
  lockShards [] ((collectAccountsForBlock C b).map hashToShard)

/-! ## Balances -/

section

variable {σ : Type}

/-- `Balance`. What is cached is a balance without a nonce. -/
def Blockchain.balance (bc : Blockchain σ) (address : Bytes) : (Account × Bool) × Blockchain σ :=
  match bc.balances.get address with
  | (some bal, balances) => (({ balance := bal.toUInt64 }, true), { bc with balances := balances })
  | (none, balances) =>
    match bc.state.lookup address with
    | some acct => ((acct, true), { bc with balances := balances.set address acct.balance.toInt64 })
    | none => ((default, false), { bc with balances := balances })

/-- `CacheBalance` of the balance of an address, if it has an account. -/
def cacheAccount (state : State) (balances : Lru Bytes Int64) (address : Bytes) : Lru Bytes Int64 :=
  match state.lookup address with
  | some acct => balances.set address acct.balance.toInt64
  | none => balances

/-- One round of the loop of `mineOneBlock` that caches balances. The address of a sender without one is empty. -/
def cacheTx (state : State) (balances : Lru Bytes Int64) (tx : Transaction) : Lru Bytes Int64 :=
  if tx.type = .transfer then
    cacheAccount state (cacheAccount state balances ((fromAddress C tx).toOption.getD [])) tx.toAddress
  else balances

/-! ## Commitments to the state -/

def hashAccountState (addr : Bytes) (acct : Account) : Bytes :=
  C.sha256 (addr ++ leBytes 8 acct.balance.toNat ++ leBytes 8 acct.nonce.toNat)

def merkleLevel : List Bytes → List Bytes
  | a :: b :: rest => C.sha256 (a ++ b) :: merkleLevel rest
  | rest => rest

def merkleLevels : Nat → List Bytes → List Bytes
  | 0, level => level
  | n + 1, level => merkleLevels n (merkleLevel C level)

/-- `computeMerkleRoot`: the leaves are filled up to a power of two. -/
def computeMerkleRoot (leaves : List Bytes) : Bytes :=
  match leaves with
  | [] => C.sha256 []
  | [leaf] => leaf
  | leaves =>
    let n := Nat.clog 2 leaves.length
    let padded := leaves ++ List.replicate (2 ^ n - leaves.length) (C.sha256 (str "empty"))
    (merkleLevels C n padded).headD []

def computeStateRoot (state : State) : Bytes :=
  let leaves := (state.keys.sort fun a b => a ≤ b).map fun addr => hashAccountState C addr (state.get addr)
  if leaves = [] then C.sha256 [] else computeMerkleRoot C leaves

/-- `computeStateRoot` where the loop over the state meets the addresses in the order given. -/
def computeStateRootOver (state : State) (addrs : List Bytes) : Bytes :=
  let leaves := (addrs.insertionSort fun a b => a ≤ b).map fun addr => hashAccountState C addr (state.get addr)
  if leaves = [] then C.sha256 [] else computeMerkleRoot C leaves

def computeUTXORoot (state : State) : Bytes := computeStateRoot C state

def shouldCommit (height : UInt64) : Prop := height = 1 ∨ height % 100 = 0

instance (height : UInt64) : Decidable (shouldCommit height) := inferInstanceAs (Decidable (_ ∨ _))

/-- `ComputeStateCommitment`, called with the lock held as `mu` says. -/
def computeStateCommitment (C : Crypto) (bc : Blockchain σ) (mu : RWMutex) (height : Int64) : Option (Result StateCommitment) :=
  match mu.rLock with
  | none => none
  | some _ => some do
    failIf (height ≥ Int64.ofNat bc.blocks.1.length) s!"height {height} beyond chain length {bc.blocks.1.length}"
    let block := bc.blocks.1.getD height.toInt.toNat default
    .ok { blockHeight := height, blockHash := block.hashHex, stateRoot := computeStateRoot C bc.state
          utxoRoot := computeUTXORoot C bc.state, txCount := Int64.ofNat block.transactions.length, timestamp := block.timestampUnix }

/-- `VerifyStateCommitment`, called with the lock held as `mu` says. It is the state of now that is compared. -/
def verifyStateCommitment (C : Crypto) (bc : Blockchain σ) (mu : RWMutex) (height : Int64) (commitment : StateCommitment) :
    Option (Result Bool) :=
  match computeStateCommitment C bc mu height with
  | none => none
  | some r => some do
    let computed ← r
    .ok (decide (computed.stateRoot = commitment.stateRoot))

def loadCommitment (S : ChainStore σ) (bc : Blockchain σ) (height : Int64) : Result StateCommitment :=
  S.readCommitment bc.store height

def Block.withRoots (b : Block) (c : StateCommitment) : Block := { b with stateRoot := some c.stateRoot, utxoRoot := some c.utxoRoot }

/-- The end of `ComputeAndStoreCommitment`: the canonical block at a height gets its roots, in the tree as well. -/
def Blockchain.setRoots (bc : Blockchain σ) (height : UInt64) (c : StateCommitment) : Blockchain σ :=
  match bc.blocks.1[height.toNat]? with
  | none => bc
  | some b =>
    { bc with
      blocks := ⟨bc.blocks.1.set height.toNat (b.withRoots c), by simpa using bc.blocks.2⟩
      blocksByHash := if b.hashHex ∈ bc.blocksByHash then bc.blocksByHash.set b.hashHex (b.withRoots c) else bc.blocksByHash }

/-- `ComputeAndStoreCommitment`, called with the lock held as `mu` says. -/
def computeAndStoreCommitment (C : Crypto) (S : ChainStore σ) (bc : Blockchain σ) (mu : RWMutex) (height : UInt64) :
    Option (Result Unit × Blockchain σ) :=
  if ¬shouldCommit height then some (.ok (), bc)
  else
    match computeStateCommitment C bc mu height.toInt64 with
    | none => none
    | some (.error e) => some (.error s!"compute commitment: {e}", bc)
    | some (.ok c) =>
      match S.writeCommitment bc.store c with
      | (.error e, store) => some (.error s!"store commitment: {e}", { bc with store := store })
      | (.ok (), store) =>
        match mu.lock with
        | none => none
        | some _ => some (.ok (), { bc with store := store }.setRoots height c)

/-! ## Checkpoints -/

/-- One round of the loop of `applyBlockToStateFromPruner`. A transfer that cannot be paid is passed over, and no nonce is counted. -/
def applyTxFromPruner (state : State) (tx : Transaction) : State :=
  match tx.type with
  | .coinbase => state.credit tx.toAddress tx.amount
  | .transfer =>
    match fromAddress C tx with
    | .error _ => state
    | .ok fromAddr =>
      let sender := state.get fromAddr
      let totalDebit := tx.amount + tx.fee
      if sender.balance < totalDebit then state
      else State.credit (state.set fromAddr { sender with balance := sender.balance - totalDebit }) tx.toAddress tx.amount
  | .other _ => state

def applyBlockToStateFromPruner (state : State) (b : Block) : State := b.transactions.foldl (applyTxFromPruner C) state

/-- `Pruner.StateCheckpoint`, on a store that has no `GetState`, as no store has: its error, and the stored data after it. -/
def stateCheckpoint (C : Crypto) (S : ChainStore σ) (cfg : Config) (st : σ) (height : Int64) : Result Unit × σ :=
  if height % cfg.interval ≠ 0 then (.ok (), st)
  else
    match S.readCanonical st with
    | .error e => (.error s!"read canonical: {e}", st)
    | .ok canonical =>
      let upTo := canonical.takeWhile fun b => decide (b.height.toInt64 ≤ height)
      match S.writeCheckpoint st height (upTo.foldl (applyBlockToStateFromPruner C) ∅) with
      | (.error e, st) => (.error s!"write checkpoint: {e}", st)
      | (.ok (), st) => (.ok (), st)

/-! ## Replay -/

/-- `applyBlockToState` over blocks from first to last, as far as it gets, with the error of the block it fails at. -/
def replay (p : ConsensusParams) : List Block → State → Result Unit × State
  | [], state => (.ok (), state)
  | b :: blocks, state =>
    match applyBlockToState C p state b with
    | (.error e, state) => (.error s!"apply block {b.height}: {e}", state)
    | (.ok (), state) => replay p blocks state

/-- The part of `recomputeStateLocked` with a latest checkpoint. -/
def recomputeFrom (C : Crypto) (S : ChainStore σ) (p : ConsensusParams) (blocks : Path) (st : σ) (latestCheckpoint : Int64) :
    Result Unit × State :=
  let onChain := blocks.1.any fun b => b.height.toInt64 = latestCheckpoint
  let replayFrom := if onChain then latestCheckpoint + 1 else 0
  let replayFrom := if replayFrom = 0 then (blocks.1.head blocks.2).height.toInt64 else replayFrom
  let state := if replayFrom > 0 ∧ onChain then (S.readCheckpoint st latestCheckpoint).toOption.getD ∅ else ∅
  replay C p (blocks.1.filter fun b => b.height.toInt64 ≥ replayFrom) state

/-- `recomputeStateLocked`: its error, and the map as far as it was computed. -/
def recomputeStateLocked (C : Crypto) (S : ChainStore σ) (cfg : Config) (p : ConsensusParams) (blocks : Path) (st : σ) :
    Result Unit × State :=
  if cfg.Pruned then
    match (S.getCheckpointHeights st).toOption.bind List.getLast? with
    | some latestCheckpoint => recomputeFrom C S p blocks st latestCheckpoint
    | none => replay C p blocks.1 ∅
  else replay C p blocks.1 ∅

/-! ## Loading -/

def checkRulesHash (C : Crypto) (S : ChainStore σ) (p : ConsensusParams) (ignoreRulesHash : Bool) (st : σ) : Result σ := do
  let cur := p.rulesHash C
  match ← S.getRulesHash st with
  | some stored =>
    failIf (stored.length ≠ 32) s!"invalid stored rules hash length: {stored.length}"
    failIf (stored ≠ cur ∧ ignoreRulesHash = false)
      s!"consensus params mismatch: stored rulesHash={text (hexEncode stored)} current rulesHash={text (hexEncode cur)} (set IGNORE_RULES_HASH_CHECK=true to bypass, or delete data/ to reinit)"
    .ok st
  | none =>
    (S.putRulesHash st cur).1
    .ok (S.putRulesHash st cur).2

def loadGenesis (C : Crypto) (S : ChainStore σ) (cfg : GenesisConfig) (blocks : List Block) (st : σ) : Option (Result (Path × σ)) :=
  match blocks with
  | [] =>
    match buildGenesisBlock C cfg cfg.consensusParams with
    | none => none
    | some built => some do
      let genesis ← built
      (S.appendCanonical st genesis).1
      let st := (S.appendCanonical st genesis).2
      .ok (⟨[genesis], List.cons_ne_nil genesis []⟩, (S.putBlock st genesis).2)
  | first :: rest => some do
    let first ← validateGenesisBlock C first cfg cfg.consensusParams
    .ok (⟨first :: rest, List.cons_ne_nil first rest⟩, st)

def checkGenesisHash (S : ChainStore σ) (genesisHash : Bytes) (st : σ) : Result σ := do
  match ← S.getGenesisHash st with
  | some stored =>
    failIf (stored ≠ genesisHash)
      s!"genesis hash mismatch: stored={text (hexEncode stored)} current={text (hexEncode genesisHash)}"
    .ok st
  | none =>
    (S.putGenesisHash st genesisHash).1
    .ok (S.putGenesisHash st genesisHash).2

/-- The number of balances `LoadBlockchain` has room for in the cache. -/
def Config.maxBalances (cfg : Config) : Nat := if cfg.cacheMaxBalances > 0 then cfg.cacheMaxBalances.toInt.toNat else 100000

theorem Config.maxBalances_pos (cfg : Config) : 0 < cfg.maxBalances := by
  unfold Config.maxBalances
  split
  · rename_i hpos
    have htoInt := Int64.lt_iff_toInt_lt.mp hpos
    rw [show (0 : Int64).toInt = 0 from rfl] at htoInt
    omega
  · decide

def initChain (C : Crypto) (S : ChainStore σ) (genesis : GenesisConfig) (cfg : Config) (minerAddress : Bytes) (blocks : Path)
    (all : GoMap Bytes Block) (st : σ) : Result (Blockchain σ) := do
  let recomputed := recomputeStateLocked C S cfg genesis.consensusParams blocks st
  recomputed.1
  .ok { chainID := genesis.chainID, minerAddress, consensus := genesis.consensusParams, blocks, state := recomputed.2, store := st
        blocksByHash := blocks.1.foldl addToIndex all, bestTipHash := blocks.tip.hashHex, canonicalWork := pathWork blocks.1
        balances := Lru.empty cfg.maxBalances cfg.maxBalances_pos, orphanPool := newOrphanPool 100, cfg }

def loadBlockchain (C : Crypto) (S : ChainStore σ) (chainID : UInt64) (minerAddress : Bytes) (raw : GenesisConfigJSON)
    (cfg : Config) (ignoreRulesHash : Bool) (st : σ) : Option (Result (Blockchain σ)) :=
  let before : Result (GenesisConfig × List Block × GoMap Bytes Block × σ) := do
    let genesis ← loadGenesisConfig C raw
    failIf (chainID ≠ 0 ∧ genesis.chainID ≠ chainID) s!"genesis chainId mismatch: env={chainID} genesis={genesis.chainID}"
    checkMinerAddress minerAddress
    let blocks ← S.readCanonical st
    let all ← S.readAllBlocks st
    let st ← checkRulesHash C S genesis.consensusParams ignoreRulesHash st
    .ok (genesis, blocks, all, st)
  match before with
  | .error e => some (.error e)
  | .ok (genesis, blocks, all, st) =>
    match loadGenesis C S genesis blocks st with
    | none => none
    | some loaded => some do
      let (path, st) ← loaded
      let (genesisHash, first) ← ensureBlockHash C (path.1.head path.2) genesis.consensusParams
      let st ← checkGenesisHash S genesisHash st
      initChain C S genesis cfg minerAddress ⟨first :: path.1.tail, List.cons_ne_nil first _⟩ all st

end

/-! ## Mining -/

/-- The checks `mineOneBlock` makes of one transfer. The chain id is filled in on a copy: the block gets the transfer as it came. -/
def checkMinable (p : ConsensusParams) (chainID height : UInt64) (tx : Transaction) : Result Unit := do
  failIf (tx.type ≠ .transfer) "only transfer txs can be mined"
  let tx := tx.withChainID chainID
  failIf (tx.chainID ≠ chainID) s!"wrong chainId: {tx.chainID}"
  verifyForConsensus C tx p height
  failIf (tx.fee < minFee) s!"fee too low: minFee={minFee}"

/-- The first loop of `mineOneBlock`: the fees of the transfers, if all pass. -/
def checkAllMinable (p : ConsensusParams) (chainID height : UInt64) : List Transaction → UInt64 → Result UInt64
  | [], fees => .ok fees
  | tx :: txs, fees => do
    checkMinable C p chainID height tx
    checkAllMinable p chainID height txs (fees + tx.fee)

end

variable {σ : Type}

def mineCoinbase (bc : Blockchain σ) (height fees : UInt64) : Transaction :=
  { type := .coinbase, chainID := bc.chainID, toAddress := bc.minerAddress
    amount := blockReward bc.consensus.monetaryPolicy height + bc.consensus.monetaryPolicy.minerFeeAmount fees
    data := str s!"block reward + fees (height={height})" }

/-- The block `mineOneBlock` builds in its first critical section, before its proof of work. -/
def mineTemplate (bc : Blockchain σ) (transfers : List Transaction) (fees : UInt64) (now : Int64) : Block :=
  let latest := bc.blocks.tip
  let height := latest.height + 1
  { version := blockVersionForHeight bc.consensus height, height := height, timestampUnix := mineTimestamp latest.toBlock now
    prevHash := GoSlice.copy latest.hash.bytes
    difficultyBits := nextDifficultyBitsFromPath bc.consensus (bc.blocks.1.map Block.toBlock), minerAddress := bc.minerAddress
    transactions := mineCoinbase bc height fees :: transfers }

def Blockchain.extend (C : Crypto) (bc : Blockchain σ) (b : Block) (state : State) (store : σ) : Blockchain σ :=
  { bc with
    blocks := bc.blocks.snoc b
    state := state
    store := store
    blocksByHash := addToIndex bc.blocksByHash b
    bestTipHash := b.hashHex
    canonicalWork := bc.canonicalWork + workForDifficultyBits b.difficultyBits
    balances := b.transactions.foldl (cacheTx C state) bc.balances }

variable (C : Crypto) (S : ChainStore σ)

/-- The second critical section of `mineOneBlock`. The state of the node itself keeps the writes when the block or the store fails. -/
def mineAppend (bc : Blockchain σ) (newBlock : Block) : Option (Result Bool × Blockchain σ) :=
  if bc.blocks.tip.height ≥ newBlock.height then some (.ok false, bc)
  else if bc.blocks.tip.hash.bytes ≠ newBlock.prevHash.bytes then some (.ok false, bc)
  else
    match lockAccountsForBlock C newBlock with
    | none => none
    | some _ =>
      match applyBlockToState C bc.consensus bc.state newBlock with
      | (.error e, state) => some (.error e, { bc with state := state })
      | (.ok (), state) =>
        match S.appendCanonical bc.store newBlock with
        | (.error e, store) => some (.error e, { bc with state := state, store := store })
        | (.ok (), store) => some (.ok true, bc.extend C newBlock state store)

/-- The end of `mineOneBlock`, after a block was appended: a checkpoint if one is due, whatever comes of it. -/
def mineCheckpoint (bc : Blockchain σ) (height : UInt64) : Blockchain σ :=
  let pruneInterval := if bc.cfg.Pruned then bc.cfg.interval else 0
  if pruneInterval > 0 ∧ height.toInt64 % pruneInterval = 0 then
    { bc with store := (stateCheckpoint C S bc.cfg bc.store height.toInt64).2 }
  else bc

/-- `mineOneBlock`, with the reading `now` of the clock. It returns no block when the tip is another one by the time it has a nonce. -/
def mineOneBlock (bc : Blockchain σ) (transfers : List Transaction) (now : Int64) : Option (Result (Option Block) × Blockchain σ) :=
  match checkAllMinable C bc.consensus bc.chainID (bc.blocks.tip.height + 1) transfers 0 with
  | .error e => some (.error e, bc)
  | .ok fees =>
    let newBlock := mineTemplate bc transfers fees now
    match powRun C bc.consensus newBlock with
    | none => none
    | some (.error e) => some (.error e, bc)
    | some (.ok (nonce, hash)) =>
      match mineAppend C S bc { newBlock with nonce := nonce, hash := some hash } with
      | none => none
      | some (.error e, bc) => some (.error e, bc)
      | some (.ok false, bc) => some (.ok none, bc)
      | some (.ok true, bc) =>
        -- a commitment that fails is only logged
        match computeAndStoreCommitment C S (mineCheckpoint C S bc newBlock.height) .unlocked newBlock.height with
        | none => none
        | some (_, bc) => some (.ok (some bc.blocks.tip), bc)

/-- The loop of `MineTransfers`, with the attempts that are left and the number of the next one. -/
def mineTransfersLoop (transfers : List Transaction) (clock : Nat → Int64) :
    Nat → Nat → Blockchain σ → Option (Result Block × Blockchain σ)
  | 0, _, bc => some (.error "mining failed after 100 retries", bc)
  | n + 1, attempt, bc =>
    match mineOneBlock C S bc transfers (clock attempt) with
    | none => none
    | some (.error e, bc) => some (.error e, bc)
    | some (.ok (some b), bc) => some (.ok b, bc)
    | some (.ok none, bc) => mineTransfersLoop transfers clock n (attempt + 1) bc

/-- `MineTransfers`, with the readings of the clock in its attempts. -/
def mineTransfers (bc : Blockchain σ) (transfers : List Transaction) (clock : Nat → Int64) : Option (Result Block × Blockchain σ) :=
  mineTransfersLoop C S transfers clock 100 0 bc

end NeoCoin.Internal
