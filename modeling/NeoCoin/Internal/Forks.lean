import NeoCoin.Forks
import NeoCoin.Internal.Chain
import NeoCoin.Lib.WalkBack

/-!
# Forks in the second implementation

`AddBlock`, `computeCanonicalForTipLocked` and `ProcessOrphans` of `internal/blockchain/forks.go`. The checkpoint and the commitment after
a new tip are made while `AddBlock` holds the lock of the chain.
-/

namespace NeoCoin.Internal

open GoLib

/-! ## The path to a tip -/

/-- The key of the block before a block, if the walk back does not end there. -/
def parentKey (b : Block) : Option Bytes := if b.height = 0 ∨ b.prevHash.bytes.length = 0 then none else some b.prevHashHex

def walkBack (m : GoMap Bytes Block) (tipHashHex : Bytes) : Result Path :=
  match ForkTree.walkBack parentKey m tipHashHex with
  | .error .cycle => .error "cycle detected"
  | .error .missing => .error "missing ancestor"
  | .ok path => .ok path

/-- The checks on block `b` at index `i` of a path, which are those of `blockchain/`. -/
def checkLinkage (p : ConsensusParams) (path : List Block) (clock : Nat → Int64) (i : Nat) (b : Block) : Result Unit :=
  NeoCoin.checkLinkage p (path.map Block.toBlock) clock i b.toBlock

section

variable (C : Crypto) (p : ConsensusParams)

def validatePath (path : List Block) (clock : Nat → Int64) :
    Nat → List Block → State → Nat → Result (State × Nat)
  | _, [], state, work => .ok (state, work)
  | i, b :: rest, state, work => do
    checkLinkage p path clock i b
    let applied := applyBlockToState C p state b
    applied.1
    validatePath path clock (i + 1) rest applied.2 (work + workForDifficultyBits b.difficultyBits)

structure Candidate where
  path : Path
  state : State
  work : Nat

def computeCanonicalForTip (m : GoMap Bytes Block) (clock : Nat → Int64) (tipHashHex : Bytes) :
    Result Candidate := do
  let path ← walkBack m tipHashHex
  let (state, work) ← validatePath C p path.1 clock 0 path.1 ∅ 0
  .ok { path, state, work }

/-! ## Adding a block -/

def checkBlockTx (chainID height : UInt64) (tx : Transaction) : Result Unit := do
  let tx := tx.withChainID chainID
  failIf (tx.chainID ≠ chainID) s!"wrong chainId: {tx.chainID}"
  verifyForConsensus C tx p height

def checkExternal (chainID : UInt64) (b : Block) : Result Unit := do
  failIf (b.height = 0) "external genesis blocks not accepted"
  failIf (b.version ≠ blockVersionForHeight p b.height)
    s!"bad block version at {b.height}: expected {blockVersionForHeight p b.height} got {b.version}"
  failIf (b.hash.bytes.length = 0) "missing block hash"
  failIf (b.difficultyBits = 0) "missing difficultyBits"
  failIf (b.difficultyBits > maxDifficultyBits) s!"difficultyBits out of range: {b.difficultyBits}"
  let ok ← powValidate C p b
  failIf (ok = false) "invalid proof-of-work"
  b.transactions.forM (checkBlockTx C p chainID b.height)

end

structure AddResult (σ : Type) where
  reorg : Bool
  err : Option String
  chain : Blockchain σ

def AddResult.reject {σ : Type} (bc : Blockchain σ) (msg : String) : AddResult σ := { reorg := false, err := some msg, chain := bc }

/-- The chain with a candidate as its canonical chain. The cached balances stay as they are. -/
def Blockchain.adopt {σ : Type} (bc : Blockchain σ) (cand : Candidate) (hashHex : Bytes) : Blockchain σ :=
  { bc with blocks := cand.path, state := cand.state, bestTipHash := hashHex, canonicalWork := cand.work }

section

variable {σ : Type} (C : Crypto) (S : ChainStore σ) (bc : Blockchain σ)

/-- The checkpoint of `AddBlock` after a new tip, whatever comes of it. -/
def addCheckpoint (height : UInt64) : Blockchain σ :=
  if bc.cfg.Pruned ∧ height.toInt64 % bc.cfg.interval = 0 then
    { bc with store := (stateCheckpoint C S bc.cfg bc.store height.toInt64).2 }
  else bc

/-- The end of `AddBlock`, for a block that was put into the store: `bc` has it in `blocksByHash`. The lock is held as `mu` says. -/
def chooseTip (mu : RWMutex) (b : Block) (cand : Candidate) : Option (AddResult σ) :=
  if isBetter cand.work b.hashHex bc.canonicalWork bc.bestTipHash then
    let wasExtension := decide (b.prevHashHex = bc.bestTipHash ∧ b.height = bc.blocks.tip.height + 1)
    let bc := bc.adopt cand b.hashHex
    match S.rewriteCanonical bc.store bc.blocks.1 with
    | (.error e, store) => some { reorg := !wasExtension, err := some e, chain := { bc with store := store } }
    | (.ok (), store) =>
      let bc := addCheckpoint C S { bc with store := store } b.height
      -- a commitment that fails is only logged
      match computeAndStoreCommitment C S bc mu b.height with
      | none => none
      | some (_, bc) => some { reorg := !wasExtension, err := none, chain := bc }
  else some { reorg := false, err := none, chain := bc }

def insertBlock (mu : RWMutex) (b : Block) (clock : Nat → Int64) : Option (AddResult σ) :=
  if b.prevHashHex ∉ bc.blocksByHash then some (.reject { bc with orphanPool := bc.orphanPool.addBlock b } "unknown parent")
  else if b.hashHex ∈ bc.blocksByHash then some (.reject bc "duplicate block")
  else
    let inserted := bc.blocksByHash.set b.hashHex b
    match computeCanonicalForTip C bc.consensus inserted clock b.hashHex with
    | .error e => some (.reject { bc with blocksByHash := inserted.delete b.hashHex } e)
    | .ok cand =>
      match S.putBlock bc.store b with
      | (.error e, store) => some (.reject { bc with blocksByHash := inserted.delete b.hashHex, store := store } e)
      | (.ok (), store) => chooseTip C S { bc with blocksByHash := inserted, store := store } mu b cand

/-- `AddBlock`, called by a goroutine that does not hold the lock; a nil block is `none`. -/
def addBlock (block : Option Block) (clock : Nat → Int64) : Option (AddResult σ) :=
  match block with
  | none => some (.reject bc "nil block")
  | some b =>
    match checkExternal C bc.consensus bc.chainID b with
    | .error e => some (.reject bc e)
    | .ok () =>
      match RWMutex.unlocked.lock with
      | none => none
      | some mu => insertBlock C S bc mu b clock

end

/-! ## Orphans on the tip -/

section

variable {σ : Type} (C : Crypto) (S : ChainStore σ)

/-- The inner loop of `ProcessOrphans`, with the readings of the clock during each `AddBlock`; it is left at the first orphan not added. -/
def addOrphans : List (Block × (Nat → Int64)) → Blockchain σ → Option (Blockchain σ × Nat)
  | [], bc => some (bc, 0)
  | (orphan, clock) :: rest, bc =>
    match addBlock C S bc (some orphan) clock with
    | none => none
    | some r =>
      match r.err with
      | some _ => some (r.chain, 0)
      | none =>
        (addOrphans rest { r.chain with orphanPool := r.chain.orphanPool.removeBlock orphan.hash.bytes }).map fun (bc, processed) =>
          (bc, processed + 1)

/-- The orphans on the tip, with the pool ranged over as `range` says. The hash of the tip is always hexadecimal. -/
def Blockchain.tipOrphans (bc : Blockchain σ) (range : List (Bytes × Block)) : List Block :=
  OrphanPool.getOrphansByParent range ((hexDecode bc.bestTipHash).toOption.getD [])

/-- A round of the outer loop of `ProcessOrphans`, in any order of the pool and with any of the `readings` of the clock. -/
def OrphanRound (readings : (Nat → Int64) → Prop) (bc bc' : Blockchain σ) : Prop :=
  ∃ range calls processed, GoMap.IsRange bc.orphanPool.blocks range ∧ calls.map Prod.fst = bc.tipOrphans range ∧ calls ≠ [] ∧
    (∀ call ∈ calls, readings call.2) ∧ addOrphans C S calls bc = some (bc', processed)

/-- `ProcessOrphans` returns in whatever order: no sequence of rounds is endless, and `LimitSize` returns after each number of them. -/
def ProcessOrphansReturns (readings : (Nat → Int64) → Prop) (bc : Blockchain σ) : Prop :=
  Acc (fun bc₂ bc₁ => OrphanRound C S readings bc₁ bc₂) bc ∧
    ∀ bc', Relation.ReflTransGen (OrphanRound C S readings) bc bc' → bc'.orphanPool.limitSize 100 ≠ none

end

end NeoCoin.Internal
