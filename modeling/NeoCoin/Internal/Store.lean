import NeoCoin.BoltStore
import NeoCoin.Internal.Ledger

/-!
# The store of the second implementation

`ChainStore` and `BoltChainStore` of `internal/blockchain/boltstore.go`. The JSON of checkpoints and commitments is left out: the
addresses in a state are ASCII, so that it reads back as it was written.
-/

namespace NeoCoin.Internal

open GoLib

/-- `StateCommitment`, with the fields that are filled in. -/
structure StateCommitment where
  blockHeight : Int64
  blockHash : Bytes
  stateRoot : Bytes
  utxoRoot : Bytes
  txCount : Int64
  timestamp : Int64
  deriving DecidableEq, Repr

structure ChainStore (σ : Type) where
  readCanonical : σ → Result (List Block)
  appendCanonical : σ → Block → Result Unit × σ
  rewriteCanonical : σ → List Block → Result Unit × σ
  putBlock : σ → Block → Result Unit × σ
  readAllBlocks : σ → Result (GoMap Bytes Block)
  getRulesHash : σ → Result (Option Bytes)
  putRulesHash : σ → Bytes → Result Unit × σ
  getGenesisHash : σ → Result (Option Bytes)
  putGenesisHash : σ → Bytes → Result Unit × σ
  pruneBelow : σ → Int64 → Result Unit × σ
  writeCheckpoint : σ → Int64 → State → Result Unit × σ
  readCheckpoint : σ → Int64 → Result State
  getCheckpointHeights : σ → Result (List Int64)
  writeCommitment : σ → StateCommitment → Result Unit × σ
  readCommitment : σ → Int64 → Result StateCommitment

structure Gob (β : Type) where
  encode : Block → β
  decode : β → Result Block
  decode_encode : ∀ b, decode (encode b) = .ok b

/-- The buckets: those of `blockchain/`, and `checkpointsBucket` and `commitmentsBucket`. -/
structure Bolt (β : Type) extends NeoCoin.Bolt β where
  checkpointsB : OrdMap Bytes State
  commitmentsB : OrdMap Bytes StateCommitment
  deriving DecidableEq

namespace Bolt

variable {β : Type}

def empty : Bolt β := { NeoCoin.Bolt.empty with checkpointsB := .empty, commitmentsB := .empty }

variable (st : Bolt β)

/-- `DB.Update`: what the transaction leaves is kept if it does not fail. -/
def update (tx : Bolt β → Result (Bolt β)) : Result Unit × Bolt β :=
  match tx st with
  | .error e => (.error e, st)
  | .ok st' => (.ok (), st')

/-! ## Blocks -/

def putNew (G : Gob β) (st : Bolt β) (b : Block) : Bolt β :=
  match st.blocksB.get b.hash.bytes with
  | some _ => st
  | none => { st with blocksB := st.blocksB.put b.hash.bytes (G.encode b) }

def putBlock (G : Gob β) (st : Bolt β) (b : Block) : Result Unit × Bolt β :=
  if b.hash.bytes.length = 0 then (.error "missing block hash", st) else st.update fun st => .ok (st.putNew G b)

def readAllBlocks (G : Gob β) (st : Bolt β) : Result (GoMap Bytes Block) :=
  st.blocksB.entries.foldlM (fun out e => do
    let blk ← G.decode e.2
    .ok (out.set (hexEncode e.1) blk)) ∅

def readBlock (G : Gob β) (st : Bolt β) (hash : Bytes) : Result Block :=
  match st.blocksB.get hash with
  | none => .error "canonical block missing"
  | some raw => G.decode raw

def readCanonical (G : Gob β) (st : Bolt β) : Result (List Block) := st.canonB.entries.mapM fun e => st.readBlock G e.2

def putCanon (st : Bolt β) (b : Block) : Bolt β := { st with toBolt := st.toBolt.putCanon b.toBlock }

def setTip (st : Bolt β) (hash : Bytes) (height : UInt64) : Bolt β := { st with toBolt := st.toBolt.setTip hash height }

def appendCanonical (G : Gob β) (st : Bolt β) (b : Block) : Result Unit × Bolt β :=
  if b.hash.bytes.length = 0 then (.error "missing block hash", st)
  else st.update fun st => do
    let st := st.putNew G b
    st.toBolt.checkAppend b.toBlock
    .ok ((st.putCanon b).setTip b.hash.bytes b.height)

def rewriteBlock (G : Gob β) (acc : Bolt β × Option (Bytes × UInt64)) (b : Block) : Result (Bolt β × Option (Bytes × UInt64)) := do
  failIf (b.hash.bytes.length = 0) "missing block hash"
  .ok ((acc.1.putNew G b).putCanon b, some (b.hash.bytes, b.height))

def rewriteCanonical (G : Gob β) (st : Bolt β) (blocks : List Block) : Result Unit × Bolt β :=
  st.update fun st => do
    let (st, tip) ← blocks.foldlM (rewriteBlock G) ({ st with toBolt := st.toBolt.clearCanon }, none)
    match tip with
    | none => .ok { st with metaB := (st.metaB.delete metaTipHash).delete metaTipHeight }
    | some (hash, height) => .ok (st.setTip hash height)

/-- The entries of the canonical bucket that `PruneBelow` collects, up to the first one above the height. -/
def toDelete (height : Int64) : List (Bytes × Bytes) → List (Bytes × Bytes)
  | [] => []
  | e :: es =>
    if e.1.length ≠ 8 then toDelete height es
    else
      let h := (UInt64.ofNat (beNat e.1)).toInt64
      if h > height then [] else if h = height then toDelete height es else e :: toDelete height es

def pruneBelow (height : Int64) : Result Unit × Bolt β :=
  st.update fun st => .ok ((toDelete height st.canonB.entries).foldl
    (fun st e => { st with canonB := st.canonB.delete e.1, blocksB := st.blocksB.delete e.2 }) st)

/-! ## Checkpoints and commitments -/

def writeCheckpoint (height : Int64) (state : State) : Result Unit × Bolt β :=
  st.update fun st => .ok { st with checkpointsB := st.checkpointsB.put (u64be height.toUInt64) state }

def readCheckpoint (height : Int64) : Result State :=
  match st.checkpointsB.get (u64be height.toUInt64) with
  | none => .error s!"checkpoint not found at height {height}"
  | some state => .ok state

/-- `GetCheckpointHeights`, which sorts the heights by insertion. -/
def getCheckpointHeights : Result (List Int64) :=
  .ok ((st.checkpointsB.entries.filterMap fun e =>
    if e.1.length = 8 then some (UInt64.ofNat (beNat e.1)).toInt64 else none).insertionSort fun a b => a ≤ b)

def writeCommitment (c : StateCommitment) : Result Unit × Bolt β :=
  st.update fun st => .ok { st with commitmentsB := st.commitmentsB.put (u64be c.blockHeight.toUInt64) c }

def readCommitment (height : Int64) : Result StateCommitment :=
  match st.commitmentsB.get (u64be height.toUInt64) with
  | none => .error s!"commitment not found at height {height}"
  | some c => .ok c

end Bolt

def onMeta {β : Type} (call : NeoCoin.Bolt β → Bytes → Result Unit × NeoCoin.Bolt β) (st : Bolt β) (hash : Bytes) : Result Unit × Bolt β :=
  let r := call st.toBolt hash
  (r.1, { st with toBolt := r.2 })

def boltStore {β : Type} (G : Gob β) : ChainStore (Bolt β) where
  readCanonical := Bolt.readCanonical G
  appendCanonical := Bolt.appendCanonical G
  rewriteCanonical := Bolt.rewriteCanonical G
  putBlock := Bolt.putBlock G
  readAllBlocks := Bolt.readAllBlocks G
  getRulesHash st := st.toBolt.getRulesHash
  putRulesHash := onMeta NeoCoin.Bolt.putRulesHash
  getGenesisHash st := st.toBolt.getGenesisHash
  putGenesisHash := onMeta NeoCoin.Bolt.putGenesisHash
  pruneBelow := Bolt.pruneBelow
  writeCheckpoint := Bolt.writeCheckpoint
  readCheckpoint := Bolt.readCheckpoint
  getCheckpointHeights := Bolt.getCheckpointHeights
  writeCommitment := Bolt.writeCommitment
  readCommitment := Bolt.readCommitment

end NeoCoin.Internal
