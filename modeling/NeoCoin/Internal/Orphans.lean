import NeoCoin.Chain
import NeoCoin.Internal.Ledger

/-!
# Blocks without a parent

`orphanPool` of `internal/blockchain/orphans.go`. The times at which the blocks came are left out: only the statistics read them.
-/

namespace NeoCoin.Internal

open GoLib

/-- `orphanPool`. The hashes are listed with the latest first. -/
structure OrphanPool where
  blocks : GoMap Bytes Block
  heightList : List Bytes
  maxOrphans : Nat
  deriving DecidableEq

def newOrphanPool (maxOrphans : Int64) : OrphanPool :=
  { blocks := ∅, heightList := [], maxOrphans := if maxOrphans ≤ 0 then 100 else maxOrphans.toInt.toNat }

/-- `removeOldestLocked`. -/
def OrphanPool.removeOldest (op : OrphanPool) : OrphanPool :=
  match op.heightList.getLast? with
  | none => op
  | some hashHex => { op with blocks := op.blocks.delete hashHex, heightList := op.heightList.dropLast }

def OrphanPool.addBlock (op : OrphanPool) (b : Block) : OrphanPool :=
  if b.hashHex ∈ op.blocks then op
  else
    let op := if op.blocks.keys.card ≥ op.maxOrphans then op.removeOldest else op
    { op with blocks := op.blocks.set b.hashHex b, heightList := b.hashHex :: op.heightList }

/-- `GetOrphansByParent`, with the blocks in the order in which the pool is ranged over. -/
def OrphanPool.getOrphansByParent (range : List (Bytes × Block)) (prevHash : Bytes) : List Block :=
  (range.map Prod.snd).filter fun b => b.prevHashHex = hexEncode prevHash

/-- `RemoveBlock`. The hash stays in the list. -/
def OrphanPool.removeBlock (op : OrphanPool) (hash : Bytes) : OrphanPool := { op with blocks := op.blocks.delete (hexEncode hash) }

/-- The loop of `LimitSize`, with `n` hashes in the list. Once the list is empty the loop changes nothing, and then it never ends. -/
def OrphanPool.limitLoop (maxOrphans : Int64) : Nat → OrphanPool → Option OrphanPool
  | 0, op => if (op.blocks.keys.card : Int) > maxOrphans.toInt then none else some op
  | n + 1, op => if (op.blocks.keys.card : Int) > maxOrphans.toInt then limitLoop maxOrphans n op.removeOldest else some op

def OrphanPool.limitSize (op : OrphanPool) (maxOrphans : Int64) : Option OrphanPool := op.limitLoop maxOrphans op.heightList.length

/-- `RemoveBlocksBelowHeight`; `range` is over the blocks. As in `RemoveBlock`, the hashes stay in the list. -/
def OrphanPool.removeBlocksBelowHeight (op : OrphanPool) (range : List (Bytes × Block)) (height : UInt64) : OrphanPool :=
  let toRemove := (range.filter fun e => e.2.height < height).map Prod.fst
  { op with blocks := toRemove.foldl (fun blocks hashHex => blocks.delete hashHex) op.blocks }

def OrphanPool.size (op : OrphanPool) : Nat := op.blocks.keys.card

inductive OrphanCall where
  | addBlock (b : Block)
  | removeBlock (hash : Bytes)
  | removeBlocksBelowHeight (height : UInt64)
  | limitSize (maxOrphans : Int64)
  deriving DecidableEq, Repr

inductive OrphanPool.Calls (op : OrphanPool) : OrphanCall → OrphanPool → Prop where
  | addBlock (b : Block) : Calls op (.addBlock b) (op.addBlock b)
  | removeBlock (hash : Bytes) : Calls op (.removeBlock hash) (op.removeBlock hash)
  | removeBlocksBelowHeight {range : List (Bytes × Block)} (height : UInt64) (hrange : op.blocks.IsRange range) :
      Calls op (.removeBlocksBelowHeight height) (op.removeBlocksBelowHeight range height)
  | limitSize {maxOrphans : Int64} {op' : OrphanPool} (hlimit : op.limitSize maxOrphans = some op') :
      Calls op (.limitSize maxOrphans) op'

end NeoCoin.Internal
