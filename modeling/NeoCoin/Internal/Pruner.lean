import NeoCoin.Internal.Store

/-!
# The pruner of the second implementation

`Pruner` of `internal/blockchain/pruner.go`: when it prunes, and down to which height. Its checkpoints are in `NeoCoin.Internal.Chain`.
-/

namespace NeoCoin.Internal

open GoLib

/-- `Pruner`, without its store. -/
structure Pruner where
  pruneDepth : Int64
  lastPrune : Int64 := 0
  checkpointInterval : Int64
  deriving DecidableEq, Repr

/-- `NewPruner`, with the two fields of `config.Config` that it reads. -/
def newPruner (cfgPruneDepth cfgCheckpointInterval : Int64) : Pruner :=
  { pruneDepth := if cfgPruneDepth = 0 then 1000 else cfgPruneDepth
    checkpointInterval := if cfgCheckpointInterval = 0 then 100 else cfgCheckpointInterval }

/-- `getCurrentHeight`: without a checkpoint the height is zero, whatever blocks there are. -/
def getCurrentHeight {σ : Type} (S : ChainStore σ) (st : σ) : Result Int64 := do
  let heights ← S.getCheckpointHeights st
  match heights.getLast? with
  | none => .ok 0
  | some maxH =>
    match S.readCanonical st with
    | .error _ => .ok maxH
    | .ok canonical =>
      match canonical.getLast? with
      | none => .ok maxH
      | some b => .ok (if b.height.toInt64 > maxH then b.height.toInt64 else maxH)

namespace Pruner

variable {σ : Type} (p : Pruner) (S : ChainStore σ) (st : σ)

def shouldPrune : Bool :=
  match getCurrentHeight S st with
  | .error _ => false
  | .ok currentHeight => decide (currentHeight > p.pruneDepth ∧ currentHeight - p.lastPrune ≥ p.pruneDepth)

/-- `PruneToHeight`: its error, the pruner and the stored data after it. -/
def pruneToHeight (height : Int64) : Result Unit × Pruner × σ :=
  match S.pruneBelow st height with
  | (.error e, st) => (.error s!"prune below: {e}", p, st)
  | (.ok (), st) => (.ok (), { p with lastPrune := height }, st)

/-- The loop of `AutoPrune` over the checkpoints: the last one below a height, or zero. -/
def nearestCheckpoint (pruneTo : Int64) (checkpoints : List Int64) : Int64 :=
  checkpoints.foldl (fun nearest h => if h < pruneTo then h else nearest) 0

def pruneTo (p : Pruner) (checkpoints : List Int64) (currentHeight : Int64) : Int64 :=
  let pruneTo := currentHeight - p.pruneDepth
  let nearest := nearestCheckpoint pruneTo checkpoints
  if nearest > 0 ∧ nearest ≥ p.pruneDepth then nearest else pruneTo

/-- `AutoPrune`: its error, the pruner and the stored data after it. -/
def autoPrune : Result Unit × Pruner × σ :=
  if p.shouldPrune S st = false then (.ok (), p, st)
  else
    match S.readCanonical st with
    | .error e => (.error e, p, st)
    | .ok canonical =>
      match canonical.getLast? with
      | none => (.ok (), p, st)
      | some last =>
        match S.getCheckpointHeights st with
        | .error e => (.error e, p, st)
        | .ok checkpoints => p.pruneToHeight S st (p.pruneTo checkpoints last.height.toInt64)

end Pruner

end NeoCoin.Internal
