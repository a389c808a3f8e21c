import NeoCoin.Block

/-!
# The consensus package

`ValidateTimestamp` and `NextDifficultyBits` of `internal/consensus`, which stand alone: nothing calls them with the blocks of a chain.
-/

namespace NeoCoin.Internal.Consensus

open GoLib

structure BlockInfo where
  height : UInt64
  difficultyBits : UInt32
  timestampUnix : Int64

instance : Inhabited BlockInfo := ⟨⟨0, 0, 0⟩⟩

/-- `ValidateTimestamp`, of the time of a header, with the reading `now` of the clock. The mean is taken of a sum that wraps around. -/
def validateTimestamp (timestampUnix : Int64) (chain : List BlockInfo) (p : ConsensusParams) (now : Int64) : Result Unit := do
  failIf (timestampUnix ≤ 0) "invalid timestamp: timestamp must be positive"
  failIf (timestampUnix > now + p.maxTimeDrift)
    s!"timestamp too far in the future: timestamp {timestampUnix} is too far in the future (max drift: {p.maxTimeDrift})"
  match chain.getLast? with
  | none => .ok ()
  | some prevBlock =>
    let windowSize := if p.medianTimePastWindow.toInt > chain.length then chain.length else p.medianTimePastWindow.toInt.toNat
    let window := chain.drop (chain.length - windowSize)
    let mtp := window.foldl (fun mtp b => mtp + b.timestampUnix) 0 / Int64.ofNat windowSize
    failIf (timestampUnix ≤ mtp) s!"timestamp before median time past: timestamp {timestampUnix} <= MTP {mtp}"
    failIf (timestampUnix ≤ prevBlock.timestampUnix) "invalid timestamp: timestamp must be greater than parent timestamp"

/-- The adjustment of `NextDifficultyBits` over a full window: `older` is the block one window before the parent. -/
def retargetBits (p : ConsensusParams) (parent older : BlockInfo) : UInt32 :=
  let actualSpanSec := parent.timestampUnix - older.timestampUnix
  let actualSpanSec := if actualSpanSec ≤ 0 then 1 else actualSpanSec
  let targetSec := p.targetBlockTime / 1000000000
  let targetSec := if targetSec ≤ 0 then 1 else targetSec
  let expectedSpanSec := p.difficultyWindow * targetSec
  let expectedSpanSec := if expectedSpanSec ≤ 0 then 1 else expectedSpanSec
  let actualSpanSec := if actualSpanSec < expectedSpanSec / 4 then expectedSpanSec / 4 else actualSpanSec
  let actualSpanSec := if actualSpanSec > expectedSpanSec * 4 then expectedSpanSec * 4 else actualSpanSec
  let next := Int64.ofNat parent.difficultyBits.toNat
  let next :=
    if actualSpanSec < expectedSpanSec / 2 then next + Int64.ofNat p.difficultyMaxStep.toNat
    else if actualSpanSec > expectedSpanSec * 2 then next - Int64.ofNat p.difficultyMaxStep.toNat
    else next
  let next := if next < 1 then 1 else next
  clampDifficultyBits p next.toUInt64.toUInt32

def nextDifficultyBits (p : ConsensusParams) (blocks : List BlockInfo) : UInt32 :=
  match blocks.getLast? with
  | none => p.genesisDifficultyBits
  | some parent =>
    let parentIdx := blocks.length - 1
    if p.difficultyEnable = false then
      if parent.difficultyBits = 0 then p.genesisDifficultyBits else clampDifficultyBits p parent.difficultyBits
    else if (parentIdx : Int) < p.difficultyWindow.toInt then clampDifficultyBits p parent.difficultyBits
    else retargetBits p parent (blocks.getD (parentIdx - p.difficultyWindow.toInt.toNat) default)

end NeoCoin.Internal.Consensus
