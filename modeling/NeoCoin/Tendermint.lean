import Mathlib.Data.UInt
import NeoCoin.Lib.Bytes
import NeoCoin.Lib.GoMap
import NeoCoin.Lib.Machine
import NeoCoin.Lib.SortSlice

/-!
# Votes

`Tendermint` of `blockchain/tendermint.go`. A vote is counted by heads; the quorum it is compared with is two thirds of the power, rounded
down. The map is visited in any order, and equal stakes are sorted in any.
-/

namespace NeoCoin

open GoLib

structure TMValidator where
  address : Bytes
  stake : UInt64
  power : UInt64
  online : Bool
  jailed : Bool
  deriving DecidableEq

def TMValidator.active (v : TMValidator) : Bool := v.online && !v.jailed

/-- `Tendermint`, with the height and the round of its state. -/
structure Tendermint where
  vals : GoMap Bytes TMValidator
  height : UInt64 := 1
  round : UInt64 := 0
  votes : GoMap UInt64 (GoMap UInt64 (GoMap Bytes Bytes)) := ∅

namespace Tendermint

variable (t : Tendermint)

def totalPower : UInt64 := GoMap.sumBy (fun v => if v.active then v.power else 0) t.vals

def quorum : UInt64 := if t.totalPower = 0 then 0 else t.totalPower * 2 / 3

/-- `t.votes[height][round]`. -/
def ballots (height round : UInt64) : GoMap Bytes Bytes := (((t.votes.lookup height).getD ∅).lookup round).getD ∅

def countVotes (height round : UInt64) (blockHash : Bytes) : Nat :=
  ((t.ballots height round).keys.filter fun addr => (t.ballots height round).lookup addr = some blockHash).card

/-- The state with a vote for the height and the round of the moment. -/
def record (addr blockHash : Bytes) : Tendermint :=
  { t with
    votes := t.votes.set t.height
      (((t.votes.lookup t.height).getD ∅).set t.round ((t.ballots t.height t.round).set addr blockHash)) }

def vote (addr blockHash : Bytes) : Bool × Tendermint :=
  match t.vals.lookup addr with
  | none => (false, t)
  | some v =>
    if !v.online || v.jailed then (false, t)
    else
      let t := t.record addr blockHash
      (decide ((t.countVotes t.height t.round blockHash : Int) ≥ t.quorum.toInt64.toInt), t)

def SortedVals (list : List TMValidator) : Prop :=
  ∃ range, GoMap.IsRange t.vals range ∧
    SortSlice (fun v w : TMValidator => v.stake > w.stake) ((range.map Prod.snd).filter TMValidator.active) list

/-- `GetProposer`, from the list of `sortedVals` on. The remainder has the sign of the sum as an `int`. -/
def proposerOf (list : List TMValidator) (height round : UInt64) : Machine.Exit Bytes :=
  if list.length = 0 then .returned []
  else
    let i := (height + round).toInt64.toInt.tmod list.length
    match if i < 0 then none else list[i.toNat]? with
    | none => .panicked s!"runtime error: index out of range [{i}]"
    | some v => .returned v.address

def GetProposer (height round : UInt64) (exit : Machine.Exit Bytes) : Prop :=
  ∃ list, t.SortedVals list ∧ exit = proposerOf list height round

end Tendermint

end NeoCoin
