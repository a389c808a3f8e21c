import NeoCoin.Chain

/-!
# Queries about transactions

`TxByID` of `blockchain/chain.go`, which reads the index of the transfers.
-/

namespace NeoCoin

open GoLib

/-- `TxByID`. The index in a location is a natural number here, so that it is not compared with 0. -/
def Blockchain.txByID {σ : Type} (bc : Blockchain σ) (txid : Bytes) : Option (Transaction × TxLocation) :=
  match bc.txIndex.lookup txid with
  | none => none
  | some loc =>
    if loc.height ≥ UInt64.ofNat bc.blocks.1.length then none
    else
      let b := bc.blocks.1.getD loc.height.toNat default
      match b.transactions[loc.index]? with
      | none => none
      | some tx => if b.hashHex ≠ loc.blockHashHex then none else some (tx, loc)

end NeoCoin
