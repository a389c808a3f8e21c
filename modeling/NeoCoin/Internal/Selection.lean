import NeoCoin.Internal.Chain
import NeoCoin.Lib.SortSlice

/-!
# Selecting transactions for a block

`SelectMempoolTxs` and `validateTxsForSender` of `internal/blockchain/chain.go`. Workers check the senders, each on its own copy of the
state, and finish in any order; so a call is described by the results it may have (`SelectsMempoolTxs`).
-/

namespace NeoCoin.Internal

open GoLib

/-- `TxEntry`, and `SelectedTxEntry`: a transaction with its id. -/
structure TxEntry where
  tx : Transaction
  txIDHex : Bytes
  deriving DecidableEq, Repr

/-- The first loop of `SelectMempoolTxs`: the transfers of each sender. -/
def bySender (C : Crypto) (entries : List TxEntry) : GoMap Bytes (List TxEntry) :=
  entries.foldl (fun m e =>
    if e.tx.type ≠ .transfer then m
    else
      match fromAddress C e.tx with
      | .error _ => m
      | .ok fromAddr => m.set fromAddr (m.get fromAddr ++ [e])) ∅

section

variable (C : Crypto) (p : ConsensusParams) (chainID height : UInt64)

/-- The loop of `validateTxsForSender`, with its copy of the state and the last nonce. -/
def validateLoop (addr : Bytes) : List TxEntry → State → UInt64 → List TxEntry
  | [], _, _ => []
  | entry :: txs, state, nonce =>
    let tx := entry.tx.withChainID chainID
    match verifyForConsensus C tx p height with
    | .error _ => validateLoop addr txs state nonce
    | .ok () =>
      let totalDebit := tx.amount + tx.fee
      if tx.nonce ≠ nonce + 1 then validateLoop addr txs state nonce
      else if (state.get addr).balance < totalDebit then validateLoop addr txs state nonce
      else
        let state := State.credit (State.debit state addr totalDebit tx.nonce) tx.toAddress tx.amount
        entry :: validateLoop addr txs state tx.nonce

def validateTxsForSender (baseState : State) (addr : Bytes) (txs : List TxEntry) : List TxEntry :=
  validateLoop C p chainID height addr txs baseState (baseState.get addr).nonce

end

/-- The number of transactions `SelectMempoolTxs` picks at most. -/
def maxPicked (max : Int64) : Nat := if max ≤ 0 then 100 else max.toInt.toNat

/-- The results of the workers, one after the other: in whatever order they finish, and with each sender's transfers in an order of
their nonces. -/
def Validated {σ : Type} (C : Crypto) (bc : Blockchain σ) (entries valid : List TxEntry) : Prop :=
  ∃ range results, GoMap.IsRange (bySender C entries) range ∧
    List.Forall₂ (fun (g : Bytes × List TxEntry) result => ∃ txs, SortSlice (fun a b => a.tx.nonce < b.tx.nonce) g.2 txs ∧
      result = validateTxsForSender C bc.consensus bc.chainID (bc.blocks.tip.height + 1) bc.state g.1 txs) range results ∧
    valid = results.flatten

/-- `picked` is a result of `SelectMempoolTxs`, with the ids of the transactions. -/
def SelectsMempoolTxs {σ : Type} (C : Crypto) (bc : Blockchain σ) (entries : List TxEntry) (max : Int64) (picked : List TxEntry) : Prop :=
  ∃ valid sorted, Validated C bc entries valid ∧ SortSlice (fun a b => a.tx.fee > b.tx.fee) valid sorted ∧
    picked = sorted.take (maxPicked max)

end NeoCoin.Internal
