import NeoCoin.Mempool

/-!
# The miner

`SelectMempoolTxs` of `blockchain/chain.go` and `MineOnce` of `blockchain/miner.go`: the pending transactions are tried in the order
of their fees on a copy of the state, and those that apply make up the next block.
-/

namespace NeoCoin

open GoLib

/-! ## The order of the pool -/

def entryLess (a b : MempoolEntry) : Bool :=
  if a.tx.fee ≠ b.tx.fee then decide (a.tx.fee > b.tx.fee) else decide (a.received < b.received)

/-- A list that `EntriesSortedByFeeDesc` may return. Entries that do not differ in fee and time of arrival come in any order. -/
structure EntriesSortedByFeeDesc (m : Mempool) (entries : List MempoolEntry) : Prop where
  snapshot : (entries : Multiset MempoolEntry) = m.entries.entries.map fun e => e.2
  sorted : entries.Pairwise fun a b => entryLess b a = false

/-! ## Selection -/

/-- The loop of `SelectMempoolTxs` on the simulated state, for at most `n` more transactions: those picked, with their ids. -/
def selectLoop (C : Crypto) (p : ConsensusParams) (chainID nextHeight : UInt64) :
    Nat → List MempoolEntry → State → List (Transaction × Bytes)
  | _, [], _ => []
  | 0, _ :: _, _ => []
  | n + 1, e :: entries, state =>
    let tx := e.tx.withChainID chainID
    if e.tx.type ≠ .transfer then selectLoop C p chainID nextHeight (n + 1) entries state
    else
      match tx.verifyForConsensus C p nextHeight, tx.fromAddress C with
      | .ok (), .ok fromAddr =>
        let sender := state.get fromAddr
        let totalDebit := tx.amount + tx.fee
        if sender.nonce + 1 ≠ tx.nonce then selectLoop C p chainID nextHeight (n + 1) entries state
        else if sender.balance < totalDebit then selectLoop C p chainID nextHeight (n + 1) entries state
        else
          let state := State.credit (State.debit state fromAddr totalDebit tx.nonce) tx.toAddress tx.amount
          (tx, e.txIDHex) :: selectLoop C p chainID nextHeight n entries state
      | _, _ => selectLoop C p chainID nextHeight (n + 1) entries state

/-- `SelectMempoolTxs`, on what `EntriesSortedByFeeDesc` returned. -/
def selectMempoolTxs {σ : Type} (C : Crypto) (bc : Blockchain σ) (entries : List MempoolEntry) (max : Int64) : List (Transaction × Bytes) :=
  let max : Int64 := if max ≤ 0 then 100 else max
  selectLoop C bc.consensus bc.chainID (bc.blocks.tip.height + 1) max.toInt.toNat entries bc.state

/-- `MineOnce`, with the pool as `EntriesSortedByFeeDesc` returned it. What was selected stays in the pool when it cannot be mined. -/
def mineOnce {σ : Type} (C : Crypto) (S : ChainStore σ) (bc : Blockchain σ) (mp : Mempool) (maxTxPerBlock : Int64)
    (mineEmpty : Bool) (entries : List MempoolEntry) (now : Int64) : Option (Result (Option Block) × Blockchain σ × Mempool) :=
  let selected := selectMempoolTxs C bc entries maxTxPerBlock
  if selected = [] ∧ mineEmpty = false then some (.ok none, bc, mp)
  else
    match mineTransfers C S bc (selected.map (·.1)) now with
    | none => none
    | some (.error e, bc) => some (.error e, bc, mp)
    | some (.ok b, bc) => some (.ok (some b), bc, mp.removeMany C (selected.map (·.2)))

end NeoCoin
