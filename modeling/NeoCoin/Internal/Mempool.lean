import NeoCoin.Internal.Ledger
import NeoCoin.Lib.Heap

/-!
# The pool of pending transactions

`internal/mempool/mempool.go`, with its calls one at a time. A pointer to an entry is the entry itself: `ref` is another number for every
entry that is made. A `range` loop over `byHash` visits the entries in an order that is an input of the call (`range`), and skips what has
been taken out by then. The time is an input too, and so is the answer of the spam filter.
-/

namespace NeoCoin.Internal

open GoLib

def txIDHex (C : Crypto) (tx : Transaction) : Result Bytes := do
  let preimage ← signingPreimageLegacyJSON C tx
  .ok (hexEncode (C.sha256 preimage))

def fromAddressSafe (C : Crypto) (tx : Transaction) : Bytes :=
  match fromAddress C tx with
  | .ok addr => addr
  | .error _ => []

def estimateSize (tx : Transaction) : Nat := 80 + tx.signature.bytes.length + tx.data.length

/-- `feePerKB`, as both functions that add an entry compute it. -/
def feeRate (tx : Transaction) : Int64 := tx.fee.toInt64 * 1000 / Int64.ofNat (estimateSize tx)

structure MempoolEntry where
  ref : Nat
  tx : Transaction
  txid : Bytes
  feePerKB : Int64
  weight : Nat
  expiry : Int
  failCount : Int64 := 0
  deriving DecidableEq, Repr

/-- `MempoolStats`; nothing is counted as received. -/
structure MempoolStats where
  accepted : Int64 := 0
  rejected : Int64 := 0
  evicted : Int64 := 0
  expired : Int64 := 0
  currentSize : Int64 := 0
  totalFees : Int64 := 0
  deriving DecidableEq, Repr

/-- `AnalyzeTransaction`: the first reason if the transaction is to be rejected, from its sender, amount, fee, data and nonce. -/
abbrev SpamFilter := Bytes → Int64 → Int64 → Bytes → UInt64 → Option String

/-- `DefaultTTL`, in nanoseconds. -/
def defaultTTL : Int := 24 * 60 * 60 * 1000000000

structure Mempool where
  byHash : GoMap Bytes MempoolEntry := ∅
  bySender : GoMap Bytes (List MempoolEntry) := ∅
  byRecipient : GoMap Bytes (List MempoolEntry) := ∅
  feeHeap : List MempoolEntry := []
  ttlQueue : List MempoolEntry := []
  maxSize : Int64
  ttl : Int := defaultTTL
  minFeeRate : Int64
  spamFilter : SpamFilter
  stats : MempoolStats := {}
  /-- The next `ref`. -/
  next : Nat := 0

def newMempool (maxSize minFeeRate : Int64) (spamFilter : SpamFilter) : Mempool where
  maxSize := if maxSize ≤ 0 then 50000 else maxSize
  minFeeRate := if minFeeRate ≤ 0 then 1 else minFeeRate
  spamFilter := spamFilter

def FeeHeap.less (a b : MempoolEntry) : Bool := decide (b.feePerKB < a.feePerKB)

namespace Mempool

def size (mp : Mempool) : Nat := mp.byHash.keys.card

def get (mp : Mempool) (txid : Bytes) : Option Transaction := (mp.byHash.lookup txid).map MempoolEntry.tx

/-! ## Taking entries out -/

/-- An entry taken out of one of the lists of a map, and the list with it if it was the last one. -/
def takeOut (m : GoMap Bytes (List MempoolEntry)) (key : Bytes) (entry : MempoolEntry) : GoMap Bytes (List MempoolEntry) :=
  match m.lookup key with
  | none => m
  | some entries =>
    let newEntries := entries.filter fun e => e ≠ entry
    if newEntries = [] then m.delete key else m.set key newEntries

variable (C : Crypto)

/-- `removeEntry`. The heap keeps the entry. -/
def removeEntry (mp : Mempool) (entry : MempoolEntry) : Mempool :=
  { mp with
    byHash := mp.byHash.delete entry.txid
    ttlQueue := mp.ttlQueue.filter fun e => e ≠ entry
    bySender := takeOut mp.bySender (fromAddressSafe C entry.tx) entry
    byRecipient := takeOut mp.byRecipient entry.tx.toAddress entry
    stats := { mp.stats with currentSize := mp.stats.currentSize - 1, evicted := mp.stats.evicted + 1 } }

def removeSenderEntries (sender : Bytes) (maxNonce : UInt64) : List (Bytes × MempoolEntry) → Mempool → Mempool
  | [], mp => mp
  | (txid, entry) :: range, mp =>
    if txid ∈ mp.byHash ∧ fromAddressSafe C entry.tx = sender ∧ entry.tx.nonce ≤ maxNonce then
      let mp := mp.removeEntry C entry
      removeSenderEntries sender maxNonce range { mp with byHash := mp.byHash.delete txid }
    else removeSenderEntries sender maxNonce range mp

/-- The loop of `ReplaceByFeeWithTxID`, with the ids that it has added to `evicted`. -/
def removeLater (sender : Bytes) (nonce : UInt64) : List (Bytes × MempoolEntry) → Mempool → List Bytes × Mempool
  | [], mp => ([], mp)
  | (txid, entry) :: range, mp =>
    if txid ∈ mp.byHash ∧ fromAddressSafe C entry.tx = sender ∧ nonce < entry.tx.nonce then
      let (evicted, mp) := removeLater sender nonce range (mp.removeEntry C entry)
      (txid :: evicted, mp)
    else removeLater sender nonce range mp

def evictLoop : Nat → Mempool → Mempool
  | 0, mp => mp
  | target + 1, mp =>
    match Heap.pop FeeHeap.less mp.feeHeap with
    | none => mp
    | some (entry, rest) => evictLoop target ({ mp with feeHeap := rest }.removeEntry C entry)

def evictToMakeSpace (mp : Mempool) (n : Int) : Mempool :=
  let target := mp.size + n - mp.maxSize.toInt
  if target ≤ 0 then mp else evictLoop C target.toNat mp

def makeSpace (mp : Mempool) : Mempool := if mp.maxSize.toInt ≤ mp.size then mp.evictToMakeSpace C 1 else mp

def remove (mp : Mempool) (txid : Bytes) : Mempool :=
  match mp.byHash.lookup txid with
  | some entry => mp.removeEntry C entry
  | none => mp

def removeMany (mp : Mempool) (txids : List Bytes) : Mempool := txids.foldl (remove C) mp

def cleanupEntry (now : Int) (mp : Mempool) (entry : MempoolEntry) : Mempool :=
  if entry.expiry < now ∨ 3 < entry.failCount then
    let mp := mp.removeEntry C entry
    { mp with stats := { mp.stats with expired := mp.stats.expired + 1 } }
  else mp

def cleanup (mp : Mempool) (now : Int) : Mempool := mp.ttlQueue.foldl (cleanupEntry C now) mp

/-! ## Adding entries -/

def insert (mp : Mempool) (tx : Transaction) (txid fromAddr : Bytes) (now : Int) : Mempool :=
  let entry : MempoolEntry :=
    { ref := mp.next, tx := tx, txid := txid, feePerKB := feeRate tx, weight := estimateSize tx, expiry := now + mp.ttl }
  { mp with
    byHash := mp.byHash.set txid entry
    bySender := mp.bySender.set fromAddr (mp.bySender.get fromAddr ++ [entry])
    byRecipient := mp.byRecipient.set tx.toAddress (mp.byRecipient.get tx.toAddress ++ [entry])
    feeHeap := Heap.push FeeHeap.less mp.feeHeap entry
    ttlQueue := mp.ttlQueue ++ [entry]
    stats := { mp.stats with
      accepted := mp.stats.accepted + 1
      currentSize := mp.stats.currentSize + 1
      totalFees := mp.stats.totalFees + tx.fee.toInt64 }
    next := mp.next + 1 }

def feeTooLow (tx : Transaction) (mp : Mempool) : String := s!"fee too low: {feeRate tx} < {mp.minFeeRate} sat/KB"

/-- `Add`, from where there is space. -/
def accept (mp : Mempool) (tx : Transaction) (txid : Bytes) (now : Int) (range : List (Bytes × MempoolEntry)) : Result Unit × Mempool :=
  if feeRate tx < mp.minFeeRate then (.error (feeTooLow tx mp), mp)
  else
    match fromAddress C tx with
    | .error err => (.error ("get sender address: " ++ err), mp)
    | .ok fromAddr =>
      match mp.spamFilter fromAddr tx.amount.toInt64 tx.fee.toInt64 tx.data tx.nonce with
      | some reason => (.error ("spam detected: " ++ reason), { mp with stats := { mp.stats with rejected := mp.stats.rejected + 1 } })
      | none =>
        match (mp.bySender.get fromAddr).getLast? with
        | none => (.ok (), mp.insert tx txid fromAddr now)
        | some highest =>
          if tx.nonce ≤ highest.tx.nonce then (.error s!"nonce too low: {tx.nonce} <= {highest.tx.nonce}", mp)
          else (.ok (), (mp.removeSenderEntries C fromAddr (tx.nonce - 1) range).insert tx txid fromAddr now)

def add (mp : Mempool) (tx : Transaction) (now : Int) (range : List (Bytes × MempoolEntry)) : Result Unit × Mempool :=
  match txIDHex C tx with
  | .error err => (.error ("compute txid: " ++ err), mp)
  | .ok txid => if txid ∈ mp.byHash then (.error "tx already in mempool", mp) else (mp.makeSpace C).accept C tx txid now range

def getTxidBySenderNonce (mp : Mempool) (sender : Bytes) (nonce : UInt64) : Option Bytes :=
  ((mp.bySender.get sender).find? fun entry => entry.tx.nonce = nonce).map MempoolEntry.txid

/-- `ReplaceByFeeWithTxID`, from where the entry that is replaced is known. The ids that it returns are `evicted`. -/
def replace (mp : Mempool) (existingTxid : Bytes) (existing : MempoolEntry) (tx : Transaction) (txid fromAddr : Bytes) (now : Int)
    (range : List (Bytes × MempoolEntry)) : Result Bytes × List Bytes × Mempool :=
  let (later, mp) := (mp.removeEntry C existing).removeLater C fromAddr tx.nonce range
  let evicted := existingTxid :: later
  if txid ∈ mp.byHash then (.error "tx already in mempool", evicted, mp)
  else
    let mp := mp.makeSpace C
    if feeRate tx < mp.minFeeRate then (.error (feeTooLow tx mp), evicted, mp) else (.ok txid, evicted, mp.insert tx txid fromAddr now)

/-- `ReplaceByFeeWithTxID`; `none` if it panics, because the entry that the sender has is not in `byHash`. -/
def replaceByFeeWithTxID (mp : Mempool) (tx : Transaction) (txid : Bytes) (now : Int) (range : List (Bytes × MempoolEntry)) :
    Option (Result Bytes × List Bytes × Mempool) :=
  match fromAddress C tx with
  | .error err => some (.error err, [], mp)
  | .ok fromAddr =>
    match mp.getTxidBySenderNonce fromAddr tx.nonce with
    | none => some (.error s!"no existing tx with nonce {tx.nonce}", [], mp)
    | some existingTxid =>
      match mp.byHash.lookup existingTxid with
      | none => none
      | some existing =>
        if tx.fee ≤ existing.tx.fee then some (.error "replacement fee must be higher", [], mp)
        else some (mp.replace C existingTxid existing tx txid fromAddr now range)

/-! ## Selecting -/

/-- The loop of `SelectTxs`, over what the heap gives. `round` counts the rounds; each reads the clock. -/
def selectLoop (maxWeight : Int) (clock : Nat → Int) : Nat → Int → List MempoolEntry → List Transaction
  | _, _, [] => []
  | round, totalWeight, entry :: rest =>
    if maxWeight < totalWeight + entry.weight then []
    else if entry.expiry < clock round then selectLoop maxWeight clock (round + 1) totalWeight rest
    else entry.tx :: selectLoop maxWeight clock (round + 1) (totalWeight + entry.weight) rest

def selectTxs (mp : Mempool) (maxWeight : Int) (clock : Nat → Int) : List Transaction :=
  let h := Heap.init FeeHeap.less mp.feeHeap
  selectLoop maxWeight clock 0 0 (Heap.drain FeeHeap.less h.length h)

/-! ## Calls -/

inductive Call where
  | add (tx : Transaction) (now : Int) (range : List (Bytes × MempoolEntry))
  | replace (tx : Transaction) (txid : Bytes) (now : Int) (range : List (Bytes × MempoolEntry))
  | remove (txid : Bytes)
  | removeMany (txids : List Bytes)
  | cleanup (now : Int)

def Call.exec (mp : Mempool) : Call → Option Mempool
  | add tx now range => some (mp.add C tx now range).2
  | replace tx txid now range => (mp.replaceByFeeWithTxID C tx txid now range).map fun r => r.2.2
  | remove txid => some (mp.remove C txid)
  | removeMany txids => some (mp.removeMany C txids)
  | cleanup now => some (mp.cleanup C now)

/-- The order in which the loop of a call visits the pool is one of the map. -/
def Call.Ranges (mp : Mempool) : Call → Prop
  | add _ _ range => GoMap.IsRange mp.byHash range
  | replace _ _ _ range => GoMap.IsRange mp.byHash range
  | _ => True

/-- The pools that calls with a condition on the pool before them lead to. -/
inductive Reached (C : Crypto) (condition : Mempool → Call → Prop) : Mempool → Prop where
  | new (maxSize minFeeRate : Int64) (spamFilter : SpamFilter) : Reached C condition (newMempool maxSize minFeeRate spamFilter)
  | call {mp mp' : Mempool} (hmp : Reached C condition mp) (call : Call) (hranges : call.Ranges mp) (hcondition : condition mp call)
      (hexec : call.exec C mp = some mp') : Reached C condition mp'

/-- The pools that any calls lead to. -/
abbrev Reachable : Mempool → Prop := Reached C fun _ _ => True

end Mempool

end NeoCoin.Internal
