import NeoCoin.Chain

/-!
# The pool of pending transactions

`blockchain/mempool.go`. A `range` loop over one of the maps visits the entries in an order that is an input of the call (`range`). The
answer of the AI filter and the time of arrival are inputs too.
-/

namespace NeoCoin

open GoLib

structure MempoolEntry where
  tx : Transaction
  txIDHex : Bytes
  received : Int64
  deriving DecidableEq, Repr

/-- The zero value, which reading a missing entry gives. -/
instance : Inhabited MempoolEntry := ⟨{ tx := { type := .other [] }, txIDHex := [], received := 0 }⟩

/-- `Mempool`: the entries by transaction id, and their ids by sender and nonce. -/
structure Mempool where
  maxSize : Int64
  entries : GoMap Bytes MempoolEntry := ∅
  bySenderNonce : GoMap Bytes (GoMap UInt64 Bytes) := ∅
  deriving DecidableEq

def newMempool (maxSize : Int64) : Mempool := { maxSize := if maxSize ≤ 0 then 10000 else maxSize }

/-! ## Spam -/

/-- `spamPatterns`: each is a choice between sequences of words with anything but a line break between them. -/
def spamPatterns : List (List (List String)) :=
  [[["airdrop"], ["claim", "free"], ["free", "token"], ["get", "now"]],
    [["100x"], ["1000x"], ["moon"], ["lambo"], ["pump"], ["dump"]],
    [["urgent"], ["immediately"], ["act", "now"], ["limited", "time"]],
    [["verify", "wallet"], ["connect", "wallet"], ["sign", "message"]],
    [["gas", "free"], ["no", "fee"], ["zero", "fee"]],
    [["double", "your"], ["mul", "2x"], ["guaranteed", "return"]],
    [["discord", "admin"], ["telegram", "admin"], ["support", "chat"]],
    [["private", "key"], ["seed", "phrase"], ["recovery", "phrase"]],
    [["nft", "mint", "free"], ["free", "nft"], ["mint", "now"]],
    [["update", "wallet"], ["security", "alert"], ["unlock", "account"]]]

/-- `strings.ToLower` and the `(?i)` of the patterns, as far as letters of the patterns come out of it: also of the dotted capital I, the
long s and the Kelvin sign. -/
def foldCase : Nat → Bytes → Bytes
  | 0, _ => []
  | _ + 1, [] => []
  | n + 1, c :: rest =>
    if (c :: rest).take 2 = [0xc4, 0xb0] then 0x69 :: foldCase n (rest.drop 1)
    else if (c :: rest).take 2 = [0xc5, 0xbf] then 0x73 :: foldCase n (rest.drop 1)
    else if (c :: rest).take 3 = [0xe2, 0x84, 0xaa] then 0x6b :: foldCase n (rest.drop 2)
    else if 0x41 ≤ c ∧ c ≤ 0x5a then (c + 0x20) :: foldCase n rest
    else c :: foldCase n rest

/-- A word somewhere after bytes that may be skipped, with `next` true of what follows it. -/
def findWord (skip : UInt8 → Bool) (word : Bytes) (next : Bytes → Bool) : Bytes → Bool
  | [] => decide (word <+: []) && next []
  | c :: rest =>
    (decide (word <+: c :: rest) && next ((c :: rest).drop word.length)) || (skip c && findWord skip word next rest)

def matchWords : List String → Bytes → Bool
  | [], _ => true
  | w :: ws, s =>
    findWord (fun _ => true) (str w) (ws.foldr (fun w next => findWord (fun c => c ≠ 0x0a) (str w) next) fun _ => true) s

variable (C : Crypto)

/-- `checkSpam`. `ai` is what the AI filter answers, a score and its reasons, and nothing when it is not enabled. -/
def checkSpam (ai : Option (Result (Int × String))) (tx : Transaction) : Result Unit :=
  let data := foldCase tx.data.length tx.data
  if spamPatterns.any fun pattern => pattern.any fun words => matchWords words data then
    .error "spam detected: suspicious pattern in transaction data"
  else
    match ai with
    | none => .ok ()
    | some answer => do
      let _ ← tx.fromAddress C
      let (score, factors) ← answer.wrap "AI filter error: "
      failIf (score > 80) s!"AI rejected: spam score {score}, factors: {factors}"

/-! ## The two maps -/

/-- `m.bySenderNonce[fromAddr][nonce]`, if there is such an entry. -/
def Mempool.idAt (m : Mempool) (fromAddr : Bytes) (nonce : UInt64) : Option Bytes :=
  (m.bySenderNonce.lookup fromAddr).bind fun byNonce => byNonce.lookup nonce

/-- `indexLocked`. -/
def Mempool.index (m : Mempool) (fromAddr : Bytes) (nonce : UInt64) (txid : Bytes) : Mempool :=
  let byNonce := (m.bySenderNonce.lookup fromAddr).getD ∅
  { m with bySenderNonce := m.bySenderNonce.set fromAddr (byNonce.set nonce txid) }

/-- The part of `removeLocked` about `bySenderNonce`. An id is taken out only under its own sender and nonce. -/
def Mempool.unindex (m : Mempool) (fromAddr : Bytes) (nonce : UInt64) (txid : Bytes) : Mempool :=
  match m.bySenderNonce.lookup fromAddr with
  | none => m
  | some byNonce =>
    let byNonce := if byNonce.lookup nonce = some txid then byNonce.delete nonce else byNonce
    if byNonce.keys.card = 0 then { m with bySenderNonce := m.bySenderNonce.delete fromAddr }
    else { m with bySenderNonce := m.bySenderNonce.set fromAddr byNonce }

/-- `removeLocked`, which is also `Remove`. -/
def Mempool.remove (m : Mempool) (txid : Bytes) : Mempool :=
  match m.entries.lookup txid with
  | none => m
  | some e =>
    let m := { m with entries := m.entries.delete txid }
    match e.tx.fromAddress C with
    | .error _ => m
    | .ok fromAddr => m.unindex fromAddr e.tx.nonce txid

def Mempool.removeMany (m : Mempool) (txids : List Bytes) : Mempool := txids.foldl (fun m txid => m.remove C txid) m

/-- The insertion at the end of `AddWithTxID` and `ReplaceByFeeWithTxID`. -/
def Mempool.insert (m : Mempool) (tx : Transaction) (txid fromAddr : Bytes) (now : Int64) : Mempool :=
  let m := { m with entries := m.entries.set txid { tx := tx, txIDHex := txid, received := now } }
  m.index fromAddr tx.nonce txid

/-- A list that `PendingForSender` may return: the entries of the sender in the order of their nonces. -/
structure PendingForSender (m : Mempool) (fromAddr : Bytes) (pending : List MempoolEntry) : Prop where
  entries : (pending : Multiset MempoolEntry) =
    ((m.bySenderNonce.lookup fromAddr).getD ∅).entries.filterMap fun e => m.entries.lookup e.2
  sorted : pending.Pairwise fun a b => ¬b.tx.nonce < a.tx.nonce

instance (m : Mempool) (fromAddr : Bytes) (pending : List MempoolEntry) : Decidable (PendingForSender m fromAddr pending) :=
  decidable_of_iff (_ ∧ _) ⟨fun h => ⟨h.1, h.2⟩, fun h => ⟨h.entries, h.sorted⟩⟩

/-! ## Eviction -/

/-- The loop of `lowestFeeLocked`, with the lowest fee so far and its id. -/
def lowestFeeLoop : List (Bytes × MempoolEntry) → UInt64 → Bytes → Bytes
  | [], _, lowestID => lowestID
  | (id, e) :: rest, lowestFee, lowestID =>
    if e.tx.fee < lowestFee then lowestFeeLoop rest e.tx.fee id else lowestFeeLoop rest lowestFee lowestID

/-- `lowestFeeLocked`: no id when every fee is the greatest there is. -/
def lowestFee (range : List (Bytes × MempoolEntry)) : Bytes := lowestFeeLoop range 0xffffffffffffffff []

/-- The loop of `evictWithDependentsLocked`. An entry that is no longer in the map is not visited. -/
def evictDependents (sender : Bytes) (victimNonce : UInt64) : List (Bytes × MempoolEntry) → Mempool → Mempool
  | [], m => m
  | (id, e) :: rest, m =>
    if id ∉ m.entries then evictDependents sender victimNonce rest m
    else
      match e.tx.fromAddress C with
      | .error _ => evictDependents sender victimNonce rest m
      | .ok addr =>
        evictDependents sender victimNonce rest (if addr = sender ∧ e.tx.nonce > victimNonce then m.remove C id else m)

/-- `evictWithDependentsLocked`. -/
def Mempool.evictWithDependents (m : Mempool) (range : List (Bytes × MempoolEntry)) (txid : Bytes) : Mempool :=
  match m.entries.lookup txid with
  | none => m
  | some victim =>
    let m := m.remove C txid
    match victim.tx.fromAddress C with
    | .error _ => m
    | .ok sender => evictDependents C sender victim.tx.nonce range m

/-- The loop of `evictBySenderNonceLocked`, with the ids evicted so far. -/
def evictLater (fromAddr : Bytes) (nonce : UInt64) : List (UInt64 × Bytes) → Mempool → List Bytes → List Bytes × Mempool
  | [], m, evicted => (evicted, m)
  | (n, txid) :: rest, m, evicted =>
    if m.idAt fromAddr n = some txid ∧ n > nonce then evictLater fromAddr nonce rest (m.remove C txid) (evicted ++ [txid])
    else evictLater fromAddr nonce rest m evicted

/-- `evictBySenderNonceLocked`; `range` is over the ids of the sender. -/
def Mempool.evictBySenderNonce (m : Mempool) (range : List (UInt64 × Bytes)) (fromAddr : Bytes) (nonce : UInt64) : List Bytes × Mempool :=
  match m.idAt fromAddr nonce with
  | none => evictLater C fromAddr nonce range m []
  | some txid => evictLater C fromAddr nonce range (m.remove C txid) [txid]

/-! ## Adding -/

/-- Whether nothing is left of a string after `strings.TrimSpace`, for at most `n` bytes. -/
def isBlankLoop : Nat → Bytes → Bool
  | 0, s => s.isEmpty
  | _ + 1, [] => true
  | n + 1, c :: rest =>
    if (0x09 ≤ c ∧ c ≤ 0x0d) ∨ c = 0x20 then isBlankLoop n rest
    else if (c :: rest).take 2 ∈ ([[0xc2, 0x85], [0xc2, 0xa0]] : List Bytes) then isBlankLoop n (rest.drop 1)
    else
      match (c :: rest).take 3 with
      | [a, b, d] =>
        if (a = 0xe1 ∧ b = 0x9a ∧ d = 0x80) ∨
            (a = 0xe2 ∧ b = 0x80 ∧ ((0x80 ≤ d ∧ d ≤ 0x8a) ∨ d = 0xa8 ∨ d = 0xa9 ∨ d = 0xaf)) ∨
            (a = 0xe2 ∧ b = 0x81 ∧ d = 0x9f) ∨ (a = 0xe3 ∧ b = 0x80 ∧ d = 0x80) then
          isBlankLoop n (rest.drop 2)
        else false
      | _ => false

/-- `strings.TrimSpace(s) == ""`. -/
def isBlank (s : Bytes) : Bool := isBlankLoop s.length s

/-- The transaction id an entry gets: the one the caller names, or that of the consensus rules, or of the legacy encoding without rules. -/
def resolveTxID (tx : Transaction) (txid : Bytes) (p : ConsensusParams) (height : UInt64) : Result Bytes :=
  if isBlank txid = false then .ok txid
  else if p = {} ∧ height = 0 then txIDHex C tx
  else txIDHexForConsensus C tx p height

/-- `AddWithTxID`: the id and the error it returns, and the pool it leaves. -/
def Mempool.addWithTxID (ai : Option (Result (Int × String))) (range : List (Bytes × MempoolEntry)) (now : Int64)
    (m : Mempool) (tx : Transaction) (txid : Bytes) (p : ConsensusParams) (height : UInt64) : (Bytes × Option String) × Mempool :=
  let before : Result (Bytes × Bytes) := do
    let txid ← resolveTxID C tx txid p height
    let fromAddr ← tx.fromAddress C
    checkSpam C ai tx
    .ok (txid, fromAddr)
  match before with
  | .error e => (([], some e), m)
  | .ok (txid, fromAddr) =>
    if txid ∈ m.entries then ((txid, some "duplicate transaction"), m)
    else
      match m.idAt fromAddr tx.nonce with
      | some existingID => ((existingID, some "nonce already in mempool"), m)
      | none =>
        if (m.entries.keys.card : Int) ≥ m.maxSize.toInt then
          if lowestFee range = [] then (([], some "mempool full"), m)
          else ((txid, none), (m.evictWithDependents C range (lowestFee range)).insert tx txid fromAddr now)
        else ((txid, none), m.insert tx txid fromAddr now)

def Mempool.add (ai : Option (Result (Int × String))) (range : List (Bytes × MempoolEntry)) (now : Int64) (m : Mempool)
    (tx : Transaction) : (Bytes × Option String) × Mempool :=
  m.addWithTxID C ai range now tx [] {} 0

/-- What `ReplaceByFeeWithTxID` returns, and the pool it leaves. -/
structure ReplaceResult where
  txid : Bytes := []
  replaced : Bool := false
  evicted : List Bytes := []
  err : Option String
  pool : Mempool

/-- `ReplaceByFeeWithTxID`; `range` is over the ids of the sender. What was evicted stays so when the new id is already there. -/
def Mempool.replaceByFeeWithTxID (range : List (UInt64 × Bytes)) (now : Int64) (m : Mempool) (tx : Transaction)
    (txid : Bytes) (p : ConsensusParams) (height : UInt64) : ReplaceResult :=
  let before : Result (Bytes × Bytes) := do
    let txid ← resolveTxID C tx txid p height
    let fromAddr ← tx.fromAddress C
    .ok (txid, fromAddr)
  match before with
  | .error e => { err := some e, pool := m }
  | .ok (txid, fromAddr) =>
    match m.idAt fromAddr tx.nonce with
    | none => { err := some "no existing nonce to replace", pool := m }
    | some existingID =>
      if tx.fee ≤ (m.entries.get existingID).tx.fee then
        { err := some "replacement fee must be higher than existing fee", pool := m }
      else
        let out := m.evictBySenderNonce C range fromAddr tx.nonce
        if txid ∈ out.2.entries then
          { txid, replaced := true, evicted := out.1, err := some "replacement tx already exists", pool := out.2 }
        else { txid, replaced := true, evicted := out.1, err := none, pool := out.2.insert tx txid fromAddr now }

def Mempool.replaceByFee (range : List (UInt64 × Bytes)) (now : Int64) (m : Mempool) (tx : Transaction) : ReplaceResult :=
  m.replaceByFeeWithTxID C range now tx [] {} 0

end NeoCoin
