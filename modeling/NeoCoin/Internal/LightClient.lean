import NeoCoin.Internal.Block
import NeoCoin.Internal.Mempool
import Mathlib.Data.Rat.Floor

/-!
# The light client

`internal/blockchain/light_client.go`, and the inclusion proofs of `merkle.go` that a client is given. An index out of range and a
division by zero panic, and a call that panics has no result.
-/

namespace NeoCoin.Internal

open GoLib

/-! ## The filter -/

/-- `BloomFilter`. `matched` is left out: nothing writes it. -/
structure BloomFilter where
  data : List UInt8
  hashFuncs : UInt32
  tweak : UInt32
  deriving DecidableEq, Repr

def newBloomFilter (size hashFuncs tweak : UInt32) : BloomFilter := { data := List.replicate size.toNat 0, hashFuncs, tweak }

def BloomFilter.sipHash (f : BloomFilter) (data : Bytes) (i : UInt32) : UInt32 :=
  let h := data.foldl (fun h c => h * 0x100000001b3 + c.toUInt64) (f.tweak + i * 0xfba4c795).toUInt64
  (h ^^^ (h >>> 32)).toUInt32

/-- The index that `Add` and `Contains` make of a hash: reduced by the number of bits, and used as that of a byte. The product of the
length and eight is cut to 32 bits. -/
def slotOf (length : Nat) (h : UInt32) : Option Nat :=
  let bits := UInt32.ofNat (length * 8)
  if bits = 0 then none
  else if (h % bits).toNat < length then some (h % bits).toNat
  else none

def BloomFilter.slot (f : BloomFilter) (elem : Bytes) (i : UInt32) : Option Nat := slotOf f.data.length (f.sipHash elem i)

def BloomFilter.addLoop (elem : Bytes) : List UInt32 → BloomFilter → Option BloomFilter
  | [], f => some f
  | i :: rest, f =>
    match f.slot elem i with
    | none => none
    | some place => addLoop elem rest { f with data := f.data.set place 1 }

def BloomFilter.hashes (f : BloomFilter) : List UInt32 := (List.range f.hashFuncs.toNat).map UInt32.ofNat

def BloomFilter.add (f : BloomFilter) (elem : Bytes) : Option BloomFilter := addLoop elem f.hashes f

def BloomFilter.addAll : List Bytes → BloomFilter → Option BloomFilter
  | [], f => some f
  | elem :: rest, f =>
    match f.add elem with
    | none => none
    | some f => addAll rest f

def BloomFilter.containsLoop (f : BloomFilter) (elem : Bytes) : List UInt32 → Option Bool
  | [] => some true
  | i :: rest =>
    match f.slot elem i with
    | none => none
    | some place => if f.data.getD place 0 = 0 then some false else containsLoop f elem rest

def BloomFilter.contains (f : BloomFilter) (elem : Bytes) : Option Bool := f.containsLoop elem f.hashes

/-! ## Headers -/

structure SPVHeader where
  version : UInt32 := 0
  height : Int64 := 0
  timestampUnix : Int64 := 0
  prevBlock : Bytes := []
  difficulty : Int64 := 0
  nonce : UInt64 := 0
  merkleRoot : Bytes := []
  hash : Bytes := []
  deriving DecidableEq, Repr

def bytesToUint256 (b : Bytes) : Bytes := if b.length < 32 then List.replicate (32 - b.length) 0 ++ b else b.take 32

def bytesCompareLoop : Bytes → Bytes → Int
  | x :: a, y :: b => if x ≠ y then (if x < y then -1 else 1) else bytesCompareLoop a b
  | _, _ => 0

def bytesCompare (a b : Bytes) : Int :=
  if a.length ≠ b.length then (if a.length < b.length then -1 else 1) else bytesCompareLoop a b

/-- `calcTarget`. The shift is one of a byte. -/
def calcTarget (difficulty : Int64) : Option Bytes :=
  let difficulty := if difficulty ≤ 0 then 1 else difficulty
  let exp := 256 - difficulty / 8
  let exp := if exp < 0 then 0 else exp
  let exp := if exp > 256 then 256 else exp
  let target : Bytes := List.replicate 32 0
  if exp < 32 then
    let place := (32 - exp).toInt.toNat
    if place < target.length then some (target.set place 1) else none
  else some (target.set 0 (UInt8.ofNat (2 ^ (exp - 32).toInt.toNat)))

def SPVHeader.validatePoW (h : SPVHeader) : Option Bool :=
  if h.hash = [] then some false
  else
    match hexDecode h.hash with
    | .error _ => some false
    | .ok hashBytes =>
      if hashBytes.length ≠ 32 then some false
      else (calcTarget h.difficulty).map fun target => decide (bytesCompare (bytesToUint256 hashBytes) target ≤ 0)

def blockToSPVHeader (b : Block) : SPVHeader :=
  { version := b.version, height := b.height.toInt64, timestampUnix := b.timestampUnix, prevBlock := hexEncode b.prevHash.bytes
    difficulty := Int64.ofNat b.difficultyBits.toNat, nonce := b.nonce, hash := hexEncode b.hash.bytes }

/-! ## The difficulty of headers -/

/-- The number of 53 bits nearest to a rational one, or the even one of two: an operation on `float64` that neither overflows nor
underflows. -/
def roundFloat64 (q : ℚ) : ℚ :=
  if q = 0 then 0
  else
    let e : Int := (Nat.log2 q.num.natAbs : Int) - Nat.log2 q.den - 52
    -- the quotient of the two numbers may have one bit less than the difference of their lengths says
    let e := if |q| < 2 ^ (e + 52) then e - 1 else e
    let m := |q| / 2 ^ e
    let low := ⌊m⌋
    let nearest := if m - low < 1 / 2 ∨ (m - low = 1 / 2 ∧ low % 2 = 0) then low else low + 1
    (if q < 0 then -1 else 1) * (nearest * 2 ^ e)

/-- `int64(x)` of a `float64`, on a machine where a number that does not fit gives the least one. -/
def truncateInt64 (x : ℚ) : Int64 :=
  let z := if x < 0 then ⌈x⌉ else ⌊x⌋
  if -2 ^ 63 ≤ z ∧ z < 2 ^ 63 then Int64.ofInt z else Int64.minValue

def calcNewDifficulty (prevDiff actualTime targetTime : Int64) : Int64 :=
  let ratio := roundFloat64 (roundFloat64 targetTime.toInt / roundFloat64 actualTime.toInt)
  let ratio := if ratio < 1 / 4 then 1 / 4 else ratio
  let ratio := if ratio > 4 then 4 else ratio
  let newDiff := truncateInt64 (roundFloat64 (roundFloat64 prevDiff.toInt * ratio))
  let newDiff := if newDiff < 1 then 1 else newDiff
  let maxDiff := prevDiff * 4
  let minDiff := prevDiff / 4
  let newDiff := if newDiff > maxDiff then maxDiff else newDiff
  if newDiff < minDiff then minDiff else newDiff

/-- `verifyDifficulty`. With 2015 headers the first one of the window is at -1. -/
def verifyDifficulty (header : SPVHeader) (prevHeaders : List SPVHeader) : Option Bool :=
  if prevHeaders.length < 2015 then some true
  else if prevHeaders.length < 2016 then none
  else
    match prevHeaders[prevHeaders.length - 2016]?, prevHeaders[prevHeaders.length - 1]? with
    | some first, some last =>
      let actualTime := last.timestampUnix - first.timestampUnix
      let targetTime : Int64 := 2016 * 600
      let actualTime := if actualTime < targetTime / 4 then targetTime / 4 else actualTime
      let actualTime := if actualTime > targetTime * 4 then targetTime * 4 else actualTime
      some (decide (header.difficulty = calcNewDifficulty last.difficulty actualTime targetTime))
    | _, _ => none

/-! ## The headers of a client -/

/-- `LightClient`, as far as `validateAndAddHeaders` reads and writes it. -/
structure LightClient where
  headers : List SPVHeader := []
  bestHeight : Int64 := 0
  bestHeader : Option SPVHeader := none
  trustedBlock : Option Block := none
  deriving DecidableEq, Repr

def LightClient.linkError (lc : LightClient) (header : SPVHeader) : Option String :=
  match lc.headers.getLast?, lc.trustedBlock with
  | some prev, _ => if header.prevBlock ≠ prev.hash then some s!"chain discontinuity at height {header.height}" else none
  | none, some trusted => if header.prevBlock ≠ hexEncode trusted.hash.bytes then some "doesn't connect to trusted block" else none
  | none, none => none

def SPVHeader.atRetarget (header : SPVHeader) : Prop := header.height > 0 ∧ header.height % 2016 = 0

instance (header : SPVHeader) : Decidable header.atRetarget := inferInstanceAs (Decidable (_ ∧ _))

def LightClient.store (lc : LightClient) (header : SPVHeader) : LightClient :=
  let lc := { lc with headers := lc.headers ++ [header] }
  if header.height > lc.bestHeight then { lc with bestHeight := header.height, bestHeader := some header } else lc

/-- One round of `validateAndAddHeaders`: the error it ends the call with, if any, and the client. A nil header panics. -/
def LightClient.addHeader (lc : LightClient) : Option SPVHeader → Option (Option String × LightClient)
  | none => none
  | some header =>
    match header.validatePoW with
    | none => none
    | some false => some (some s!"invalid PoW at height {header.height}", lc)
    | some true =>
      match lc.linkError header with
      | some e => some (some e, lc)
      | none =>
        match if header.atRetarget then verifyDifficulty header lc.headers else some true with
        | none => none
        | some false => some (some s!"difficulty adjustment failed at {header.height}", lc)
        | some true => some (none, lc.store header)

def LightClient.validateAndAddHeaders : List (Option SPVHeader) → LightClient → Option (Option String × LightClient)
  | [], lc => some (none, lc)
  | header :: rest, lc =>
    match lc.addHeader header with
    | none => none
    | some (some e, lc) => some (some e, lc)
    | some (none, lc) => validateAndAddHeaders rest lc

/-- Batches of headers one after the other, whatever the calls return. -/
def LightClient.receive : List (List (Option SPVHeader)) → LightClient → Option LightClient
  | [], lc => some lc
  | batch :: rest, lc =>
    match lc.validateAndAddHeaders batch with
    | none => none
    | some (_, lc) => receive rest lc

/-! ## Inclusion proofs -/

/-- `MerkleProofData`, without the header, which nothing here sets. -/
structure MerkleProofData where
  blockHash : Bytes := []
  txIndex : Int
  txHash : Bytes
  proof : List Bytes
  deriving DecidableEq, Repr

variable (C : Crypto)

def hash256 (data : Bytes) : Bytes := C.sha256 data

/-- `txID, _ := TxIDHex(tx)`: nothing is left of an error. -/
def txIDOf (tx : Transaction) : Bytes :=
  match txIDHex C tx with
  | .ok txID => txID
  | .error _ => []

def nextLevel : List Bytes → List Bytes
  | [] => []
  | [x] => [x]
  | x :: y :: rest => hash256 C (x ++ y) :: nextLevel rest

def proofStep (level : List Bytes) (idx : Nat) : List Bytes :=
  if idx % 2 = 0 then (if idx + 1 < level.length then [hexEncode (level.getD (idx + 1) [])] else [])
  else [hexEncode (level.getD (idx - 1) [])]

def buildMerkleProofLoop : Nat → List Bytes → Nat → List Bytes
  | 0, _, _ => []
  | n + 1, level, idx => if level.length > 1 then proofStep level idx ++ buildMerkleProofLoop n (nextLevel C level) (idx / 2) else []

/-- `buildMerkleProof`. A level has half the nodes of the one before, so the levels are fewer than the hashes. -/
def buildMerkleProof (hashes : List Bytes) (targetIdx : Nat) : List Bytes :=
  buildMerkleProofLoop C hashes.length hashes targetIdx

def createMerkleProof (txs : List Transaction) (target : Transaction) : Option MerkleProofData :=
  let hashes := txs.map fun tx => hash256 C (txIDOf C tx)
  match txs.findIdx? fun tx => txIDOf C tx = txIDOf C target with
  | none => none
  | some targetIdx => some { txIndex := targetIdx, txHash := txIDOf C target, proof := buildMerkleProof C hashes targetIdx }

/-- `b, _ := hex.DecodeString(s)`: the bytes before what is no hexadecimal digit. -/
def hexDecodeStart : Bytes → Bytes
  | p :: q :: rest =>
    match fromHexChar p, fromHexChar q with
    | some a, some b => (a <<< 4 ||| b) :: hexDecodeStart rest
    | _, _ => []
  | _ => []

def verifyMerkleProofLoop : List Bytes → Bytes → Int → Bytes
  | [], hash, _ => hash
  | step :: rest, hash, idx =>
    let stepHash := hexDecodeStart step
    if idx.tmod 2 = 0 then verifyMerkleProofLoop rest (hash256 C (hash ++ stepHash)) (idx.tdiv 2)
    else verifyMerkleProofLoop rest (hash256 C (stepHash ++ hash)) (idx.tdiv 2)

def verifyMerkleProof (p : Option MerkleProofData) (merkleRoot : Bytes) : Bool :=
  match p with
  | none => false
  | some p =>
    if p.proof = [] then false
    else decide (hexEncode (verifyMerkleProofLoop C p.proof (hash256 C p.txHash) p.txIndex) = merkleRoot)

end NeoCoin.Internal
