import NeoCoin.Lib.Merkle
import NeoCoin.Transaction
import Mathlib.Data.List.Sort

/-!
# Blocks: commitment, header, work and size

The transaction commitments (`merkle.go`, `types.go`), the header that is hashed (`encoding_bin.go`, `types.go`), proof of work
(`pow.go`), work and size (`work.go`, `block_size.go`), and the rules on difficulty and time (`difficulty.go`, `time_rules.go`) of
`blockchain/`.
-/

namespace NeoCoin

open GoLib

/-! ## The commitment to the transactions -/

section

variable (C : Crypto)

def hashLeaf (leaf : Bytes) : Bytes := C.sha256 (0x00 :: leaf)

def hashNode (left right : Bytes) : Bytes := C.sha256 (0x01 :: left ++ right)

def merkleRoot (leaves : List Bytes) : Result Bytes :=
  if leaves.any (fun l => l.length ≠ 32) then .error "leaf must be 32 bytes"
  else
    match Merkle.root (hashNode C) (leaves.map (hashLeaf C)) with
    | none => .error "empty leaves"
    | some r => .ok r

def Block.signingHashes (b : Block) (p : ConsensusParams) : Result (List Bytes) :=
  b.transactions.mapM fun tx => txSigningHashForConsensus C tx p b.height

def Block.txRootLegacyForConsensus (b : Block) (p : ConsensusParams) : Result Bytes := do
  let hashes ← b.signingHashes C p
  .ok (C.sha256 hashes.flatten)

def Block.merkleRootV2ForConsensus (b : Block) (p : ConsensusParams) : Result Bytes := do
  let leaves ← b.signingHashes C p
  merkleRoot C leaves

def Block.commitmentRoot (b : Block) (p : ConsensusParams) : Result Bytes :=
  if b.version = 2 then b.merkleRootV2ForConsensus C p else b.txRootLegacyForConsensus C p

/-! ## The header -/

/-- The 32 bytes the binary header has for the previous hash: zeros for none. -/
def headerPrev (prevHash : Bytes) : Bytes := if prevHash.length = 32 then prevHash else List.replicate 32 0

def blockHeaderPreimageBinaryV1 (b : Block) (nonce : UInt64) (p : ConsensusParams) : Result Bytes := do
  failIf (b.timestampUnix ≤ 0) "invalid timestamp"
  failIf (b.prevHash.bytes.length ≠ 0 ∧ b.prevHash.bytes.length ≠ 32) "invalid prevHash length"
  failIf (b.hash.bytes.length ≠ 0 ∧ b.hash.bytes.length ≠ 32) "invalid hash length"
  let miner ← (decodeHex32 b.minerAddress).orError "invalid minerAddress"
  let root ← b.commitmentRoot C p
  .ok (binaryEncodingVersionV1 :: leBytes 4 b.version.toNat ++ leBytes 8 b.height.toNat ++
    leBytes 8 b.timestampUnix.toUInt64.toNat ++ headerPrev b.prevHash.bytes ++ root ++ leBytes 4 b.difficultyBits.toNat ++ miner ++
    leBytes 8 nonce.toNat)

/-- The JSON header. Its two versions differ in the commitment and in the name of its field. -/
def headerJSON (b : Block) (nonce : UInt64) (rootField : String) (root : Bytes) : Bytes :=
  Json.object [Json.field "version" (Json.nat b.version.toNat), Json.field "height" (Json.nat b.height.toNat),
    Json.field "timestampUnix" (Json.int b.timestampUnix.toInt),
    Json.field "prevHashB64" (Json.string (base64Encode b.prevHash.bytes)), Json.field rootField (Json.string (hexEncode root)),
    Json.field "difficultyBits" (Json.nat b.difficultyBits.toNat), Json.field "minerAddress" (Json.string b.minerAddress),
    Json.field "nonce" (Json.nat nonce.toNat)]

def Block.headerBytesForConsensus (b : Block) (p : ConsensusParams) (nonce : UInt64) : Result Bytes :=
  if p.binaryEncodingActive b.height then blockHeaderPreimageBinaryV1 C b nonce p
  else do
    let root ← b.commitmentRoot C p
    .ok (headerJSON b nonce (if b.version = 2 then "merkleRootHex" else "txRootHex") root)

/-! ## Proof of work -/

/-- The target of `NewProofOfWork`: a digest must be below it. -/
def powTarget (b : Block) : Nat := 2 ^ (256 - b.difficultyBits).toNat

def powRunLoop (p : ConsensusParams) (b : Block) : Nat → UInt64 → Option (Result (UInt64 × Bytes))
  | 0, _ => none
  | n + 1, nonce =>
    match b.headerBytesForConsensus C p nonce with
    | .error e => some (.error e)
    | .ok header =>
      let sum := C.sha256 header
      if beNat sum < powTarget b then some (.ok (nonce, sum)) else powRunLoop p b n (nonce + 1)

/-- `ProofOfWork.Run`. After `2 ^ 64` rounds the loop only repeats itself: `none` is a search that does not return. -/
def powRun (p : ConsensusParams) (b : Block) : Option (Result (UInt64 × Bytes)) := powRunLoop C p b (2 ^ 64) 0

/-- `ProofOfWork.Validate`. -/
def powValidate (p : ConsensusParams) (b : Block) : Result Bool := do
  let header ← b.headerBytesForConsensus C p b.nonce
  let sum := C.sha256 header
  if b.hash.bytes.length ≠ 0 ∧ b.hash.bytes ≠ sum then .ok false
  else .ok (decide (beNat sum < powTarget b))

end

def maxDifficultyBits : UInt32 := 256

def workForDifficultyBits (bits : UInt32) : Nat :=
  let bits := if bits > maxDifficultyBits then maxDifficultyBits else bits
  if bits = 0 then 0 else 2 ^ bits.toNat

/-! ## Size -/

/-- `json.Marshal` of a transaction. -/
def transactionJSON (t : Transaction) : Bytes :=
  Json.object ([Json.field "type" (Json.string t.type.name), Json.field "chainId" (Json.nat t.chainID.toNat)] ++
    omitEmpty (t.fromPubKey.bytes = []) (Json.field "fromPubKey" (Json.goSlice t.fromPubKey)) ++
    [Json.field "toAddress" (Json.string t.toAddress), Json.field "amount" (Json.nat t.amount.toNat),
      Json.field "fee" (Json.nat t.fee.toNat)] ++
    omitEmpty (t.nonce = 0) (Json.field "nonce" (Json.nat t.nonce.toNat)) ++
    omitEmpty (t.data = []) (Json.field "data" (Json.string t.data)) ++
    omitEmpty (t.signature.bytes = []) (Json.field "signature" (Json.goSlice t.signature)))

/-- `json.Marshal` of a block. A nil slice of transactions is the empty list here; no block without transactions is applied. -/
def blockJSON (b : Block) : Bytes :=
  Json.object [Json.field "version" (Json.nat b.version.toNat), Json.field "height" (Json.nat b.height.toNat),
    Json.field "timestampUnix" (Json.int b.timestampUnix.toInt), Json.field "prevHash" (Json.goSlice b.prevHash),
    Json.field "nonce" (Json.nat b.nonce.toNat), Json.field "difficultyBits" (Json.nat b.difficultyBits.toNat),
    Json.field "minerAddress" (Json.string b.minerAddress),
    Json.field "transactions" (if b.transactions = [] then str "null" else Json.array (b.transactions.map transactionJSON)),
    Json.field "hash" (Json.goSlice b.hash)]

def blockSizeForConsensus (b : Block) : Nat := (blockJSON b).length

/-! ## Difficulty -/

variable (p : ConsensusParams)

def clampDifficultyBits (bits : UInt32) : UInt32 :=
  let bits := if bits < 1 then 1 else bits
  let bits := if bits > maxDifficultyBits then maxDifficultyBits else bits
  if bits < p.minDifficultyBits then p.minDifficultyBits
  else if bits > p.maxDifficultyBits then p.maxDifficultyBits
  else bits

/-- The adjustment of `nextDifficultyBitsFromPath` over a full window: `older` is the block one window before the parent. -/
def retargetBits (parent older : Block) : UInt32 :=
  let actualSpanSec := parent.timestampUnix - older.timestampUnix
  let actualSpanSec := if actualSpanSec ≤ 0 then 1 else actualSpanSec
  let targetSec := p.targetBlockTime / 1000000000
  let targetSec := if targetSec ≤ 0 then 1 else targetSec
  let expectedSpanSec := p.difficultyWindow * targetSec
  let expectedSpanSec := if expectedSpanSec ≤ 0 then 1 else expectedSpanSec
  -- an extreme span is cut off before it decides the direction
  let actualSpanSec := if actualSpanSec < expectedSpanSec / 4 then expectedSpanSec / 4 else actualSpanSec
  let actualSpanSec := if actualSpanSec > expectedSpanSec * 4 then expectedSpanSec * 4 else actualSpanSec
  let next := Int64.ofNat parent.difficultyBits.toNat
  let next :=
    if actualSpanSec < expectedSpanSec / 2 then next + Int64.ofNat p.difficultyMaxStep.toNat
    else if actualSpanSec > expectedSpanSec * 2 then next - Int64.ofNat p.difficultyMaxStep.toNat
    else next
  let next := if next < 1 then 1 else next
  clampDifficultyBits p next.toUInt64.toUInt32

/-- `nextDifficultyBitsFromPath`. The window is positive in accepted parameters, so that the index it names exists. -/
def nextDifficultyBitsFromPath (path : List Block) : UInt32 :=
  match path.getLast? with
  | none => p.genesisDifficultyBits
  | some parent =>
    let parentIdx := path.length - 1
    if p.difficultyEnable = false then
      if parent.difficultyBits = 0 then p.genesisDifficultyBits else clampDifficultyBits p parent.difficultyBits
    else if (parentIdx : Int) < p.difficultyWindow.toInt then clampDifficultyBits p parent.difficultyBits
    else retargetBits p parent (path.getD (parentIdx - p.difficultyWindow.toInt.toNat) default)

def expectedDifficultyBitsForBlockIndex (path : List Block) (idx : Nat) : UInt32 :=
  if idx = 0 ∨ path.length ≤ idx then 0 else nextDifficultyBitsFromPath p (path.take idx)

/-! ## Time -/

/-- `medianTimePast` of the last blocks of a path up to an index. -/
def medianTimePast (path : List Block) (endIdx : Nat) : Int64 :=
  let window := if p.medianTimePastWindow ≤ 0 then 11 else p.medianTimePastWindow
  let start := endIdx + 1 - window.toInt.toNat
  let ts := ((path.take (endIdx + 1)).drop start).map (·.timestampUnix)
  (ts.insertionSort (· ≤ ·)).getD (ts.length / 2) 0

/-- `validateBlockTime`, with the reading `now` of the clock. -/
def validateBlockTime (path : List Block) (idx : Nat) (now : Int64) : Result Unit :=
  if idx = 0 ∨ path.length ≤ idx then .ok ()
  else do
    let prev := path.getD (idx - 1) default
    let cur := path.getD idx default
    failIf (cur.timestampUnix ≤ prev.timestampUnix) s!"timestamp not increasing at height {cur.height}"
    failIf (cur.timestampUnix ≤ medianTimePast p path (idx - 1)) s!"timestamp too old at height {cur.height}"
    failIf (p.maxTimeDrift > 0 ∧ cur.timestampUnix > now + p.maxTimeDrift) s!"timestamp too far in future at height {cur.height}"

end NeoCoin
