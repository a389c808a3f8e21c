import NeoCoin.Internal.LightClient

/-!
# Blocks as protobuf messages

`Serializer` of `internal/serialization/serializer.go`, with the messages of `proto/`. How a message is marshalled is a parameter, `Proto`,
of which only is known that it can be read back.
-/

namespace NeoCoin.Internal.Serializer

open GoLib

/-- `np.Header`. -/
structure PbHeader where
  version : Int64
  prevBlock : Bytes
  merkleRoot : Bytes
  timestamp : Int64
  height : Int64
  difficulty : Int64
  nonce : Bytes
  miner : Bytes

/-- `np.Transaction`. -/
structure PbTransaction where
  txid : Bytes
  fromAddr : Bytes
  toAddr : Bytes
  amount : Int64
  fee : Int64
  nonce : Int64
  signature : GoSlice
  isCoinbase : Bool

/-- `np.Block`. -/
structure PbBlock where
  header : PbHeader
  transactions : List PbTransaction

/-- `proto.Marshal` and `proto.Unmarshal` of a block. -/
structure Proto (β : Type) where
  marshal : PbBlock → β
  unmarshal : β → Result PbBlock
  unmarshal_marshal : ∀ pb, unmarshal (marshal pb) = .ok pb

/-- `decodeHex`. `encodeHex` is `hexEncode`, which gives the empty text for no bytes. -/
def decodeHex (s : Bytes) : GoSlice := if s = [] then none else some (hexDecodeStart s)

def encodeUint64 (n : UInt64) : Bytes := hexEncode (beBytes 8 n.toNat)

/-- `decodeUint64`. A sum that has no room loses its first bytes. -/
def decodeUint64 (s : Bytes) : UInt64 := .ofNat (beNat (hexDecodeStart s))

def headerToProto (b : Block) : PbHeader :=
  { version := b.version.toUInt64.toInt64, prevBlock := hexEncode b.prevHash.bytes, merkleRoot := hexEncode b.hash.bytes
    timestamp := b.timestampUnix, height := b.height.toInt64, difficulty := b.difficultyBits.toUInt64.toInt64
    nonce := encodeUint64 b.nonce, miner := b.minerAddress }

def txToProto (C : Crypto) (tx : Transaction) : PbTransaction :=
  { txid := (txIDHex C tx).toOption.getD [], fromAddr := fromAddressSafe C tx, toAddr := tx.toAddress, amount := tx.amount.toInt64
    fee := tx.fee.toInt64, nonce := tx.nonce.toInt64, signature := tx.signature, isCoinbase := tx.type = .coinbase }

def blockToProto (C : Crypto) (b : Block) : PbBlock := { header := headerToProto b, transactions := b.transactions.map (txToProto C) }

def protoToTx (pb : PbTransaction) : Transaction :=
  { type := if pb.isCoinbase then .coinbase else .transfer, chainID := 0, toAddress := pb.toAddr, amount := pb.amount.toUInt64
    fee := pb.fee.toUInt64, nonce := pb.nonce.toUInt64 }

def protoToBlock (pb : PbBlock) : Block :=
  { version := pb.header.version.toUInt64.toUInt32, height := pb.header.height.toUInt64, timestampUnix := pb.header.timestamp
    prevHash := decodeHex pb.header.prevBlock, nonce := decodeUint64 pb.header.nonce
    difficultyBits := pb.header.difficulty.toUInt64.toUInt32, minerAddress := pb.header.miner
    transactions := pb.transactions.map protoToTx, hash := none }

def serializeBlock {β : Type} (C : Crypto) (P : Proto β) (b : Block) : β := P.marshal (blockToProto C b)

def deserializeBlock {β : Type} (P : Proto β) (data : β) : Result Block := do
  let pb ← P.unmarshal data
  .ok (protoToBlock pb)

end NeoCoin.Internal.Serializer
