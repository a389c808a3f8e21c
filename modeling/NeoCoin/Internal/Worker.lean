import NeoCoin.Internal.Block

/-!
# Mining workers

`mineBlock` of `internal/mining/worker.go`, which searches a nonce for a template with a header and a target of its own. The search ends
when it is stopped, so that only a number of its rounds is modelled.
-/

namespace NeoCoin.Internal.Worker

open GoLib

/-- `WorkForDifficultyBits` of `internal/mining`. -/
def workForDifficultyBits (bits : UInt32) : Nat := if bits = 0 then 0 else 2 ^ (256 - (if bits > 256 then 256 else bits).toNat)

/-- `varint`, of a `uint64`. -/
def varint64 (val : UInt64) : Bytes := if val < 0xFD then [val.toUInt8] else [0xFD, val.toUInt8, (val >>> 8).toUInt8]

/-- `varint`, of a `uint32`. -/
def varint32 (val : UInt32) : Bytes := if val < 0xFD then [val.toUInt8] else [0xFD, val.toUInt8, (val >>> 8).toUInt8]

/-- `prepareHeader`. `varint` gives nothing for the timestamp, which is an `int64`. -/
def prepareHeader (b : Block) (nonce : UInt64) : Bytes :=
  varint32 b.version ++ b.prevHash.bytes ++ [] ++ varint32 b.difficultyBits ++ varint64 nonce

/-- The loop of `mineBlock`, for at most `n` rounds: the block that is submitted. -/
def mineBlockLoop (C : Crypto) (b : Block) : Nat → UInt64 → Option Block
  | 0, _ => none
  | n + 1, nonce =>
    let hash := C.sha256 (prepareHeader b nonce)
    if beNat hash ≤ workForDifficultyBits b.difficultyBits then some { b with hash := some hash, nonce := nonce }
    else mineBlockLoop C b n (nonce + 1)

/-- `mineBlock` submits `b'` for the template `b`. -/
def Mines (C : Crypto) (b b' : Block) : Prop := ∃ n, mineBlockLoop C b n 0 = some b'

end NeoCoin.Internal.Worker
