import NeoCoin.Block
import NeoCoin.Lib.MerkleBranch

/-!
# Merkle proofs

`MerkleProof` and `VerifyMerkleProof` of `blockchain/merkle.go`. An `int` is an integer here: an index is only compared and halved.
-/

namespace NeoCoin

open GoLib

/-- The loop of `MerkleProof` for at most `n` rounds: what has been appended to `branch` and `siblingLeft`, and the last level. -/
def merkleProofLoop (C : Crypto) : Nat → List Bytes → Nat → List Bytes → List Bool → List Bytes × List Bool × List Bytes
  | 0, level, _, branch, siblingLeft => (branch, siblingLeft, level)
  | n + 1, level, idx, branch, siblingLeft =>
    if level.length ≤ 1 then (branch, siblingLeft, level)
    else
      let next := Merkle.up (hashNode C) level
      if idx % 2 = 0 then
        -- the sibling is on the right, or it is the node itself
        let sib := if idx + 1 < level.length then level.getD (idx + 1) [] else level.getD idx []
        merkleProofLoop C n next (idx / 2) (branch ++ [sib]) (siblingLeft ++ [false])
      else merkleProofLoop C n next (idx / 2) (branch ++ [level.getD (idx - 1) []]) (siblingLeft ++ [true])

/-- `MerkleProof`: the branch, the sides and the root. -/
def merkleProof (C : Crypto) (leaves : List Bytes) (index : Int) : Result (List Bytes × List Bool × Bytes) := do
  failIf (leaves.length = 0) "empty leaves"
  failIf (index < 0 ∨ index ≥ leaves.length) "index out of range"
  failIf (∃ l ∈ leaves, l.length ≠ 32) "leaf must be 32 bytes"
  let (branch, siblingLeft, level) := merkleProofLoop C leaves.length (leaves.map (hashLeaf C)) index.toNat [] []
  .ok (branch, siblingLeft, level.headD [])

def verifyMerkleLoop (C : Crypto) : Bytes → List (Bytes × Bool) → Result Bytes
  | cur, [] => .ok cur
  | cur, (sib, siblingLeft) :: rest => do
    failIf (sib.length ≠ 32) "branch item must be 32 bytes"
    verifyMerkleLoop C (if siblingLeft then hashNode C sib cur else hashNode C cur sib) rest

/-- `VerifyMerkleProof`. The index is halved along the branch, and nothing is done with it. -/
def verifyMerkleProof (C : Crypto) (leaf : Bytes) (index : Int) (branch : List Bytes) (siblingLeft : List Bool) (expectedRoot : Bytes) :
    Result Bool := do
  failIf (leaf.length ≠ 32) "leaf must be 32 bytes"
  failIf (expectedRoot.length ≠ 32) "expected root must be 32 bytes"
  failIf (branch.length ≠ siblingLeft.length) "branch/side length mismatch"
  failIf (index < 0) "index must be >= 0"
  let cur ← verifyMerkleLoop C (hashLeaf C leaf) (branch.zip siblingLeft)
  .ok (decide (cur = expectedRoot))

end NeoCoin
