import NeoCoin.Internal.Forks

/-!
# Calls in goroutines

`mineOneBlock` of `internal/blockchain/chain.go` holds the lock of the chain twice: to build a template, and to append the block once it
has a nonce. Each critical section is a step here; `AddBlock` is one step, since it holds the lock to its end and reads nothing before it
that is ever written.
-/

namespace NeoCoin.Internal

open GoLib

/-- Where a goroutine is in a call of `mineOneBlock` or of `AddBlock`. The block that is returned has no roots: another one may write
them. -/
inductive Goroutine where
  | mineOneBlock (transfers : List Transaction) (now : Int64)
  | searching (template : Block)
  | appended (b : Block)
  | checkpointed (b : Block)
  | computed (b : Block) (c : StateCommitment)
  | written (b : Block) (c : StateCommitment)
  | addBlock (block : Option Block) (clock : Nat → Int64)
  | returned (b : Option NeoCoin.Block)

def Goroutine.IsCall : Goroutine → Prop
  | .mineOneBlock _ _ | .addBlock _ _ => True
  | _ => False

def Goroutine.step {σ : Type} (C : Crypto) (S : ChainStore σ) (bc : Blockchain σ) : Goroutine → Option (Blockchain σ × Goroutine)
  | .mineOneBlock transfers now =>
    match checkAllMinable C bc.consensus bc.chainID (bc.blocks.tip.height + 1) transfers 0 with
    | .error _ => some (bc, .returned none)
    | .ok fees => some (bc, .searching (mineTemplate bc transfers fees now))
  | .searching template =>
    match powRun C bc.consensus template with
    | none => none
    | some (.error _) => some (bc, .returned none)
    | some (.ok (nonce, hash)) =>
      let newBlock := { template with nonce := nonce, hash := some hash }
      match mineAppend C S bc newBlock with
      | none => none
      | some (.error _, bc) => some (bc, .returned none)
      | some (.ok false, bc) => some (bc, .returned none)
      | some (.ok true, bc) => some (bc, .appended newBlock)
  | .appended b => some (mineCheckpoint C S bc b.height, .checkpointed b)
  | .checkpointed b =>
    if ¬shouldCommit b.height then some (bc, .returned (some b.toBlock))
    else
      match computeStateCommitment C bc .unlocked b.height.toInt64 with
      | none => none
      | some (.error _) => some (bc, .returned (some b.toBlock))
      | some (.ok c) => some (bc, .computed b c)
  | .computed b c =>
    match S.writeCommitment bc.store c with
    | (.error _, store) => some ({ bc with store := store }, .returned (some b.toBlock))
    | (.ok (), store) => some ({ bc with store := store }, .written b c)
  | .written b c => some (bc.setRoots b.height c, .returned (some b.toBlock))
  | .addBlock block clock =>
    match NeoCoin.Internal.addBlock C S bc block clock with
    | none => none
    | some r => some (r.chain, .returned none)
  | .returned b => some (bc, .returned b)

def Goroutine.run {σ : Type} (C : Crypto) (S : ChainStore σ) : Nat → Goroutine → Blockchain σ → Option (Blockchain σ × Goroutine)
  | 0, g, bc => some (bc, g)
  | n + 1, g, bc =>
    match g.step C S bc with
    | none => none
    | some (bc', g') => Goroutine.run C S n g' bc'

end NeoCoin.Internal
