import NeoCoin.Internal.Chain

/-!
# Locks on accounts

`AccountManager` of `internal/blockchain/accounts.go` and `lockAccountsForBlock` of `chain.go`. A mutex of Go is not reentrant: the
goroutine that locks one it holds waits for itself, for ever.
-/

namespace NeoCoin.Internal

open GoLib

/-- `AccountManager`, without the mutexes. -/
structure AccountManager where
  shardMask : UInt64
  deriving DecidableEq, Repr

def defaultShards : UInt64 := 256

def newAccountManager (numShards : UInt64) : AccountManager := { shardMask := (if numShards = 0 then defaultShards else numShards) - 1 }

/-- `hashToShard`, with any mask. -/
def AccountManager.hashToShard (addr : Bytes) (mask : UInt64) : UInt64 := (fnvHash addr).toUInt64 &&& mask

/-- `LockAccount`: the shards held afterwards, or nothing when the goroutine holds the mutex already. -/
def AccountManager.lockAccount (am : AccountManager) (held : List UInt64) (addr : Bytes) : Option (List UInt64) :=
  let shard := hashToShard addr am.shardMask
  if shard ∈ held then none else some (shard :: held)

/-- The loop of `LockAccounts`, with the accounts in the order in which the map is ranged over. -/
def AccountManager.lockLoop (am : AccountManager) : List Bytes → List UInt64 → Option (List UInt64)
  | [], held => some held
  | addr :: rest, held =>
    match am.lockAccount held addr with
    | none => none
    | some held => lockLoop am rest held

/-- `LockAccounts` by a goroutine that holds none of the mutexes. -/
def AccountManager.lockAccounts (am : AccountManager) (range : List Bytes) : Option (List UInt64) := am.lockLoop range []

def collectAccount (C : Crypto) (accounts : Finset Bytes) (tx : Transaction) : Finset Bytes :=
  let accounts := insert tx.toAddress accounts
  if tx.type = .transfer then
    match fromAddress C tx with
    | .ok sender => insert sender accounts
    | .error _ => accounts
  else accounts

/-- `collectAccountsForBlock`, as a set. -/
def AccountManager.collectAccountsForBlock (C : Crypto) (b : Block) : Finset Bytes := b.transactions.foldl (collectAccount C) ∅

/-- An order in which a `range` loop may visit a set of accounts. -/
def RangesOver (accounts : Finset Bytes) (range : List Bytes) : Prop := (range : Multiset Bytes) = accounts.val

instance (accounts : Finset Bytes) (range : List Bytes) : Decidable (RangesOver accounts range) := inferInstanceAs (Decidable (_ = _))

/-- `lockAccountsForBlock`, which has the loop of `LockAccounts`; `range` is over `collectAccountsForBlock`. -/
def AccountManager.lockAccountsForBlock (am : AccountManager) (range : List Bytes) : Option (List UInt64) := am.lockLoop range []

end NeoCoin.Internal
