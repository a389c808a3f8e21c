import NeoCoin.Lib.GoMap
import NeoCoin.Lib.Sha256Eval
import Mathlib.Data.UInt

/-!
# The data of a chain

Accounts, transactions, blocks and consensus parameters, as `types.go`, `difficulty.go` and `monetary_policy.go` of `blockchain/` declare
them. `FromPubKey` and `Signature` keep the nil slice apart from the empty one. The digest and the signature check are a parameter,
`Crypto`: some function to 32 bytes and some predicate. A statement that needs more says so with `Crypto.CollisionFreeOn`, on the messages
that are hashed.
-/

namespace NeoCoin

open GoLib

structure Crypto where
  /-- `sha256.Sum256`. -/
  sha256 : Bytes → Bytes
  /-- A digest is 32 bytes long. -/
  sha256_length : ∀ m, (sha256 m).length = 32
  /-- `ed25519.Verify(publicKey, message, sig)`. -/
  ed25519Verify : Bytes → Bytes → Bytes → Bool

def Crypto.CollisionFreeOn (C : Crypto) (messages : List Bytes) : Prop :=
  ∀ m ∈ messages, ∀ m' ∈ messages, C.sha256 m = C.sha256 m' → m = m'

instance (C : Crypto) (messages : List Bytes) : Decidable (C.CollisionFreeOn messages) :=
  inferInstanceAs (Decidable (∀ m ∈ messages, ∀ m' ∈ messages, C.sha256 m = C.sha256 m' → m = m'))

theorem Crypto.CollisionFreeOn.mono {C : Crypto} {l l' : List Bytes} (h : C.CollisionFreeOn l') (hl : ∀ m ∈ l, m ∈ l') :
    C.CollisionFreeOn l :=
  fun m hm m' hm' heq => h m (hl m hm) m' (hl m' hm') heq

theorem Crypto.CollisionFreeOn.of_nodup {C : Crypto} {l : List Bytes} (h : (l.map C.sha256).Nodup) : C.CollisionFreeOn l :=
  fun _ hm _ hm' heq => List.inj_on_of_nodup_map h hm hm' heq

section

variable (signed : List (Bytes × Bytes × Bytes))

/-- SHA-256 itself, with a signature check that accepts exactly the listed triples of key, message and signature. -/
def goCrypto : Crypto where
  sha256 := Sha256.sum256
  sha256_length := Sha256.sum256_length
  ed25519Verify pub msg sig := signed.contains (pub, msg, sig)

noncomputable def evalCrypto : Crypto where
  sha256 := Sha256.eval
  sha256_length m := Sha256.sum256_eq ▸ Sha256.sum256_length m
  ed25519Verify pub msg sig := signed.contains (pub, msg, sig)

theorem goCrypto_eq : goCrypto signed = evalCrypto signed := by
  simp only [goCrypto, evalCrypto, Sha256.sum256_eq]

end

structure Account where
  balance : UInt64 := 0
  nonce : UInt64 := 0
  deriving DecidableEq, Repr

/-- The zero value, which reading a missing account gives. -/
instance : Inhabited Account := ⟨{}⟩

@[simp] theorem Account.default_nonce : (default : Account).nonce = 0 := rfl

/-- The account state, `map[string]Account`. -/
abbrev State := GoMap Bytes Account

/-- `TransactionType`, a string with two known values. -/
inductive TransactionType where
  | coinbase
  | transfer
  | other (name : Bytes)
  deriving DecidableEq, Repr

def TransactionType.name : TransactionType → Bytes
  | .coinbase => str "coinbase"
  | .transfer => str "transfer"
  | .other name => name

structure Transaction where
  type : TransactionType
  chainID : UInt64 := 0
  fromPubKey : GoSlice := none
  toAddress : Bytes := []
  amount : UInt64 := 0
  fee : UInt64 := 0
  nonce : UInt64 := 0
  data : Bytes := []
  signature : GoSlice := none
  deriving DecidableEq, Repr

structure Block where
  version : UInt32 := 0
  height : UInt64 := 0
  timestampUnix : Int64 := 0
  prevHash : GoSlice := none
  nonce : UInt64 := 0
  difficultyBits : UInt32 := 0
  minerAddress : Bytes := []
  transactions : List Transaction := []
  hash : GoSlice := none
  deriving DecidableEq, Repr

instance : Inhabited Block := ⟨{}⟩

@[ext]
structure MonetaryPolicy where
  initialBlockReward : UInt64 := 0
  halvingInterval : UInt64 := 0
  minerFeeShare : UInt8 := 0
  tailEmission : UInt64 := 0
  deriving DecidableEq, Repr

/-- `ConsensusParams`. The target block time is a `time.Duration`, in nanoseconds. -/
@[ext]
structure ConsensusParams where
  difficultyEnable : Bool := false
  targetBlockTime : Int64 := 0
  difficultyWindow : Int64 := 0
  difficultyMaxStep : UInt32 := 0
  minDifficultyBits : UInt32 := 0
  maxDifficultyBits : UInt32 := 0
  genesisDifficultyBits : UInt32 := 0
  medianTimePastWindow : Int64 := 0
  maxTimeDrift : Int64 := 0
  maxBlockSize : UInt64 := 0
  merkleEnable : Bool := false
  merkleActivationHeight : UInt64 := 0
  binaryEncodingEnable : Bool := false
  binaryEncodingActivationHeight : UInt64 := 0
  monetaryPolicy : MonetaryPolicy := {}
  deriving DecidableEq, Repr

def ConsensusParams.binaryEncodingActive (p : ConsensusParams) (height : UInt64) : Bool :=
  p.binaryEncodingEnable && decide (p.binaryEncodingActivationHeight ≤ height)

def blockVersionForHeight (p : ConsensusParams) (height : UInt64) : UInt32 :=
  if p.merkleEnable ∧ p.merkleActivationHeight ≤ height then 2 else 1

end NeoCoin
