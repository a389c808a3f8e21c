import NeoCoin.Chain
import NeoCoin.Lib.OrdMap

/-!
# The store on disk

`BoltStore` of `blockchain/store_bolt.go`: three buckets of an ordered key-value database, whose transactions are committed as a whole or
not at all. The bytes `encoding/gob` writes for a block stand in a type of their own.
-/

namespace NeoCoin

open GoLib

/-- An encoding of blocks that reads back what it wrote, as `encoding/gob` is. -/
structure Gob (β : Type) where
  encode : Block → β
  decode : β → Result Block
  decode_encode : ∀ b, decode (encode b) = .ok b

/-- The buckets `blocksBucket`, `canonBucket` and `metaBucket`. -/
structure Bolt (β : Type) where
  blocksB : OrdMap Bytes β
  canonB : OrdMap Bytes Bytes
  metaB : OrdMap Bytes Bytes
  deriving DecidableEq

def metaTipHash : Bytes := str "tipHash"
def metaTipHeight : Bytes := str "tipHeight"
def metaRulesHash : Bytes := str "rulesHash"
def metaGenesisHash : Bytes := str "genesisHash"

def u64be (v : UInt64) : Bytes := beBytes 8 v.toNat

namespace Bolt

variable {β : Type}

def empty : Bolt β := { blocksB := .empty, canonB := .empty, metaB := .empty }

/-- `db.Update`: what the transaction leaves is kept if it does not fail. -/
def update (st : Bolt β) (tx : Bolt β → Result (Bolt β)) : Result Unit × Bolt β :=
  match tx st with
  | .error e => (.error e, st)
  | .ok st' => (.ok (), st')

section

variable (G : Gob β) (st : Bolt β)

def putNew (b : Block) : Bolt β :=
  match st.blocksB.get b.hash.bytes with
  | some _ => st
  | none => { st with blocksB := st.blocksB.put b.hash.bytes (G.encode b) }

def putBlock (b : Block) : Result Unit × Bolt β :=
  if b.hash.bytes.length = 0 then (.error "missing block hash", st) else st.update fun st => .ok (st.putNew G b)

def readAllBlocks : Result (GoMap Bytes Block) :=
  st.blocksB.entries.foldlM (fun out e => do
    let blk ← G.decode e.2
    .ok (out.set (hexEncode e.1) blk)) ∅

def readBlock (hash : Bytes) : Result Block :=
  match st.blocksB.get hash with
  | none => .error "canonical block missing"
  | some raw => G.decode raw

def readCanonical : Result (List Block) := st.canonB.entries.mapM fun e => st.readBlock G e.2

/-- The check of `AppendCanonical` that the block goes on top of the chain. -/
def checkAppend (st : Bolt β) (b : Block) : Result Unit :=
  if b.height > 0 then
    match st.canonB.get (u64be (b.height - 1)) with
    | none => .error "missing previous canonical height"
    | some prevHash => failIf (prevHash ≠ b.prevHash.bytes) "prevhash mismatch for append"
  else .ok ()

def putCanon (st : Bolt β) (b : Block) : Bolt β := { st with canonB := st.canonB.put (u64be b.height) b.hash.bytes }

def setTip (st : Bolt β) (hash : Bytes) (height : UInt64) : Bolt β :=
  { st with metaB := (st.metaB.put metaTipHash hash).put metaTipHeight (u64be height) }

def appendCanonical (b : Block) : Result Unit × Bolt β :=
  if b.hash.bytes.length = 0 then (.error "missing block hash", st)
  else st.update fun st => do
    let st := st.putNew G b
    st.checkAppend b
    .ok ((st.putCanon b).setTip b.hash.bytes b.height)

def clearCanon (st : Bolt β) : Bolt β := { st with canonB := (st.canonB.entries.map Prod.fst).foldl OrdMap.delete st.canonB }

/-- One round of the loop of `RewriteCanonical`, with the tip so far. -/
def rewriteBlock (G : Gob β) (acc : Bolt β × Option (Bytes × UInt64)) (b : Block) : Result (Bolt β × Option (Bytes × UInt64)) := do
  failIf (b.hash.bytes.length = 0) "missing block hash"
  .ok ((acc.1.putNew G b).putCanon b, some (b.hash.bytes, b.height))

def rewriteCanonical (blocks : List Block) : Result Unit × Bolt β :=
  st.update fun st => do
    let (st, tip) ← blocks.foldlM (rewriteBlock G) (st.clearCanon, none)
    match tip with
    | none => .ok { st with metaB := (st.metaB.delete metaTipHash).delete metaTipHeight }
    | some (hash, height) => .ok (st.setTip hash height)

end

/-- `GetRulesHash` and `GetGenesisHash`: a hash among the metadata, where nothing is as good as no entry. -/
def getHash (key : Bytes) (st : Bolt β) : Result (Option Bytes) :=
  match st.metaB.get key with
  | none => .ok none
  | some v => if v.length = 0 then .ok none else .ok (some v)

/-- `PutRulesHash` and `PutGenesisHash`, which call the hash by its name. -/
def putHash (name : String) (key : Bytes) (st : Bolt β) (hash : Bytes) : Result Unit × Bolt β :=
  if hash.length ≠ 32 then (.error s!"{name} must be 32 bytes", st)
  else st.update fun st => .ok { st with metaB := st.metaB.put key hash }

def getRulesHash : Bolt β → Result (Option Bytes) := getHash metaRulesHash

def putRulesHash : Bolt β → Bytes → Result Unit × Bolt β := putHash "rules hash" metaRulesHash

def getGenesisHash : Bolt β → Result (Option Bytes) := getHash metaGenesisHash

def putGenesisHash : Bolt β → Bytes → Result Unit × Bolt β := putHash "genesis hash" metaGenesisHash

end Bolt

def boltStore {β : Type} (G : Gob β) : ChainStore (Bolt β) where
  readCanonical := Bolt.readCanonical G
  appendCanonical := Bolt.appendCanonical G
  rewriteCanonical := Bolt.rewriteCanonical G
  putBlock := Bolt.putBlock G
  readAllBlocks := Bolt.readAllBlocks G
  getRulesHash := Bolt.getRulesHash
  putRulesHash := Bolt.putRulesHash
  getGenesisHash := Bolt.getGenesisHash
  putGenesisHash := Bolt.putGenesisHash

end NeoCoin
