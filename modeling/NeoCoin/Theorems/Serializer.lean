import NeoCoin.Internal.Serializer
import NeoCoin.Theorems.Locking
import NeoCoin.Theorems.SpvProof

/-!
# Blocks through the serializer

The header fields of a block come back from the serializer. The hash, and of each transaction the chain id, the public key, the data and
the signature, do not.
-/

namespace NeoCoin.Internal.Serializer

open GoLib

structure SameTx (tx tx' : Transaction) : Prop where
  type : tx'.type = tx.type
  chainID : tx'.chainID = tx.chainID
  fromPubKey : tx'.fromPubKey.bytes = tx.fromPubKey.bytes
  toAddress : tx'.toAddress = tx.toAddress
  amount : tx'.amount = tx.amount
  fee : tx'.fee = tx.fee
  nonce : tx'.nonce = tx.nonce
  data : tx'.data = tx.data
  signature : tx'.signature.bytes = tx.signature.bytes

structure SameHeader (b b' : Block) : Prop where
  version : b'.version = b.version
  height : b'.height = b.height
  timestampUnix : b'.timestampUnix = b.timestampUnix
  prevHash : b'.prevHash.bytes = b.prevHash.bytes
  nonce : b'.nonce = b.nonce
  difficultyBits : b'.difficultyBits = b.difficultyBits
  minerAddress : b'.minerAddress = b.minerAddress

/-- A block comes back with its header fields, its hash and its transactions. -/
def RoundTrips {β : Type} (C : Crypto) (P : Proto β) (b : Block) : Prop :=
  ∃ b', deserializeBlock P (serializeBlock C P b) = .ok b' ∧ SameHeader b b' ∧ b'.hash.bytes = b.hash.bytes ∧
    List.Forall₂ SameTx b.transactions b'.transactions

/-- A transaction of which everything is in its message. -/
structure Plain (tx : Transaction) : Prop where
  type : tx.type = .coinbase ∨ tx.type = .transfer
  chainID : tx.chainID = 0
  fromPubKey : tx.fromPubKey.bytes = []
  data : tx.data = []
  signature : tx.signature.bytes = []

section

variable {β : Type} {C : Crypto} {P : Proto β} {b : Block}

theorem deserializeBlock_serializeBlock : deserializeBlock P (serializeBlock C P b) = .ok (protoToBlock (blockToProto C b)) := by
  simp only [deserializeBlock, serializeBlock, P.unmarshal_marshal]
  rfl

theorem bytes_decodeHex (a : Bytes) : (decodeHex (hexEncode a)).bytes = a := by
  unfold decodeHex
  split
  · rename_i hnil
    exact (hexEncode_inj.mp (hnil.trans (show [] = hexEncode [] from rfl))).symm
  · exact hexDecodeStart_hexEncode a

theorem sameHeader_roundTrip : SameHeader b (protoToBlock (blockToProto C b)) where
  version := by simp [protoToBlock, blockToProto, headerToProto]
  height := by simp [protoToBlock, blockToProto, headerToProto]
  timestampUnix := rfl
  prevHash := bytes_decodeHex _
  nonce := by
    have hlt : b.nonce.toNat < 256 ^ 8 := b.nonce.toNat_lt
    simp [protoToBlock, blockToProto, headerToProto, decodeUint64, encodeUint64, hexDecodeStart_hexEncode, beNat_beBytes hlt]
  difficultyBits := by simp [protoToBlock, blockToProto, headerToProto]
  minerAddress := rfl

theorem sameTx_iff_plain (tx : Transaction) : SameTx tx (protoToTx (txToProto C tx)) ↔ Plain tx := by
  constructor
  · intro h
    refine ⟨?_, h.chainID.symm, h.fromPubKey.symm, h.data.symm, h.signature.symm⟩
    rw [← h.type, protoToTx]
    split
    · exact Or.inl rfl
    · exact Or.inr rfl
  · intro h
    refine ⟨?_, h.chainID.symm, h.fromPubKey.symm, rfl, ?_, ?_, ?_, h.data.symm, h.signature.symm⟩
    · rcases h.type with htype | htype <;> simp [protoToTx, txToProto, htype]
    · simp [protoToTx, txToProto]
    · simp [protoToTx, txToProto]
    · simp [protoToTx, txToProto]

theorem roundTrips_iff : RoundTrips C P b ↔ b.hash.bytes = [] ∧ ∀ tx ∈ b.transactions, Plain tx := by
  have htxs : List.Forall₂ SameTx b.transactions ((b.transactions.map (txToProto C)).map protoToTx) ↔
      ∀ tx ∈ b.transactions, Plain tx := by
    rw [List.map_map, List.forall₂_map_right_iff, List.forall₂_same]
    exact forall₂_congr fun tx _ => sameTx_iff_plain tx
  rw [← htxs]
  constructor
  · rintro ⟨b', hb', -, hhash, hsame⟩
    cases deserializeBlock_serializeBlock.symm.trans hb'
    exact ⟨hhash.symm, hsame⟩
  · rintro ⟨hhash, hsame⟩
    exact ⟨_, deserializeBlock_serializeBlock, sameHeader_roundTrip, hhash.symm, hsame⟩

theorem hash_ne_nil_of_added {σ : Type} {S : ChainStore σ} {bc : Blockchain σ} {clock : Nat → Int64} {r : AddResult σ}
    (h : addBlock C S bc (some b) clock = some r) (herr : r.err = none) : b.hash.bytes ≠ [] := by
  obtain ⟨cand, hacc⟩ := accepted_of_err_none _ _ _ h herr
  have hexternal := hacc.external
  simp only [checkExternal, bind_eq_ok, failIf_eq_ok, List.length_eq_zero_iff] at hexternal
  obtain ⟨_, -, _, -, _, hhash, -⟩ := hexternal
  exact hhash

end

/-- A block comes back from the serializer if and only if it has no hash and everything in its transactions is in their messages; a block
that `AddBlock` accepts has a hash. -/
theorem serialized_block_iff {β : Type} (C : Crypto) (P : Proto β) (b : Block) :
    (RoundTrips C P b ↔ b.hash.bytes = [] ∧ ∀ tx ∈ b.transactions, Plain tx) ∧
      ∀ (σ : Type) (S : ChainStore σ) (bc : Blockchain σ) (clock : Nat → Int64) (r : AddResult σ),
        addBlock C S bc (some b) clock = some r → r.err = none → ¬RoundTrips C P b :=
  ⟨roundTrips_iff, fun _ _ _ _ _ h herr hround => hash_ne_nil_of_added h herr (roundTrips_iff.mp hround).1⟩

open Internal.Sample

def Sample.proto : Proto PbBlock := { marshal := id, unmarshal := .ok, unmarshal_marshal := fun _ => rfl }

/-- The block that a node mines on its first one is accepted by a node that has the first one, and does not come back. -/
theorem accepted_block_lost : ∃ bc1 b bc2 b' r, loaded = some (.ok bc1) ∧
    mineTransfers crypto (boltStore gob) bc1 [] (fun _ => 4) = some (.ok b, bc2) ∧
    addBlock crypto (boltStore gob) bc2 (some b') (fun _ => 9) = some r ∧ r.err = none ∧ ¬RoundTrips crypto Sample.proto b' := by
  have hmine : mines (mineTransfers crypto (boltStore gob) node [] fun _ => 4) (fun _ bc2 =>
      mines (mineTransfers crypto (boltStore gob) bc2 [] fun _ => 5) fun b' _ =>
        (addBlock crypto (boltStore gob) bc2 (some b') fun _ => 9).any fun r => decide (r.err = none)) = true := by
    simp only [crypto, goCrypto_eq]
    decide +kernel
  obtain ⟨b, bc2, hfirst, hmine⟩ := exists_of_mines hmine
  obtain ⟨b', _, -, hmine⟩ := exists_of_mines hmine
  obtain ⟨r, hadd, hmine⟩ := (Option.any_eq_true _ _).mp hmine
  have herr := of_decide_eq_true hmine
  refine ⟨node, b, bc2, b', r, node_loads, hfirst, hadd, herr, fun hround => ?_⟩
  exact hash_ne_nil_of_added hadd herr (roundTrips_iff.mp hround).1

end NeoCoin.Internal.Serializer
