import NeoCoin.Queries
import NeoCoin.Theorems.MerkleProof
import NeoCoin.Theorems.Paths

/-!
# Transactions by their id

The index of the transfers is what one pass over the places of the chain writes (`reindexAllTxs_eq`). Two places are never written under
one id: a preimage has one sender and one nonce, and a sender uses a nonce once on a chain.
-/

namespace NeoCoin

open GoLib List

variable {b : Block} {t : Transaction} {j : Nat} {txid : Bytes} {loc : TxLocation} {s : State}

/-- The transactions of a chain, each with its block and its place in it. -/
def chainPlaces (blocks : List Block) : List (Block × Transaction × Nat) :=
  blocks.flatMap fun b => b.transactions.zipIdx.map (Prod.mk b)

def chainMessages (C : Crypto) (p : ConsensusParams) (blocks : List Block) : List Bytes :=
  blocks.flatMap fun b => signingMessages C p b.height b.transactions

/-- A transfer under an id, at place `j` of block `i` of a chain. -/
structure PlacedTransfer (C : Crypto) (p : ConsensusParams) (blocks : List Block) (txid : Bytes) (i j : Nat) (b : Block) (t : Transaction) :
    Prop where
  block : blocks[i]? = some b
  tx : b.transactions[j]? = some t
  transfer : t.type = .transfer
  id : txIDHexForConsensus C t p b.height = .ok txid

namespace QueryAux

open SigningAux CommitmentAux PathAux MerkleProofAux

variable {C : Crypto} {p : ConsensusParams} {blocks : List Block}

/-! ## Places -/

theorem mem_chainPlaces : (b, t, j) ∈ chainPlaces blocks ↔ b ∈ blocks ∧ b.transactions[j]? = some t := by
  unfold chainPlaces
  simp only [mem_flatMap, mem_map, Prod.mk.injEq, mk_mem_zipIdx_iff_getElem?, Prod.exists]
  constructor
  · rintro ⟨b', hb', t', j', ht', rfl, rfl, rfl⟩
    exact ⟨hb', ht'⟩
  · rintro ⟨hb, ht⟩
    exact ⟨b, hb, t, j, ht, rfl, rfl, rfl⟩

theorem map_chainPlaces : (chainPlaces blocks).map (fun e => e.2.1) = blocks.flatMap (·.transactions) := by
  unfold chainPlaces
  rw [map_flatMap]
  refine flatMap_congr fun b _ => ?_
  rw [map_map]
  exact zipIdx_map_fst 0 b.transactions

theorem map_transferPlaces :
    ((chainPlaces blocks).filter fun e => e.2.1.type = .transfer).map (fun e => e.2.1) = chainTransfers blocks := by
  rw [chainTransfers, ← map_chainPlaces, filter_map]
  rfl

/-! ## What is written into the index -/

/-- The entry of a place, which only a transfer with an id has. -/
def txEntry (C : Crypto) (p : ConsensusParams) (e : Block × Transaction × Nat) : Option (Bytes × TxLocation) :=
  if e.2.1.type ≠ .transfer then none
  else
    match txIDHexForConsensus C e.2.1 p e.1.height with
    | .error _ => none
    | .ok txid => some (txid, { height := e.1.height, blockHashHex := e.1.hashHex, index := e.2.2 })

theorem txEntry_eq_some_iff : txEntry C p (b, t, j) = some (txid, loc) ↔
      t.type = .transfer ∧ txIDHexForConsensus C t p b.height = .ok txid ∧ loc = ⟨b.height, b.hashHex, j⟩ := by
  unfold txEntry
  by_cases htype : t.type = .transfer
  · cases hid : txIDHexForConsensus C t p b.height with
    | error e => simp [htype]
    | ok id => simp [htype, eq_comm]
  · simp [htype]

theorem reindexAllTxs_eq :
    reindexAllTxs C p blocks = ((chainPlaces blocks).filterMap (txEntry C p)).foldl (fun m x => m.set x.1 x.2) ∅ := by
  rw [foldl_filterMap, chainPlaces, foldl_flatMap, reindexAllTxs]
  congr 1
  funext m b
  rw [foldl_map, indexTxsForBlock]
  congr 1
  funext m e
  unfold indexTx txEntry
  dsimp only
  split
  · rfl
  · cases txIDHexForConsensus C e.1 p b.height with
    | error _ => rfl
    | ok _ => rfl

/-! ## One id, one place -/

theorem verified_of_applyBlocks {s' : State} (h : applyBlocks C p blocks s = (.ok (), s')) (hb : b ∈ blocks)
    (ht : t ∈ b.transactions) (htype : t.type = .transfer) : VerifiedTransfer C t p b.height := by
  induction blocks generalizing s with
  | nil => exact absurd hb not_mem_nil
  | cons b' rest ih =>
    obtain ⟨⟨cb, ts, hacc⟩, hrest⟩ := (applyBlocks_cons_ok_iff C p).mp h
    rcases mem_cons.mp hb with rfl | hb
    · rw [hacc.transactions] at ht
      rcases mem_cons.mp ht with rfl | ht
      · rw [hacc.type] at htype
        cases htype
      · exact (transfersAccepted_forall hacc.transfers t ht).2
    · exact ih hrest hb

theorem txID_ok_iff {height : UInt64} :
    txIDHexForConsensus C t p height = .ok txid ↔ ∃ pre, signingPreimage C t p height = .ok pre ∧ txid = hexEncode (C.sha256 pre) := by
  unfold txIDHexForConsensus bytesToHex32
  simp only [bind_eq_ok, failIf_eq_ok, signingHash_ok_iff, Except.ok.injEq]
  constructor
  · rintro ⟨_, ⟨pre, hpre, rfl⟩, _, -, rfl⟩
    exact ⟨pre, hpre, rfl⟩
  · rintro ⟨pre, hpre, rfl⟩
    exact ⟨_, ⟨pre, hpre, rfl⟩, (), not_not.mpr (C.sha256_length pre), rfl⟩

theorem place_unique (h : applyBlocks C p blocks ∅ = (.ok (), s)) (hcf : C.CollisionFreeOn (chainMessages C p blocks))
    {b' : Block} {t' : Transaction} {j' : Nat} (hb : b ∈ blocks) (ht : b.transactions[j]? = some t)
    (htype : t.type = .transfer) (hid : txIDHexForConsensus C t p b.height = .ok txid) (hb' : b' ∈ blocks)
    (ht' : b'.transactions[j']? = some t') (htype' : t'.type = .transfer)
    (hid' : txIDHexForConsensus C t' p b'.height = .ok txid) : b = b' ∧ t = t' ∧ j = j' := by
  have hmem := mem_of_getElem? ht
  have hmem' := mem_of_getElem? ht'
  obtain ⟨pre, hpre, rfl⟩ := txID_ok_iff.mp hid
  obtain ⟨pre', hpre', heq⟩ := txID_ok_iff.mp hid'
  have hmsg : pre ∈ chainMessages C p blocks := mem_flatMap.mpr ⟨b, hb, mem_signingMessages hmem hpre⟩
  have hmsg' : pre' ∈ chainMessages C p blocks := mem_flatMap.mpr ⟨b', hb', mem_signingMessages hmem' hpre'⟩
  obtain rfl := hcf pre hmsg pre' hmsg' (hexEncode_inj.mp heq)
  have hpair := sender_nonce_of_preimage htype htype' (verified_of_applyBlocks h hb hmem htype)
    (verified_of_applyBlocks h hb' hmem' htype') hpre hpre'
  -- a sender uses a nonce once
  have hnodup := NonceAux.pairs_nodup_of_applyBlocks h
  rw [← map_transferPlaces, map_map] at hnodup
  have hplace : (b, t, j) = (b', t', j') := by
    refine inj_on_of_nodup_map hnodup ?_ ?_ (Prod.ext hpair.1 hpair.2)
    · exact mem_filter.mpr ⟨mem_chainPlaces.mpr ⟨hb, ht⟩, by simpa using htype⟩
    · exact mem_filter.mpr ⟨mem_chainPlaces.mpr ⟨hb', ht'⟩, by simpa using htype'⟩
  obtain ⟨hblock, hrest⟩ := Prod.mk.inj hplace
  obtain ⟨htx, hindex⟩ := Prod.mk.inj hrest
  exact ⟨hblock, htx, hindex⟩

theorem lookup_reindexAllTxs_iff (h : applyBlocks C p blocks ∅ = (.ok (), s)) (hcf : C.CollisionFreeOn (chainMessages C p blocks)) :
    (reindexAllTxs C p blocks).lookup txid = some loc ↔
      ∃ b ∈ blocks, ∃ t j, b.transactions[j]? = some t ∧ t.type = .transfer ∧ txIDHexForConsensus C t p b.height = .ok txid ∧
        loc = ⟨b.height, b.hashHex, j⟩ := by
  have hentry : ∀ x, x ∈ (chainPlaces blocks).filterMap (txEntry C p) ↔ ∃ b ∈ blocks, ∃ t j, b.transactions[j]? = some t ∧
      t.type = .transfer ∧ txIDHexForConsensus C t p b.height = .ok x.1 ∧ x.2 = ⟨b.height, b.hashHex, j⟩ := by
    rintro ⟨id, l⟩
    rw [mem_filterMap]
    constructor
    · rintro ⟨⟨b, t, j⟩, hplace, hentry⟩
      obtain ⟨hb, ht⟩ := mem_chainPlaces.mp hplace
      exact ⟨b, hb, t, j, ht, txEntry_eq_some_iff.mp hentry⟩
    · rintro ⟨b, hb, t, j, ht, hrest⟩
      exact ⟨(b, t, j), mem_chainPlaces.mpr ⟨hb, ht⟩, txEntry_eq_some_iff.mpr hrest⟩
  rw [reindexAllTxs_eq, GoMap.lookup_foldl_set]
  · constructor
    · rintro (⟨⟨id, l⟩, hx, rfl, rfl⟩ | ⟨hempty, -⟩)
      · exact (hentry _).mp hx
      · exact absurd hempty (by simp)
    · intro hplace
      exact Or.inl ⟨(txid, loc), (hentry (txid, loc)).mpr hplace, rfl, rfl⟩
  · intro x hx y hy hkey
    obtain ⟨b, hb, t, j, ht, htype, hid, hloc⟩ := (hentry x).mp hx
    obtain ⟨b', hb', t', j', ht', htype', hid', hloc'⟩ := (hentry y).mp hy
    obtain ⟨rfl, -, rfl⟩ := place_unique h hcf hb ht htype hid hb' ht' htype' (hkey ▸ hid')
    rw [hloc, hloc']

theorem txByID_eq_some_iff {σ : Type} {bc : Blockchain σ} (hlen : bc.blocks.1.length < 2 ^ 63) :
    bc.txByID txid = some (t, loc) ↔ bc.txIndex.lookup txid = some loc ∧
      ∃ b, bc.blocks.1[loc.height.toNat]? = some b ∧ b.transactions[loc.index]? = some t ∧ b.hashHex = loc.blockHashHex := by
  have hheight : ∀ h : UInt64, ¬h ≥ UInt64.ofNat bc.blocks.1.length ↔ h.toNat < bc.blocks.1.length := by
    intro h
    rw [ge_iff_le, UInt64.not_le, UInt64.lt_iff_toNat_lt, UInt64.toNat_ofNat_of_lt' (show bc.blocks.1.length < 2 ^ 64 by omega)]
  unfold Blockchain.txByID
  cases bc.txIndex.lookup txid with
  | none => simp
  | some found =>
    simp only [Option.some.injEq]
    constructor
    · intro h
      split at h
      · cases h
      · rename_i hin
        have hlt := (hheight found.height).mp hin
        split at h
        · cases h
        · rename_i tx htx
          split at h
          · cases h
          · rename_i hhash
            cases h
            rw [getD_eq_getElem _ _ hlt] at htx hhash
            exact ⟨rfl, _, List.getElem?_eq_getElem hlt, htx, not_not.mp hhash⟩
    · rintro ⟨rfl, b, hb, ht, hhash⟩
      obtain ⟨hlt, -⟩ := List.getElem?_eq_some_iff.mp hb
      rw [if_neg ((hheight found.height).mpr hlt), getD_eq_getElem?_getD, hb, Option.getD_some]
      simp only [ht, hhash, ne_eq, not_true_eq_false, if_false]

end QueryAux

open QueryAux

/-- In every state of a run, `TxByID` finds exactly the transfers of the canonical chain by their ids, and no other place of the chain
has a transfer of this id. No two of the messages signed on the chain collide, and the chain is not longer than a slice can be. -/
theorem txByID_exact {σ : Type} (C : Crypto) (S : ChainStore σ) (handled : List Block) (bc : Blockchain σ)
    (hrun : FreshRun C S handled bc) (hlen : bc.blocks.1.length < 2 ^ 63)
    (hcf : C.CollisionFreeOn (chainMessages C bc.consensus bc.blocks.1)) (txid : Bytes) :
    ((bc.txByID txid).isSome ↔ ∃ i j b t, PlacedTransfer C bc.consensus bc.blocks.1 txid i j b t) ∧
      (∀ t loc, bc.txByID txid = some (t, loc) ↔ ∃ b, PlacedTransfer C bc.consensus bc.blocks.1 txid loc.height.toNat loc.index b t ∧
        loc.height = b.height ∧ loc.blockHashHex = b.hashHex) ∧
      ∀ i j b t i' j' b' t', PlacedTransfer C bc.consensus bc.blocks.1 txid i j b t →
        PlacedTransfer C bc.consensus bc.blocks.1 txid i' j' b' t' → i = i' ∧ j = j' := by
  obtain ⟨cfg, genesis, hinv⟩ := PathAux.chainInv_freshRun hrun
  have happ := hinv.derived.state
  have hplace : ∀ {i : Nat} {b : Block}, bc.blocks.1[i]? = some b → b.height.toNat = i := by
    intro i b hb
    obtain ⟨hi, -⟩ := List.getElem?_eq_some_iff.mp hb
    rw [hinv.linked.height hb, UInt64.toNat_ofNat_of_lt' (show i < 2 ^ 64 by omega)]
  have hfound : ∀ t loc, bc.txByID txid = some (t, loc) ↔
      ∃ b, PlacedTransfer C bc.consensus bc.blocks.1 txid loc.height.toNat loc.index b t ∧ loc.height = b.height ∧
        loc.blockHashHex = b.hashHex := by
    intro t loc
    rw [txByID_eq_some_iff hlen, hinv.derived.txIndex, lookup_reindexAllTxs_iff happ hcf]
    constructor
    · rintro ⟨⟨b, hb, t', j, ht', htype, hid, rfl⟩, b', hb', ht, -⟩
      obtain ⟨i, hi⟩ := mem_iff_getElem?.mp hb
      rw [hplace hi, hi] at hb'
      cases hb'
      cases ht'.symm.trans ht
      exact ⟨b, ⟨by rw [hplace hi]; exact hi, ht, htype, hid⟩, rfl, rfl⟩
    · rintro ⟨b, hat, hheight, hhash⟩
      refine ⟨⟨b, mem_of_getElem? hat.block, t, loc.index, hat.tx, hat.transfer, hat.id, ?_⟩, b, hat.block, hat.tx, hhash.symm⟩
      rw [← hheight, ← hhash]
  refine ⟨?_, hfound, ?_⟩
  · rw [Option.isSome_iff_exists]
    constructor
    · rintro ⟨⟨t, loc⟩, h⟩
      obtain ⟨b, hat, -⟩ := (hfound t loc).mp h
      exact ⟨_, _, b, t, hat⟩
    · rintro ⟨i, j, b, t, hat⟩
      refine ⟨(t, ⟨b.height, b.hashHex, j⟩), (hfound _ _).mpr ⟨b, ?_, rfl, rfl⟩⟩
      exact ⟨by rw [hplace hat.block]; exact hat.block, hat.tx, hat.transfer, hat.id⟩
  · intro i j b t i' j' b' t' hat hat'
    obtain ⟨rfl, -, rfl⟩ := place_unique happ hcf (mem_of_getElem? hat.block) hat.tx hat.transfer hat.id
      (mem_of_getElem? hat'.block) hat'.tx hat'.transfer hat'.id
    exact ⟨(hplace hat.block).symm.trans (hplace hat'.block), rfl⟩

open Sample

namespace Sample

theorem paid_freshRun : FreshRun crypto store [genesis, block] (addBlock crypto store node (some block) fun _ => 2).chain :=
  ⟨1, minerAddress, raw, false, (), node, genesis, [block], node_loads, rfl, rfl,
    Runs.step Runs.start (Step.add node (some block) fun _ => 2), rfl⟩

theorem paid_blocks : (addBlock crypto store node (some block) fun _ => 2).chain.blocks.1 = [genesis, block] := by
  simp only [crypto, goCrypto_eq]
  decide +kernel

theorem paid_consensus : (addBlock crypto store node (some block) fun _ => 2).chain.consensus = params :=
  (step_startedWith (Step.add (S := store) node (some block) fun _ => 2)).1

theorem chainMessages_collisionFree : crypto.CollisionFreeOn (chainMessages crypto params [genesis, block]) := by
  refine Crypto.CollisionFreeOn.of_nodup ?_
  simp only [crypto, goCrypto_eq]
  decide +kernel

def paidID : Bytes := hexEncode overspendHash

theorem paidID_eq : txIDHexForConsensus crypto overspend params 1 = .ok paidID := by
  simp only [crypto, goCrypto_eq]
  decide +kernel

end Sample

/-- A node that adds a block with a transfer to its genesis block has the transfer by its id. -/
theorem txByID_exact_paid : ((addBlock crypto store Sample.node (some Sample.block) fun _ => 2).chain.txByID paidID).isSome = true := by
  refine (txByID_exact crypto store [Sample.genesis, Sample.block] _ paid_freshRun ?_ ?_
    paidID).1.mpr ?_
  · rw [paid_blocks]
    decide
  · rw [paid_blocks, paid_consensus]
    exact chainMessages_collisionFree
  · rw [paid_blocks, paid_consensus]
    exact ⟨1, 1, Sample.block, overspend, rfl, rfl, rfl, paidID_eq⟩

end NeoCoin
