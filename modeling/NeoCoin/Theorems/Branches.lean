import NeoCoin.Theorems.Database

/-!
# The tree of the second implementation

Every block in the tree stands under the digest of its header, and the canonical chain is the best one in the tree (`TreeInv`). The roots
of a commitment change blocks in the tree, so that all of this is about the blocks without their roots (`Blockchain.bareTree`).
-/

namespace NeoCoin.Internal

open GoLib ForkTree List

variable {p : ConsensusParams} {b : Block} {height : UInt64} {s : State} {clock : Nat → Int64}
  {cand : Candidate} {transfers : List Transaction}

/-! ## Headers -/

def headerMessages (C : Crypto) (p : ConsensusParams) (bs : List Block) : List Bytes :=
  bs.filterMap fun b => (b.headerBytesForConsensus C p b.nonce).toOption

/-- The header of a block without its roots, which are not in it. -/
def bareHeader (C : Crypto) (p : ConsensusParams) (b : NeoCoin.Block) : Result Bytes :=
  Block.headerBytesForConsensus C { toBlock := b } p b.nonce

def Hashed (C : Crypto) (p : ConsensusParams) (b : NeoCoin.Block) : Prop :=
  ∃ header, bareHeader C p b = .ok header ∧ b.hash.bytes = C.sha256 header

theorem Hashed.length {C : Crypto} {b : NeoCoin.Block} (h : Hashed C p b) : b.hash.bytes.length = 32 := by
  obtain ⟨header, -, hhash⟩ := h
  rw [hhash, C.sha256_length]

theorem bareHeader_mem {C : Crypto} {bs : List Block} {b : NeoCoin.Block} {header : Bytes}
    (hb : b ∈ bs.map Block.toBlock) (h : bareHeader C p b = .ok header) : header ∈ headerMessages C p bs := by
  obtain ⟨b', hb', rfl⟩ := mem_map.mp hb
  refine mem_filterMap.mpr ⟨b', hb', ?_⟩
  rw [show b'.headerBytesForConsensus C p b'.nonce = .ok header from h]
  rfl

theorem hashed_of_powRun {C : Crypto} {nonce : UInt64} {hash : Bytes} (hb : b.hash.bytes = [])
    (h : powRun C p b = some (.ok (nonce, hash))) : Hashed C p { b.toBlock with nonce := nonce, hash := some hash } := by
  obtain ⟨header, hheader, rfl⟩ := powRunLoop_ok h
  refine ⟨header, ?_, rfl⟩
  rw [← hheader]
  unfold bareHeader Block.headerBytesForConsensus blockHeaderPreimageBinaryV1
  simp only [GoSlice.bytes_some, hb, C.sha256_length, length_nil, ne_eq, not_true_eq_false, and_false, false_and]
  rfl

theorem hashed_of_powValidate {C : Crypto} (h : powValidate C p b = .ok true) (hhash : b.hash.bytes.length ≠ 0) : Hashed C p b.toBlock := by
  unfold powValidate at h
  obtain ⟨header, hheader, h⟩ := bind_eq_ok.mp h
  refine ⟨header, hheader, ?_⟩
  by_contra hne
  -- a hash that is there and differs is refused
  simp only [if_pos (And.intro hhash hne)] at h
  exact absurd (Except.ok.inj h) (by simp)

theorem bareHeader_json {C : Crypto} {b : NeoCoin.Block} {header : Bytes} (h : bareHeader C p b = .ok header)
    (haddress : validateAddress C b.minerAddress = .ok ()) :
    ∃ root, header = headerJSON b b.nonce (if b.version = 2 then "merkleRootHex" else "txRootHex") root := by
  unfold bareHeader Block.headerBytesForConsensus at h
  split at h
  · exact absurd (StartAux.rawAddress_of_header h) (StartAux.not_rawAddress_of_prefix (prefix_of_validateAddress haddress))
  · obtain ⟨root, -, h⟩ := bind_eq_ok.mp h
    exact ⟨root, (Except.ok.inj h).symm⟩

/-! ## The invariant -/

def bareParent (b : NeoCoin.Block) : Option Bytes := parentKey { toBlock := b }

def Blockchain.bareTree {σ : Type} (bc : Blockchain σ) : GoMap Bytes NeoCoin.Block := bc.blocksByHash.mapVals Block.toBlock

/-- A block as it stands in the tree, one of those that were handled. -/
structure Stored (C : Crypto) (p : ConsensusParams) (handled : List Block) (k : Bytes) (b : NeoCoin.Block) : Prop where
  key : k = b.hashHex
  hashed : Hashed C p b
  address : validateAddress C b.minerAddress = .ok ()
  bits : b.difficultyBits ≠ 0
  mem : b ∈ handled.map Block.toBlock

structure TreeInv {σ : Type} (C : Crypto) (handled : List Block) (bc : Blockchain σ) : Prop where
  stored : ∀ k b, bc.bareTree.lookup k = some b → Stored C bc.consensus handled k b
  rooted : Rooted bareParent bc.bareTree
  best : Best bareParent blockWork (· < ·) bc.bareTree bc.bestTipHash (bc.blocks.1.map Block.toBlock)
  work : bc.canonicalWork = pathWork bc.blocks.1

theorem pathWork_eq (blocks : List Block) : pathWork blocks = total blockWork (blocks.map Block.toBlock) := by
  unfold pathWork total
  rw [map_map]
  rfl

theorem Stored.mono {C : Crypto} {handled : List Block} {k : Bytes} {b : NeoCoin.Block}
    (h : Stored C p handled k b) (bs : List Block) : Stored C p (handled ++ bs) k b :=
  ⟨h.key, h.hashed, h.address, h.bits, by rw [map_append]; exact mem_append_left _ h.mem⟩

section

variable {σ : Type} {C : Crypto} {S : ChainStore σ} {handled : List Block} {bc bc' : Blockchain σ}

theorem TreeInv.mono (h : TreeInv C handled bc) (bs : List Block) : TreeInv C (handled ++ bs) bc :=
  ⟨fun k b hb => (h.stored k b hb).mono bs, h.rooted, h.best, h.work⟩

/-- The invariant is about the chain, the tree, the tip and the work only. -/
theorem TreeInv.congr (h : TreeInv C handled bc) (hcons : bc'.consensus = bc.consensus) (htree : bc'.bareTree = bc.bareTree)
    (hblocks : bc'.blocks.1.map Block.toBlock = bc.blocks.1.map Block.toBlock) (htip : bc'.bestTipHash = bc.bestTipHash)
    (hwork : bc'.canonicalWork = bc.canonicalWork) : TreeInv C handled bc' := by
  refine ⟨?_, ?_, ?_, ?_⟩
  · rw [hcons, htree]
    exact h.stored
  · rw [htree]
    exact h.rooted
  · rw [htree, hblocks, htip]
    exact h.best
  · rw [hwork, h.work, pathWork_eq, pathWork_eq, hblocks]

theorem TreeInv.lookup_chain (h : TreeInv C handled bc) (hb : b ∈ bc.blocks.1) : bc.bareTree.lookup b.hashHex = some b.toBlock := by
  obtain ⟨k, hk⟩ := h.best.chain.exists_lookup (mem_map_of_mem hb)
  rw [← hk, (h.stored _ _ hk).key]

theorem TreeInv.tip (h : TreeInv C handled bc) : Stored C bc.consensus handled bc.bestTipHash bc.blocks.tip.toBlock := by
  obtain ⟨v, hv, hlast⟩ := h.best.chain.getLast
  have htip : v = bc.blocks.tip.toBlock := by
    rw [List.getLast?_map, List.getLast?_eq_some_getLast bc.blocks.2] at hlast
    exact (Option.some.inj hlast).symm
  rw [← htip]
  exact h.stored _ _ hv

theorem bareTree_set (b : Block) : (bc.blocksByHash.set b.hashHex b).mapVals Block.toBlock = bc.bareTree.set b.hashHex b.toBlock :=
  GoMap.mapVals_set _ _ _ _

theorem stored_set {m : GoMap Bytes NeoCoin.Block} {b : NeoCoin.Block}
    (h : ∀ k v, m.lookup k = some v → Stored C p handled k v) (hb : Stored C p handled b.hashHex b) (k : Bytes) (v : NeoCoin.Block)
    (hv : (m.set b.hashHex b).lookup k = some v) : Stored C p handled k v := by
  rw [GoMap.lookup_set] at hv
  split at hv
  · rename_i hk
    cases hv
    rw [hk]
    exact hb
  · exact h k v hv

/-- A block on top of the tip has a new hash: with the same header it would have the same parent, and a best tip has no child. -/
theorem TreeInv.fresh (h : TreeInv C handled bc) (hfree : C.CollisionFreeOn (headerMessages C bc.consensus handled))
    {b : NeoCoin.Block} (hb : Stored C bc.consensus handled b.hashHex b) (hprev : b.prevHash.bytes = bc.blocks.tip.hash.bytes)
    (hheight : b.height ≠ 0) : b.hashHex ∉ bc.bareTree := by
  refine h.best.notMem fun b' hb' => ?_
  have hb' := h.stored _ _ hb'
  refine ⟨?_, TreeAux.blockWork_pos hb'.bits⟩
  obtain ⟨header, hheader, hhash⟩ := hb.hashed
  obtain ⟨header', hheader', hhash'⟩ := hb'.hashed
  -- the two headers have one digest
  have hdigest : C.sha256 header = C.sha256 header' := by
    rw [← hhash, ← hhash']
    exact hexEncode_inj.mp hb'.key
  obtain rfl := hfree header (bareHeader_mem hb.mem hheader) header' (bareHeader_mem hb'.mem hheader') hdigest
  obtain ⟨root, hroot⟩ := bareHeader_json hheader hb.address
  obtain ⟨root', hroot'⟩ := bareHeader_json hheader' hb'.address
  obtain ⟨hsame, hprevs⟩ := HeaderAux.headerJSON_inj (fun version => if version = 2 then "merkleRootHex" else "txRootHex")
    (hroot.symm.trans hroot')
  have htip := h.tip
  have hlen := htip.hashed.length
  have hprev' : b'.prevHash.bytes = bc.blocks.tip.hash.bytes := hprevs.symm.trans hprev
  have hne : ¬(b'.height = 0 ∨ b'.prevHash.bytes.length = 0) := by
    rw [hprev', hlen, ← hsame.height]
    simp [hheight]
  unfold bareParent parentKey
  rw [if_neg hne, htip.key]
  exact congrArg (fun x => some (hexEncode x)) hprev'

/-! ## Every call keeps it -/

theorem Committed.bareTree (hc : Committed C S bc height bc') (h : TreeInv C handled bc) : bc'.bareTree = bc.bareTree := by
  cases hc with
  | skipped => rfl
  | failed c _ => rfl
  | stored c _ _ _ _ =>
    unfold Blockchain.setRoots
    simp only
    split
    · rfl
    · rename_i b hb
      unfold Blockchain.bareTree
      simp only
      split
      · -- the block is in the tree already
        rw [GoMap.mapVals_set]
        apply Finmap.ext_lookup
        intro k
        rw [GoMap.lookup_set]
        split
        · rename_i hk
          rw [hk]
          exact (h.lookup_chain (mem_of_getElem? hb)).symm
        · rfl
      · rfl

theorem TreeInv.committed (h : TreeInv C handled bc) (hc : Committed C S bc height bc') : TreeInv C handled bc' :=
  h.congr (by rw [hc.same]) (hc.bareTree h) hc.blocks (by rw [hc.same]) (by rw [hc.same])

theorem bareTree_extend (s : State) (st : σ) (hlen : ¬b.hash.bytes.length = 0) :
    (bc.extend C b s st).bareTree = bc.bareTree.set b.hashHex b.toBlock := by
  unfold Blockchain.bareTree Blockchain.extend addToIndex
  simp only [if_neg hlen]
  exact bareTree_set b

/-- The tree, the chain and the work after a block on top of the tip. -/
theorem TreeInv.extend {st : σ} (h : TreeInv C handled bc)
    (hfree : C.CollisionFreeOn (headerMessages C bc.consensus handled)) (hb : Stored C bc.consensus handled b.hashHex b.toBlock)
    (hprev : b.prevHash.bytes = bc.blocks.tip.hash.bytes) (hheight : b.height ≠ 0) :
    b.hashHex ∉ bc.bareTree ∧ TreeInv C handled (bc.extend C b s st) := by
  have hfresh := h.fresh hfree hb hprev hheight
  have hlen : ¬b.hash.bytes.length = 0 := by
    rw [hb.hashed.length]
    decide
  have htree : (bc.extend C b s st).bareTree = bc.bareTree.set b.hashHex b.toBlock := bareTree_extend s st hlen
  have hblocks : (bc.extend C b s st).blocks.1.map Block.toBlock = bc.blocks.1.map Block.toBlock ++ [b.toBlock] := by
    simp [Blockchain.extend, Path.snoc]
  have htip := h.tip
  have hparent : bareParent b.toBlock = some bc.bestTipHash := by
    have hne : ¬(b.height = 0 ∨ b.prevHash.bytes.length = 0) := by
      rw [hprev, htip.hashed.length]
      simp [hheight]
    unfold bareParent parentKey
    rw [if_neg hne, htip.key]
    exact congrArg (fun x => some (hexEncode x)) hprev
  have hchain : ChainTo bareParent (bc.bareTree.set b.hashHex b.toBlock) b.hashHex (bc.blocks.1.map Block.toBlock ++ [b.toBlock]) :=
    ChainTo.child (GoMap.lookup_set_self _ _ _) hparent (h.best.chain.set b.toBlock hfresh)
  have hpos := TreeAux.blockWork_pos hb.bits
  have hmore : total blockWork (bc.blocks.1.map Block.toBlock) <
      total blockWork (bc.blocks.1.map Block.toBlock ++ [b.toBlock]) := by
    simp only [total_append, total_singleton]
    omega
  refine ⟨hfresh, ?_, ?_, ?_, ?_⟩
  · rw [htree]
    exact stored_set h.stored hb
  · rw [htree]
    exact h.rooted.set hfresh hchain
  · rw [htree, hblocks]
    exact h.best.insert_better TreeAux.lt_trans h.rooted hfresh hchain (Or.inl hmore)
  · rw [pathWork_eq, hblocks, total_append, total_singleton, ← pathWork_eq, ← h.work]
    rfl

theorem chain_of_accepted (hacc : Accepted C S bc clock b cand) :
    ChainTo bareParent (bc.bareTree.set b.hashHex b.toBlock) b.hashHex (cand.path.1.map Block.toBlock) := by
  rw [← bareTree_set]
  exact hacc.valid.chain.map Block.toBlock fun _ => rfl

theorem TreeInv.fresh_accepted (hacc : Accepted C S bc clock b cand) : b.hashHex ∉ bc.bareTree := by
  unfold Blockchain.bareTree
  rw [GoMap.mem_mapVals]
  exact hacc.fresh

/-- A block that is not better stays beside the chain. -/
theorem TreeInv.beside (h : TreeInv C handled bc)
    (hacc : Accepted C S bc clock b cand) (hb : Stored C bc.consensus handled b.hashHex b.toBlock)
    (hworse : ¬isBetter cand.work b.hashHex bc.canonicalWork bc.bestTipHash) : TreeInv C handled (bc.insert S b) := by
  have hfresh := TreeInv.fresh_accepted hacc
  have hchain := chain_of_accepted hacc
  have htree : (bc.insert S b).bareTree = bc.bareTree.set b.hashHex b.toBlock := bareTree_set b
  rw [isBetter, h.work, hacc.valid.work, pathWork_eq, pathWork_eq] at hworse
  refine ⟨?_, ?_, ?_, h.work⟩
  · rw [htree]
    exact stored_set h.stored hb
  · rw [htree]
    exact h.rooted.set hfresh hchain
  · rw [htree]
    exact h.best.insert_not_better TreeAux.lt_of_not_lt h.rooted hfresh hchain hworse

/-- A better block is the new tip, whatever becomes of the store. -/
theorem TreeInv.adopt (h : TreeInv C handled bc)
    (hacc : Accepted C S bc clock b cand) (hb : Stored C bc.consensus handled b.hashHex b.toBlock)
    (hbetter : isBetter cand.work b.hashHex bc.canonicalWork bc.bestTipHash) (st : σ) :
    TreeInv C handled { (bc.insert S b).adopt cand b.hashHex with store := st } := by
  have hfresh := TreeInv.fresh_accepted hacc
  have hchain := chain_of_accepted hacc
  have htree : Blockchain.bareTree { (bc.insert S b).adopt cand b.hashHex with store := st } =
      bc.bareTree.set b.hashHex b.toBlock := bareTree_set b
  rw [isBetter, h.work, hacc.valid.work, pathWork_eq, pathWork_eq] at hbetter
  refine ⟨?_, ?_, ?_, hacc.valid.work⟩
  · rw [htree]
    exact stored_set h.stored hb
  · rw [htree]
    exact h.rooted.set hfresh hchain
  · rw [htree]
    exact h.best.insert_better TreeAux.lt_trans h.rooted hfresh hchain hbetter

/-! ## Blocks that are handled -/

theorem address_of_checkBlock (h : checkBlock C p b = .ok ()) (hheight : b.height ≠ 0) : validateAddress C b.minerAddress = .ok () := by
  unfold checkBlock at h
  obtain ⟨_, -, h⟩ := bind_eq_ok.mp h
  cases hb : b.transactions with
  | nil =>
    rw [hb] at h
    cases h
  | cons cb ts =>
    rw [hb] at h
    obtain ⟨_, -, h⟩ := bind_eq_ok.mp h
    rw [if_pos (UInt64.pos_iff_ne_zero.mpr hheight)] at h
    exact ((checkEconomics_ok_iff C p).mp h).1

theorem checkBlock_of_replay {blocks : List Block} {s' : State} (h : replay C p blocks s = (.ok (), s')) :
    ∀ b ∈ blocks, checkBlock C p b = .ok () := by
  induction blocks generalizing s with
  | nil => simp
  | cons b blocks ih =>
    obtain ⟨s₁, hb, hrest⟩ := replay_cons_ok_iff.mp h
    intro b' hb'
    rcases mem_cons.mp hb' with rfl | hb'
    · exact (applyBlockToState_parts hb).1
    · exact ih hrest b' hb'

theorem Accepted.checkBlock (h : Accepted C S bc clock b cand) : Internal.checkBlock C bc.consensus b = .ok () := by
  obtain ⟨v, hv, hlast⟩ := h.valid.chain.getLast
  rw [GoMap.lookup_set_self] at hv
  cases hv
  exact checkBlock_of_replay h.valid.applied b (mem_of_getLast? hlast)

theorem stored_accepted (hacc : Accepted C S bc clock b cand) (hb : b ∈ handled) : Stored C bc.consensus handled b.hashHex b.toBlock := by
  have hext := hacc.external
  unfold checkExternal at hext
  obtain ⟨_, hheight, hext⟩ := bind_eq_ok.mp hext
  obtain ⟨_, -, hext⟩ := bind_eq_ok.mp hext
  obtain ⟨_, hlen, hext⟩ := bind_eq_ok.mp hext
  obtain ⟨_, hbits, hext⟩ := bind_eq_ok.mp hext
  obtain ⟨_, -, hext⟩ := bind_eq_ok.mp hext
  obtain ⟨ok, hpow, hext⟩ := bind_eq_ok.mp hext
  obtain ⟨_, hok, -⟩ := bind_eq_ok.mp hext
  have hok : ok = true := Bool.eq_true_of_not_eq_false (failIf_eq_ok.mp hok)
  have hhashed : Hashed C bc.consensus b.toBlock := hashed_of_powValidate (hpow.trans (by rw [hok])) (failIf_eq_ok.mp hlen)
  have haddress := address_of_checkBlock hacc.checkBlock (failIf_eq_ok.mp hheight)
  exact ⟨rfl, hhashed, haddress, failIf_eq_ok.mp hbits, mem_map_of_mem hb⟩

theorem stored_mined {now : Int64} (hbits : TreeAux.BitsValid bc.consensus)
    (hm : Mines C bc transfers now b) (happly : applyBlockToState C bc.consensus bc.state b = (.ok (), s)) (hheight : b.height ≠ 0)
    (hb : b.toBlock ∈ handled.map Block.toBlock) : Stored C bc.consensus handled b.hashHex b.toBlock := by
  have haddress := address_of_checkBlock (applyBlockToState_parts happly).1 hheight
  obtain ⟨fees, nonce, hash, -, hpow, rfl⟩ := hm
  exact ⟨rfl, hashed_of_powRun rfl hpow, haddress, TreeAux.nextDifficultyBits_ne_zero hbits _, hb⟩

/-! ## Runs -/

theorem Committed.tip (hc : Committed C S bc height bc') : bc'.blocks.tip.toBlock = bc.blocks.tip.toBlock := by
  rw [← Path.tip_bare, ← Path.tip_bare, show bc'.blocks.bare = bc.blocks.bare from Subtype.ext hc.blocks]

/-- What a mined block adds to the tree: it is new there. -/
theorem TreeInv.mined {now : Int64} {st : σ} (h : TreeInv C handled bc)
    (hbits : TreeAux.BitsValid bc.consensus) (hfree : C.CollisionFreeOn (headerMessages C bc.consensus handled))
    (hm : Mines C bc transfers now b) (habove : bc.blocks.tip.height < b.height)
    (happly : applyBlockToState C bc.consensus bc.state b = (.ok (), s)) (hb : b.toBlock ∈ handled.map Block.toBlock) :
    b.hashHex ∉ bc.bareTree ∧ TreeInv C handled (bc.extend C b s st) := by
  have hheight : b.height ≠ 0 := by
    intro hzero
    rw [hzero] at habove
    exact absurd habove (by simp)
  exact h.extend hfree (stored_mined hbits hm happly hheight hb) hm.follows.prevHash hheight

theorem MineEffect.consensus (h : MineEffect C S bc transfers clock bc') : bc'.consensus = bc.consensus := by
  cases h with
  | nothing => rfl
  | refused _ _ => rfl
  | unstored _ _ _ _ => rfl
  | mined _ _ _ _ hcommit =>
    rw [hcommit.same, mineCheckpoint_same]
    rfl

theorem AddEffect.consensus {block : Option Block} (h : AddEffect C S bc block clock bc') : bc'.consensus = bc.consensus := by
  cases h with
  | rejected hrejected => rw [hrejected.same]
  | beside _ _ _ => rfl
  | tip _ _ _ =>
    rw [retip_same]
    rfl

end

/-- The tree of a node on an empty database. -/
theorem Started.treeInv {β : Type} {C : Crypto} {G : Gob β} {gcfg : GenesisConfig} {genesis : Block} {cfg : Config}
    {bc : Blockchain (Bolt β)} (h : Started C G gcfg genesis cfg bc) : TreeInv C [genesis] bc := by
  have htree : bc.bareTree = GoMap.set ∅ genesis.hashHex genesis.toBlock := by
    unfold Blockchain.bareTree
    rw [h.tree, GoMap.mapVals_set]
    rfl
  obtain ⟨hheader, -⟩ := genesis_of_build h.built
  have hstored : Stored C bc.consensus [genesis] genesis.hashHex genesis.toBlock := by
    obtain ⟨-, cb, ts, htransactions, -, hcb, -⟩ := applyBlockToState_parts (replay_singleton_ok_iff.mp h.applied)
    obtain ⟨nonce, hash, hpow, rfl⟩ := StartAux.internal_powRun_of_build h.built
    obtain ⟨rfl, -⟩ := List.cons.inj htransactions
    rw [h.consensus]
    exact ⟨rfl, hashed_of_powRun rfl hpow, hcb.toAddress, (TreeAux.bitsValid_of_validParams h.params).genesis, (.head _)⟩
  have hsingle : Rooted bareParent (GoMap.set ∅ genesis.hashHex genesis.toBlock) ∧
      Best bareParent blockWork (· < ·) (GoMap.set ∅ genesis.hashHex genesis.toBlock) genesis.hashHex [genesis.toBlock] :=
    best_singleton (if_pos (Or.inl hheader.height))
  refine ⟨?_, ?_, ?_, ?_⟩
  · rw [htree]
    refine stored_set ?_ hstored
    intro k v hv
    exact absurd hv (by simp)
  · rw [htree]
    exact hsingle.1
  · rw [htree, h.tip, h.blocks]
    exact hsingle.2
  · rw [h.work, h.blocks]

end NeoCoin.Internal
