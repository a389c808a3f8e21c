import NeoCoin.Theorems.Mining
import NeoCoin.Theorems.Paths

/-!
# A mined block at another node

`MineTransfers` builds a block by the rules `AddBlock` checks, and dates it one second after its parent where the clock is behind that
(`mined_accepted_iff`).
-/

namespace NeoCoin

open GoLib ForkTree List

namespace PeerAux

open HeaderAux TreeAux PathAux SelectionAux

section

variable {σ : Type} {C : Crypto} {bc : Blockchain σ} {transfers : List Transaction} {now : Int64} {b : Block}

theorem minedBlock_checked (h : minedBlock C bc transfers now = some b) :
    b.timestampUnix = mineTimestamp bc.blocks.tip now ∧ ∃ cb, b.transactions = cb :: transfers ∧ cb.chainID = bc.chainID ∧
      ∀ tx ∈ transfers, checkMinable C bc.consensus bc.chainID b.height tx = .ok () := by
  unfold minedBlock at h
  split at h
  · cases h
  · rename_i hchecked
    split at h
    · cases h
      exact ⟨rfl, _, rfl, rfl, (checkAllMinable_ok_iff.mp hchecked).1⟩
    · cases h

theorem checkBlockTx_of_minable {C : Crypto} {p : ConsensusParams} {chainID height : UInt64} {tx : Transaction}
    (h : checkMinable C p chainID height tx = .ok ()) : checkBlockTx C p chainID height tx = .ok () := by
  unfold checkMinable at h
  obtain ⟨_, -, h⟩ := bind_eq_ok.mp h
  obtain ⟨_, hid, h⟩ := bind_eq_ok.mp h
  obtain ⟨_, hverify, -⟩ := bind_eq_ok.mp h
  exact bind_eq_ok.mpr ⟨(), hid, hverify⟩

theorem checkBlockTx_of_mined
    (hm : Mined C bc transfers now b) : ∀ tx ∈ b.transactions, checkBlockTx C bc.consensus bc.chainID b.height tx = .ok () := by
  obtain ⟨-, cb, htxs, hid, hminable⟩ := minedBlock_checked hm.mined
  obtain ⟨⟨cb', ts, hacc⟩, -⟩ := (applyBlockToState_ok_iff C bc.consensus).mp hm.applied
  obtain ⟨rfl, rfl⟩ := List.cons.inj (htxs.symm.trans hacc.transactions)
  intro tx htx
  rw [htxs] at htx
  rcases mem_cons.mp htx with rfl | htx
  · have hverify := (verifyForConsensus_coinbase_iff C bc.consensus b.height hacc.type).mpr hacc.coinbase
    unfold checkBlockTx
    rw [withChainID_of_ne_zero _ hacc.coinbase.chainID]
    exact bind_eq_ok.mpr ⟨(), failIf_eq_ok.mpr (not_not.mpr hid), hverify⟩
  · exact checkBlockTx_of_minable (hminable tx htx)

end

variable {σ τ : Type} {C : Crypto} {cfg cfg' : GenesisConfig} {genesis genesis' : Block}

theorem chainID_eq_of_head {bc : Blockchain σ}
    {peer : Blockchain τ} (h : ChainInv C cfg genesis bc) (h' : ChainInv C cfg' genesis' peer) (hblocks : peer.blocks = bc.blocks) :
    peer.chainID = bc.chainID := by
  have hhead := h'.head
  rw [hblocks, h.head] at hhead
  cases hhead
  have hid : ∀ {cfg : GenesisConfig} {cb : Transaction}, validateGenesisCoinbase cb cfg = .ok () → cb.chainID = cfg.chainID := by
    intro cfg cb hcb
    unfold validateGenesisCoinbase at hcb
    obtain ⟨_, -, hcb⟩ := bind_eq_ok.mp hcb
    obtain ⟨_, hchain, -⟩ := bind_eq_ok.mp hcb
    exact not_not.mp (failIf_eq_ok.mp hchain)
  obtain ⟨cb, htxs, hcb⟩ := h.isGenesis.transactions
  obtain ⟨cb', htxs', hcb'⟩ := h'.isGenesis.transactions
  obtain ⟨rfl, -⟩ := List.cons.inj (htxs.symm.trans htxs')
  rw [h.chainID, h'.chainID, ← hid hcb, ← hid hcb']

theorem Linked.tail_height_ne_zero {p : ConsensusParams} {path : List Block} (h : Linked p path) (hlen : path.length ≤ 2 ^ 63) {b : Block}
    (hb : b ∈ path.tail) : b.height ≠ 0 := by
  obtain ⟨i, hi, rfl⟩ := getElem_of_mem hb
  rw [length_tail] at hi
  rw [getElem_tail, h.height (List.getElem?_eq_getElem (by omega))]
  intro h0
  have h0 := congrArg UInt64.toNat h0
  rw [UInt64.toNat_ofNat_of_lt' (show i + 1 < 2 ^ 64 by omega)] at h0
  exact absurd h0 (Nat.succ_ne_zero i)

/-! ## The times -/

theorem mined_times_iff {σ : Type} {C : Crypto} {cfg : GenesisConfig} {genesis : Block} {bc : Blockchain σ} {now : Int64} {b : Block}
    (h : ChainInv C cfg genesis bc) (hb : b.timestampUnix = mineTimestamp bc.blocks.tip now) :
    (∀ i, i < (bc.blocks.snoc b).1.length → validateBlockTime bc.consensus (bc.blocks.snoc b).1 i now = .ok ()) ↔
      Increasing bc.blocks.1 ∧ bc.blocks.tip.timestampUnix.toInt < now.toInt + bc.consensus.maxTimeDrift.toInt ∧
        now.toInt + bc.consensus.maxTimeDrift.toInt < 2 ^ 63 := by
  have hdrift := h.validParams.maxTimeDrift
  have hdriftPos := Int64.lt_iff_toInt_lt.mp hdrift
  have htipMem := getLast_mem bc.blocks.2
  rw [show (0 : Int64).toInt = 0 from rfl] at hdriftPos
  rw [times_ok_iff bc.consensus (bc.blocks.snoc b).1 fun _ => now]
  have hincSnoc : Increasing (bc.blocks.snoc b).1 ↔
      Increasing bc.blocks.1 ∧ ∀ a ∈ bc.blocks.1, a.timestampUnix < b.timestampUnix := by
    simp [Increasing, Path.snoc, pairwise_append]
  -- in a chain with increasing times no block is later than the tip
  have hlast : Increasing bc.blocks.1 → ∀ a ∈ bc.blocks.1, a.timestampUnix ≤ bc.blocks.tip.timestampUnix := by
    intro hinc a ha
    obtain ⟨i, hi, rfl⟩ := getElem_of_mem ha
    rw [Path.tip, getLast_eq_getElem]
    rcases Nat.lt_or_eq_of_le (Nat.le_sub_one_of_lt hi) with hlt | heq
    · exact Int64.le_of_lt (pairwise_iff_getElem.mp hinc i _ hi _ hlt)
    · simp only [heq]
      exact Int64.le_refl _
  constructor
  · rintro ⟨hinc, hahead⟩
    obtain ⟨hinc, hlater⟩ := hincSnoc.mp hinc
    have hpos : 0 < bc.blocks.tip.timestampUnix.toInt := by
      have hgenesis := hlast hinc genesis (mem_of_mem_head? h.head)
      rw [h.isGenesis.timestamp] at hgenesis
      exact Int64.lt_iff_toInt_lt.mp (Int64.lt_of_lt_of_le h.config.timestamp hgenesis)
    have hlt := Int64.lt_iff_toInt_lt.mp (hlater _ htipMem)
    obtain ⟨i, hi⟩ : ∃ i, bc.blocks.1.length = i + 1 := ⟨_, (Nat.succ_pred_eq_of_pos (length_pos_iff.mpr bc.blocks.2)).symm⟩
    have hle := hahead i b (by rw [Path.snoc, List.getElem?_append_right (by omega), hi, Nat.sub_self]; rfl) hdrift
    have hle := Int64.le_iff_toInt_le.mp hle
    have hhigh := now.toInt_lt
    have hdriftHigh := bc.consensus.maxTimeDrift.toInt_lt
    rw [toInt_add_drift now hdrift] at hle
    change bc.blocks.tip.timestampUnix.toInt < b.timestampUnix.toInt at hlt
    refine ⟨hinc, ?_⟩
    split at hle
    · omega
    · omega
  · rintro ⟨hinc, htip, hsum⟩
    have hlimit : (now + bc.consensus.maxTimeDrift).toInt = now.toInt + bc.consensus.maxTimeDrift.toInt := by
      rw [toInt_add_drift now hdrift, if_pos hsum]
    have hblock : bc.blocks.tip.timestampUnix.toInt < b.timestampUnix.toInt ∧
        b.timestampUnix.toInt ≤ now.toInt + bc.consensus.maxTimeDrift.toInt := by
      rw [hb, mineTimestamp]
      split
      · have hone := toInt_add_drift bc.blocks.tip.timestampUnix (show (0 : Int64) < 1 by decide)
        rw [show (1 : Int64).toInt = 1 from rfl, if_pos (by omega)] at hone
        omega
      · rename_i hlater
        have hlater := Int64.lt_iff_toInt_lt.mp (Int64.not_le.mp hlater)
        omega
    refine ⟨hincSnoc.mpr ⟨hinc, ?_⟩, ?_⟩
    · intro a ha
      exact Int64.lt_of_le_of_lt (hlast hinc a ha) (Int64.lt_iff_toInt_lt.mpr hblock.1)
    · intro i a ha _
      rw [Int64.le_iff_toInt_le, hlimit]
      rcases mem_append.mp (mem_of_getElem? ha) with ha | ha
      · have hle := Int64.le_iff_toInt_le.mp (hlast hinc a ha)
        omega
      · obtain rfl := mem_singleton.mp ha
        exact hblock.2

/-! ## The mined block at the other node -/

theorem mined_chain {τ : Type} {C : Crypto} {handled : List Block} {peer : Blockchain τ} {b : Block} (ht : TreeInv C handled peer)
    (hdist : HeadersDistinct C peer.consensus (handled ++ [b])) (hhash : Hashed C peer.consensus b)
    (hprev : b.prevHash.bytes = peer.blocks.tip.hash.bytes) : b.hashHex ∉ peer.blocksByHash ∧ b.prevHashHex = peer.bestTipHash ∧
      ChainTo parentKey (peer.blocksByHash.set b.hashHex b) b.hashHex (peer.blocks.snoc b).1 := by
  have htip := tip_stored ht
  have hfresh := mined_fresh ht hdist hhash hprev
  have hparent : parentKey b = some peer.bestTipHash := by
    rw [htip.key]
    exact parentKey_of_prevHash hprev htip.hashed.length
  refine ⟨hfresh, ?_, ChainTo.child (GoMap.lookup_set_self _ _ _) hparent (ht.best.chain.set b hfresh)⟩
  rw [htip.key, Block.prevHashHex, hprev, Block.hashHex]

/-- The candidate that a mined block makes at a node with the chain it was mined on. -/
def minedCandidate {σ : Type} (C : Crypto) (bc : Blockchain σ) (b : Block) : Candidate :=
  { path := bc.blocks.snoc b, state := b.pay C bc.state, work := pathWork (bc.blocks.snoc b).1 }

theorem validated_iff_times {handled : List Block}
    {bc : Blockchain σ} {peer : Blockchain τ} {transfers : List Transaction} {now : Int64} {b : Block}
    (h : ChainInv C cfg genesis bc) (h' : ChainInv C cfg' genesis' peer) (ht : TreeInv C handled peer)
    (hdist : HeadersDistinct C peer.consensus (handled ++ [b])) (hblocks : peer.blocks = bc.blocks)
    (hcons : peer.consensus = bc.consensus) (hm : Mined C bc transfers now b) (hlen : bc.blocks.1.length < 2 ^ 63) (cand : Candidate) :
    Validated C peer b (fun _ => now) cand ↔
      cand = minedCandidate C bc b ∧
        ∀ i, i < (bc.blocks.snoc b).1.length → validateBlockTime bc.consensus (bc.blocks.snoc b).1 i now = .ok () := by
  have htip := h.blocks bc.blocks.tip (getLast_mem bc.blocks.2)
  obtain ⟨hgood, hfollows⟩ := goodBlock_of_mined genesis h.validParams htip.hash hm.mined
  have hhash : Hashed C peer.consensus b := by
    rw [hcons]
    exact hashed_of_powValidate hgood.pow hgood.hash
  obtain ⟨hfresh, hprevHex, hchain⟩ := mined_chain ht hdist hhash (by rw [hblocks]; exact hfollows.prevHash)
  rw [hblocks] at hchain
  have hlinked := h.linked.snoc hfollows
  have happlied : applyBlocks C bc.consensus (bc.blocks.snoc b).1 ∅ = (.ok (), b.pay C bc.state) := by
    refine (applyBlocks_append_ok_iff C bc.consensus bc.blocks.1 [b]).mpr ⟨bc.state, h.derived.state, ?_⟩
    rw [applyBlocks, hm.applied]
    rfl
  have hsnocLen : (bc.blocks.snoc b).1.length = bc.blocks.1.length + 1 := by simp [Path.snoc]
  have hbits := bitsValid_of_validParams h'.validParams
  constructor
  · intro hv
    obtain ⟨-, ⟨-, htimes⟩, happ, hwork⟩ := (candidate_ok_iff C hbits _ _ _ cand).mp hv.computed
    have hpath : cand.path = bc.blocks.snoc b := Subtype.ext ((chain_of_candidate hv.computed).unique hchain)
    rw [hpath, hcons] at htimes happ
    rw [happlied] at happ
    refine ⟨?_, htimes⟩
    obtain ⟨path, state, work⟩ := cand
    obtain rfl : path = bc.blocks.snoc b := hpath
    obtain rfl := (Prod.mk.inj happ).2
    rw [minedCandidate, ← hwork]
  · rintro ⟨rfl, htimes⟩
    refine ⟨checkExternal_ok_iff.mpr ?_, ?_, hfresh, ?_⟩
    · rw [hcons, chainID_eq_of_head h h' hblocks]
      refine ⟨?_, hfollows.version, hgood.hash, hgood.bits, hgood.maxBits, hgood.pow, checkBlockTx_of_mined hm⟩
      exact Linked.tail_height_ne_zero hlinked (by omega) (by rw [Path.snoc, tail_append_of_ne_nil bc.blocks.2]; simp)
    · rw [hprevHex]
      exact ht.best.chain.mem
    · refine (candidate_ok_iff C hbits _ _ _ _).mpr ⟨?_, ?_, ?_, rfl⟩
      · exact walkBack_of_chain hchain fun b' hb' => Linked.tail_height_ne_zero hlinked (by omega) hb'
      · rw [hcons]
        exact ⟨hlinked, htimes⟩
      · rw [hcons]
        exact happlied

end PeerAux

open PeerAux

/-- The other node took the block: no error, the block is its tip, and it has the blocks and the state of the miner. -/
structure TookBlock {σ τ : Type} (miner : Blockchain σ) (b : Block) (r : AddResult τ) : Prop where
  err : r.err = none
  bestTipHash : r.chain.bestTipHash = b.hashHex
  blocks : r.chain.blocks = miner.blocks
  state : r.chain.state = miner.state

/-- A node that holds the chain a block was mined on, has the same parameters, reads the same time and can write to its store takes the
block, if and only if the times of the chain increase and that of its tip is before the limit the clock sets. -/
theorem mined_accepted_iff {σ τ : Type} (C : Crypto) (S : ChainStore σ) (S' : ChainStore τ) (handled handled' : List Block)
    (bc miner : Blockchain σ) (peer : Blockchain τ) (transfers : List Transaction) (now : Int64) (b : Block)
    (hrun : FreshRun C S handled bc) (hmine : mineTransfers C S bc transfers now = some (.ok b, miner))
    (hpeer : FreshRun C S' handled' peer) (hblocks : peer.blocks = bc.blocks) (hcons : peer.consensus = bc.consensus)
    (hdist : HeadersDistinct C peer.consensus (handled' ++ [b])) (hput : (S'.putBlock peer.store b).1 = .ok ())
    (hrewrite : (S'.rewriteCanonical (S'.putBlock peer.store b).2 (bc.blocks.snoc b).1).1 = .ok ()) (hlen : bc.blocks.1.length < 2 ^ 63) :
    TookBlock miner b (addBlock C S' peer (some b) fun _ => now) ↔
      Increasing bc.blocks.1 ∧ bc.blocks.tip.timestampUnix.toInt < now.toInt + bc.consensus.maxTimeDrift.toInt ∧
        now.toInt + bc.consensus.maxTimeDrift.toInt < 2 ^ 63 := by
  obtain ⟨cfg, genesis, h⟩ := PathAux.chainInv_freshRun hrun
  obtain ⟨cfg', genesis', h'⟩ := PathAux.chainInv_freshRun hpeer
  have ht := treeInv_freshRun hpeer hdist.mono
  obtain ⟨hm, -, rfl⟩ := mineTransfers_ok hmine
  have hvalid := validated_iff_times h h' ht hdist hblocks hcons hm hlen
  rw [← mined_times_iff h (minedBlock_checked hm.mined).1]
  constructor
  · intro htook
    rcases addBlock_cases C S' peer (some b) fun _ => now with ⟨herr, -⟩ | ⟨b', cand, hb', hv, -⟩
    · exact absurd htook.err herr
    · cases hb'
      exact ((hvalid cand).mp hv).2
  · intro htimes
    have hv := (hvalid _).mpr ⟨rfl, htimes⟩
    rcases addBlock_cases C S' peer (some b) fun _ => now with ⟨-, -, hnot⟩ | ⟨b', cand, hb', hv', -, hadd⟩
    · exact absurd hput (hnot b _ rfl hv)
    · cases hb'
      obtain ⟨rfl, -⟩ := (hvalid cand).mp hv'
      -- the chain with the block has more work
      have hbetter : isBetter (minedCandidate C bc b).work b.hashHex peer.canonicalWork peer.bestTipHash := by
        have hbits := (HeaderAux.checkExternal_ok_iff.mp hv.external).bits
        have hwork := TreeAux.blockWork_pos hbits
        refine Or.inl ?_
        rw [h'.derived.canonicalWork, hblocks]
        change pathWork bc.blocks.1 < pathWork (bc.blocks.1 ++ [b])
        rw [pathWork_append]
        simpa [pathWork, blockWork] using hwork
      obtain ⟨hchain, herr⟩ := chooseTip_of_better C S' (peer.insert S' b) b (minedCandidate C bc b) hbetter
      rw [hadd]
      refine ⟨herr.mpr hrewrite, ?_, ?_, ?_⟩
      · rw [hchain]
        rfl
      · rw [hchain]
        rfl
      · rw [hchain]
        rfl

namespace Sample

theorem node_fresh : FreshRun crypto store [genesis] node :=
  ⟨1, minerAddress, raw, false, (), node, genesis, [], node_loads, rfl, rfl, Runs.start, rfl⟩

theorem node_mines : (mineTransfers crypto store node [] 2).map Prod.fst = some (.ok emptyBlock) := by
  simp only [crypto, goCrypto_eq]
  decide +kernel

def lateBlock : Block :=
  { emptyBlock with
    timestampUnix := 7202
    hash := some (beBytes 32 0x6e56aa4f03515f3a4da05d9510d58fcfbc037cc23c1f9dea4e1224af9b841579) }

def lateNode : Blockchain Unit := (addBlock crypto store node (some lateBlock) fun _ => 2).chain

def futureBlock : Block :=
  { version := 2, height := 2, timestampUnix := 7203, prevHash := lateBlock.hash, difficultyBits := 1, minerAddress := minerAddress
    transactions :=
      [{ type := .coinbase, chainID := 1, toAddress := minerAddress, amount := 50, data := str "block reward + fees (height=2)" }]
    hash := some (beBytes 32 0x7b673cd1e6623c24843841f6e1714e08464b865fdf22818fc5a14ccc29d127b4) }

end Sample

open Sample

/-- The block the loaded node mines at time 2, at another node that has loaded the same genesis block. -/
theorem mined_accepted_iff_node : ∃ miner, mineTransfers crypto store Sample.node [] 2 = some (.ok emptyBlock, miner) ∧
      TookBlock miner emptyBlock (addBlock crypto store Sample.node (some emptyBlock) fun _ => 2) := by
  obtain ⟨⟨r, miner⟩, hmine, rfl⟩ := Option.map_eq_some_iff.mp node_mines
  refine ⟨miner, hmine, ?_⟩
  refine (mined_accepted_iff crypto store store [Sample.genesis] [Sample.genesis] Sample.node miner Sample.node []
    2 emptyBlock node_fresh hmine node_fresh rfl rfl headers_distinct rfl rfl (by decide)).mpr ?_
  exact ⟨pairwise_singleton _ _, by decide +kernel, by decide +kernel⟩

/-- A node takes a block dated at the limit, mines on it, and refuses the block it has mined: that is dated past the limit. -/
theorem futureBlock_refused : (addBlock crypto store Sample.node (some lateBlock) fun _ => 2).err = none ∧
    (mineTransfers crypto store lateNode [] 2).map Prod.fst = some (.ok futureBlock) ∧
    (addBlock crypto store lateNode (some futureBlock) fun _ => 2).err =
      some "timestamp too far in future at height 2" := by
  simp only [crypto, goCrypto_eq]
  decide +kernel

end NeoCoin
