import NeoCoin.Theorems.Node

/-!
# Runs of a node

A run is any sequence of `AddBlock` calls, whatever they and the store return, and of successful `MineTransfers` calls.
-/

namespace NeoCoin

open GoLib

variable {σ : Type} {C : Crypto} {S : ChainStore σ} {bc bc' : Blockchain σ} {block : Option Block}

/-- One call, with the block that is added or mined. -/
inductive Step {σ : Type} (C : Crypto) (S : ChainStore σ) : Blockchain σ → Option Block → Blockchain σ → Prop where
  | add (bc : Blockchain σ) (block : Option Block) (clock : Nat → Int64) : Step C S bc block (addBlock C S bc block clock).chain
  | mine {bc bc' : Blockchain σ} {transfers : List Transaction} {now : Int64} {b : Block} :
      mineTransfers C S bc transfers now = some (.ok b, bc') → Step C S bc (some b) bc'

/-- Any number of calls, with the blocks they handle. -/
inductive Runs {σ : Type} (C : Crypto) (S : ChainStore σ) (bc0 : Blockchain σ) : List Block → Blockchain σ → Prop where
  | start : Runs C S bc0 [] bc0
  | step {handled : List Block} {bc bc' : Blockchain σ} {block : Option Block} :
      Runs C S bc0 handled bc → Step C S bc block bc' → Runs C S bc0 (handled ++ block.toList) bc'

/-! ## What a step does -/

structure Mined {σ : Type} (C : Crypto) (bc : Blockchain σ) (transfers : List Transaction) (now : Int64) (b : Block) : Prop where
  mined : minedBlock C bc transfers now = some b
  applied : applyBlockToState C bc.consensus bc.state b = (.ok (), b.pay C bc.state)

theorem mineTransfers_ok {transfers : List Transaction}
    {now : Int64} {b : Block} (h : mineTransfers C S bc transfers now = some (.ok b, bc')) :
    Mined C bc transfers now b ∧ (S.appendCanonical bc.store b).1 = .ok () ∧
      bc' = bc.extend C b (b.pay C bc.state) (S.appendCanonical bc.store b).2 := by
  rcases mineTransfers_eq C S bc transfers now with ⟨b', hmined, hmine⟩ | ⟨-, hmine⟩
  · have hcommit := Option.some.inj (hmine.symm.trans h)
    obtain ⟨r, s', happ⟩ : ∃ r s', applyBlockToState C bc.consensus bc.state b' = (r, s') := ⟨_, _, rfl⟩
    obtain ⟨r2, st, hst⟩ : ∃ r st, S.appendCanonical bc.store b' = (r, st) := ⟨_, _, rfl⟩
    unfold commitMined at hcommit
    cases r with
    | error e =>
      simp only [happ] at hcommit
      exact absurd (congrArg Prod.fst hcommit) (by simp)
    | ok u =>
      cases r2 with
      | error e =>
        simp only [happ, hst] at hcommit
        exact absurd (congrArg Prod.fst hcommit) (by simp)
      | ok u' =>
        simp only [happ, hst, Prod.mk.injEq, Except.ok.injEq] at hcommit
        obtain ⟨rfl, rfl⟩ := hcommit
        obtain ⟨-, rfl⟩ := (applyBlockToState_ok_iff C bc.consensus).mp happ
        exact ⟨⟨hmined, happ⟩, by rw [hst], by rw [hst]⟩
  · obtain ⟨-, e, he⟩ := hmine _ h
    nomatch he

/-- What a step can do: nothing in memory, insert a block that is not better, adopt a better tip, or extend the chain by a mined
block. -/
theorem step_cases (h : Step C S bc block bc') : Rejected S bc block bc' ∨
    (∃ b clock cand, block = some b ∧ Validated C bc b clock cand ∧ (S.putBlock bc.store b).1 = .ok () ∧
      ¬isBetter cand.work b.hashHex bc.canonicalWork bc.bestTipHash ∧ bc' = bc.insert S b) ∨
    (∃ b clock cand, block = some b ∧ Validated C bc b clock cand ∧ (S.putBlock bc.store b).1 = .ok () ∧
      isBetter cand.work b.hashHex bc.canonicalWork bc.bestTipHash ∧
      bc' = { (bc.insert S b).adopt C cand b.hashHex with
              store := (S.rewriteCanonical (bc.insert S b).store cand.path.1).2 }) ∨
    (∃ b transfers now, block = some b ∧ Mined C bc transfers now b ∧ (S.appendCanonical bc.store b).1 = .ok () ∧
      bc' = bc.extend C b (b.pay C bc.state) (S.appendCanonical bc.store b).2) := by
  cases h with
  | add block clock =>
    rcases addBlock_cases C S bc block clock with ⟨-, hrejected, -⟩ | ⟨b, cand, hb, hv, hput, hadd⟩
    · exact Or.inl hrejected
    · by_cases hbetter : isBetter cand.work b.hashHex bc.canonicalWork bc.bestTipHash
      · refine Or.inr (Or.inr (Or.inl ⟨b, clock, cand, hb, hv, hput, hbetter, ?_⟩))
        rw [hadd]
        exact (chooseTip_of_better C S (bc.insert S b) b cand hbetter).1
      · refine Or.inr (Or.inl ⟨b, clock, cand, hb, hv, hput, hbetter, ?_⟩)
        rw [hadd, chooseTip_of_not_better C S (bc.insert S b) b cand hbetter]
  | mine hmine =>
    obtain ⟨hm, happend, heq⟩ := mineTransfers_ok hmine
    exact Or.inr (Or.inr (Or.inr ⟨_, _, _, rfl, hm, happend, heq⟩))

/-- No step changes what the node was started with. -/
theorem step_startedWith (h : Step C S bc block bc') :
    bc'.consensus = bc.consensus ∧ bc'.chainID = bc.chainID ∧ bc'.minerAddress = bc.minerAddress := by
  rcases step_cases h with ⟨st, rfl, -⟩ | ⟨b, clock, cand, -, -, -, -, rfl⟩ | ⟨b, clock, cand, -, -, -, -, rfl⟩ |
    ⟨b, transfers, now, -, -, -, rfl⟩
  · exact ⟨rfl, rfl, rfl⟩
  · exact ⟨rfl, rfl, rfl⟩
  · exact ⟨rfl, rfl, rfl⟩
  · exact ⟨rfl, rfl, rfl⟩

theorem runs_startedWith {bc0 : Blockchain σ} {handled : List Block} (h : Runs C S bc0 handled bc) :
    bc.consensus = bc0.consensus ∧ bc.chainID = bc0.chainID ∧ bc.minerAddress = bc0.minerAddress := by
  induction h with
  | start => exact ⟨rfl, rfl, rfl⟩
  | step _ hstep ih =>
    obtain ⟨hcons, hid, hminer⟩ := step_startedWith hstep
    exact ⟨hcons.trans ih.1, hid.trans ih.2.1, hminer.trans ih.2.2⟩

theorem addToIndex_of_hash (m : GoMap Bytes Block) {b : Block} (h : b.hash.bytes.length ≠ 0) : addToIndex m b = m.set b.hashHex b :=
  if_neg h

/-! ## Candidates -/

theorem pathWork_append (bs cs : List Block) : pathWork (bs ++ cs) = pathWork bs + pathWork cs := by
  simp [pathWork]

/-- The validation of a path computes its state and its work, by induction on what is left of it. -/
theorem validatePath_ok {p : ConsensusParams} {path : List Block} {clock : Nat → Int64} {i : Nat} {rest : List Block}
    {s s' : State} {w w' : Nat} (h : validatePath C p path clock i rest s w = .ok (s', w')) :
    applyBlocks C p rest s = (.ok (), s') ∧ w' = w + pathWork rest := by
  induction rest generalizing i s w with
  | nil =>
    unfold validatePath at h
    cases h
    exact ⟨rfl, rfl⟩
  | cons b rest ih =>
    unfold validatePath at h
    obtain ⟨_, -, h⟩ := bind_eq_ok.mp h
    obtain ⟨_, happ, h⟩ := bind_eq_ok.mp h
    have hpay := applyBlockToState_of_fst_ok happ
    obtain ⟨hacc, -⟩ := (applyBlockToState_ok_iff C p).mp hpay
    rw [hpay] at h
    obtain ⟨hrest, hwork⟩ := ih h
    refine ⟨(applyBlocks_cons_ok_iff C p).mpr ⟨hacc, hrest⟩, ?_⟩
    rw [hwork]
    simp only [pathWork, List.map_cons, List.sum_cons]
    omega

theorem computeCanonicalForTip_ok {p : ConsensusParams} {m : GoMap Bytes Block} {clock : Nat → Int64} {tip : Bytes}
    {cand : Candidate} (h : computeCanonicalForTip C p m clock tip = .ok cand) :
    walkBack m tip = .ok cand.path ∧ applyBlocks C p cand.path.1 ∅ = (.ok (), cand.state) ∧ cand.work = pathWork cand.path.1 := by
  unfold computeCanonicalForTip at h
  obtain ⟨path, hwalk, h⟩ := bind_eq_ok.mp h
  obtain ⟨⟨state, work⟩, hval, h⟩ := bind_eq_ok.mp h
  cases h
  obtain ⟨happ, hwork⟩ := validatePath_ok hval
  exact ⟨hwalk, happ, by rw [hwork, Nat.zero_add]⟩

/-! ## Derived data -/

/-- What a node derives from its canonical chain is what a recomputation gives. -/
structure Derived {σ : Type} (C : Crypto) (bc : Blockchain σ) : Prop where
  state : applyBlocks C bc.consensus bc.blocks.1 ∅ = (.ok (), bc.state)
  txIndex : bc.txIndex = reindexAllTxs C bc.consensus bc.blocks.1
  addressIndex : bc.addressIndex = reindexAllAddressTxs C bc.consensus bc.blocks.1
  canonicalWork : bc.canonicalWork = pathWork bc.blocks.1

/-- What each part of a successful `LoadBlockchain` returns. -/
structure Loading {σ : Type} (C : Crypto) (S : ChainStore σ) (chainID : UInt64) (minerAddress : Bytes) (raw : GenesisConfigJSON)
    (ignoreRulesHash : Bool) (st : σ) (bc : Blockchain σ) where
  cfg : GenesisConfig
  blocks : List Block
  all : GoMap Bytes Block
  st1 : σ
  path : Path
  st2 : σ
  genesisHash : Bytes
  first : Block
  st3 : σ
  config : loadGenesisConfig C raw = .ok cfg
  sameChain : ¬(chainID ≠ 0 ∧ cfg.chainID ≠ chainID)
  miner : checkMinerAddress minerAddress = .ok ()
  canonical : S.readCanonical st = .ok blocks
  readAll : S.readAllBlocks st = .ok all
  rulesHash : checkRulesHash C S cfg.consensusParams ignoreRulesHash st = .ok st1
  genesis : loadGenesis C S cfg blocks st1 = some (.ok (path, st2))
  hashed : ensureBlockHash C (path.1.head path.2) cfg.consensusParams = .ok (genesisHash, first)
  sameGenesis : checkGenesisHash S genesisHash st2 = .ok st3
  init : initChain C cfg minerAddress ⟨first :: path.1.tail, List.cons_ne_nil first _⟩ all st3 = .ok bc

theorem loadBlockchain_ok_iff {chainID : UInt64} {minerAddress : Bytes} {raw : GenesisConfigJSON} {ignoreRulesHash : Bool} {st : σ} :
    loadBlockchain C S chainID minerAddress raw ignoreRulesHash st = some (.ok bc) ↔
      Nonempty (Loading C S chainID minerAddress raw ignoreRulesHash st bc) := by
  constructor
  · intro h
    unfold loadBlockchain at h
    simp only at h
    split at h
    · cases h
    · rename_i cfg blocks all st1 hbefore
      obtain ⟨cfg', hcfg, hbefore⟩ := bind_eq_ok.mp hbefore
      obtain ⟨_, hid, hbefore⟩ := bind_eq_ok.mp hbefore
      obtain ⟨_, hminer, hbefore⟩ := bind_eq_ok.mp hbefore
      obtain ⟨blocks', hblocks, hbefore⟩ := bind_eq_ok.mp hbefore
      obtain ⟨all', hall, hbefore⟩ := bind_eq_ok.mp hbefore
      obtain ⟨st1', hrules, hbefore⟩ := bind_eq_ok.mp hbefore
      simp only [Except.ok.injEq, Prod.mk.injEq] at hbefore
      obtain ⟨rfl, rfl, rfl, rfl⟩ := hbefore
      split at h
      · cases h
      · rename_i loaded hloaded
        obtain ⟨⟨path, st2⟩, hpath, h⟩ := bind_eq_ok.mp (Option.some.inj h)
        obtain ⟨⟨genesisHash, first⟩, hfirst, h⟩ := bind_eq_ok.mp h
        obtain ⟨st3, hsame, hinit⟩ := bind_eq_ok.mp h
        rw [hpath] at hloaded
        exact ⟨cfg', blocks', all', st1', path, st2, genesisHash, first, st3, hcfg, failIf_eq_ok.mp hid, hminer, hblocks, hall,
          hrules, hloaded, hfirst, hsame, hinit⟩
  · intro h
    obtain ⟨l⟩ := h
    have hid : failIf (chainID ≠ 0 ∧ l.cfg.chainID ≠ chainID)
        s!"genesis chainId mismatch: env={chainID} genesis={l.cfg.chainID}" = .ok () := failIf_eq_ok.mpr l.sameChain
    unfold loadBlockchain
    simp only [l.config, hid, l.miner, l.canonical, l.readAll, l.rulesHash, bind, Except.bind, l.genesis, l.hashed, l.sameGenesis,
      l.init]

structure Initialized {σ : Type} (C : Crypto) (cfg : GenesisConfig) (miner : Bytes) (path : Path) (all : GoMap Bytes Block)
    (st : σ) (bc : Blockchain σ) : Prop where
  chainID : bc.chainID = cfg.chainID
  minerAddress : bc.minerAddress = miner
  consensus : bc.consensus = cfg.consensusParams
  blocks : bc.blocks = path
  store : bc.store = st
  blocksByHash : bc.blocksByHash = path.1.foldl addToIndex all
  bestTipHash : bc.bestTipHash = path.tip.hashHex
  derived : Derived C bc

theorem initChain_ok_iff {cfg : GenesisConfig} {miner : Bytes} {path : Path} {all : GoMap Bytes Block} {st : σ}
    : initChain C cfg miner path all st = .ok bc ↔ Initialized C cfg miner path all st bc := by
  unfold initChain
  rw [bind_eq_ok]
  constructor
  · intro h
    obtain ⟨_, happ, h⟩ := h
    cases h
    exact ⟨rfl, rfl, rfl, rfl, rfl, rfl, rfl, Prod.ext happ rfl, rfl, rfl, rfl⟩
  · intro h
    obtain ⟨hid, rfl, hcons, rfl, rfl, htree, htip, hstate, htx, haddr, hwork⟩ := h
    rw [hcons] at hstate htx haddr
    refine ⟨(), by rw [hstate], ?_⟩
    rw [hstate, ← htree, ← htip, ← htx, ← haddr, ← hwork, ← hcons, ← hid]

/-- Every step keeps the derived data in step with the blocks. -/
theorem derived_step (h : Step C S bc block bc') (hd : Derived C bc) : Derived C bc' := by
  rcases step_cases h with ⟨st, rfl, -⟩ | ⟨b, clock, cand, -, -, -, -, rfl⟩ | ⟨b, clock, cand, -, hv, -, -, rfl⟩ |
    ⟨b, transfers, now, -, hm, -, rfl⟩
  · exact ⟨hd.state, hd.txIndex, hd.addressIndex, hd.canonicalWork⟩
  · exact ⟨hd.state, hd.txIndex, hd.addressIndex, hd.canonicalWork⟩
  · -- a reorganisation recomputes everything from the candidate's path
    obtain ⟨-, happ, hwork⟩ := computeCanonicalForTip_ok hv.computed
    exact ⟨happ, rfl, rfl, hwork⟩
  · -- a mined block is added to each structure in place
    refine ⟨?_, ?_, ?_, ?_⟩
    · refine (applyBlocks_append_ok_iff C bc.consensus bc.blocks.1 [b]).mpr ⟨bc.state, hd.state, ?_⟩
      rw [applyBlocks, hm.applied]
      rfl
    · change indexTxsForBlock C bc.consensus bc.txIndex b = reindexAllTxs C bc.consensus (bc.blocks.1 ++ [b])
      rw [hd.txIndex, reindexAllTxs, reindexAllTxs, List.foldl_append]
      rfl
    · change indexAddressTxsForBlock C bc.consensus bc.addressIndex b =
        reindexAllAddressTxs C bc.consensus (bc.blocks.1 ++ [b])
      rw [hd.addressIndex, reindexAllAddressTxs, reindexAllAddressTxs, List.foldl_append]
      rfl
    · change bc.canonicalWork + workForDifficultyBits b.difficultyBits = pathWork (bc.blocks.1 ++ [b])
      rw [hd.canonicalWork, pathWork_append]
      simp [pathWork]

/-- Through any run the state is the fold of `applyBlockToState` over the blocks, the indexes are what reindexing gives, and the work is
the sum of that of the blocks. -/
theorem derived_eq_replay {σ : Type} (C : Crypto) (S : ChainStore σ) (chainID : UInt64) (minerAddress : Bytes)
    (raw : GenesisConfigJSON) (ignoreRulesHash : Bool) (st : σ) (bc0 bc : Blockchain σ) (handled : List Block)
    (hload : loadBlockchain C S chainID minerAddress raw ignoreRulesHash st = some (.ok bc0)) (hrun : Runs C S bc0 handled bc) :
    Derived C bc := by
  induction hrun with
  | start =>
    obtain ⟨l⟩ := loadBlockchain_ok_iff.mp hload
    exact (initChain_ok_iff.mp l.init).derived
  | step _ hstep ih => exact derived_step hstep ih

open Sample

/-- A block is added to the loaded node, and another one is mined on it. -/
theorem derived_eq_replay_node : ∃ b bc,
    mineTransfers crypto store (addBlock crypto store Sample.node (some emptyBlock) fun _ => 2).chain [] 3 = some (.ok b, bc) ∧
    bc.blocks.1.length = 3 ∧ Derived crypto bc := by
  have hmined : (mineTransfers crypto store (addBlock crypto store Sample.node (some emptyBlock) fun _ => 2).chain [] 3).any
      (fun r => r.1.toOption.isSome && decide (r.2.blocks.1.length = 3)) = true := by
    simp only [crypto, goCrypto_eq]
    decide +kernel
  obtain ⟨⟨r, bc⟩, hmine, hr⟩ := (Option.any_eq_true _ _).mp hmined
  cases r with
  | error => cases hr
  | ok b =>
    refine ⟨b, bc, hmine, of_decide_eq_true hr, ?_⟩
    exact derived_eq_replay crypto store 1 minerAddress raw false () Sample.node _ _ node_loads
      (Runs.step (Runs.step Runs.start (Step.add Sample.node (some emptyBlock) fun _ => 2)) (Step.mine hmine))

end NeoCoin
