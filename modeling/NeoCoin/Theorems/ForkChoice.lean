import NeoCoin.Lib.ForkTree
import NeoCoin.Theorems.Headers
import NeoCoin.Theorems.Runs

/-!
# Fork choice

The blocks of a node form a tree (`blocksByHash`), and a node compares each new block with its tip only. By induction over a run its tip is
nevertheless the best of the whole tree (`bestTip_of_run`).
-/

namespace NeoCoin

open GoLib ForkTree

variable {m : GoMap Bytes Block} {C : Crypto} {p : ConsensusParams} {b : Block} {handled : List Block}
  {σ : Type} {bc : Blockchain σ} {S : ChainStore σ}

/-! ## The tree of blocks -/

/-- The key of the parent of a block, which a block without a previous hash does not have. -/
def parentKey (b : Block) : Option Bytes := if b.prevHash.bytes = [] then none else some b.prevHashHex

def blockWork (b : Block) : Nat := workForDifficultyBits b.difficultyBits

/-- `bestTipHash` is the key of the block with the most work along its chain and, among those, with the smallest key. -/
def BestTip {σ : Type} (bc : Blockchain σ) : Prop :=
  Best parentKey blockWork (fun a b => a < b) bc.blocksByHash bc.bestTipHash bc.blocks.1

namespace TreeAux

open HeaderAux

/-! ## The walk back finds the parent chain -/

/-- What the walk adds to the path is the chain of the key it starts from, if it ends in a block without a previous hash. By
induction on the rounds. -/
theorem walkBackLoop_chain {n : Nat} {seen : List Bytes} {cur : Bytes} {path : List Block} {out : Path}
    (h : walkBackLoop m n seen cur path = some (.ok out)) (hroot : (out.1.head out.2).prevHash.bytes = []) :
    ∃ found, out.1 = found ++ path ∧ ChainTo parentKey m cur found := by
  induction n generalizing seen cur path with
  | zero => cases h
  | succ n ih =>
    unfold walkBackLoop at h
    split at h
    · cases h
    · split at h
      · cases h
      · rename_i b hb
        split at h
        · cases h
          refine ⟨[b], rfl, ChainTo.root hb ?_⟩
          exact if_pos hroot
        · rename_i hgoes
          obtain ⟨found, heq, hchain⟩ := ih h
          refine ⟨found ++ [b], by rw [heq]; simp, ChainTo.child hb ?_ hchain⟩
          exact if_neg fun hnil => hgoes (Or.inr (by rw [hnil]; rfl))

theorem walkBack_chain {tip : Bytes} {path : Path} (h : walkBack m tip = .ok path)
    (hroot : (path.1.head path.2).prevHash.bytes = []) : ChainTo parentKey m tip path.1 := by
  have hsome : walkBackLoop m (m.keys.card + 1) [] tip [] = some (.ok path) := by
    rw [← h, walkBack, Option.some_get]
  obtain ⟨found, heq, hchain⟩ := walkBackLoop_chain hsome hroot
  rw [heq, List.append_nil]
  exact hchain

theorem chain_of_candidate {clock : Nat → Int64} {tip : Bytes}
    {cand : Candidate} (h : computeCanonicalForTip C p m clock tip = .ok cand) : ChainTo parentKey m tip cand.path.1 := by
  obtain ⟨hwalk, -, -⟩ := computeCanonicalForTip_ok h
  refine walkBack_chain hwalk ?_
  unfold computeCanonicalForTip at h
  obtain ⟨path, hwalk', h⟩ := bind_eq_ok.mp h
  cases hwalk'.symm.trans hwalk
  obtain ⟨_, hval, -⟩ := bind_eq_ok.mp h
  obtain ⟨first, rest, hpath⟩ := List.exists_cons_of_ne_nil cand.path.2
  simp only [hpath, List.head_cons] at hval ⊢
  unfold validatePath at hval
  obtain ⟨_, hlink, -⟩ := bind_eq_ok.mp hval
  unfold checkLinkage at hlink
  rw [if_pos rfl] at hlink
  obtain ⟨_, hgenesis, -⟩ := bind_eq_ok.mp hlink
  have hno := failIf_eq_ok.mp hgenesis
  rw [not_or, not_not, not_not] at hno
  exact List.length_eq_zero_iff.mp hno.2

/-! ## No block is without work -/

/-- What the check of the parameters says about the difficulty. -/
structure BitsValid (p : ConsensusParams) : Prop where
  min : p.minDifficultyBits ≠ 0
  max : p.minDifficultyBits ≤ p.maxDifficultyBits
  genesis : p.genesisDifficultyBits ≠ 0

theorem clampDifficultyBits_ne_zero (h : BitsValid p) (bits : UInt32) : clampDifficultyBits p bits ≠ 0 := by
  have hmin := h.min
  have hmax := h.max
  have hbetween : ∀ c : UInt32,
      (if c < p.minDifficultyBits then p.minDifficultyBits else if c > p.maxDifficultyBits then p.maxDifficultyBits else c) ≠ 0 := by
    intro c
    split
    · exact hmin
    · split
      · grind
      · grind
  exact hbetween _

theorem nextDifficultyBits_ne_zero (h : BitsValid p) (path : List Block) : nextDifficultyBitsFromPath p path ≠ 0 := by
  unfold nextDifficultyBitsFromPath
  split
  · exact h.genesis
  · simp only
    split
    · split
      · exact h.genesis
      · exact clampDifficultyBits_ne_zero h _
    · split
      · exact clampDifficultyBits_ne_zero h _
      · exact clampDifficultyBits_ne_zero h _

theorem blockWork_pos (h : b.difficultyBits ≠ 0) : 0 < blockWork b := by
  unfold blockWork workForDifficultyBits
  simp only
  by_cases hbig : b.difficultyBits > maxDifficultyBits
  · rw [if_pos hbig]
    decide
  · rw [if_neg hbig, if_neg h]
    exact Nat.two_pow_pos _

theorem bitsValid_of_validParams (h : ValidParams p) : BitsValid p := by
  have hmin := h.minDifficultyBits
  have hgenesis := h.genesisMin
  exact ⟨hmin, h.minLeMax, by grind⟩

/-! ## The invariant -/

/-- A block as it stands in the tree, one of those that were handled. -/
structure Stored (C : Crypto) (p : ConsensusParams) (handled : List Block) (k : Bytes) (b : Block) : Prop where
  key : k = b.hashHex
  hashed : Hashed C p b
  bits : b.difficultyBits ≠ 0
  mem : b ∈ handled

structure TreeInv {σ : Type} (C : Crypto) (handled : List Block) (bc : Blockchain σ) : Prop where
  bits : BitsValid bc.consensus
  stored : ∀ k b, bc.blocksByHash.lookup k = some b → Stored C bc.consensus handled k b
  rooted : Rooted parentKey bc.blocksByHash
  best : BestTip bc
  derived : Derived C bc

theorem Stored.mono {k : Bytes} (h : Stored C p handled k b) (bs : List Block) : Stored C p (handled ++ bs) k b :=
  ⟨h.key, h.hashed, h.bits, List.mem_append_left _ h.mem⟩

theorem stored_set
    (h : ∀ k v, m.lookup k = some v → Stored C p handled k v) (hhash : Hashed C p b) (hbits : b.difficultyBits ≠ 0) (k : Bytes)
    (v : Block) (hv : (m.set b.hashHex b).lookup k = some v) : Stored C p (handled ++ [b]) k v := by
  rw [GoMap.lookup_set] at hv
  split at hv
  · rename_i hk
    cases hv
    exact ⟨hk, hhash, hbits, by simp⟩
  · exact (h k v hv).mono [b]

theorem tip_stored (h : TreeInv C handled bc) : Stored C bc.consensus handled bc.bestTipHash bc.blocks.tip := by
  obtain ⟨v, hv, hlast⟩ := h.best.chain.getLast
  have htip : v = bc.blocks.tip := by
    rw [List.getLast?_eq_some_getLast bc.blocks.2] at hlast
    exact (Option.some.inj hlast).symm
  rw [← htip]
  exact h.stored _ _ hv

theorem minedBlock_ok {transfers : List Transaction} {now : Int64}
    (hbits : BitsValid bc.consensus) (h : minedBlock C bc transfers now = some b) :
    Hashed C bc.consensus b ∧ b.prevHash.bytes = bc.blocks.tip.hash.bytes ∧ b.difficultyBits ≠ 0 := by
  unfold minedBlock at h
  split at h
  · nomatch h
  · split at h
    · rename_i hpow
      cases h
      exact ⟨hashed_of_powRun rfl hpow, GoSlice.bytes_copy _, nextDifficultyBits_ne_zero hbits _⟩
    · nomatch h

theorem parentKey_of_prevHash {tip : Block} (h : b.prevHash.bytes = tip.hash.bytes) (hlen : tip.hash.bytes.length = 32) :
    parentKey b = some tip.hashHex := by
  have hne : b.prevHash.bytes ≠ [] := by
    intro hnil
    rw [← h, hnil] at hlen
    nomatch hlen
  unfold parentKey Block.prevHashHex Block.hashHex
  rw [if_neg hne, h]

theorem mined_fresh (h : TreeInv C handled bc) (hdist : HeadersDistinct C bc.consensus (handled ++ [b])) (hhash : Hashed C bc.consensus b)
    (hprev : b.prevHash.bytes = bc.blocks.tip.hash.bytes) : b.hashHex ∉ bc.blocksByHash := by
  refine h.best.notMem fun b' hb' => ?_
  have hstored := h.stored _ _ hb'
  have htip := tip_stored h
  have hlen := htip.hashed.length
  -- the two headers have one digest
  obtain ⟨header, hin, hheader, hsum⟩ := hhash.mem_headerMessages (List.mem_append_right handled (.head _))
  obtain ⟨header', hin', hheader', hsum'⟩ := hstored.hashed.mem_headerMessages (List.mem_append_left [b] hstored.mem)
  have hsame : C.sha256 header = C.sha256 header' := by
    rw [← hsum, ← hsum']
    exact hexEncode_inj.mp hstored.key
  obtain rfl := hdist.collisionFree header hin header' hin' hsame
  have hprevs := (sameHeader_of_ok hheader hheader').prevHash
  rw [headerPrev, if_pos (by rw [hprev, hlen]), hprev] at hprevs
  by_cases hlen' : b'.prevHash.bytes.length = 32
  · rw [headerPrev, if_pos hlen'] at hprevs
    have hparent := parentKey_of_prevHash hprevs.symm hlen
    rw [← htip.key] at hparent
    exact ⟨hparent, blockWork_pos hstored.bits⟩
  · rw [headerPrev, if_neg hlen'] at hprevs
    obtain ⟨headerT, hinT, -, hsumT⟩ := htip.hashed.mem_headerMessages (List.mem_append_left [b] htip.mem)
    exact absurd (hsumT.symm.trans hprevs) (hdist.nonzero headerT hinT)

/-! ## Steps -/

theorem lt_trans (a b c : Bytes) (hab : a < b) (hbc : b < c) : a < c := List.lt_trans hab hbc

theorem lt_of_not_lt (a b : Bytes) (hne : a ≠ b) (h : ¬a < b) : b < a := by
  rcases List.le_iff_lt_or_eq.mp (List.not_lt.mp h) with hlt | heq
  · exact hlt
  · exact absurd heq.symm hne

/-- Every step keeps the invariant. -/
theorem treeInv_step {bc' : Blockchain σ}
    {block : Option Block} (hstep : Step C S bc block bc') (hdist : HeadersDistinct C bc.consensus (handled ++ block.toList))
    (h : TreeInv C handled bc) : TreeInv C (handled ++ block.toList) bc' := by
  have hderived := derived_step hstep h.derived
  have hwork : bc.canonicalWork = total blockWork bc.blocks.1 := h.derived.canonicalWork
  rcases step_cases hstep with ⟨st, rfl, -⟩ | ⟨b, clock, cand, rfl, hv, -, hworse, rfl⟩ |
    ⟨b, clock, cand, rfl, hv, -, hbetter, rfl⟩ | ⟨b, transfers, now, rfl, hm, -, rfl⟩
  · exact ⟨h.bits, fun k b hb => (h.stored k b hb).mono _, h.rooted, h.best, hderived⟩
  · have hext := checkExternal_ok_iff.mp hv.external
    have hchain := chain_of_candidate hv.computed
    have hcand : cand.work = total blockWork cand.path.1 := (computeCanonicalForTip_ok hv.computed).2.2
    rw [isBetter, hwork, hcand] at hworse
    exact ⟨h.bits, stored_set h.stored hext.hashed hext.bits, h.rooted.set hv.fresh hchain,
      h.best.insert_not_better lt_of_not_lt h.rooted hv.fresh hchain hworse, hderived⟩
  · have hext := checkExternal_ok_iff.mp hv.external
    have hchain := chain_of_candidate hv.computed
    have hcand : cand.work = total blockWork cand.path.1 := (computeCanonicalForTip_ok hv.computed).2.2
    rw [isBetter, hwork, hcand] at hbetter
    exact ⟨h.bits, stored_set h.stored hext.hashed hext.bits, h.rooted.set hv.fresh hchain,
      h.best.insert_better lt_trans h.rooted hv.fresh hchain hbetter, hderived⟩
  · -- a mined block is a child of the best tip, and has some work
    obtain ⟨hhash, hprev, hbits⟩ := minedBlock_ok h.bits hm.mined
    have htip := tip_stored h
    have hfresh := mined_fresh h hdist hhash hprev
    have hparent : parentKey b = some bc.bestTipHash := by
      rw [htip.key]
      exact parentKey_of_prevHash hprev htip.hashed.length
    have hmap := addToIndex_of_hash bc.blocksByHash (by rw [hhash.length]; decide)
    have hchain : ChainTo parentKey (bc.blocksByHash.set b.hashHex b) b.hashHex (bc.blocks.1 ++ [b]) :=
      ChainTo.child (GoMap.lookup_set_self _ _ _) hparent (h.best.chain.set b hfresh)
    have hmore : total blockWork bc.blocks.1 < total blockWork (bc.blocks.1 ++ [b]) := by
      have := blockWork_pos hbits
      simp only [total_append, total_singleton]
      omega
    have hbest := h.best.insert_better lt_trans h.rooted hfresh hchain (Or.inl hmore)
    have hstored := stored_set h.stored hhash hbits
    have hrooted := h.rooted.set hfresh hchain
    rw [← hmap] at hbest hstored hrooted
    exact ⟨h.bits, hstored, hrooted, hbest, hderived⟩

/-- Every run keeps the invariant. -/
theorem treeInv_runs {before : List Block} {bc0 : Blockchain σ}
    (hrun : Runs C S bc0 handled bc) (h0 : TreeInv C before bc0) (hdist : HeadersDistinct C bc.consensus (before ++ handled)) :
    TreeInv C (before ++ handled) bc := by
  induction hrun with
  | start =>
    rw [List.append_nil]
    exact h0
  | step _ hstep ih =>
    rw [(step_startedWith hstep).1, ← List.append_assoc] at hdist
    rw [← List.append_assoc]
    exact treeInv_step hstep hdist (ih hdist.mono)

/-! ## The start -/

/-- A loaded node that holds only its genesis block has the invariant. -/
theorem treeInv_load {chainID : UInt64} {minerAddress : Bytes} {raw : GenesisConfigJSON} {ignoreRulesHash : Bool} {st : σ} {genesis : Block}
    (hload : loadBlockchain C S chainID minerAddress raw ignoreRulesHash st = some (.ok bc)) (hblocks : bc.blocks.1 = [genesis])
    (htree : bc.blocksByHash = GoMap.set ∅ genesis.hashHex genesis) : TreeInv C [genesis] bc := by
  obtain ⟨cfg, blocks, all, st1, path, st2, genesisHash, first, st3, hcfg, -, -, -, -, -, hgenesis, hfirst, -, hinit⟩ :=
    loadBlockchain_ok_iff.mp hload
  have hvalid := bitsValid_of_validParams (validConfig_of_load hcfg).consensusParams
  have hg := isGenesis_of_load (validConfig_of_load hcfg) hgenesis
  rw [← ensureBlockHash_of_hash hfirst hg.hash] at hg
  have hi := initChain_ok_iff.mp hinit
  have hpath := congrArg Subtype.val hi.blocks
  obtain ⟨rfl, -⟩ := List.cons.inj (hpath.symm.trans hblocks)
  have hhash := hg.hashed
  rw [← hi.consensus] at hhash hvalid
  have htip' : bc.bestTipHash = first.hashHex := by
    rw [hi.bestTipHash, ← hi.blocks, Path.tip]
    simp only [hblocks, List.getLast_singleton]
  have hsingle : Rooted parentKey (GoMap.set ∅ first.hashHex first) ∧
      Best parentKey blockWork (· < ·) (GoMap.set ∅ first.hashHex first) first.hashHex [first] := best_singleton (if_pos hg.prevHash)
  refine ⟨hvalid, ?_, ?_, ?_, hi.derived⟩
  · intro k b hb
    rw [htree, GoMap.lookup_set] at hb
    split at hb
    · rename_i hk
      cases hb
      exact ⟨hk, hhash, by rw [hg.bits, ← hi.consensus]; exact hvalid.genesis, (.head _)⟩
    · exact absurd hb (by simp)
  · rw [htree]
    exact hsingle.1
  · unfold BestTip
    rw [htip', hblocks, htree]
    exact hsingle.2

end TreeAux

/-! ## Fork choice -/

open TreeAux

/-- A run from a loaded node that holds only its genesis block, with the blocks it handled, genesis among them. -/
def FreshRun {σ : Type} (C : Crypto) (S : ChainStore σ) (handled : List Block) (bc : Blockchain σ) : Prop :=
  ∃ chainID minerAddress raw ignoreRulesHash st bc0 genesis bs,
    loadBlockchain C S chainID minerAddress raw ignoreRulesHash st = some (.ok bc0) ∧ bc0.blocks.1 = [genesis] ∧
      bc0.blocksByHash = GoMap.set ∅ genesis.hashHex genesis ∧ Runs C S bc0 bs bc ∧ handled = [genesis] ++ bs

/-- The tree of a node is keyed by hash and rooted, its tip is the best one, and its chain and its work are those of the tip. -/
structure ForkChoice {σ : Type} (bc : Blockchain σ) : Prop where
  keys : ∀ k b, bc.blocksByHash.lookup k = some b → k = b.hashHex
  chains : Rooted parentKey bc.blocksByHash
  best : BestTip bc
  unique : ∀ k path, Best parentKey blockWork (fun a b => a < b) bc.blocksByHash k path → k = bc.bestTipHash
  canonicalWork : bc.canonicalWork = pathWork bc.blocks.1

theorem treeInv_freshRun (hrun : FreshRun C S handled bc) (hdist : HeadersDistinct C bc.consensus handled) : TreeInv C handled bc := by
  obtain ⟨_, _, _, _, _, _, genesis, bs, hload, hblocks, htree, hsteps, rfl⟩ := hrun
  exact treeInv_runs hsteps (treeInv_load hload hblocks htree) hdist

/-- After any run from genesis the tip is the best block of the tree; any other node with the same tree, whatever order its blocks came
in, has the same chain and the same state. -/
theorem bestTip_of_run {σ : Type} (C : Crypto) (S : ChainStore σ) (handled : List Block) (bc : Blockchain σ)
    (hrun : FreshRun C S handled bc) (hdist : HeadersDistinct C bc.consensus handled) : ForkChoice bc ∧
      ∀ (τ : Type) (S' : ChainStore τ) (handled' : List Block) (bc' : Blockchain τ), FreshRun C S' handled' bc' →
        HeadersDistinct C bc'.consensus handled' → bc'.blocksByHash = bc.blocksByHash →
        bc'.bestTipHash = bc.bestTipHash ∧ bc'.blocks = bc.blocks ∧ bc'.state = bc.state := by
  have h := treeInv_freshRun hrun hdist
  have hunique : ∀ k path, Best parentKey blockWork (fun a b => a < b) bc.blocksByHash k path →
      k = bc.bestTipHash ∧ path = bc.blocks.1 := by
    intro k path hbest
    exact hbest.unique List.lt_irrefl lt_trans h.best
  refine ⟨⟨fun k b hb => (h.stored k b hb).key, h.rooted, h.best, fun k path hbest => (hunique k path hbest).1,
    h.derived.canonicalWork⟩, ?_⟩
  intro τ S' handled' bc' hrun' hdist' htree
  have h' := treeInv_freshRun hrun' hdist'
  have hbest' := h'.best
  unfold BestTip at hbest'
  rw [htree] at hbest'
  obtain ⟨htip, hblocks⟩ := hunique _ _ hbest'
  refine ⟨htip, Subtype.ext hblocks, ?_⟩
  -- the state is what the blocks of the chain pay, whatever the parameters
  have hstate := eq_payBlocks_of_applyBlocks h.derived.state
  have hstate' := eq_payBlocks_of_applyBlocks h'.derived.state
  rw [hstate, hstate', hblocks]

namespace Sample

theorem headers_distinct : HeadersDistinct crypto params [genesis, emptyBlock] := by
  simp only [crypto, goCrypto_eq]
  exact ⟨Crypto.CollisionFreeOn.of_nodup (by decide +kernel), by decide +kernel⟩

theorem node_freshRun : FreshRun crypto store [genesis, emptyBlock] (addBlock crypto store node (some emptyBlock) fun _ => 2).chain :=
  ⟨1, minerAddress, raw, false, (), node, genesis, [emptyBlock], node_loads, rfl, rfl,
    Runs.step Runs.start (Step.add node (some emptyBlock) fun _ => 2), rfl⟩

end Sample

open Sample

/-- The node that adds one block to its genesis block. -/
theorem bestTip_of_run_node : ForkChoice (addBlock crypto store Sample.node (some emptyBlock) fun _ => 2).chain := by
  have hcons : (addBlock crypto store Sample.node (some emptyBlock) fun _ => 2).chain.consensus = params :=
    (step_startedWith (Step.add (S := store) Sample.node (some emptyBlock) fun _ => 2)).1
  refine (bestTip_of_run crypto store [Sample.genesis, emptyBlock] _ node_freshRun ?_).1
  rw [hcons]
  exact headers_distinct

end NeoCoin
