import NeoCoin.Theorems.Paths

/-!
# The difficulty and the audit of an accepted chain

`AddBlock` compares the difficulty of a block with the retarget rule only where the parameters enable it (`difficulty_of_run`).
`AuditChain` repeats the checks of `AddBlock` on the whole chain at a later time (`audit_ok_iff`).
-/

namespace NeoCoin

open GoLib

/-! ## The difficulty -/

/-- In every run from genesis each block has a difficulty the proof of work is defined for, within the bounds of the parameters where
these enable the adjustment. -/
theorem difficulty_of_run {σ : Type} (C : Crypto) (S : ChainStore σ) (handled : List Block) (bc : Blockchain σ)
    (hrun : FreshRun C S handled bc) : (bc.consensus.difficultyEnable = true →
      ∀ b ∈ bc.blocks.1, bc.consensus.minDifficultyBits ≤ b.difficultyBits ∧ b.difficultyBits ≤ bc.consensus.maxDifficultyBits) ∧
    ∀ b ∈ bc.blocks.1, 1 ≤ b.difficultyBits ∧ b.difficultyBits ≤ 256 := by
  obtain ⟨cfg, genesis, h⟩ := PathAux.chainInv_freshRun hrun
  constructor
  · intro henable b hb
    obtain ⟨i, hi, rfl⟩ := List.getElem_of_mem hb
    cases i with
    | zero =>
      have hhead := h.head
      rw [List.head?_eq_getElem?, List.getElem?_eq_getElem hi] at hhead
      rw [Option.some.inj hhead, h.isGenesis.bits, h.consensus]
      exact ⟨h.config.consensusParams.genesisMin, h.config.consensusParams.genesisMax⟩
    | succ i =>
      rw [(h.linked.follows i _ (List.getElem?_eq_getElem hi)).difficulty henable]
      obtain ⟨hmax, hmin⟩ := PathAux.nextDifficultyBits_between h.validParams (bc.blocks.1.take (i + 1))
      exact ⟨hmin, hmax⟩
  · intro b hb
    have hgood := h.blocks b hb
    have hbits := hgood.bits
    exact ⟨by grind, hgood.maxBits⟩

open Sample

/-- The genesis file with the adjustment, and at least 2 bits. -/
def Sample.adjustedRaw : GenesisConfigJSON :=
  { raw with consensusParams := raw.consensusParams.map fun p =>
      { p with difficultyEnable := some true, minDifficultyBits := some 2, genesisDifficultyBits := some 2 } }

/-- A block is mined on the genesis block. -/
theorem difficulty_of_run_node : ∃ bc b bc', loadBlockchain crypto store 1 minerAddress adjustedRaw false () = some (.ok bc) ∧
    mineTransfers crypto store bc [] 2 = some (.ok b, bc') ∧ bc'.blocks.1.length = 2 ∧
    ∀ b ∈ bc'.blocks.1, 2 ≤ b.difficultyBits ∧ b.difficultyBits ≤ 255 := by
  have hrun : (loadBlockchain crypto store 1 minerAddress adjustedRaw false ()).any (fun load => load.toOption.any fun bc =>
      (mineTransfers crypto store bc [] 2).any fun r => r.1.toOption.isSome && decide (bc.blocks.1 = [bc.blocks.tip] ∧
        bc.blocksByHash = GoMap.set ∅ bc.blocks.tip.hashHex bc.blocks.tip ∧ r.2.blocks.1.length = 2 ∧
        r.2.consensus.difficultyEnable = true ∧ r.2.consensus.minDifficultyBits = 2 ∧ r.2.consensus.maxDifficultyBits = 255)) = true := by
    simp only [crypto, goCrypto_eq]
    decide +kernel
  obtain ⟨load, hload, hrun⟩ := (Option.any_eq_true _ _).mp hrun
  obtain ⟨bc, hbc, hrun⟩ := (Option.any_eq_true _ _).mp hrun
  obtain ⟨⟨r, bc'⟩, hmine, hr⟩ := (Option.any_eq_true _ _).mp hrun
  rw [Result.toOption_eq_some.mp hbc] at hload
  cases r with
  | error => cases hr
  | ok b =>
    obtain ⟨hblocks, htree, hlen, henable, hmin, hmax⟩ := of_decide_eq_true hr
    refine ⟨bc, b, bc', hload, hmine, hlen, ?_⟩
    rw [← hmin, ← hmax]
    exact (difficulty_of_run crypto store _ _ ⟨1, minerAddress, adjustedRaw, false, (), bc, _, _, hload, hblocks, htree,
      Runs.step Runs.start (Step.mine hmine), rfl⟩).1 henable

namespace Sample

/-- A genesis file that asks for at least 2 bits, and does not enable the adjustment. -/
def flooredRaw : GenesisConfigJSON :=
  { raw with consensusParams := raw.consensusParams.map fun p =>
      { p with minDifficultyBits := some 2, genesisDifficultyBits := some 2 } }

def flooredGenesis : Block :=
  { genesis with
    difficultyBits := 2
    hash := some (beBytes 32 0x38a4f7c3c760d33afd00be8330409d0d716d34b444ced07b92f3b2c11dc9b271) }

def flooredNode : Blockchain Unit :=
  { node with
    consensus := { params with minDifficultyBits := 2, genesisDifficultyBits := 2 }
    blocks := ⟨[flooredGenesis], List.cons_ne_nil _ _⟩
    blocksByHash := GoMap.set ∅ flooredGenesis.hashHex flooredGenesis
    bestTipHash := flooredGenesis.hashHex
    canonicalWork := 4 }

def easyBlock : Block :=
  { emptyBlock with
    prevHash := flooredGenesis.hash
    hash := some (beBytes 32 0x6738cf94b9bf5df28f9ec40c7695e4e6213c2a6152d10e65f9684bff48ac6c63) }

end Sample

/-- Without the adjustment a block of 1 bit becomes the tip of a chain with a minimum of 2. -/
theorem easyBlock_below_minimum : loadBlockchain crypto store 1 minerAddress flooredRaw false () = some (.ok flooredNode) ∧
    validateConsensusParams flooredNode.consensus = .ok () ∧ (addBlock crypto store flooredNode (some easyBlock) fun _ => 2).err = none ∧
    (addBlock crypto store flooredNode (some easyBlock) fun _ => 2).chain.blocks.tip.difficultyBits <
      flooredNode.consensus.minDifficultyBits := by
  simp only [crypto, goCrypto_eq]
  decide +kernel

/-! ## The audit -/

/-- A run of `AddBlock` calls that read their clocks no later than `t`. -/
inductive AddRuns {σ : Type} (C : Crypto) (S : ChainStore σ) (t : Int64) (bc0 : Blockchain σ) : Blockchain σ → Prop where
  | start : AddRuns C S t bc0 bc0
  | add {bc : Blockchain σ} (block : Option Block) {clock : Nat → Int64} :
      AddRuns C S t bc0 bc → (∀ i, clock i ≤ t) → AddRuns C S t bc0 (addBlock C S bc block clock).chain

namespace AuditAux

open HeaderAux TreeAux PathAux

variable {σ : Type} {C : Crypto} {bc : Blockchain σ} {S : ChainStore σ}

theorem AddRuns.runs {t : Int64} {bc0 : Blockchain σ} (h : AddRuns C S t bc0 bc) : ∃ handled, Runs C S bc0 handled bc := by
  induction h with
  | start => exact ⟨[], Runs.start⟩
  | add block _ _ ih =>
    obtain ⟨handled, hrun⟩ := ih
    exact ⟨_, Runs.step hrun (Step.add _ block _)⟩

/-- The times of the chain passed when they were checked. -/
structure TimesChecked {σ : Type} (t : Int64) (bc : Blockchain σ) : Prop where
  increasing : Increasing bc.blocks.1
  ahead : ∀ i b, bc.blocks.1[i + 1]? = some b → ∃ now ≤ t, b.timestampUnix ≤ now + bc.consensus.maxTimeDrift

variable {cfg : GenesisConfig} {genesis : Block}

theorem timesChecked_add {t : Int64} (block : Option Block) {clock : Nat → Int64} (hclock : ∀ i, clock i ≤ t)
    (hinv : ChainInv C cfg genesis bc) (h : TimesChecked t bc) : TimesChecked t (addBlock C S bc block clock).chain := by
  rcases addBlock_cases C S bc block clock with ⟨-, ⟨st, heq, -⟩, -⟩ | ⟨b, cand, rfl, hv, -, hadd⟩
  · rw [heq]
    exact ⟨h.increasing, h.ahead⟩
  · rw [hadd]
    by_cases hbetter : isBetter cand.work b.hashHex bc.canonicalWork bc.bestTipHash
    · rw [(chooseTip_of_better C S (bc.insert S b) b cand hbetter).1]
      obtain ⟨-, ⟨-, htimes⟩, -, -⟩ :=
        (candidate_ok_iff C (bitsValid_of_validParams hinv.validParams) _ clock _ cand).mp hv.computed
      obtain ⟨hinc, hahead⟩ := (times_ok_iff bc.consensus cand.path.1 clock).mp htimes
      refine ⟨hinc, ?_⟩
      intro i b' hb'
      exact ⟨clock (i + 1), hclock (i + 1), hahead i b' hb' hinv.validParams.maxTimeDrift⟩
    · rw [chooseTip_of_not_better C S (bc.insert S b) b cand hbetter]
      exact ⟨h.increasing, h.ahead⟩

theorem timesChecked_addRuns {t : Int64}
    {bc0 : Blockchain σ} (hrun : AddRuns C S t bc0 bc) (hinv : ChainInv C cfg genesis bc0) (hblocks : bc0.blocks.1 = [genesis]) :
    TimesChecked t bc := by
  induction hrun with
  | start =>
    refine ⟨?_, ?_⟩
    · rw [hblocks]
      exact List.pairwise_singleton _ _
    · intro i b hb
      rw [hblocks] at hb
      exact absurd hb (by simp)
  | add block hprev hclock ih =>
    obtain ⟨handled, hsteps⟩ := AddRuns.runs hprev
    exact timesChecked_add block hclock (chainInv_runs hsteps hinv) ih

/-! ### The loop of the audit -/

theorem auditHeader_zero_iff (p : ConsensusParams) (blocks : List Block) (now : Int64) (b : Block) :
    auditHeader p blocks now 0 b = .ok () ↔ GenesisHeader p b := by
  unfold auditHeader
  rw [if_pos rfl]
  simp only [unit_bind_eq_ok, failIf_eq_ok, not_or, not_not, List.length_eq_zero_iff, and_assoc, genesisHeader_iff]

theorem auditHeader_succ_iff (p : ConsensusParams) {blocks : List Block} (now : Int64) {i : Nat} {b : Block}
    (hb : blocks[i + 1]? = some b) : auditHeader p blocks now (i + 1) b = .ok () ↔
      Follows p (blocks.take (i + 1)) (blocks.getD i default) b ∧ validateBlockTime p blocks (i + 1) now = .ok () := by
  obtain ⟨hi, -⟩ := List.getElem?_eq_some_iff.mp hb
  have hexpected : expectedDifficultyBitsForBlockIndex p blocks (i + 1) = nextDifficultyBitsFromPath p (blocks.take (i + 1)) :=
    if_neg (by omega)
  unfold auditHeader
  rw [if_neg (Nat.succ_ne_zero i), Nat.add_sub_cancel]
  simp only [hexpected, follows_iff]
  cases henable : p.difficultyEnable with
  | false =>
    simp only [unit_bind_eq_ok, failIf_eq_ok, not_not, Bool.false_eq_true, if_false, false_implies]
    tauto
  | true =>
    simp only [unit_bind_eq_ok, failIf_eq_ok, not_not, if_true, true_implies]
    tauto

theorem auditHeader_iff {p : ConsensusParams} {blocks : List Block} (hlinked : Linked p blocks) (now : Int64) {i : Nat} {b : Block}
    (hb : blocks[i]? = some b) : auditHeader p blocks now i b = .ok () ↔ validateBlockTime p blocks i now = .ok () := by
  cases i with
  | zero =>
    rw [auditHeader_zero_iff, validateBlockTime_zero]
    exact iff_of_true (hlinked.genesis b hb) rfl
  | succ i =>
    rw [auditHeader_succ_iff p now hb]
    exact and_iff_right (hlinked.follows i b hb)

theorem auditBlocks_ok_iff (C : Crypto) (p : ConsensusParams) (blocks : List Block) (clock : Nat → Int64) (i : Nat) (rest : List Block) :
    auditBlocks C p blocks clock i rest = .ok () ↔
      ∀ j b, rest[j]? = some b → auditBlock C p blocks (clock (i + j)) (i + j) b = .ok () := by
  induction rest generalizing i with
  | nil => simp [auditBlocks]
  | cons b rest ih =>
    rw [auditBlocks, bind_eq_ok]
    constructor
    · rintro ⟨_, hb, hrest⟩ j b' hb'
      cases j with
      | zero =>
        cases hb'
        exact hb
      | succ j =>
        have := (ih (i + 1)).mp hrest j b' hb'
        rwa [Nat.add_right_comm, Nat.add_assoc] at this
    · intro h
      refine ⟨(), h 0 b rfl, (ih (i + 1)).mpr ?_⟩
      intro j b' hb'
      have := h (j + 1) b' hb'
      rwa [← Nat.add_assoc, Nat.add_right_comm] at this

theorem auditTx_of_applied {C : Crypto} {p : ConsensusParams} {bs : List Block} {s s' : State}
    (h : applyBlocks C p bs s = (.ok (), s')) : ∀ b ∈ bs, ∀ tx ∈ b.transactions, auditTx C p b.height tx = .ok () := by
  induction bs generalizing s with
  | nil =>
    intro b hb
    exact absurd hb (by simp)
  | cons b bs ih =>
    obtain ⟨⟨cb, ts, hacc⟩, hrest⟩ := (applyBlocks_cons_ok_iff C p).mp h
    intro b' hb'
    rcases List.mem_cons.mp hb' with rfl | hb'
    · intro tx htx
      rw [hacc.transactions] at htx
      simp only [auditTx, bind_eq_ok, failIf_eq_ok, Result.wrap_eq_ok]
      rcases List.mem_cons.mp htx with rfl | htx
      · exact ⟨(), hacc.coinbase.chainID, (verifyForConsensus_coinbase_iff C p _ hacc.type).mpr hacc.coinbase⟩
      · obtain ⟨htype, hverified⟩ := transfersAccepted_forall hacc.transfers tx htx
        exact ⟨(), hverified.chainID, (verifyForConsensus_transfer_iff C p _ htype).mpr hverified⟩
    · exact ih hrest b' hb'

theorem auditBlocks_iff_times
    (h : ChainInv C cfg genesis bc) (clock : Nat → Int64) : auditBlocks C bc.consensus bc.blocks.1 clock 0 bc.blocks.1 = .ok () ↔
      ∀ i, i < bc.blocks.1.length → validateBlockTime bc.consensus bc.blocks.1 i (clock i) = .ok () := by
  have hblock : ∀ i b, bc.blocks.1[i]? = some b →
      (auditBlock C bc.consensus bc.blocks.1 (clock i) i b = .ok () ↔
        validateBlockTime bc.consensus bc.blocks.1 i (clock i) = .ok ()) := by
    intro i b hb
    have hmem := List.mem_of_getElem? hb
    have hgood := h.blocks b hmem
    have htxs := auditTx_of_applied h.derived.state b hmem
    rw [← auditHeader_iff h.linked (clock i) hb]
    simp only [auditBlock, bind_eq_ok, failIf_eq_ok, forM_eq_ok, not_or]
    constructor
    · rintro ⟨_, hheader, -⟩
      exact hheader
    · intro hheader
      exact ⟨(), hheader, (), ⟨hgood.bits, UInt32.not_lt.mpr hgood.maxBits⟩, true, hgood.pow, (), by simp, htxs⟩
  rw [auditBlocks_ok_iff]
  simp only [Nat.zero_add]
  constructor
  · intro hall i hi
    have hb := List.getElem?_eq_getElem hi
    exact (hblock i _ hb).mp (hall i _ hb)
  · intro hall i b hb
    obtain ⟨hi, -⟩ := List.getElem?_eq_some_iff.mp hb
    exact (hblock i b hb).mpr (hall i hi)

theorem timestamp_pos (h : ChainInv C cfg genesis bc)
    (hinc : Increasing bc.blocks.1) {i : Nat} {b : Block} (hb : bc.blocks.1[i + 1]? = some b) : 0 < b.timestampUnix.toInt := by
  obtain ⟨hi, rfl⟩ := List.getElem?_eq_some_iff.mp hb
  have hhead := h.head
  rw [List.head?_eq_getElem?, List.getElem?_eq_getElem (by omega)] at hhead
  have hlater := List.pairwise_iff_getElem.mp hinc 0 (i + 1) (by omega) hi (by omega)
  rw [Option.some.inj hhead, h.isGenesis.timestamp] at hlater
  exact Int64.lt_iff_toInt_lt.mp (Int64.lt_trans h.config.timestamp hlater)

end AuditAux

open AuditAux PathAux

/-- Through any run of `AddBlock` calls that end no later than `t`, the audit at times not earlier than `t` succeeds and leaves the node
as it is, if and only if its clock and the allowed drift add up without overflow. -/
theorem audit_ok_iff {σ : Type} (C : Crypto) (S : ChainStore σ) (chainID : UInt64) (minerAddress : Bytes) (raw : GenesisConfigJSON)
    (ignoreRulesHash : Bool) (st : σ) (bc0 bc : Blockchain σ) (genesis : Block) (t : Int64) (clock : Nat → Int64)
    (hload : loadBlockchain C S chainID minerAddress raw ignoreRulesHash st = some (.ok bc0)) (hblocks : bc0.blocks.1 = [genesis])
    (htree : bc0.blocksByHash = GoMap.set ∅ genesis.hashHex genesis) (hrun : AddRuns C S t bc0 bc) (hclock : ∀ i, t ≤ clock i) :
    auditChain C bc clock = (.ok (), bc) ↔
      ∀ i, i + 1 < bc.blocks.1.length → (clock (i + 1)).toInt + bc.consensus.maxTimeDrift.toInt < 2 ^ 63 := by
  obtain ⟨l⟩ := loadBlockchain_ok_iff.mp hload
  have hinv0 := chainInv_load l hblocks htree
  have hchecked := timesChecked_addRuns hrun hinv0 hblocks
  obtain ⟨handled, hsteps⟩ := AddRuns.runs hrun
  have h := chainInv_runs hsteps hinv0
  have hdrift := h.validParams.maxTimeDrift
  have haudit : auditChain C bc clock = (.ok (), bc) ↔
      auditBlocks C bc.consensus bc.blocks.1 clock 0 bc.blocks.1 = .ok () := by
    unfold auditChain
    rcases Result.ok_or_error (auditBlocks C bc.consensus bc.blocks.1 clock 0 bc.blocks.1) with ⟨_, hok⟩ | ⟨e, herr⟩
    · rw [hok]
      simp [recomputeState, h.derived.state]
    · rw [herr]
      simp
  rw [haudit, auditBlocks_iff_times h, times_ok_iff]
  constructor
  · rintro ⟨hinc, hahead⟩ i hi
    have hb := List.getElem?_eq_getElem hi
    have hle := Int64.le_iff_toInt_le.mp (hahead i _ hb hdrift)
    have hpos := timestamp_pos h hinc hb
    have hhigh := (clock (i + 1)).toInt_lt
    have hdrift' := bc.consensus.maxTimeDrift.toInt_lt
    rw [toInt_add_drift _ hdrift] at hle
    by_contra hover
    rw [if_neg hover] at hle
    omega
  · intro hsum
    refine ⟨hchecked.increasing, ?_⟩
    intro i b hb _
    obtain ⟨hi, -⟩ := List.getElem?_eq_some_iff.mp hb
    obtain ⟨now, hnow, hle⟩ := hchecked.ahead i b hb
    have hle := Int64.le_iff_toInt_le.mp hle
    have hlater := Int64.le_iff_toInt_le.mp (Int64.le_trans hnow (hclock (i + 1)))
    have hsum := hsum i hi
    rw [Int64.le_iff_toInt_le, toInt_add_drift _ hdrift, if_pos hsum]
    rw [toInt_add_drift _ hdrift] at hle
    split at hle
    · omega
    · omega

/-- The node that adds one block to its genesis block at time 2, audited at time 5. -/
theorem audit_ok_iff_node : (auditChain crypto (addBlock crypto store Sample.node (some emptyBlock) fun _ => 2).chain
      fun _ => 5).1 = .ok () := by
  have hcons : (addBlock crypto store Sample.node (some emptyBlock) fun _ => 2).chain.consensus = params :=
    (step_startedWith (Step.add (S := store) Sample.node (some emptyBlock) fun _ => 2)).1
  have haudit := (audit_ok_iff crypto store 1 minerAddress raw false () Sample.node _ Sample.genesis 2
    (fun _ => 5) node_loads rfl rfl (AddRuns.add (some emptyBlock) AddRuns.start fun _ => Int64.le_refl 2)
    (fun _ => by decide)).mpr (fun i _ => by rw [hcons]; decide)
  exact congrArg Prod.fst haudit

namespace Sample

def driftingRaw : GenesisConfigJSON :=
  { raw with consensusParams := raw.consensusParams.map fun p => { p with maxTimeDrift := some 9223372036854775804 } }

def driftingNode : Blockchain Unit := { node with consensus := { params with maxTimeDrift := 9223372036854775804 } }

end Sample

/-- A block that was added at time 2 is too far in the future at time 5. -/
theorem audit_rejects_later : loadBlockchain crypto store 1 minerAddress driftingRaw false () = some (.ok driftingNode) ∧
    (addBlock crypto store driftingNode (some emptyBlock) fun _ => 2).err = none ∧
    (auditChain crypto (addBlock crypto store driftingNode (some emptyBlock) fun _ => 2).chain
      fun _ => 5).1 = .error "timestamp too far in future at height 1" := by
  simp only [crypto, goCrypto_eq]
  decide +kernel

end NeoCoin
