import NeoCoin.Forks
import NeoCoin.Theorems.Accounting

/-!
# What a failed operation of a node leaves in its memory

`addBlock_cases` says what `AddBlock` can do, and `mineTransfers_eq` what `MineTransfers` can do.
-/

namespace NeoCoin

open GoLib

variable {σ : Type} {C : Crypto} {b : Block} {s : State} {p : ConsensusParams} {ts : List Transaction}
  {cb : Transaction}

/-- Two nodes hold the same chain in memory. What is in their stores may differ. -/
structure SameMemory {σ : Type} (bc bc' : Blockchain σ) : Prop where
  blocks : bc'.blocks = bc.blocks
  state : bc'.state = bc.state
  blocksByHash : bc'.blocksByHash = bc.blocksByHash
  bestTipHash : bc'.bestTipHash = bc.bestTipHash
  canonicalWork : bc'.canonicalWork = bc.canonicalWork
  txIndex : bc'.txIndex = bc.txIndex
  addressIndex : bc'.addressIndex = bc.addressIndex

theorem SameMemory.refl (bc : Blockchain σ) : SameMemory bc bc := ⟨rfl, rfl, rfl, rfl, rfl, rfl, rfl⟩

/-! ## Adding a block -/

/-- A block that passes every check of `AddBlock`, with the candidate it makes. -/
structure Validated {σ : Type} (C : Crypto) (bc : Blockchain σ) (b : Block) (clock : Nat → Int64) (cand : Candidate) : Prop where
  external : checkExternal C bc.consensus bc.chainID b = .ok ()
  parent : b.prevHashHex ∈ bc.blocksByHash
  fresh : b.hashHex ∉ bc.blocksByHash
  computed : computeCanonicalForTip C bc.consensus (bc.blocksByHash.set b.hashHex b) clock b.hashHex = .ok cand

/-- The node after the block went into `blocksByHash` and into the store. -/
def Blockchain.insert {σ : Type} (S : ChainStore σ) (bc : Blockchain σ) (b : Block) : Blockchain σ :=
  { bc with blocksByHash := bc.blocksByHash.set b.hashHex b, store := (S.putBlock bc.store b).2 }

/-- What is left after a block was rejected: the node as it was, with its store as it was or as a failed call left it. -/
def Rejected {σ : Type} (S : ChainStore σ) (bc : Blockchain σ) (block : Option Block) (bc' : Blockchain σ) : Prop :=
  ∃ st, bc' = { bc with store := st } ∧
    (st = bc.store ∨ ∃ b, block = some b ∧ (S.putBlock bc.store b).1 ≠ .ok () ∧ st = (S.putBlock bc.store b).2)

theorem Rejected.refl (S : ChainStore σ) (bc : Blockchain σ) (block : Option Block) : Rejected S bc block bc :=
  ⟨bc.store, rfl, Or.inl rfl⟩

theorem Rejected.sameMemory {S : ChainStore σ} {bc bc' : Blockchain σ} {block : Option Block}
    (h : Rejected S bc block bc') : SameMemory bc bc' := by
  obtain ⟨st, rfl, -⟩ := h
  exact ⟨rfl, rfl, rfl, rfl, rfl, rfl, rfl⟩

section

variable (C : Crypto) (S : ChainStore σ) (bc : Blockchain σ)

theorem addBlock_cases (block : Option Block) (clock : Nat → Int64) :
    ((addBlock C S bc block clock).err ≠ none ∧ Rejected S bc block (addBlock C S bc block clock).chain ∧
      ∀ b cand, block = some b → Validated C bc b clock cand → (S.putBlock bc.store b).1 ≠ .ok ()) ∨
    ∃ b cand, block = some b ∧ Validated C bc b clock cand ∧ (S.putBlock bc.store b).1 = .ok () ∧
      addBlock C S bc block clock = chooseTip C S (bc.insert S b) b cand := by
  cases block with
  | none =>
    exact Or.inl ⟨by simp [addBlock, AddResult.reject], Rejected.refl S bc none, fun b cand hb => nomatch hb⟩
  | some b =>
    simp only [addBlock, Option.some.injEq]
    rcases Result.ok_or_error (checkExternal C bc.consensus bc.chainID b) with ⟨_, hext⟩ | ⟨e, hext⟩
    · rw [hext]
      simp only [insertBlock]
      by_cases hparent : b.prevHashHex ∈ bc.blocksByHash
      · by_cases hfresh : b.hashHex ∈ bc.blocksByHash
        · rw [if_neg (not_not.mpr hparent), if_pos hfresh]
          refine Or.inl ⟨by simp [AddResult.reject], Rejected.refl S bc (some b), ?_⟩
          rintro _ cand rfl hv
          exact absurd hfresh hv.fresh
        · rw [if_neg (not_not.mpr hparent), if_neg hfresh]
          -- what was inserted for the validation is taken out again when it fails
          have hsame : ∀ st : σ, { bc with blocksByHash := (bc.blocksByHash.set b.hashHex b).delete b.hashHex, store := st } =
              { bc with store := st } := by
            intro st
            rw [GoMap.delete_set_of_notMem b hfresh]
          rcases Result.ok_or_error
            (computeCanonicalForTip C bc.consensus (bc.blocksByHash.set b.hashHex b) clock b.hashHex) with ⟨cand, hc⟩ | ⟨e, hc⟩
          · rw [hc]
            have hv : Validated C bc b clock cand := ⟨hext, hparent, hfresh, hc⟩
            obtain ⟨r, st, hput⟩ : ∃ r st, S.putBlock bc.store b = (r, st) := ⟨_, _, rfl⟩
            simp only [hput]
            cases r with
            | error e =>
              have hfailed : (S.putBlock bc.store b).1 ≠ .ok () := by
                rw [hput]
                simp
              refine Or.inl ⟨by simp [AddResult.reject], ⟨st, hsame st, Or.inr ⟨b, rfl, hfailed, by rw [hput]⟩⟩, ?_⟩
              rintro _ cand' rfl -
              exact hfailed
            | ok u =>
              refine Or.inr ⟨b, cand, rfl, hv, by rw [hput], ?_⟩
              unfold Blockchain.insert
              rw [hput]
          · rw [hc]
            refine Or.inl ⟨by simp [AddResult.reject], ⟨bc.store, hsame bc.store, Or.inl rfl⟩, ?_⟩
            rintro _ cand rfl hv
            exact absurd (hc.symm.trans hv.computed) (by simp)
      · rw [if_pos hparent]
        refine Or.inl ⟨by simp [AddResult.reject], Rejected.refl S bc (some b), ?_⟩
        rintro _ cand rfl hv
        exact absurd hv.parent hparent
    · rw [hext]
      refine Or.inl ⟨by simp [AddResult.reject], Rejected.refl S bc (some b), ?_⟩
      rintro _ cand rfl hv
      exact absurd (hext.symm.trans hv.external) (by simp)

theorem chooseTip_of_not_better (b : Block) (cand : Candidate) (h : ¬isBetter cand.work b.hashHex bc.canonicalWork bc.bestTipHash) :
    chooseTip C S bc b cand = { reorg := false, err := none, chain := bc } := by
  unfold chooseTip
  rw [if_neg h]

theorem chooseTip_of_better (b : Block) (cand : Candidate)
    (h : isBetter cand.work b.hashHex bc.canonicalWork bc.bestTipHash) : (chooseTip C S bc b cand).chain =
        { bc.adopt C cand b.hashHex with store := (S.rewriteCanonical bc.store cand.path.1).2 } ∧
      ((chooseTip C S bc b cand).err = none ↔ (S.rewriteCanonical bc.store cand.path.1).1 = .ok ()) := by
  unfold chooseTip
  rw [if_pos h]
  have hstore : (bc.adopt C cand b.hashHex).store = bc.store := rfl
  have hblocks : (bc.adopt C cand b.hashHex).blocks = cand.path := rfl
  simp only [hstore, hblocks]
  rcases Result.ok_or_error (S.rewriteCanonical bc.store cand.path.1).1 with ⟨_, hr⟩ | ⟨e, hr⟩
  · rw [hr]
    exact ⟨rfl, by simp⟩
  · rw [hr]
    exact ⟨rfl, by simp⟩

end

/-- The store refuses the chain of a better tip that it has taken the block of. -/
def RewriteFails {σ : Type} (C : Crypto) (S : ChainStore σ) (bc : Blockchain σ) (block : Option Block) (clock : Nat → Int64) : Prop :=
  ∃ b cand, block = some b ∧ Validated C bc b clock cand ∧ (S.putBlock bc.store b).1 = .ok () ∧
    isBetter cand.work b.hashHex bc.canonicalWork bc.bestTipHash ∧
    (S.rewriteCanonical (S.putBlock bc.store b).2 cand.path.1).1 ≠ .ok ()

/-- A failed `AddBlock` leaves the memory as it was if and only if it is not the rewrite of the canonical chain that fails. -/
theorem addBlock_unchanged_iff {σ : Type} (C : Crypto) (S : ChainStore σ) (bc : Blockchain σ) (block : Option Block) (clock : Nat → Int64) :
    ((addBlock C S bc block clock).err ≠ none → SameMemory bc (addBlock C S bc block clock).chain) ↔
      ¬RewriteFails C S bc block clock := by
  rcases addBlock_cases C S bc block clock with ⟨-, hrejected, hput⟩ | ⟨b, cand, rfl, hv, hput, hadd⟩
  · refine ⟨fun _ hfail => ?_, fun _ _ => hrejected.sameMemory⟩
    obtain ⟨b, cand, hb, hv, hok, -⟩ := hfail
    exact hput b cand hb hv hok
  · rw [hadd]
    by_cases hbetter : isBetter cand.work b.hashHex bc.canonicalWork bc.bestTipHash
    · obtain ⟨hchain, herr⟩ := chooseTip_of_better C S (bc.insert S b) b cand hbetter
      constructor
      · rintro hall ⟨b', cand', hb', hv', -, -, hrewrite⟩
        cases hb'
        cases hv.computed.symm.trans hv'.computed
        -- the block is new in `blocksByHash`, so the memory did change
        have hsame := (hall fun hnone => hrewrite (herr.mp hnone)).blocksByHash
        rw [hchain] at hsame
        refine hv.fresh ?_
        rw [← hsame]
        exact GoMap.mem_set.mpr (Or.inl rfl)
      · intro hno herr'
        exact absurd ⟨b, cand, rfl, hv, hput, hbetter, fun hok => herr' (herr.mpr hok)⟩ hno
    · rw [chooseTip_of_not_better C S (bc.insert S b) b cand hbetter]
      refine ⟨fun _ hfail => ?_, fun _ herr => absurd rfl herr⟩
      obtain ⟨b', cand', hb', hv', -, hbetter', -⟩ := hfail
      cases hb'
      cases hv.computed.symm.trans hv'.computed
      exact hbetter hbetter'

namespace Sample

def store : ChainStore Unit where
  readCanonical _ := .ok []
  appendCanonical _ _ := (.ok (), ())
  rewriteCanonical _ _ := (.ok (), ())
  putBlock _ _ := (.ok (), ())
  readAllBlocks _ := .ok ∅
  getRulesHash _ := .ok none
  putRulesHash _ _ := (.ok (), ())
  getGenesisHash _ := .ok none
  putGenesisHash _ _ := (.ok (), ())

def fullStore : ChainStore Unit := { store with rewriteCanonical := fun _ _ => (.error "no space left on device", ()) }

def node : Blockchain Unit :=
  { chainID := 1, minerAddress := minerAddress, consensus := params, blocks := ⟨[genesis], by simp⟩, state := afterGenesis
    store := (), blocksByHash := GoMap.set ∅ genesis.hashHex genesis, bestTipHash := genesis.hashHex, canonicalWork := 2
    txIndex := ∅, addressIndex := ∅ }

theorem node_loads : loadBlockchain crypto store 1 minerAddress raw false () = some (.ok node) := by
  simp only [crypto, goCrypto_eq]
  decide +kernel

def emptyBlock : Block :=
  { version := 2, height := 1, timestampUnix := 2, prevHash := genesis.hash, difficultyBits := 1, minerAddress := minerAddress
    transactions := [{ type := .coinbase, chainID := 1, toAddress := minerAddress, amount := 50, data := str "Memphis" }]
    hash := some (beBytes 32 0x37473dc04f45b6329ad4aa95c5ad5a4b7d2cf74f9fc90cb7443b1b5a1c393baa) }

end Sample

open Sample

/-- A block that extends the chain, and a store that cannot write: the call fails and the node has the block as its tip. -/
theorem addBlock_failed_changes_tip : (addBlock crypto fullStore Sample.node (some emptyBlock) fun _ => 2).err =
        some "no space left on device" ∧
      ¬SameMemory Sample.node
        (addBlock crypto fullStore Sample.node (some emptyBlock) fun _ => 2).chain := by
  have hrun : (addBlock crypto fullStore Sample.node (some emptyBlock) fun _ => 2).err =
        some "no space left on device" ∧
      (addBlock crypto fullStore Sample.node (some emptyBlock) fun _ => 2).chain.bestTipHash =
        emptyBlock.hashHex := by
    simp only [crypto, goCrypto_eq]
    decide +kernel
  refine ⟨hrun.1, fun hsame => ?_⟩
  have htip := hrun.2.symm.trans hsame.bestTipHash
  exact absurd htip (by decide)

/-! ## Mining -/

/-- The block `MineTransfers` goes on to apply, when its checks pass and the search for a nonce returns one. -/
def minedBlock {σ : Type} (C : Crypto) (bc : Blockchain σ) (transfers : List Transaction) (now : Int64) : Option Block :=
  match checkAllMinable C bc.consensus bc.chainID (bc.blocks.tip.height + 1) transfers 0 with
  | .error _ => none
  | .ok fees =>
    match powRun C bc.consensus (mineTemplate bc transfers fees now) with
    | some (.ok (nonce, hash)) => some { mineTemplate bc transfers fees now with nonce := nonce, hash := some hash }
    | _ => none

theorem mineTransfers_eq (C : Crypto) (S : ChainStore σ) (bc : Blockchain σ) (transfers : List Transaction) (now : Int64) :
    (∃ b, minedBlock C bc transfers now = some b ∧ mineTransfers C S bc transfers now = some (commitMined C S bc b)) ∨
      minedBlock C bc transfers now = none ∧
        ∀ r, mineTransfers C S bc transfers now = some r → r.2 = bc ∧ ∃ e, r.1 = .error e := by
  unfold mineTransfers minedBlock
  rcases Result.ok_or_error (checkAllMinable C bc.consensus bc.chainID (bc.blocks.tip.height + 1) transfers 0) with
    ⟨fees, hc⟩ | ⟨e, hc⟩
  · rw [hc]
    simp only
    cases hpow : powRun C bc.consensus (mineTemplate bc transfers fees now) with
    | none => exact Or.inr ⟨rfl, fun r hr => nomatch hr⟩
    | some out =>
      cases out with
      | error e =>
        refine Or.inr ⟨rfl, fun r hr => ?_⟩
        cases hr
        exact ⟨rfl, e, rfl⟩
      | ok q => exact Or.inl ⟨_, rfl, rfl⟩
  · rw [hc]
    refine Or.inr ⟨rfl, fun r hr => ?_⟩
    cases hr
    exact ⟨rfl, e, rfl⟩

theorem minedBlock_transactions {bc : Blockchain σ} {transfers : List Transaction} {now : Int64}
    (h : minedBlock C bc transfers now = some b) : ∃ cb, b.transactions = cb :: transfers ∧ cb.type = .coinbase := by
  unfold minedBlock at h
  split at h
  · nomatch h
  · split at h
    · cases h
      exact ⟨_, rfl, rfl⟩
    · nomatch h

namespace MiningAux

open NonceAux

theorem applyTxs_succ_snd (C : Crypto) (p : ConsensusParams) (height : UInt64) (i : Nat) (ts : List Transaction) (s : State) :
    ∃ done, TransfersAccepted C p height done s ∧ (applyTxs C p height (i + 1) ts s).2 = payAll C done s := by
  induction ts generalizing i s with
  | nil => exact ⟨[], trivial, rfl⟩
  | cons t ts ih =>
    rw [applyTxs]
    rcases Result.ok_or_error (applyTx C p height (i + 1) t s) with ⟨s1, h1⟩ | ⟨e, h1⟩
    · obtain ⟨ha, rfl⟩ := (applyTx_succ_ok_iff C p height i).mp h1
      rw [h1]
      obtain ⟨done, hdone, heq⟩ := ih (i + 1) (t.pay C s)
      exact ⟨t :: done, ⟨ha, hdone⟩, heq⟩
    · rw [h1]
      exact ⟨[], trivial, rfl⟩

theorem credit_ne {a : Bytes} {amount : UInt64} (h : amount ≠ 0) : State.credit s a amount ≠ s := by
  intro heq
  have hbal := congrArg (fun σ : State => (σ.get a).balance) heq
  simp only [State.credit, GoMap.get_set_self] at hbal
  exact h (by grind)

theorem payAll_credit_ne {height : UInt64} {a : Bytes}
    {amount : UInt64} (hamount : amount ≠ 0) (h : TransfersAccepted C p height ts (State.credit s a amount)) :
    payAll C ts (State.credit s a amount) ≠ s := by
  cases ts with
  | nil => exact credit_ne hamount
  | cons t ts =>
    intro heq
    have hcount := (countsFrom_payAll h (t.sender C)).2
    rw [heq, nonce_credit] at hcount
    have hpos : noncesOf C (t.sender C) (t :: ts) = t.nonce.toNat :: noncesOf C (t.sender C) ts := by simp [noncesOf]
    rw [hpos, List.length_cons] at hcount
    omega

theorem applyBlockToState_snd_ne (hb : b.transactions = cb :: ts) (hcheck : checkBlock C p b = .ok ()) (hcb : VerifiedCoinbase C cb) :
    (applyBlockToState C p s b).2 ≠ s := by
  have htype : cb.type = .coinbase := ((checkBlock_ok_iff C p hb).mp hcheck).2.1
  have hcoin : applyTx C p b.height 0 cb s = .ok (State.credit s cb.toAddress cb.amount) := by
    simp only [applyTx, htype]
    exact (applyCoinbase_ok_iff C p b.height htype).mpr ⟨rfl, hcb, rfl⟩
  unfold applyBlockToState
  rw [hcheck, hb]
  simp only
  rw [applyTxs, hcoin]
  obtain ⟨done, hdone, heq⟩ := applyTxs_succ_snd C p b.height 0 ts (State.credit s cb.toAddress cb.amount)
  simp only
  rw [heq]
  exact payAll_credit_ne hcb.amount hdone

theorem applyBlockToState_snd_eq (hb : b.transactions = cb :: ts) (h : ¬(checkBlock C p b = .ok () ∧ VerifiedCoinbase C cb)) :
    (applyBlockToState C p s b).2 = s ∧ ∃ e, (applyBlockToState C p s b).1 = .error e := by
  unfold applyBlockToState
  rcases Result.ok_or_error (checkBlock C p b) with ⟨_, hcheck⟩ | ⟨e, hcheck⟩
  · have htype : cb.type = .coinbase := ((checkBlock_ok_iff C p hb).mp hcheck).2.1
    have htx : applyTx C p b.height 0 cb s = applyCoinbase C p b.height 0 cb s := by simp only [applyTx, htype]
    rw [hcheck, hb]
    simp only
    rw [applyTxs, htx]
    rcases Result.ok_or_error (applyCoinbase C p b.height 0 cb s) with ⟨s1, h1⟩ | ⟨e, h1⟩
    · exact absurd ⟨hcheck, ((applyCoinbase_ok_iff C p b.height htype).mp h1).2.1⟩ h
    · rw [h1]
      exact ⟨rfl, e, rfl⟩
  · rw [hcheck]
    exact ⟨rfl, e, rfl⟩

end MiningAux

open MiningAux

/-- Mining gets past the coinbase of its block and fails then: a transfer is rejected, or the store does not take the block. -/
def FailsLate {σ : Type} (C : Crypto) (S : ChainStore σ) (bc : Blockchain σ) (transfers : List Transaction) (now : Int64) : Prop :=
  ∃ b cb, minedBlock C bc transfers now = some b ∧ b.transactions = cb :: transfers ∧ checkBlock C bc.consensus b = .ok () ∧
    VerifiedCoinbase C cb ∧
    (¬TransfersAccepted C bc.consensus b.height transfers (State.credit bc.state cb.toAddress cb.amount) ∨
      (S.appendCanonical bc.store b).1 ≠ .ok ())

theorem commitMined_error_iff (C : Crypto) (S : ChainStore σ) (bc : Blockchain σ) (hb : b.transactions = cb :: ts) :
    (∀ e, (commitMined C S bc b).1 = .error e → SameMemory bc (commitMined C S bc b).2) ↔
      ¬(checkBlock C bc.consensus b = .ok () ∧ VerifiedCoinbase C cb ∧
        (¬TransfersAccepted C bc.consensus b.height ts (State.credit bc.state cb.toAddress cb.amount) ∨
          (S.appendCanonical bc.store b).1 ≠ .ok ())) := by
  obtain ⟨r, s', happ⟩ : ∃ r s', applyBlockToState C bc.consensus bc.state b = (r, s') := ⟨_, _, rfl⟩
  obtain ⟨r2, st, hst⟩ : ∃ r st, S.appendCanonical bc.store b = (r, st) := ⟨_, _, rfl⟩
  by_cases hpast : checkBlock C bc.consensus b = .ok () ∧ VerifiedCoinbase C cb
  · have hne : s' ≠ bc.state := by
      have := applyBlockToState_snd_ne (s := bc.state) hb hpast.1 hpast.2
      rwa [happ] at this
    cases r with
    | error e =>
      -- rejected half-way: the loop did not get through the transfers
      have hrej : ¬TransfersAccepted C bc.consensus b.height ts (State.credit bc.state cb.toAddress cb.amount) := by
        intro hts
        obtain ⟨h1, h2, h3⟩ := (checkBlock_ok_iff C bc.consensus hb).mp hpast.1
        have hok := (applyBlockToState_ok_iff C bc.consensus).mpr ⟨⟨cb, ts, hb, h1, h2, h3, hpast.2, hts⟩, rfl⟩
        rw [happ] at hok
        exact absurd (congrArg Prod.fst hok) (by simp)
      simp only [commitMined, happ]
      refine iff_of_false (fun hall => hne (hall e rfl).state) ?_
      exact not_not.mpr ⟨hpast.1, hpast.2, Or.inl hrej⟩
    | ok u =>
      obtain ⟨⟨cb', ts', hacc⟩, -⟩ := (applyBlockToState_ok_iff C bc.consensus).mp happ
      obtain ⟨rfl, rfl⟩ := List.cons.inj (hb.symm.trans hacc.transactions)
      simp only [commitMined, happ, hst]
      cases r2 with
      | error e =>
        refine iff_of_false (fun hall => hne (hall e rfl).state) ?_
        exact not_not.mpr ⟨hpast.1, hpast.2, Or.inr (by simp)⟩
      | ok u' =>
        refine iff_of_true (fun e he => nomatch he) ?_
        rintro ⟨-, -, hrej | hst'⟩
        · exact hrej hacc.transfers
        · exact hst' rfl
  · obtain ⟨heq, e, herr⟩ := applyBlockToState_snd_eq (s := bc.state) hb hpast
    rw [happ] at heq herr
    obtain rfl : r = .error e := herr
    obtain rfl : s' = bc.state := heq
    simp only [commitMined, happ]
    refine iff_of_true (fun _ _ => SameMemory.refl bc) ?_
    rintro ⟨h1, h2, -⟩
    exact hpast ⟨h1, h2⟩

/-- A failed `MineTransfers` leaves the memory as it was if and only if it does not fail late. -/
theorem mineTransfers_unchanged_iff {σ : Type} (C : Crypto) (S : ChainStore σ) (bc : Blockchain σ) (transfers : List Transaction)
    (now : Int64) : (∀ e bc', mineTransfers C S bc transfers now = some (.error e, bc') → SameMemory bc bc') ↔
      ¬FailsLate C S bc transfers now := by
  rcases mineTransfers_eq C S bc transfers now with ⟨b, hmined, hmine⟩ | ⟨hnone, hmine⟩
  · obtain ⟨cb, hb, -⟩ := minedBlock_transactions hmined
    have hcommit := commitMined_error_iff C S bc hb
    rw [hmine]
    constructor
    · rintro hall ⟨b', cb', hmined', hb', hlate⟩
      cases hmined.symm.trans hmined'
      obtain ⟨rfl, -⟩ := List.cons.inj (hb.symm.trans hb')
      refine hcommit.mp (fun e he => ?_) hlate
      exact hall e (commitMined C S bc b).2 (congrArg some (Prod.ext he rfl))
    · intro hno e bc' heq
      have hpair := Option.some.inj heq
      have hsame := hcommit.mpr (fun hlate => hno ⟨b, cb, hmined, hb, hlate⟩) e (congrArg Prod.fst hpair)
      rw [hpair] at hsame
      exact hsame
  · constructor
    · rintro - ⟨b, cb, hmined, -⟩
      exact absurd (hnone.symm.trans hmined) (by simp)
    · intro _ e bc' heq
      obtain ⟨hbc, -⟩ := hmine _ heq
      rw [show bc' = bc from hbc]
      exact SameMemory.refl bc

/-- Mining a transfer that its sender cannot pay fails, and leaves the reward of the block with the miner. -/
theorem mineTransfers_failed_pays_reward : ∃ e bc', mineTransfers crypto store node [underfunded] 2 = some (.error e, bc') ∧
      ¬SameMemory node bc' := by
  have hrun : (mineTransfers crypto store node [underfunded] 2).map
      (fun r => (r.1.toOption, (r.2.state.get minerAddress).balance)) = some (none, 1051) := by
    simp only [crypto, goCrypto_eq]
    decide +kernel
  obtain ⟨⟨r, bc'⟩, hr, hval⟩ := Option.map_eq_some_iff.mp hrun
  obtain ⟨hnone, hbal⟩ := Prod.mk.inj hval
  cases r with
  | ok b => cases hnone
  | error e =>
    refine ⟨e, bc', hr, fun hsame => ?_⟩
    rw [hsame.state] at hbal
    have hbefore : (node.state.get minerAddress).balance = 1000 := by decide
    exact absurd (hbefore.symm.trans hbal) (by decide)

end NeoCoin
