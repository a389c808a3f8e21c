import NeoCoin.Internal.Forks
import NeoCoin.Theorems.Value

/-!
# The lock of the chain in `AddBlock`

`AddBlock` of `internal/blockchain` holds the lock of the chain while it makes the commitment that is due at some heights, and making it
takes the lock for reading.
-/

namespace NeoCoin.Internal

open GoLib ForkTree

variable {p : ConsensusParams} {b : Block} {s' : State} {m : GoMap Bytes Block} {k : Bytes} {cand : Candidate}

/-! ## What `computeCanonicalForTipLocked` accepts -/

/-- The chain of a key is one by the rules, with the state and the work of a candidate. -/
structure ValidChain (C : Crypto) (p : ConsensusParams) (m : GoMap Bytes Block) (clock : Nat → Int64) (k : Bytes) (cand : Candidate) :
    Prop where
  chain : ChainTo parentKey m k cand.path.1
  linkage : ∀ i b, cand.path.1[i]? = some b → checkLinkage p cand.path.1 clock i b = .ok ()
  applied : replay C p cand.path.1 ∅ = (.ok (), cand.state)
  work : cand.work = pathWork cand.path.1

theorem replay_cons_ok_iff {C : Crypto} {blocks : List Block} {s : State} : replay C p (b :: blocks) s = (.ok (), s') ↔
      ∃ s₁, applyBlockToState C p s b = (.ok (), s₁) ∧ replay C p blocks s₁ = (.ok (), s') := by
  rw [replay]
  split
  · rename_i e s₁ happly
    constructor
    · intro h
      cases (Prod.mk.inj h).1
    · intro h
      obtain ⟨s₂, hok, -⟩ := h
      rw [happly] at hok
      cases (Prod.mk.inj hok).1
  · rename_i s₁ happly
    constructor
    · intro h
      exact ⟨s₁, happly, h⟩
    · intro h
      obtain ⟨s₂, hok, hrest⟩ := h
      rw [happly] at hok
      rw [(Prod.mk.inj hok).2]
      exact hrest

/-- The second loop of `computeCanonicalForTipLocked`. By induction on the blocks that are left. -/
theorem validatePath_ok_iff (C : Crypto) (p : ConsensusParams) (path : List Block) (clock : Nat → Int64) (i : Nat) (rest : List Block)
    (s : State) (w : Nat) {w' : Nat} : validatePath C p path clock i rest s w = .ok (s', w') ↔
      (∀ j b, rest[j]? = some b → checkLinkage p path clock (i + j) b = .ok ()) ∧ replay C p rest s = (.ok (), s') ∧
        w' = w + pathWork rest := by
  induction rest generalizing i s w with
  | nil => simp [validatePath, replay, pathWork, eq_comm]
  | cons b rest ih =>
    have hwork : pathWork (b :: rest) = workForDifficultyBits b.difficultyBits + pathWork rest := rfl
    unfold validatePath
    simp only [bind_eq_ok, ih, replay_cons_ok_iff, hwork]
    constructor
    · intro h
      obtain ⟨_, hlink, _, happly, hlinks, hreplay, heq⟩ := h
      refine ⟨?_, ⟨_, Prod.ext happly rfl, hreplay⟩, by omega⟩
      intro j b' hb'
      cases j with
      | zero =>
        cases hb'
        exact hlink
      | succ j =>
        rw [show i + (j + 1) = i + 1 + j by omega]
        exact hlinks j b' hb'
    · intro h
      obtain ⟨hlinks, ⟨s₁, happly, hreplay⟩, heq⟩ := h
      refine ⟨(), hlinks 0 b rfl, (), by rw [happly], ?_, by rw [happly]; exact hreplay, by omega⟩
      intro j b' hb'
      rw [show i + 1 + j = i + (j + 1) by omega]
      exact hlinks (j + 1) b' hb'

theorem walkBack_eq_ok_iff {path : Path} : walkBack m k = .ok path ↔ ChainTo parentKey m k path.1 := by
  rw [← ForkTree.walkBack_eq_ok_iff]
  unfold walkBack
  split
  · rename_i h
    simp [h]
  · rename_i h
    simp [h]
  · rename_i h
    simp [h]

theorem computeCanonicalForTip_ok_iff {C : Crypto} {clock : Nat → Int64}
    : computeCanonicalForTip C p m clock k = .ok cand ↔ ValidChain C p m clock k cand := by
  unfold computeCanonicalForTip
  rw [bind_eq_ok]
  constructor
  · intro h
    obtain ⟨path, hwalk, h⟩ := h
    obtain ⟨⟨state, work⟩, hvalid, h⟩ := bind_eq_ok.mp h
    cases h
    obtain ⟨hlinks, hreplay, hwork⟩ := (validatePath_ok_iff C p path.1 clock 0 path.1 ∅ 0).mp hvalid
    simp only [Nat.zero_add] at hlinks hwork
    exact ⟨walkBack_eq_ok_iff.mp hwalk, hlinks, hreplay, hwork⟩
  · intro h
    refine ⟨cand.path, walkBack_eq_ok_iff.mpr h.chain, bind_eq_ok.mpr ⟨(cand.state, cand.work), ?_, rfl⟩⟩
    refine (validatePath_ok_iff C p cand.path.1 clock 0 cand.path.1 ∅ 0).mpr ⟨?_, h.applied, ?_⟩
    · simp only [Nat.zero_add]
      exact h.linkage
    · rw [Nat.zero_add]
      exact h.work

/-! ## What `AddBlock` does with a block -/

/-- A block that `AddBlock` puts into the tree and the store, with its chain. -/
structure Accepted {σ : Type} (C : Crypto) (S : ChainStore σ) (bc : Blockchain σ) (clock : Nat → Int64) (b : Block) (cand : Candidate) :
    Prop where
  external : checkExternal C bc.consensus bc.chainID b = .ok ()
  parent : b.prevHashHex ∈ bc.blocksByHash
  fresh : b.hashHex ∉ bc.blocksByHash
  valid : ValidChain C bc.consensus (bc.blocksByHash.set b.hashHex b) clock b.hashHex cand
  put : (S.putBlock bc.store b).1 = .ok ()

def Blockchain.insert {σ : Type} (S : ChainStore σ) (bc : Blockchain σ) (b : Block) : Blockchain σ :=
  { bc with blocksByHash := bc.blocksByHash.set b.hashHex b, store := (S.putBlock bc.store b).2 }

/-- What a rejected block leaves behind: it may be kept as an orphan, and the store may have failed. -/
structure Rejected {σ : Type} (S : ChainStore σ) (bc bc' : Blockchain σ) : Prop where
  same : bc' = { bc with orphanPool := bc'.orphanPool, store := bc'.store }
  store : bc'.store = bc.store ∨ ∃ b, (S.putBlock bc.store b).1 ≠ .ok () ∧ bc'.store = (S.putBlock bc.store b).2

section

variable {σ : Type} (C : Crypto) (S : ChainStore σ) (bc : Blockchain σ)

theorem addBlock_cases (block : Option Block) (clock : Nat → Int64) :
    (∃ bc' msg, addBlock C S bc block clock = some (.reject bc' msg) ∧ Rejected S bc bc' ∧
        ∀ b cand, block = some b → ¬Accepted C S bc clock b cand) ∨
      ∃ b cand, block = some b ∧ Accepted C S bc clock b cand ∧
        addBlock C S bc block clock = chooseTip C S (bc.insert S b) .locked b cand := by
  cases block with
  | none => exact Or.inl ⟨bc, _, rfl, ⟨rfl, Or.inl rfl⟩, fun b cand hb => by cases hb⟩
  | some b =>
    unfold addBlock
    rcases Result.ok_or_error (checkExternal C bc.consensus bc.chainID b) with ⟨_, hext⟩ | ⟨e, hext⟩
    · simp only [hext, RWMutex.lock, insertBlock]
      by_cases hparent : b.prevHashHex ∈ bc.blocksByHash
      · by_cases hdup : b.hashHex ∈ bc.blocksByHash
        · left
          refine ⟨bc, "duplicate block", ?_, ⟨rfl, Or.inl rfl⟩, ?_⟩
          · simp [hparent, hdup]
          · intro b' cand hb hacc
            cases hb
            exact hacc.fresh hdup
        · simp only [hparent, not_true_eq_false, if_false, hdup]
          rcases Result.ok_or_error (computeCanonicalForTip C bc.consensus (bc.blocksByHash.set b.hashHex b) clock b.hashHex) with
            ⟨cand, hcand⟩ | ⟨e, hcand⟩
          · rw [hcand]
            have hvalid := computeCanonicalForTip_ok_iff.mp hcand
            rcases hput : S.putBlock bc.store b with ⟨_ | _, st⟩
            · left
              refine ⟨_, _, rfl, ⟨?_, Or.inr ⟨b, by rw [hput]; simp, by rw [hput]⟩⟩, ?_⟩
              · simp only [GoMap.delete_set_of_notMem b hdup]
              · intro b' cand' hb hacc
                cases hb
                have hok := hacc.put
                rw [hput] at hok
                cases hok
            · right
              refine ⟨b, cand, rfl, ⟨hext, hparent, hdup, hvalid, by rw [hput]⟩, ?_⟩
              rw [Blockchain.insert, hput]
          · rw [hcand]
            left
            refine ⟨_, _, rfl, ⟨?_, Or.inl rfl⟩, ?_⟩
            · simp only [GoMap.delete_set_of_notMem b hdup]
            · intro b' cand hb hacc
              cases hb
              have hok := computeCanonicalForTip_ok_iff.mpr hacc.valid
              rw [hcand] at hok
              cases hok
      · left
        refine ⟨{ bc with orphanPool := bc.orphanPool.addBlock b }, "unknown parent", ?_, ⟨rfl, Or.inl rfl⟩, ?_⟩
        · simp [hparent]
        · intro b' cand hb hacc
          cases hb
          exact hparent hacc.parent
    · left
      refine ⟨bc, e, by simp only [hext], ⟨rfl, Or.inl rfl⟩, ?_⟩
      intro b' cand hb hacc
      cases hb
      have hok := hacc.external
      rw [hext] at hok
      cases hok

/-- A block that `AddBlock` returns no error for has passed its checks. -/
theorem accepted_of_err_none {b : Block} {clock : Nat → Int64} {r : AddResult σ} (h : addBlock C S bc (some b) clock = some r)
    (herr : r.err = none) : ∃ cand, Accepted C S bc clock b cand := by
  rcases addBlock_cases C S bc (some b) clock with ⟨bc', msg, hreject, -, -⟩ | ⟨b', cand, hb, hacc, -⟩
  · rw [hreject] at h
    cases h
    cases herr
  · cases hb
    exact ⟨cand, hacc⟩

theorem computeAndStoreCommitment_locked (height : UInt64) :
    computeAndStoreCommitment C S bc .locked height = if shouldCommit height then none else some (.ok (), bc) := by
  unfold computeAndStoreCommitment
  by_cases hcommit : shouldCommit height
  · simp only [hcommit, not_true_eq_false, if_false, if_true]
    rfl
  · simp [hcommit]

theorem chooseTip_of_not_better (mu : RWMutex) (h : ¬isBetter cand.work b.hashHex bc.canonicalWork bc.bestTipHash) :
    chooseTip C S bc mu b cand = some { reorg := false, err := none, chain := bc } := by
  unfold chooseTip
  rw [if_neg h]

/-- The chain after a new tip: the store has the new chain, or has failed, and a checkpoint may have been made. -/
def Blockchain.retip (b : Block) (cand : Candidate) : Blockchain σ :=
  let rewritten := S.rewriteCanonical bc.store cand.path.1
  match rewritten.1 with
  | .error _ => { bc.adopt cand b.hashHex with store := rewritten.2 }
  | .ok () => addCheckpoint C S { bc.adopt cand b.hashHex with store := rewritten.2 } b.height

theorem chooseTip_of_better (h : isBetter cand.work b.hashHex bc.canonicalWork bc.bestTipHash) :
    chooseTip C S bc .locked b cand = none ∧ (S.rewriteCanonical bc.store cand.path.1).1 = .ok () ∧ shouldCommit b.height ∨
      ((S.rewriteCanonical bc.store cand.path.1).1 = .ok () → ¬shouldCommit b.height) ∧
        ∃ reorg err, chooseTip C S bc .locked b cand = some { reorg, err, chain := bc.retip C S b cand } := by
  unfold chooseTip Blockchain.retip
  rw [if_pos h]
  simp only [Blockchain.adopt]
  rcases hrewrite : S.rewriteCanonical bc.store cand.path.1 with ⟨_ | _, st⟩
  · right
    exact ⟨fun hok => (by cases hok), _, _, rfl⟩
  · simp only [computeAndStoreCommitment_locked]
    by_cases hcommit : shouldCommit b.height
    · left
      simp [hcommit]
    · right
      simp only [hcommit, if_false]
      exact ⟨fun _ => not_false, _, none, rfl⟩

end

/-! ## When `AddBlock` waits for itself -/

/-- A block that becomes the tip: it passes the checks on it alone, its parent is known and its hash is new, the blocks back to genesis
follow each other by the rules and apply, and they have more work than the chain, or as much with a smaller hash. -/
structure BecomesTip {σ : Type} (C : Crypto) (S : ChainStore σ) (bc : Blockchain σ) (clock : Nat → Int64) (b : Block) (path : Path) :
    Prop where
  external : checkExternal C bc.consensus bc.chainID b = .ok ()
  parent : b.prevHashHex ∈ bc.blocksByHash
  fresh : b.hashHex ∉ bc.blocksByHash
  chain : ChainTo parentKey (bc.blocksByHash.set b.hashHex b) b.hashHex path.1
  linkage : ∀ i b', path.1[i]? = some b' → checkLinkage bc.consensus path.1 clock i b' = .ok ()
  applied : ∃ state, replay C bc.consensus path.1 ∅ = (.ok (), state)
  better : isBetter (pathWork path.1) b.hashHex bc.canonicalWork bc.bestTipHash
  put : (S.putBlock bc.store b).1 = .ok ()
  rewrite : (S.rewriteCanonical (S.putBlock bc.store b).2 path.1).1 = .ok ()

theorem Accepted.becomesTip {σ : Type} {C : Crypto} {S : ChainStore σ} {bc : Blockchain σ} {clock : Nat → Int64} {b : Block}
    {cand : Candidate} (hacc : Accepted C S bc clock b cand) (hbetter : isBetter cand.work b.hashHex bc.canonicalWork bc.bestTipHash)
    (hrewrite : (S.rewriteCanonical (S.putBlock bc.store b).2 cand.path.1).1 = .ok ()) : BecomesTip C S bc clock b cand.path := by
  rw [hacc.valid.work] at hbetter
  exact ⟨hacc.external, hacc.parent, hacc.fresh, hacc.valid.chain, hacc.valid.linkage, ⟨_, hacc.valid.applied⟩, hbetter, hacc.put,
    hrewrite⟩

/-- `AddBlock` returns if and only if the block does not become the tip at a height at which a commitment is due. -/
theorem addBlock_returns_iff {σ : Type} (C : Crypto) (S : ChainStore σ) (bc : Blockchain σ) (block : Option Block) (clock : Nat → Int64) :
    (∃ r, addBlock C S bc block clock = some r) ↔
      ∀ b path, block = some b → BecomesTip C S bc clock b path → ¬shouldCommit b.height := by
  constructor
  · intro h b path hb htip hcommit
    obtain ⟨r, hr⟩ := h
    obtain ⟨state, happlied⟩ := htip.applied
    rcases addBlock_cases C S bc block clock with ⟨_, _, -, -, hnot⟩ | ⟨b', cand, hb', hacc, hadd⟩
    · exact hnot b ⟨path, state, pathWork path.1⟩ hb
        ⟨htip.external, htip.parent, htip.fresh, ⟨htip.chain, htip.linkage, happlied, rfl⟩, htip.put⟩
    · cases hb.symm.trans hb'
      have hpath : cand.path = path := Subtype.ext (hacc.valid.chain.unique htip.chain)
      have hbetter : isBetter cand.work b.hashHex bc.canonicalWork bc.bestTipHash := by
        rw [hacc.valid.work, hpath]
        exact htip.better
      rcases chooseTip_of_better C S (bc.insert S b) hbetter with ⟨hnone, -, -⟩ | ⟨hfree, -⟩
      · rw [hadd, hnone] at hr
        cases hr
      · rw [hpath] at hfree
        exact hfree htip.rewrite hcommit
  · intro h
    rcases addBlock_cases C S bc block clock with ⟨_, _, hadd, -, -⟩ | ⟨b, cand, hb, hacc, hadd⟩
    · exact ⟨_, hadd⟩
    · rw [hadd]
      by_cases hbetter : isBetter cand.work b.hashHex bc.canonicalWork bc.bestTipHash
      · rcases chooseTip_of_better C S (bc.insert S b) hbetter with ⟨-, hrewrite, hcommit⟩ | ⟨-, _, _, hsome⟩
        · exact absurd hcommit (h b cand.path hb (hacc.becomesTip hbetter hrewrite))
        · exact ⟨_, hsome⟩
      · exact ⟨_, chooseTip_of_not_better C S (bc.insert S b) .locked hbetter⟩

/-! ## A first block -/

namespace Sample

open NeoCoin.Sample (minerKey minerAddress payeeAddress)

def paying : Transaction :=
  { type := .transfer, chainID := 1, fromPubKey := some minerKey, toAddress := payeeAddress, amount := 1, fee := 1, nonce := 1
    signature := some (beBytes 64
      0x77693cc7a9726898c904c29007affcb3340425842d93d5bbef5808590ba872c14e230918ebf9b3f7b5a7e1c41391150a5992d8263d530010de6193af978cbb05) }

def payingHash : Bytes := beBytes 32 0xe660285165e79851325bba7b1cc5a6565979a39b09990dcddf530d37345e1fd9

def crypto : Crypto := goCrypto [(minerKey, payingHash, paying.signature.bytes)]

/-- The genesis file of the first implementation's sample, with headers and signatures over JSON. -/
def raw : GenesisConfigJSON :=
  { NeoCoin.Sample.raw with
    consensusParams := NeoCoin.Sample.raw.consensusParams.map fun p =>
      { p with merkleEnable := some false, binaryEncodingEnable := some false } }

def gob : Gob Block := { encode := id, decode := .ok, decode_encode := fun _ => rfl }

/-- The node on an empty database, which makes a checkpoint at every height. -/
def loaded : Option (Result (Blockchain (Bolt Block))) :=
  loadBlockchain crypto (boltStore gob) 1 minerAddress raw { checkpointInterval := 1 } false Bolt.empty

def genesis : Block :=
  { version := 1, timestampUnix := 1, difficultyBits := 1, minerAddress := minerAddress
    transactions := [{ type := .coinbase, chainID := 1, toAddress := minerAddress, amount := 1000, data := str "genesis" }]
    hash := some (beBytes 32 0x745611ebffcbe35ec7285ad8fb102c757aa595eb4494c9eef460f1aecc0bfbee) }

def loadedStore : Bolt Block :=
  let st := (onMeta NeoCoin.Bolt.putRulesHash Bolt.empty
    (beBytes 32 0xf68a59a514c1ee2f67ffcd7f4847bf22365c83ba728fe21df1b489fd9679c48c)).2
  (onMeta NeoCoin.Bolt.putGenesisHash (st.appendCanonical gob genesis).2 genesis.hash.bytes).2

def node : Blockchain (Bolt Block) :=
  { chainID := 1, minerAddress, consensus := { NeoCoin.Sample.params with merkleEnable := false, binaryEncodingEnable := false }
    blocks := ⟨[genesis], by simp⟩, state := GoMap.set ∅ minerAddress { balance := 1000 }, store := loadedStore
    blocksByHash := GoMap.set ∅ genesis.hashHex genesis, bestTipHash := genesis.hashHex, canonicalWork := 2
    balances := Lru.empty 100000 (by decide), orphanPool := newOrphanPool 100, cfg := { checkpointInterval := 1 } }

theorem node_loads : loaded = some (.ok node) := by
  simp only [loaded, crypto, goCrypto_eq]
  decide +kernel

/-- A block is mined, and it and the chain pass the test. -/
def mines {σ : Type} (r : Option (Result Block × Blockchain σ)) (test : Block → Blockchain σ → Bool) : Bool :=
  match r with
  | some (.ok b, bc) => test b bc
  | _ => false

theorem exists_of_mines {σ : Type} {r : Option (Result Block × Blockchain σ)} {test : Block → Blockchain σ → Bool}
    (h : mines r test = true) : ∃ b bc, r = some (.ok b, bc) ∧ test b bc = true := by
  unfold mines at h
  split at h
  · exact ⟨_, _, rfl, h⟩
  · cases h

def block : Block :=
  { version := 1, height := 1, timestampUnix := 4, prevHash := genesis.hash, difficultyBits := 1, minerAddress := minerAddress
    transactions := [{ type := .coinbase, chainID := 1, toAddress := minerAddress, amount := 50
                       data := str "block reward + fees (height=1)" }]
    hash := some (beBytes 32 0x4f214d82bdd8a1141121e30766906ce61a03a2951ead7cd72df6844a280e01ca) }

end Sample

/-- A node with nothing but its genesis block does not get over the first block that it is given. -/
theorem first_block_stuck :
    ∃ bc, Sample.loaded = some (.ok bc) ∧ addBlock Sample.crypto (boltStore Sample.gob) bc (some Sample.block) (fun _ => 4) = none := by
  have hstuck : (addBlock Sample.crypto (boltStore Sample.gob) Sample.node (some Sample.block) fun _ => 4).isNone = true := by
    simp only [Sample.crypto, goCrypto_eq]
    decide +kernel
  exact ⟨Sample.node, Sample.node_loads, Option.isNone_iff_eq_none.mp hstuck⟩

end NeoCoin.Internal
