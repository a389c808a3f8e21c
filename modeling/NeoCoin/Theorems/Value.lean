import NeoCoin.Genesis

/-!
# Value

When the transfers of an accepted block move exactly what they say (`transfers_exact_iff`), and a block in which one does not.
-/

namespace NeoCoin

open GoLib

variable {s σ : State} {C : Crypto} {p : ConsensusParams} {t : Transaction}

/-! ## The loop, split at one transaction -/

namespace ValueAux

theorem applyTxs_append (C : Crypto) (p : ConsensusParams) (height : UInt64) (i : Nat) (xs ys : List Transaction)
    (h : applyTxs C p height i xs s = (.ok (), σ)) : applyTxs C p height i (xs ++ ys) s = applyTxs C p height (i + xs.length) ys σ := by
  induction xs generalizing i s with
  | nil =>
    simp only [applyTxs, Prod.mk.injEq, true_and] at h
    simp [h]
  | cons x xs ih =>
    rw [List.cons_append, applyTxs]
    rw [applyTxs] at h
    rcases Result.ok_or_error (applyTx C p height i x s) with ⟨s1, h1⟩ | ⟨e, h1⟩
    · rw [h1] at h
      rw [h1, List.length_cons, show i + (xs.length + 1) = i + 1 + xs.length by omega]
      exact ih (i + 1) h
    · rw [h1] at h
      exact absurd (congrArg Prod.fst h) (by simp)

theorem transferAccepted_of_split {s' : State} {b : Block}
    {pre post : List Transaction} (hb : applyBlockToState C p s b = (.ok (), s')) (hsplit : b.transactions = pre ++ t :: post)
    (ht : t.type = .transfer) (hσ : applyTxs C p b.height 0 pre s = (.ok (), σ)) :
    TransferAccepted C p b.height t σ ∧ applyTx C p b.height pre.length t σ = .ok (t.pay C σ) := by
  have hloop : applyTxs C p b.height 0 b.transactions s = (.ok (), s') := by
    unfold applyBlockToState at hb
    split at hb
    · exact absurd (congrArg Prod.fst hb) (by simp)
    · exact hb
  rw [hsplit, applyTxs_append C p b.height 0 pre (t :: post) hσ, Nat.zero_add, applyTxs] at hloop
  have htx : applyTx C p b.height pre.length t σ = applyTransfer C p b.height t σ := by simp only [applyTx, ht]
  rcases Result.ok_or_error (applyTx C p b.height pre.length t σ) with ⟨σ', h1⟩ | ⟨e, h1⟩
  · obtain ⟨ha, rfl⟩ := (applyTransfer_ok_iff C p b.height ht).mp (htx ▸ h1)
    exact ⟨ha, h1⟩
  · rw [h1] at hloop
    exact absurd (congrArg Prod.fst hloop) (by simp)

end ValueAux

open ValueAux

/-! ## Exact value transfer -/

section

variable (C : Crypto) (t : Transaction)

/-- A transfer is covered and moves exactly its amount and its fee, all read as natural numbers. -/
structure ExactTransfer (σ σ' : State) : Prop where
  covered : t.amount.toNat + t.fee.toNat ≤ (σ.get (t.sender C)).balance.toNat
  other : t.sender C ≠ t.toAddress →
    (σ'.get (t.sender C)).balance.toNat + (t.amount.toNat + t.fee.toNat) = (σ.get (t.sender C)).balance.toNat ∧
      (σ'.get t.toAddress).balance.toNat = (σ.get t.toAddress).balance.toNat + t.amount.toNat
  self : t.sender C = t.toAddress →
    (σ'.get (t.sender C)).balance.toNat + t.fee.toNat = (σ.get (t.sender C)).balance.toNat

/-- The sums of a transfer fit: its amount with its fee and, unless it pays its own sender, the balance it credits with its amount. -/
structure TransferFits (σ : State) : Prop where
  debit : t.amount.toNat + t.fee.toNat < 2 ^ 64
  credit : t.sender C ≠ t.toAddress → (σ.get t.toAddress).balance.toNat + t.amount.toNat < 2 ^ 64

theorem pay_get_other (s : State) (h : t.sender C ≠ t.toAddress) :
    ((t.pay C s).get (t.sender C)).balance = (s.get (t.sender C)).balance - (t.amount + t.fee) ∧
      ((t.pay C s).get t.toAddress).balance = (s.get t.toAddress).balance + t.amount := by
  simp [Transaction.pay, State.credit, State.debit, h, Ne.symm h]

theorem pay_get_self (s : State) (h : t.sender C = t.toAddress) :
    ((t.pay C s).get (t.sender C)).balance = (s.get (t.sender C)).balance - (t.amount + t.fee) + t.amount := by
  simp [Transaction.pay, State.credit, State.debit, h]

end

theorem exactTransfer_pay_iff {height : UInt64}
    (h : TransferAccepted C p height t σ) : ExactTransfer C t σ (t.pay C σ) ↔ TransferFits C t σ := by
  have hfunds := UInt64.le_iff_toNat_le.mp h.funds
  rw [UInt64.toNat_add] at hfunds
  have hbal := (σ.get (t.sender C)).balance.toNat_lt
  constructor
  · intro hx
    refine ⟨lt_of_le_of_lt hx.covered hbal, fun hne => ?_⟩
    rw [← (hx.other hne).2]
    exact UInt64.toNat_lt _
  · intro hf
    have hdebit := hf.debit
    rw [Nat.mod_eq_of_lt hdebit] at hfunds
    have hsub : ((σ.get (t.sender C)).balance - (t.amount + t.fee)).toNat =
        (σ.get (t.sender C)).balance.toNat - (t.amount.toNat + t.fee.toNat) := by
      rw [UInt64.toNat_sub_of_le _ _ h.funds, UInt64.toNat_add, Nat.mod_eq_of_lt hdebit]
    refine ⟨hfunds, fun hne => ?_, fun heq => ?_⟩
    · obtain ⟨h1, h2⟩ := pay_get_other C t σ hne
      rw [h1, h2, hsub, UInt64.toNat_add, Nat.mod_eq_of_lt (hf.credit hne)]
      omega
    · rw [pay_get_self C t σ heq, UInt64.toNat_add, hsub]
      omega

/-- A block accepted on a state that a chain of accepted blocks has reached from the genesis of a configuration. -/
structure AcceptedOnChain (C : Crypto) (raw : GenesisConfigJSON) (p : ConsensusParams) (s : State) (b : Block) (s' : State) :
    Prop where
  genesis : ∃ cfg g bs, loadGenesisConfig C raw = .ok cfg ∧ cfg.consensusParams = p ∧
    buildGenesisBlock C cfg p = some (.ok g) ∧ applyBlocks C p (g :: bs) ∅ = (.ok (), s)
  accepted : applyBlockToState C p s b = (.ok (), s')

/-- The state just before each transfer of a block, with the transfer. -/
def TransferAt (C : Crypto) (p : ConsensusParams) (s : State) (b : Block) (i : Nat) (t : Transaction) (σ : State) : Prop :=
  b.transactions[i]? = some t ∧ t.type = .transfer ∧ applyTxs C p b.height 0 (b.transactions.take i) s = (.ok (), σ)

/-- The transfers of a further accepted block are covered and applied exactly if and only if the sums each of them computes fit in 64
bits. -/
theorem transfers_exact_iff (C : Crypto) (raw : GenesisConfigJSON) (p : ConsensusParams) (s : State) (b : Block) (s' : State)
    (h : AcceptedOnChain C raw p s b s') :
    (∀ i t σ, TransferAt C p s b i t σ → ∃ σ', applyTx C p b.height i t σ = .ok σ' ∧ ExactTransfer C t σ σ') ↔
      ∀ i t σ, TransferAt C p s b i t σ → TransferFits C t σ := by
  -- position `i` splits the block into what ran before and what is left
  have hat : ∀ i t σ, TransferAt C p s b i t σ →
      TransferAccepted C p b.height t σ ∧ applyTx C p b.height i t σ = .ok (t.pay C σ) := by
    rintro i t σ ⟨hi, ht, hσ⟩
    obtain ⟨hlt, rfl⟩ := List.getElem?_eq_some_iff.mp hi
    have hsplit : b.transactions = b.transactions.take i ++ b.transactions[i] :: b.transactions.drop (i + 1) := by
      rw [← List.drop_eq_getElem_cons hlt, List.take_append_drop]
    have hlen : (b.transactions.take i).length = i := List.length_take_of_le hlt.le
    obtain ⟨ha, htx⟩ := transferAccepted_of_split h.accepted hsplit ht hσ
    exact ⟨ha, by rw [hlen] at htx; exact htx⟩
  constructor
  · intro hexact i t σ hti
    obtain ⟨ha, htx⟩ := hat i t σ hti
    obtain ⟨σ', hσ', hx⟩ := hexact i t σ hti
    rw [htx] at hσ'
    cases hσ'
    exact (exactTransfer_pay_iff ha).mp hx
  · intro hfits i t σ hti
    obtain ⟨ha, htx⟩ := hat i t σ hti
    exact ⟨t.pay C σ, htx, (exactTransfer_pay_iff ha).mpr (hfits i t σ hti)⟩

/-! ### A chain on which an account with nothing pays

The sums of the transfer below wrap to zero: its sender holds nothing, and the payee ends up with the largest balance there is. -/

namespace Sample

def minerKey : Bytes := beBytes 32 0x8a88e3dd7409f195fd52db2d3cba5d72ca6709bf1d94121bf3748801b40f6f5c

/-- `NEO0034750f98bd59fcfc946da45aaabe933be154a4b5094e1c4abf42866505f3c97ebbae1ccd`. -/
def minerAddress : Bytes :=
  beBytes 40 0x4e454f30303334373530663938626435396663666339343664613435616161626539333362653135 ++
    beBytes 37 0x34613462353039346531633461626634323836363530356633633937656262616531636364

def spenderKey : Bytes := beBytes 32 0x8139770ea87d175f56a35466c34c7ecccb8d8a91b4ee37a25df60f5b8fc9b394

/-- `NEO00b62e867fa2f33afe62d5d6b1642e1621d543307846b2a57b897e710919b767098ed28eba`. -/
def payeeAddress : Bytes :=
  beBytes 40 0x4e454f30306236326538363766613266333361666536326435643662313634326531363231643534 ++
    beBytes 37 0x33333037383436623261353762383937653731303931396237363730393865643238656261

/-- A transfer of everything there could be, from an account without anything. -/
def overspend : Transaction :=
  { type := .transfer, chainID := 1, fromPubKey := some spenderKey, toAddress := payeeAddress, amount := 18446744073709551615
    fee := 1, nonce := 1
    signature := some (beBytes 64
      0x0e30c207054ce6b9029efee37058df155016c9bfff86a039fb0a966e7be1196b179209c5c2b3eb2c10fd1e2909d3525b374c31e1d3d89165b31657f3b61a640b) }

def underfunded : Transaction :=
  { type := .transfer, chainID := 1, fromPubKey := some spenderKey, toAddress := payeeAddress, amount := 1, fee := 1, nonce := 1
    signature := some (beBytes 64
      0xa9103cdeebda06a86712535f12c4e6a99ebbe772295349579fa54b1199735e73c2096aae25048a4668f647dfd70772d42a9940e9db41e58cfe77d48dd93e2305) }

def feeless : Transaction :=
  { type := .transfer, chainID := 1, fromPubKey := some minerKey, toAddress := payeeAddress, amount := 1, fee := 0, nonce := 1
    signature := some (beBytes 64
      0x67a649ea20a986e46b140dfeef63407c1396efe4503d446a3cabab992d1bc063caf284ba505ea2e0fc99f49f5d144d01914a53197b84cc3b557a37c0d82f5702) }

def paying : Transaction :=
  { type := .transfer, chainID := 1, fromPubKey := some minerKey, toAddress := payeeAddress, amount := 1, fee := 1, nonce := 1
    signature := some (beBytes 64
      0xa573742d3eb076cf1908fd04ca314103503c4325c0f9884bbee8033ab0c8638af2c2ac967568d4c06f91df0898eb4cd75bbc289346b533ec31483759f8d1b70b) }

def overspendHash : Bytes := beBytes 32 0xe465efa1d83be72c2cc5f3bcf37c3222b3c4b2b551568ebae794d3c70aeaa3d0

def payingHash : Bytes := beBytes 32 0x348a5a1593121e1bb7300fc38a4cb683348570cce56959a2761824179392ea65

/-- SHA-256, and Ed25519 on the signing hashes of the four transfers above. -/
def crypto : Crypto :=
  goCrypto
    [(spenderKey, overspendHash, overspend.signature.bytes),
      (spenderKey, beBytes 32 0xe538fa82abb43e90e05e78875573fb1644714ca1e2336e13d090ab3996db033b, underfunded.signature.bytes),
      (minerKey, beBytes 32 0x72cad3349c5149f006df031848eabf2826de4500e492560ad78c5cff55a68fb5, feeless.signature.bytes),
      (minerKey, payingHash, paying.signature.bytes)]

def raw : GenesisConfigJSON :=
  { network := str "sample", chainID := 1, timestamp := 1, genesisMinerAddress := minerAddress, initialSupply := 1000
    genesisMessage := str "genesis"
    monetaryPolicy := some
      { initialBlockReward := some 50, halvingInterval := some 100, minerFeeShare := some 100, tailEmission := some 1 }
    consensusParams := some
      { difficultyEnable := some false, difficultyTargetMs := some 15000, difficultyWindow := some 20, difficultyMaxStep := some 1
        minDifficultyBits := some 1, maxDifficultyBits := some 255, genesisDifficultyBits := some 1
        medianTimePastWindow := some 11, maxTimeDrift := some 7200, maxBlockSize := some 1000000
        merkleEnable := some true, merkleActivationHeight := some 0
        binaryEncodingEnable := some true, binaryEncodingActivationHeight := some 0 } }

def params : ConsensusParams :=
  { targetBlockTime := 15000000000, difficultyWindow := 20, difficultyMaxStep := 1, minDifficultyBits := 1
    maxDifficultyBits := 255, genesisDifficultyBits := 1, medianTimePastWindow := 11, maxTimeDrift := 7200
    maxBlockSize := 1000000, merkleEnable := true, binaryEncodingEnable := true
    monetaryPolicy := { initialBlockReward := 50, halvingInterval := 100, minerFeeShare := 100, tailEmission := 1 } }

def config : GenesisConfig :=
  { network := str "sample", chainID := 1, timestamp := 1, genesisMinerAddress := minerAddress, initialSupply := 1000
    genesisMessage := str "genesis", monetaryPolicy := params.monetaryPolicy, consensusParams := params }

def genesis : Block :=
  { version := 2, timestampUnix := 1, nonce := 2, difficultyBits := 1, minerAddress := minerAddress
    transactions := [{ type := .coinbase, chainID := 1, toAddress := minerAddress, amount := 1000, data := str "genesis" }]
    hash := some (beBytes 32 0x0c8a1b1b1ff7c6787a7f94c6f0281a74a82c27cb4c61c1f9ca16ed309ffb1daf) }

def block : Block :=
  { version := 2, height := 1, timestampUnix := 2, prevHash := genesis.hash, nonce := 3, difficultyBits := 1
    minerAddress := minerAddress
    transactions := [{ type := .coinbase, chainID := 1, toAddress := minerAddress, amount := 51, data := str "Memphis" }, overspend]
    hash := some (beBytes 32 0x29bc83e05d2208b2f2b5dc0642c4ace19a65388d59d9b18f26270fe50e09b9bf) }

theorem loads : loadGenesisConfig crypto raw = .ok config := by
  simp only [crypto, goCrypto_eq]
  decide

theorem builds : buildGenesisBlock crypto config params = some (.ok genesis) := by
  simp only [crypto, goCrypto_eq]
  decide +kernel

def afterGenesis : State := genesis.pay crypto ∅

theorem afterGenesis_eq : afterGenesis = GoMap.set ∅ minerAddress { balance := 1000 } := by
  simp only [afterGenesis, crypto, goCrypto_eq]
  decide

theorem genesis_applies : applyBlocks crypto params [genesis] ∅ = (.ok (), afterGenesis) := by
  simp only [crypto, goCrypto_eq]
  decide +kernel

theorem block_accepted : applyBlockToState crypto params afterGenesis block = (.ok (), block.pay crypto afterGenesis) := by
  apply applyBlockToState_of_fst_ok
  simp only [crypto, goCrypto_eq]
  decide +kernel

theorem chain_applies : applyBlocks crypto params [genesis, block] ∅ = (.ok (), block.pay crypto afterGenesis) := by
  refine (applyBlocks_append_ok_iff crypto params [genesis] [block]).mpr ⟨afterGenesis, genesis_applies, ?_⟩
  rw [applyBlocks, block_accepted]
  rfl

theorem acceptedOnChain : AcceptedOnChain crypto raw params afterGenesis block (block.pay crypto afterGenesis) :=
  ⟨⟨config, genesis, [], loads, rfl, builds, genesis_applies⟩, block_accepted⟩

end Sample

open Sample

/-- An account without a coin pays out `2 ^ 64 - 1` of them in an accepted block. -/
theorem overspend_not_exact : ∃ σ, AcceptedOnChain crypto raw params afterGenesis Sample.block
        (Sample.block.pay crypto afterGenesis) ∧
      TransferAt crypto params afterGenesis Sample.block 1 overspend σ ∧
      ¬∃ σ', applyTx crypto params Sample.block.height 1 overspend σ = .ok σ' ∧
        ExactTransfer crypto overspend σ σ' := by
  refine ⟨State.credit afterGenesis minerAddress 51, acceptedOnChain, ⟨by decide, rfl, by decide +kernel⟩, ?_⟩
  rintro ⟨σ', -, hx⟩
  have hzero : ((State.credit afterGenesis minerAddress 51).get
      (overspend.sender crypto)).balance = 0 := by
    rw [crypto, goCrypto_eq]
    decide
  have hcovered := hx.covered
  rw [hzero] at hcovered
  exact absurd hcovered (by decide)

/-- The equivalence on the block above. -/
theorem transfers_exact_iff_block : (∀ i t σ, TransferAt crypto params afterGenesis Sample.block i t σ →
        ∃ σ', applyTx crypto params Sample.block.height i t σ = .ok σ' ∧ ExactTransfer crypto t σ σ') ↔
      ∀ i t σ, TransferAt crypto params afterGenesis Sample.block i t σ → TransferFits crypto t σ :=
  transfers_exact_iff _ _ _ _ _ _ acceptedOnChain

end NeoCoin
