import NeoCoin.Internal.Block
import NeoCoin.Theorems.Mining
import NeoCoin.Theorems.Signing

/-!
# Starting a chain

The block that is built from an accepted genesis file is encoded and applied by other functions. In `internal/` the binary encoding reads 64
bare digits where `ValidateAddress` asks for the prefix, so that no address fits both.
-/

namespace NeoCoin

open GoLib

/-! ## Addresses in the binary encoding of the second implementation -/

def RawAddress (addr : Bytes) : Prop := ∃ b, b.length = 32 ∧ hexDecode addr = .ok b

/-- The checks of `VerifyForConsensus` other than those on the signature. -/
def Internal.Sound (C : Crypto) (t : Transaction) : Prop :=
  t.type = .coinbase ∧ VerifiedCoinbase C t ∨
    t.type = .transfer ∧ t.amount ≠ 0 ∧ validateAddress C t.toAddress = .ok () ∧ t.fromPubKey.bytes.length = 32 ∧ t.nonce ≠ 0 ∧
      t.chainID ≠ 0

variable {addr : Bytes}

namespace StartAux

variable {C : Crypto}

theorem not_rawAddress_of_prefix (h : addressPrefix <+: addr) : ¬RawAddress addr := by
  intro hraw
  obtain ⟨b, -, hdecode⟩ := hraw
  obtain ⟨rest, rfl⟩ := h
  have hfirst : (0x4e : UInt8) ∈ addressPrefix ++ rest := List.mem_append_left _ (by decide)
  exact absurd (hexDecode_digits hdecode _ hfirst) (by decide)

theorem decodeHex32_ok_iff {b : Bytes} : Internal.decodeHex32 addr = .ok b ↔ b.length = 32 ∧ hexDecode addr = .ok b := by
  simp only [Internal.decodeHex32, bind_eq_ok, failIf_eq_ok, not_not, Except.ok.injEq]
  constructor
  · intro h
    obtain ⟨b', hdecode, _, hlen, rfl⟩ := h
    exact ⟨hlen, hdecode⟩
  · intro h
    exact ⟨b, h.2, (), h.1, rfl⟩

theorem decodeHex32_ok_iff_rawAddress : (∃ b, Internal.decodeHex32 addr = .ok b) ↔ RawAddress addr :=
  exists_congr fun _ => decodeHex32_ok_iff

theorem rawAddress_of_header {b : Internal.Block} {nonce : UInt64} {p : ConsensusParams} {header : Bytes}
    (h : Internal.blockHeaderPreimageBinaryV1 C b nonce p = .ok header) : RawAddress b.minerAddress := by
  iterate 3 obtain ⟨_, -, h⟩ := bind_eq_ok.mp h
  obtain ⟨miner, hdecode, -⟩ := bind_eq_ok.mp h
  exact decodeHex32_ok_iff_rawAddress.mp ⟨miner, Result.orError_eq_ok.mp hdecode⟩

theorem preimage_ok_iff {t : Transaction} (hchain : t.chainID ≠ 0)
    (htype : t.type = .coinbase ∨ t.type = .transfer ∧ t.fromPubKey.bytes.length = 32) :
    (∃ pre, Internal.txSigningPreimageBinaryV1 t = .ok pre) ↔ RawAddress t.toAddress := by
  rw [← decodeHex32_ok_iff_rawAddress]
  unfold Internal.txSigningPreimageBinaryV1
  rcases htype with htype | ⟨htype, hkey⟩
  · simp only [htype, bind_eq_ok, failIf_eq_ok, Result.orError_eq_ok, Except.ok.injEq]
    constructor
    · intro h
      obtain ⟨pre, _, -, dest, hdest, -⟩ := h
      exact ⟨dest, hdest⟩
    · intro h
      obtain ⟨dest, hdest⟩ := h
      exact ⟨_, (), hchain, dest, hdest, rfl⟩
  · simp only [htype, bind_eq_ok, failIf_eq_ok, Result.orError_eq_ok, Except.ok.injEq, not_not]
    constructor
    · intro h
      obtain ⟨pre, _, -, _, -, dest, hdest, -⟩ := h
      exact ⟨dest, hdest⟩
    · intro h
      obtain ⟨dest, hdest⟩ := h
      exact ⟨_, (), hchain, (), hkey, dest, hdest, rfl⟩

theorem not_verified_of_no_preimage {t : Transaction} {p : ConsensusParams} {height : UInt64} (htype : t.type = .transfer)
    (hactive : p.binaryEncodingActive height = true) (h : ¬∃ pre, Internal.txSigningPreimageBinaryV1 t = .ok pre) :
    Internal.verifyForConsensus C t p height ≠ .ok () := by
  intro hverify
  simp only [Internal.verifyForConsensus, htype, Internal.verifyTransfer, bind_eq_ok] at hverify
  obtain ⟨_, -, _, -, _, -, _, -, _, -, _, -, hash, hhash, -⟩ := hverify
  rw [Internal.txSigningHashForConsensus, if_pos hactive] at hhash
  obtain ⟨pre, hpre, -⟩ := bind_eq_ok.mp hhash
  exact h ⟨pre, hpre⟩

end StartAux

/-- A sound transaction has a binary preimage exactly when it pays to a raw address, which no valid address is: where the binary encoding
is active no signature makes a transfer valid. -/
theorem internal_preimage_iff (C : Crypto) (t : Transaction) (h : Internal.Sound C t) :
    ((∃ pre, Internal.txSigningPreimageBinaryV1 t = .ok pre) ↔ RawAddress t.toAddress) ∧ ¬RawAddress t.toAddress ∧
      ∀ signature p height, t.type = .transfer → p.binaryEncodingActive height = true →
        Internal.verifyForConsensus C { t with signature := signature } p height ≠ .ok () := by
  have hiff : (∃ pre, Internal.txSigningPreimageBinaryV1 t = .ok pre) ↔ RawAddress t.toAddress := by
    rcases h with ⟨htype, hcb⟩ | ⟨htype, -, -, hkey, -, hchain⟩
    · exact StartAux.preimage_ok_iff hcb.chainID (Or.inl htype)
    · exact StartAux.preimage_ok_iff hchain (Or.inr ⟨htype, hkey⟩)
  have hnot : ¬RawAddress t.toAddress := by
    rcases h with ⟨-, hcb⟩ | ⟨-, -, haddr, -⟩
    · exact StartAux.not_rawAddress_of_prefix (prefix_of_validateAddress hcb.toAddress)
    · exact StartAux.not_rawAddress_of_prefix (prefix_of_validateAddress haddr)
  refine ⟨hiff, hnot, ?_⟩
  intro signature p height htype hactive
  -- the preimage does not depend on the signature
  exact StartAux.not_verified_of_no_preimage (t := { t with signature := signature }) htype hactive fun hpre => hnot (hiff.mp hpre)

namespace Sample

def plainTransfer (C : Crypto) : Transaction :=
  { type := .transfer, chainID := 1, fromPubKey := some (List.replicate 32 7), toAddress := generateAddress C [], amount := 1, nonce := 1 }

theorem sound_plainTransfer (C : Crypto) : Internal.Sound C (plainTransfer C) := by
  refine Or.inr ⟨rfl, ?_, validateAddress_generateAddress C [], rfl, ?_, ?_⟩
  · exact show (1 : UInt64) ≠ 0 by decide
  · exact show (1 : UInt64) ≠ 0 by decide
  · exact show (1 : UInt64) ≠ 0 by decide

end Sample

open Sample

theorem internal_preimage_iff_plain : Internal.Sound (goCrypto []) (plainTransfer (goCrypto [])) ∧
      ¬RawAddress (plainTransfer (goCrypto [])).toAddress :=
  ⟨sound_plainTransfer _, (internal_preimage_iff (goCrypto []) _ (sound_plainTransfer _)).2.1⟩

/-- A transfer to a generated address has no binary preimage. -/
theorem plainTransfer_no_preimage : Internal.Sound (goCrypto []) (plainTransfer (goCrypto [])) ∧
      Internal.txSigningPreimageBinaryV1 (plainTransfer (goCrypto [])) = .error "invalid toAddress" :=
  ⟨sound_plainTransfer _, rfl⟩

/-! ## The genesis block of an accepted configuration -/

/-- The genesis block of a configuration is built, passes its check and is applied to the empty state. -/
def Starts (C : Crypto) (cfg : GenesisConfig) : Prop :=
  ∃ b, buildGenesisBlock C cfg cfg.consensusParams = some (.ok b) ∧ validateGenesisBlock C b cfg cfg.consensusParams = .ok b ∧
    (applyBlockToState C cfg.consensusParams ∅ b).1 = .ok ()

/-- The genesis block of a configuration is built, passes its check and is applied to the empty state, in `internal/`. -/
def Internal.Starts (C : Crypto) (cfg : GenesisConfig) : Prop :=
  ∃ b, Internal.buildGenesisBlock C cfg cfg.consensusParams = some (.ok b) ∧
    Internal.validateGenesisBlock C b cfg cfg.consensusParams = .ok b ∧
    (Internal.applyBlockToState C cfg.consensusParams ∅ b).1 = .ok ()

/-- The genesis block, with the first nonce there is for it, is not larger than its own limit. -/
def GenesisFits (C : Crypto) (cfg : GenesisConfig) : Prop :=
  ∀ nonce header, FirstSolution C cfg.consensusParams (genesisTemplate C cfg cfg.consensusParams) nonce →
    (genesisTemplate C cfg cfg.consensusParams).headerBytesForConsensus C cfg.consensusParams nonce = .ok header →
    blockSizeForConsensus { genesisTemplate C cfg cfg.consensusParams with nonce := nonce, hash := some (C.sha256 header) } ≤
      cfg.consensusParams.maxBlockSize.toNat

namespace Internal

section

variable (C : Crypto) (p : ConsensusParams) (b : Block)

def Solves (nonce : UInt64) : Prop :=
  ∃ header, b.headerBytesForConsensus C p nonce = .ok header ∧ beNat (C.sha256 header) < powTarget b.toBlock

@[inherit_doc NeoCoin.SearchEnds]
def SearchEnds : Prop :=
  (∀ nonce, ∃ header, b.headerBytesForConsensus C p nonce = .ok header) → ∃ nonce, Solves C p b nonce

structure FirstSolution (nonce : UInt64) : Prop where
  solves : Solves C p b nonce
  first : ∀ m < nonce, ¬Solves C p b m

end

@[inherit_doc NeoCoin.GenesisFits]
def GenesisFits (C : Crypto) (cfg : GenesisConfig) : Prop :=
  ∀ nonce header, FirstSolution C cfg.consensusParams (genesisTemplate cfg cfg.consensusParams) nonce →
    (genesisTemplate cfg cfg.consensusParams).headerBytesForConsensus C cfg.consensusParams nonce = .ok header →
    blockSizeForConsensus { genesisTemplate cfg cfg.consensusParams with nonce := nonce, hash := some (C.sha256 header) } ≤
      cfg.consensusParams.maxBlockSize.toNat

end Internal

namespace StartAux

variable {C : Crypto} {cfg : GenesisConfig}

/-! ### `blockchain/` -/

theorem decodeHex32_ok_iff_length (h : validateAddress C addr = .ok ()) :
    (∃ miner, NeoCoin.decodeHex32 addr = .ok miner) ↔ addr.length = 67 ∨ addr.length = 77 := by
  obtain ⟨enc, data, rfl, -, hdecode⟩ := (validateAddress_ok_iff C addr).mp h
  generalize data ++ (C.sha256 data).take checksumLen = b at hdecode
  have hlen := hexDecode_length hdecode
  rw [List.length_append, addressPrefix_length]
  constructor
  · intro h
    obtain ⟨miner, hminer⟩ := h
    rcases SigningAux.decodeHex32_append hdecode hminer with ⟨h37, -⟩ | ⟨h32, -⟩
    · omega
    · omega
  · intro h
    unfold NeoCoin.decodeHex32
    rw [SigningAux.trimAddressPrefix_append, hdecode]
    simp only [bind, Except.bind]
    rcases h with h | h
    · have h32 : b.length = 32 := by omega
      exact ⟨b, by rw [if_neg (by omega), if_pos h32]⟩
    · have h37 : b.length = 37 := by omega
      exact ⟨_, if_pos h37⟩

theorem verifiedCoinbase_genesis (hchain : cfg.chainID ≠ 0) (hsupply : cfg.initialSupply ≠ 0) :
    VerifiedCoinbase C { type := .coinbase, chainID := cfg.chainID, toAddress := addr, amount := cfg.initialSupply
                         data := genesisMessageOrDefault cfg } ↔ validateAddress C addr = .ok () :=
  ⟨fun h => h.toAddress, fun h => ⟨hchain, hsupply, h, rfl, rfl, rfl, rfl⟩⟩

theorem genesis_header_iff (hcfg : ValidConfig cfg) (nonce : UInt64) :
    (∃ header, (genesisTemplate C cfg cfg.consensusParams).headerBytesForConsensus C cfg.consensusParams nonce = .ok header) ↔
      (cfg.consensusParams.binaryEncodingActive 0 = true → ∃ miner, NeoCoin.decodeHex32 cfg.genesisMinerAddress = .ok miner) := by
  have hminer : (genesisTemplate C cfg cfg.consensusParams).minerAddress = cfg.genesisMinerAddress :=
    if_pos hcfg.genesisMinerAddress
  have hroot : (cfg.consensusParams.binaryEncodingActive 0 = true →
      ∃ miner, NeoCoin.decodeHex32 cfg.genesisMinerAddress = .ok miner) →
      ∃ root, (genesisTemplate C cfg cfg.consensusParams).commitmentRoot C cfg.consensusParams = .ok root := by
    intro h
    refine SelectionAux.commitmentRoot_exists (List.cons_ne_nil _ _) ?_
    intro t ht
    obtain rfl := List.mem_singleton.mp ht
    unfold signingPreimage
    split
    · rename_i hactive
      obtain ⟨miner, hdecode⟩ := h hactive
      rw [← hminer] at hdecode
      exact ⟨_, bind_eq_ok.mpr ⟨(), failIf_eq_ok.mpr hcfg.chainID, bind_eq_ok.mpr ⟨miner, Result.orError_eq_ok.mpr hdecode, rfl⟩⟩⟩
    · exact ⟨_, rfl⟩
  unfold Block.headerBytesForConsensus
  have hheight : (genesisTemplate C cfg cfg.consensusParams).height = 0 := rfl
  rw [hheight]
  by_cases hactive : cfg.consensusParams.binaryEncodingActive 0 = true
  · rw [if_pos hactive]
    constructor
    · intro h _
      obtain ⟨header, hheader⟩ := h
      iterate 3 obtain ⟨_, -, hheader⟩ := bind_eq_ok.mp hheader
      obtain ⟨miner, hdecode, -⟩ := bind_eq_ok.mp hheader
      rw [Result.orError_eq_ok, hminer] at hdecode
      exact ⟨miner, hdecode⟩
    · intro h
      obtain ⟨root, hr⟩ := hroot h
      obtain ⟨miner, hdecode⟩ := h hactive
      rw [← hminer] at hdecode
      exact ⟨_, bind_eq_ok.mpr ⟨(), failIf_eq_ok.mpr (Int64.not_le.mpr hcfg.timestamp),
        bind_eq_ok.mpr ⟨(), failIf_eq_ok.mpr (fun h => h.1 rfl), bind_eq_ok.mpr ⟨(), failIf_eq_ok.mpr (fun h => h.1 rfl),
          bind_eq_ok.mpr ⟨miner, Result.orError_eq_ok.mpr hdecode, bind_eq_ok.mpr ⟨root, hr, rfl⟩⟩⟩⟩⟩⟩
  · rw [if_neg hactive]
    obtain ⟨root, hr⟩ := hroot fun h => absurd h hactive
    exact iff_of_true ⟨_, bind_eq_ok.mpr ⟨root, hr, rfl⟩⟩ fun h => absurd h hactive

theorem powRun_of_build {b : Block} (h : buildGenesisBlock C cfg cfg.consensusParams = some (.ok b)) :
    ∃ nonce hash, powRun C cfg.consensusParams (genesisTemplate C cfg cfg.consensusParams) = some (.ok (nonce, hash)) ∧
      b = { genesisTemplate C cfg cfg.consensusParams with nonce := nonce, hash := some hash } := by
  unfold buildGenesisBlock at h
  simp only at h
  split at h
  · cases h
  · cases h
  · rename_i nonce hash hrun
    exact ⟨nonce, hash, hrun, (Except.ok.inj (Option.some.inj h)).symm⟩

theorem applies_genesis_iff (hcfg : ValidConfig cfg) (haddr : validateAddress C cfg.genesisMinerAddress = .ok ()) (nonce : UInt64)
    (hash : Bytes) : (applyBlockToState C cfg.consensusParams ∅
        { genesisTemplate C cfg cfg.consensusParams with nonce := nonce, hash := some hash }).1 = .ok () ↔
      blockSizeForConsensus { genesisTemplate C cfg cfg.consensusParams with nonce := nonce, hash := some hash } ≤
        cfg.consensusParams.maxBlockSize.toNat := by
  have hmax : cfg.consensusParams.maxBlockSize > 0 := UInt64.pos_iff_ne_zero.mpr hcfg.consensusParams.maxBlockSize
  constructor
  · intro h
    obtain ⟨⟨cb, ts, haccepted⟩, -⟩ := (applyBlockToState_ok_iff C cfg.consensusParams).mp (applyBlockToState_of_fst_ok h)
    exact haccepted.size hmax
  · intro h
    have hcb := (verifiedCoinbase_genesis hcfg.chainID hcfg.initialSupply).mpr haddr
    rw [← show (genesisTemplate C cfg cfg.consensusParams).minerAddress = cfg.genesisMinerAddress from
      if_pos hcfg.genesisMinerAddress] at hcb
    exact congrArg Prod.fst ((applyBlockToState_ok_iff C cfg.consensusParams).mpr
      ⟨⟨_, [], rfl, fun _ => h, rfl, fun hpos => absurd hpos (show ¬(0 : UInt64) > 0 by decide), hcb, trivial⟩, rfl⟩)

theorem starts_iff {raw : GenesisConfigJSON} (hload : loadGenesisConfig C raw = .ok cfg)
    (hsearch : SearchEnds C cfg.consensusParams (genesisTemplate C cfg cfg.consensusParams)) : Starts C cfg ↔
      (cfg.consensusParams.binaryEncodingActive 0 = true → cfg.genesisMinerAddress.length = 67 ∨ cfg.genesisMinerAddress.length = 77) ∧
        GenesisFits C cfg := by
  obtain ⟨hcfg, haddr⟩ := valid_of_load hload
  rw [← decodeHex32_ok_iff_length haddr]
  constructor
  · intro h
    obtain ⟨b, hbuild, -, happly⟩ := h
    obtain ⟨nonce, hash, hrun, rfl⟩ := powRun_of_build hbuild
    obtain ⟨header, hheader, rfl, -⟩ := HeaderAux.powRunLoop_ok hrun
    have hdecodes := (genesis_header_iff hcfg nonce).mp ⟨header, hheader⟩
    refine ⟨hdecodes, ?_⟩
    intro nonce' header' hfirst' hheader'
    -- the nonce that was found is the first solution
    obtain ⟨nonce1, header1, hrun1, hheader1, hfirst1⟩ :=
      SelectionAux.powRun_of_solves (fun n => (genesis_header_iff hcfg n).mpr hdecodes) hsearch
    obtain ⟨rfl, hsum⟩ := Prod.mk.inj (Except.ok.inj (Option.some.inj (hrun.symm.trans hrun1)))
    obtain rfl := hfirst'.unique hfirst1
    cases hheader.symm.trans hheader'
    exact (applies_genesis_iff hcfg haddr _ _).mp happly
  · intro h
    obtain ⟨hdecodes, hfits⟩ := h
    obtain ⟨nonce, header, hrun, hheader, hfirst⟩ :=
      SelectionAux.powRun_of_solves (fun n => (genesis_header_iff hcfg n).mpr hdecodes) hsearch
    have hbuild : buildGenesisBlock C cfg cfg.consensusParams = some (.ok
        { genesisTemplate C cfg cfg.consensusParams with nonce := nonce, hash := some (C.sha256 header) }) := by
      simp only [buildGenesisBlock, hrun]
    exact ⟨_, hbuild, HeaderAux.validateGenesisBlock_of_isGenesis (HeaderAux.isGenesis_of_build hcfg hbuild),
      (applies_genesis_iff hcfg haddr _ _).mpr (hfits nonce header hfirst hheader)⟩

/-! ### `internal/` -/

section Internal

variable {p : ConsensusParams} {b : Internal.Block} {cb : Transaction}

theorem internal_commitmentRoot_eq (htxs : b.transactions = [cb]) (htype : cb.type = .coinbase)
    (hactive : p.binaryEncodingActive b.height = false) : b.commitmentRoot C p = NeoCoin.Block.commitmentRoot C b.toBlock p := by
  have hpre : Internal.txSigningHashForConsensus C cb p b.height = .ok (C.sha256 (signingViewJSON cb [])) := by
    simp [Internal.txSigningHashForConsensus, hactive, Internal.signingPreimageLegacyJSON, htype, bind, Except.bind]
  have hpre' : NeoCoin.txSigningHashForConsensus C cb p b.height = .ok (C.sha256 (signingViewJSON cb [])) := by
    simp [NeoCoin.txSigningHashForConsensus, signingPreimage, hactive, signingPreimageLegacyJSON, htype, bind, Except.bind]
  have hhashes : b.signingHashes C p = .ok [C.sha256 (signingViewJSON cb [])] := by
    simp [Internal.Block.signingHashes, htxs, hpre]
  have hhashes' : NeoCoin.Block.signingHashes C b.toBlock p = .ok [C.sha256 (signingViewJSON cb [])] := by
    simp [NeoCoin.Block.signingHashes, htxs, hpre']
  unfold Internal.Block.commitmentRoot NeoCoin.Block.commitmentRoot
  split
  · simp only [Internal.Block.merkleRootV2ForConsensus, NeoCoin.Block.merkleRootV2ForConsensus, hhashes, hhashes', bind, Except.bind,
      Internal.merkleRoot, NeoCoin.merkleRoot, List.any_cons, List.any_nil, C.sha256_length]
    rfl
  · simp only [Internal.Block.txRootLegacyForConsensus, NeoCoin.Block.txRootLegacyForConsensus, hhashes, hhashes']

theorem internal_header_eq (htxs : b.transactions = [cb]) (htype : cb.type = .coinbase)
    (hactive : p.binaryEncodingActive b.height = false) (nonce : UInt64) :
    b.headerBytesForConsensus C p nonce = NeoCoin.Block.headerBytesForConsensus C b.toBlock p nonce := by
  unfold Internal.Block.headerBytesForConsensus NeoCoin.Block.headerBytesForConsensus
  rw [hactive, internal_commitmentRoot_eq htxs htype hactive]
  rfl

/-- Where the headers agree, so does the search. By induction on its rounds. -/
theorem internal_powRunLoop_eq
    (h : ∀ nonce, b.headerBytesForConsensus C p nonce = NeoCoin.Block.headerBytesForConsensus C b.toBlock p nonce) (n : Nat)
    (nonce : UInt64) : Internal.powRunLoop C p b n nonce = NeoCoin.powRunLoop C p b.toBlock n nonce := by
  induction n generalizing nonce with
  | zero => rfl
  | succ n ih =>
    cases hheader : NeoCoin.Block.headerBytesForConsensus C b.toBlock p nonce with
    | error e => simp only [Internal.powRunLoop, NeoCoin.powRunLoop, h, hheader]
    | ok header => simp only [Internal.powRunLoop, NeoCoin.powRunLoop, h, hheader, ih]

theorem internal_solves_iff
    (h : ∀ nonce, b.headerBytesForConsensus C p nonce = NeoCoin.Block.headerBytesForConsensus C b.toBlock p nonce) (nonce : UInt64) :
    Internal.Solves C p b nonce ↔ Solves C p b.toBlock nonce := by
  unfold Internal.Solves Solves
  rw [h]

theorem internal_firstSolution_iff
    (h : ∀ nonce, b.headerBytesForConsensus C p nonce = NeoCoin.Block.headerBytesForConsensus C b.toBlock p nonce) (nonce : UInt64) :
    Internal.FirstSolution C p b nonce ↔ FirstSolution C p b.toBlock nonce := by
  constructor
  · intro hfirst
    exact ⟨(internal_solves_iff h nonce).mp hfirst.solves, fun m hm hs => hfirst.first m hm ((internal_solves_iff h m).mpr hs)⟩
  · intro hfirst
    exact ⟨(internal_solves_iff h nonce).mpr hfirst.solves, fun m hm hs => hfirst.first m hm ((internal_solves_iff h m).mp hs)⟩

theorem internal_validateGenesisBlock (hheader : b.headerBytesForConsensus C cfg.consensusParams b.nonce =
      NeoCoin.Block.headerBytesForConsensus C b.toBlock cfg.consensusParams b.nonce)
    (h : HeaderAux.IsGenesis C cfg b.toBlock) : Internal.validateGenesisBlock C b cfg cfg.consensusParams = .ok b := by
  obtain ⟨cb, htxs, hcb⟩ := h.transactions
  have hpow : Internal.powValidate C cfg.consensusParams b = .ok true := by
    have hpow := h.pow
    unfold NeoCoin.powValidate at hpow
    unfold Internal.powValidate
    rw [hheader]
    exact hpow
  have hensure : ∃ sum, Internal.ensureBlockHash C b cfg.consensusParams = .ok (sum, b) := by
    obtain ⟨header, hbytes, -⟩ := h.hashed
    refine ⟨C.sha256 header, ?_⟩
    unfold Internal.ensureBlockHash
    simp only [hheader, hbytes, bind, Except.bind, if_neg h.hash]
  obtain ⟨sum, hensure⟩ := hensure
  unfold Internal.validateGenesisBlock
  simp only [bind_eq_ok, failIf_eq_ok, not_not, htxs, hcb]
  refine ⟨(), h.height, (), by rw [h.prevHash]; rfl, (), h.version, (), h.timestamp, (), h.minerAddress, (), h.bits, ?_⟩
  exact ⟨(), trivial, true, hpow, (), by simp, _, hensure, rfl⟩

end Internal

variable {raw : GenesisConfigJSON}

theorem internal_load_ok (h : Internal.loadGenesisConfig C raw = .ok cfg) :
    cfg.chainID ≠ 0 ∧ 0 < cfg.timestamp ∧ cfg.initialSupply ≠ 0 ∧ validateGenesisMinerAddress C raw.genesisMinerAddress = .ok () ∧
      cfg.genesisMinerAddress = raw.genesisMinerAddress ∧ cfg.consensusParams.maxBlockSize ≠ 0 := by
  unfold Internal.loadGenesisConfig at h
  obtain ⟨_, hchain, h⟩ := bind_eq_ok.mp h
  obtain ⟨_, htime, h⟩ := bind_eq_ok.mp h
  obtain ⟨_, hsupply, h⟩ := bind_eq_ok.mp h
  obtain ⟨_, haddr, h⟩ := bind_eq_ok.mp h
  obtain ⟨_, -, h⟩ := bind_eq_ok.mp h
  obtain ⟨params, hparams, h⟩ := bind_eq_ok.mp h
  cases h
  exact ⟨failIf_eq_ok.mp hchain, Int64.not_le.mp (failIf_eq_ok.mp htime), failIf_eq_ok.mp hsupply, Result.wrap_eq_ok.mp haddr, rfl,
    (validParams_of_parse hparams).maxBlockSize⟩

theorem load_of_internal_load (h : Internal.loadGenesisConfig C raw = .ok cfg)
    (hneo : addressPrefix <+: raw.genesisMinerAddress) : loadGenesisConfig C raw = .ok cfg := by
  unfold loadGenesisConfig normalizeGenesisAddress
  unfold Internal.loadGenesisConfig at h
  rw [if_pos hneo]
  exact h

theorem internal_applies_genesis_iff (hload : Internal.loadGenesisConfig C raw = .ok cfg) (nonce : UInt64)
    (hash : Bytes) : (Internal.applyBlockToState C cfg.consensusParams ∅
        { Internal.genesisTemplate cfg cfg.consensusParams with nonce := nonce, hash := some hash }).1 = .ok () ↔
      Internal.blockSizeForConsensus { Internal.genesisTemplate cfg cfg.consensusParams with nonce := nonce, hash := some hash } ≤
        cfg.consensusParams.maxBlockSize.toNat ∧ validateAddress C cfg.genesisMinerAddress = .ok () := by
  obtain ⟨hchain, -, hsupply, -, -, hmax⟩ := internal_load_ok hload
  have hpos : cfg.consensusParams.maxBlockSize > 0 := UInt64.pos_iff_ne_zero.mpr hmax
  rw [← verifiedCoinbase_genesis hchain hsupply]
  constructor
  · intro h
    unfold Internal.applyBlockToState at h
    split at h
    · cases h
    · rename_i hcheck
      refine ⟨?_, ?_⟩
      · unfold Internal.checkBlock at hcheck
        obtain ⟨_, hsize, -⟩ := bind_eq_ok.mp hcheck
        rw [failIf_eq_ok, not_and, Nat.not_lt] at hsize
        exact hsize hpos
      · rw [← Internal.verifyForConsensus_coinbase_iff C cfg.consensusParams 0 rfl]
        simp only [Internal.genesisTemplate, Internal.applyTxs, Internal.applyTx, Internal.applyCoinbase] at h
        split at h
        · cases h
        · rename_i htx
          obtain ⟨_, -, htx⟩ := bind_eq_ok.mp htx
          obtain ⟨_, hverify, -⟩ := bind_eq_ok.mp htx
          exact hverify
  · intro h
    obtain ⟨hsize, hcb⟩ := h
    rw [Internal.applyBlockToState_coinbase ∅ rfl (fun _ => hsize) rfl (fun hpos => absurd hpos (show ¬(0 : UInt64) > 0 by decide))
      hcb]

theorem internal_powRun_of_build {b : Internal.Block} (h : Internal.buildGenesisBlock C cfg cfg.consensusParams = some (.ok b)) :
    ∃ nonce hash, Internal.powRun C cfg.consensusParams (Internal.genesisTemplate cfg cfg.consensusParams) = some (.ok (nonce, hash)) ∧
      b = { Internal.genesisTemplate cfg cfg.consensusParams with nonce := nonce, hash := some hash } := by
  unfold Internal.buildGenesisBlock at h
  simp only at h
  split at h
  · cases h
  · cases h
  · rename_i nonce hash hrun
    exact ⟨nonce, hash, hrun, (Except.ok.inj (Option.some.inj h)).symm⟩

theorem rawAddress_of_internal_powRun {p : ConsensusParams} {b : Internal.Block} {n : Nat} {start : UInt64} {r : UInt64 × Bytes}
    (hactive : p.binaryEncodingActive b.height = true) (h : Internal.powRunLoop C p b n start = some (.ok r)) :
    RawAddress b.minerAddress := by
  cases n with
  | zero => cases h
  | succ n =>
    unfold Internal.powRunLoop at h
    split at h
    · cases h
    · rename_i header hheader
      rw [Internal.Block.headerBytesForConsensus, if_pos hactive] at hheader
      exact rawAddress_of_header hheader

theorem internal_genesisTemplate_eq (hneo : addressPrefix <+: cfg.genesisMinerAddress) :
    (Internal.genesisTemplate cfg cfg.consensusParams).toBlock = genesisTemplate C cfg cfg.consensusParams := by
  simp [Internal.genesisTemplate, genesisTemplate, hneo]

theorem internal_genesis_header_eq (hactive : cfg.consensusParams.binaryEncodingActive 0 = false) (nonce : UInt64) :
    (Internal.genesisTemplate cfg cfg.consensusParams).headerBytesForConsensus C cfg.consensusParams nonce =
      NeoCoin.Block.headerBytesForConsensus C (Internal.genesisTemplate cfg cfg.consensusParams).toBlock cfg.consensusParams nonce :=
  internal_header_eq rfl rfl hactive nonce

theorem internal_powRun_found (hcfg : ValidConfig cfg) (hactive : cfg.consensusParams.binaryEncodingActive 0 = false)
    (hsearch : Internal.SearchEnds C cfg.consensusParams (Internal.genesisTemplate cfg cfg.consensusParams)) :
    ∃ nonce header, Internal.powRun C cfg.consensusParams (Internal.genesisTemplate cfg cfg.consensusParams) =
        some (.ok (nonce, C.sha256 header)) ∧
      (Internal.genesisTemplate cfg cfg.consensusParams).headerBytesForConsensus C cfg.consensusParams nonce = .ok header ∧
      Internal.FirstSolution C cfg.consensusParams (Internal.genesisTemplate cfg cfg.consensusParams) nonce := by
  have hsame := internal_genesis_header_eq (C := C) hactive
  have hall : ∀ nonce, ∃ header, NeoCoin.Block.headerBytesForConsensus C
      (Internal.genesisTemplate cfg cfg.consensusParams).toBlock cfg.consensusParams nonce = .ok header := by
    intro nonce
    rw [internal_genesisTemplate_eq (C := C) hcfg.genesisMinerAddress]
    exact (genesis_header_iff hcfg nonce).mpr fun h => absurd (hactive.symm.trans h) (by decide)
  have hends : SearchEnds C cfg.consensusParams (Internal.genesisTemplate cfg cfg.consensusParams).toBlock := by
    intro _
    obtain ⟨nonce, hnonce⟩ := hsearch fun nonce => by rw [hsame]; exact hall nonce
    exact ⟨nonce, (internal_solves_iff hsame nonce).mp hnonce⟩
  obtain ⟨nonce, header, hrun, hheader, hfirst⟩ := SelectionAux.powRun_of_solves hall hends
  exact ⟨nonce, header, (internal_powRunLoop_eq hsame _ _).trans hrun, (hsame nonce).trans hheader,
    (internal_firstSolution_iff hsame nonce).mpr hfirst⟩

theorem internal_validate_found (hcfg : ValidConfig cfg) (hactive : cfg.consensusParams.binaryEncodingActive 0 = false)
    {nonce : UInt64} {hash : Bytes}
    (hrun : Internal.powRun C cfg.consensusParams (Internal.genesisTemplate cfg cfg.consensusParams) = some (.ok (nonce, hash))) :
    Internal.validateGenesisBlock C { Internal.genesisTemplate cfg cfg.consensusParams with nonce := nonce, hash := some hash } cfg
        cfg.consensusParams =
      .ok { Internal.genesisTemplate cfg cfg.consensusParams with nonce := nonce, hash := some hash } := by
  refine internal_validateGenesisBlock (internal_header_eq rfl rfl hactive nonce) (HeaderAux.isGenesis_of_build hcfg ?_)
  have hrun' : NeoCoin.powRun C cfg.consensusParams (Internal.genesisTemplate cfg cfg.consensusParams).toBlock =
      some (.ok (nonce, hash)) := by
    rw [← hrun]
    exact (internal_powRunLoop_eq (internal_genesis_header_eq hactive) _ _).symm
  simp only [buildGenesisBlock, ← internal_genesisTemplate_eq (C := C) hcfg.genesisMinerAddress, hrun']

theorem internal_starts_iff (hload : Internal.loadGenesisConfig C raw = .ok cfg)
    (hsearch : Internal.SearchEnds C cfg.consensusParams (Internal.genesisTemplate cfg cfg.consensusParams)) : Internal.Starts C cfg ↔
      addressPrefix <+: raw.genesisMinerAddress ∧ cfg.consensusParams.binaryEncodingActive 0 = false ∧ Internal.GenesisFits C cfg := by
  obtain ⟨-, -, -, hraw, haddr, -⟩ := internal_load_ok hload
  constructor
  · intro h
    obtain ⟨b, hbuild, -, happly⟩ := h
    obtain ⟨nonce, hash, hrun, rfl⟩ := internal_powRun_of_build hbuild
    obtain ⟨hsize, hvalid⟩ := (internal_applies_genesis_iff hload nonce hash).mp happly
    have hneo : addressPrefix <+: cfg.genesisMinerAddress := prefix_of_validateAddress hvalid
    have hactive : cfg.consensusParams.binaryEncodingActive 0 = false := by
      by_contra hactive
      exact not_rawAddress_of_prefix hneo (rawAddress_of_internal_powRun (Bool.eq_true_of_not_eq_false hactive) hrun)
    refine ⟨haddr ▸ hneo, hactive, ?_⟩
    intro nonce' header' hfirst' hheader'
    -- the nonce that was found is the first solution
    have hcfg := validConfig_of_load (load_of_internal_load hload (haddr ▸ hneo))
    obtain ⟨nonce1, header1, hrun1, hheader1, hfirst1⟩ := internal_powRun_found hcfg hactive hsearch
    cases hrun.symm.trans hrun1
    have hsame := internal_genesis_header_eq (C := C) hactive
    obtain rfl := ((internal_firstSolution_iff hsame nonce').mp hfirst').unique ((internal_firstSolution_iff hsame nonce).mp hfirst1)
    cases hheader1.symm.trans hheader'
    exact hsize
  · intro h
    obtain ⟨hneo, hactive, hfits⟩ := h
    have hcfg := validConfig_of_load (load_of_internal_load hload hneo)
    obtain ⟨nonce, header, hrun, hheader, hfirst⟩ := internal_powRun_found hcfg hactive hsearch
    have hvalid : validateAddress C cfg.genesisMinerAddress = .ok () := by
      rw [haddr]
      unfold validateGenesisMinerAddress at hraw
      rwa [if_pos hneo] at hraw
    have hbuild : Internal.buildGenesisBlock C cfg cfg.consensusParams = some (.ok
        { Internal.genesisTemplate cfg cfg.consensusParams with nonce := nonce, hash := some (C.sha256 header) }) := by
      simp only [Internal.buildGenesisBlock, hrun]
    exact ⟨_, hbuild, internal_validate_found hcfg hactive hrun,
      (internal_applies_genesis_iff hload _ _).mpr ⟨hfits nonce header hfirst hheader, hvalid⟩⟩

end StartAux

/-- Which accepted configurations start a chain. In `blockchain/` those whose address has one of two lengths, or no binary encoding at
the start, and whose block fits its own limit; in `internal/` those with the prefix, without the binary encoding and with a block that
fits. -/
theorem genesis_starts_iff (C : Crypto) (raw : GenesisConfigJSON) :
    (∀ cfg, loadGenesisConfig C raw = .ok cfg → SearchEnds C cfg.consensusParams (genesisTemplate C cfg cfg.consensusParams) →
      (Starts C cfg ↔
        (cfg.consensusParams.binaryEncodingActive 0 = true →
          cfg.genesisMinerAddress.length = 67 ∨ cfg.genesisMinerAddress.length = 77) ∧ GenesisFits C cfg)) ∧
    ∀ cfg, Internal.loadGenesisConfig C raw = .ok cfg →
      Internal.SearchEnds C cfg.consensusParams (Internal.genesisTemplate cfg cfg.consensusParams) →
      (Internal.Starts C cfg ↔
        addressPrefix <+: raw.genesisMinerAddress ∧ cfg.consensusParams.binaryEncodingActive 0 = false ∧ Internal.GenesisFits C cfg) :=
  ⟨fun _ hload hsearch => StartAux.starts_iff hload hsearch, fun _ hload hsearch => StartAux.internal_starts_iff hload hsearch⟩

namespace Sample

/-- An address that is valid but has one byte where others have a version and a hash. -/
def shortAddress : Bytes := encodeAddress (goCrypto []) [0]

def shortRaw : GenesisConfigJSON := { raw with genesisMinerAddress := shortAddress }

def shortConfig : GenesisConfig := { config with genesisMinerAddress := shortAddress }

theorem short_loads : loadGenesisConfig (goCrypto []) shortRaw = .ok shortConfig := by
  rw [goCrypto_eq]
  decide +kernel

theorem internal_loads : Internal.loadGenesisConfig crypto raw = .ok config := by
  rw [Sample.crypto, goCrypto_eq]
  decide

theorem search_ends : SearchEnds crypto params (genesisTemplate crypto config params) := by
  intro _
  obtain ⟨nonce, hash, hrun, -⟩ := StartAux.powRun_of_build builds
  obtain ⟨header, hheader, rfl, hlow⟩ := HeaderAux.powRunLoop_ok hrun
  exact ⟨nonce, header, hheader, hlow⟩

theorem internal_search_ends : Internal.SearchEnds crypto params (Internal.genesisTemplate config params) := by
  intro hall
  obtain ⟨header, hheader⟩ := hall 0
  cases hheader

end Sample

theorem genesis_starts_iff_sample : (Starts crypto config ↔
        (params.binaryEncodingActive 0 = true → minerAddress.length = 67 ∨ minerAddress.length = 77) ∧
          GenesisFits crypto config) ∧
      (Internal.Starts crypto config ↔
        addressPrefix <+: minerAddress ∧ params.binaryEncodingActive 0 = false ∧
          Internal.GenesisFits crypto config) :=
  ⟨(genesis_starts_iff crypto raw).1 _ loads search_ends,
    (genesis_starts_iff crypto raw).2 _ internal_loads internal_search_ends⟩

/-- Accepted configurations from which no block is built: in `blockchain/` one with a short address, in `internal/` one that starts a
chain in `blockchain/`. -/
theorem accepted_not_built : loadGenesisConfig (goCrypto []) shortRaw = .ok shortConfig ∧
      buildGenesisBlock (goCrypto []) shortConfig params = some (.error "invalid minerAddress") ∧
      Internal.loadGenesisConfig crypto raw = .ok config ∧
      Internal.buildGenesisBlock crypto config params = some (.error "invalid minerAddress") ∧
      Starts crypto config := by
  refine ⟨short_loads, by decide +kernel, internal_loads, by decide, genesis, builds, ?_, ?_⟩
  · exact HeaderAux.validateGenesisBlock_of_isGenesis
      (HeaderAux.isGenesis_of_build (validConfig_of_load loads) builds)
  · obtain ⟨haccepted, -⟩ := (applyBlocks_cons_ok_iff crypto params).mp genesis_applies
    exact congrArg Prod.fst ((applyBlockToState_ok_iff crypto params).mpr ⟨haccepted, rfl⟩)

end NeoCoin
