import NeoCoin.Ledger

/-!
# Genesis

`blockchain/genesis.go` and the parsing of `blockchain/monetary_policy.go`. Reading the file and its JSON text is left to Go's packages;
an absent field is `none`, as the nil pointers of the source are.
-/

namespace NeoCoin

open GoLib

/-! ## The decoded file -/

structure MonetaryPolicyJSON where
  initialBlockReward : Option UInt64 := none
  halvingInterval : Option UInt64 := none
  minerFeeShare : Option UInt8 := none
  tailEmission : Option UInt64 := none
  deriving DecidableEq, Repr

structure ConsensusParamsJSON where
  difficultyEnable : Option Bool := none
  difficultyTargetMs : Option Int64 := none
  difficultyTargetSpacing : Option Int64 := none
  difficultyWindow : Option Int64 := none
  difficultyWindowSize : Option Int64 := none
  difficultyAdjustmentInterval : Option Int64 := none
  difficultyMaxStepBits : Option UInt32 := none
  difficultyMaxStep : Option UInt32 := none
  minDifficultyBits : Option UInt32 := none
  maxDifficultyBits : Option UInt32 := none
  genesisDifficultyBits : Option UInt32 := none
  medianTimePastWindow : Option Int64 := none
  maxTimeDrift : Option Int64 := none
  maxBlockSize : Option UInt64 := none
  merkleEnable : Option Bool := none
  merkleActivationHeight : Option UInt64 := none
  binaryEncodingEnable : Option Bool := none
  binaryEncodingActivationHeight : Option UInt64 := none
  deriving DecidableEq, Repr

structure GenesisConfigJSON where
  network : Bytes := []
  chainID : UInt64 := 0
  timestamp : Int64 := 0
  genesisMinerAddress : Bytes := []
  initialSupply : UInt64 := 0
  genesisMessage : Bytes := []
  monetaryPolicy : Option MonetaryPolicyJSON := none
  consensusParams : Option ConsensusParamsJSON := none
  deriving DecidableEq, Repr

structure GenesisConfig where
  network : Bytes
  chainID : UInt64
  timestamp : Int64
  genesisMinerAddress : Bytes
  initialSupply : UInt64
  genesisMessage : Bytes
  monetaryPolicy : MonetaryPolicy
  consensusParams : ConsensusParams
  deriving DecidableEq, Repr

/-! ## Monetary policy -/

def MonetaryPolicy.validate (p : MonetaryPolicy) : Result Unit := do
  failIf (p.initialBlockReward = 0 ∧ p.tailEmission = 0) "monetaryPolicy.initialBlockReward or tailEmission must be > 0"
  failIf (p.halvingInterval = 0) "monetaryPolicy.halvingInterval must be > 0"
  failIf (p.minerFeeShare > 100) "monetaryPolicy.minerFeeShare must be <= 100"

theorem MonetaryPolicy.validate_ok_iff {p : MonetaryPolicy} : p.validate = .ok () ↔
      ¬(p.initialBlockReward = 0 ∧ p.tailEmission = 0) ∧ p.halvingInterval ≠ 0 ∧ ¬p.minerFeeShare > 100 := by
  simp only [MonetaryPolicy.validate, unit_bind_eq_ok, failIf_eq_ok, ne_eq]

def required {α : Type} (msg : String) : Option α → Result α
  | none => .error msg
  | some a => .ok a

def parseMonetaryPolicy (raw : Option MonetaryPolicyJSON) : Result MonetaryPolicy := do
  let aux ← required "genesis monetaryPolicy is required" raw
  let initialBlockReward ← required "monetaryPolicy.initialBlockReward is required" aux.initialBlockReward
  let halvingInterval ← required "monetaryPolicy.halvingInterval is required" aux.halvingInterval
  let minerFeeShare ← required "monetaryPolicy.minerFeeShare is required" aux.minerFeeShare
  let p : MonetaryPolicy := { initialBlockReward, halvingInterval, minerFeeShare, tailEmission := aux.tailEmission.getD 0 }
  p.validate
  .ok p

/-! ## Consensus parameters -/

/-- The loop of the `pick` functions: the first value that is set, which every other one must equal. -/
def pick {α : Type} [DecidableEq α] [ToString α] (name : String) : List (Option α) → Option α → Result α
  | [], none => .error s!"consensusParams.{name} is required"
  | [], some out => .ok out
  | none :: values, out => pick name values out
  | some v :: values, none => pick name values (some v)
  | some v :: values, some out =>
    if v ≠ out then .error s!"consensusParams.{name} mismatch: {out} vs {v}" else pick name values (some out)

def pickInt (name : String) (values : List (Option Int64)) : Result Int64 := pick name values none

def pickInt64 (name : String) (values : List (Option Int64)) : Result Int64 := pick name values none

def pickUint32 (name : String) (values : List (Option UInt32)) : Result UInt32 := pick name values none

/-- `requireInt`, `requireInt64`, `requireUint32` and `requireUint64`. -/
def requireParam {α : Type} (name : String) (v : Option α) : Result α := required s!"consensusParams.{name} is required" v

def toMillis (v : Option Int64) : Option Int64 := v.map (· * 1000)

def validateConsensusParams (p : ConsensusParams) : Result Unit := do
  failIf (p.targetBlockTime ≤ 0) "consensusParams.difficultyTarget must be > 0"
  failIf (p.difficultyWindow ≤ 0) "consensusParams.difficultyWindow must be > 0"
  failIf (p.difficultyMaxStep = 0) "consensusParams.difficultyMaxStepBits must be > 0"
  failIf (p.minDifficultyBits = 0) "consensusParams.difficultyMinBits must be > 0"
  failIf (p.maxDifficultyBits = 0) "consensusParams.difficultyMaxBits must be > 0"
  failIf (p.maxDifficultyBits > maxDifficultyBits) s!"consensusParams.difficultyMaxBits must be <= {maxDifficultyBits}"
  failIf (p.minDifficultyBits > p.maxDifficultyBits) "consensusParams.difficultyMinBits must be <= difficultyMaxBits"
  failIf (p.genesisDifficultyBits < p.minDifficultyBits ∨ p.genesisDifficultyBits > p.maxDifficultyBits)
    "consensusParams.genesisDifficultyBits must be within min/max difficulty bits"
  failIf (p.medianTimePastWindow ≤ 0) "consensusParams.medianTimePastWindow must be > 0"
  failIf (p.maxTimeDrift ≤ 0) "consensusParams.maxTimeDrift must be > 0"
  failIf (p.maxBlockSize = 0) "consensusParams.maxBlockSize must be > 0"

structure ValidParams (p : ConsensusParams) : Prop where
  targetBlockTime : 0 < p.targetBlockTime
  difficultyWindow : 0 < p.difficultyWindow
  difficultyMaxStep : p.difficultyMaxStep ≠ 0
  minDifficultyBits : p.minDifficultyBits ≠ 0
  maxDifficultyBits : p.maxDifficultyBits ≤ maxDifficultyBits
  minLeMax : p.minDifficultyBits ≤ p.maxDifficultyBits
  genesisMin : p.minDifficultyBits ≤ p.genesisDifficultyBits
  genesisMax : p.genesisDifficultyBits ≤ p.maxDifficultyBits
  medianTimePastWindow : 0 < p.medianTimePastWindow
  maxTimeDrift : 0 < p.maxTimeDrift
  maxBlockSize : p.maxBlockSize ≠ 0

theorem validateConsensusParams_ok_iff {p : ConsensusParams} : validateConsensusParams p = .ok () ↔ ValidParams p := by
  simp only [validateConsensusParams, unit_bind_eq_ok, failIf_eq_ok, not_or, Int64.not_le, UInt32.not_lt]
  constructor
  · rintro ⟨h1, h2, h3, h4, h5, h6, h7, ⟨h8, h9⟩, h10, h11, h12⟩
    exact ⟨h1, h2, h3, h4, h6, h7, h8, h9, h10, h11, h12⟩
  · rintro ⟨h1, h2, h3, h4, h6, h7, h8, h9, h10, h11, h12⟩
    have h5 : p.maxDifficultyBits ≠ 0 := by
      intro h0
      rw [h0] at h7
      exact h4 (UInt32.le_zero_iff.mp h7)
    exact ⟨h1, h2, h3, h4, h5, h6, h7, ⟨h8, h9⟩, h10, h11, h12⟩

def parseConsensusParams (raw : Option ConsensusParamsJSON) : Result ConsensusParams := do
  let aux ← required "genesis consensusParams is required" raw
  let difficultyEnable ← requireParam "difficultyEnable" aux.difficultyEnable
  let merkleEnable ← requireParam "merkleEnable" aux.merkleEnable
  let binaryEncodingEnable ← requireParam "binaryEncodingEnable" aux.binaryEncodingEnable
  let targetMs ← pickInt64 "difficultyTarget" [aux.difficultyTargetMs, toMillis aux.difficultyTargetSpacing]
  let window ← pickInt "difficultyWindow" [aux.difficultyWindow, aux.difficultyWindowSize, aux.difficultyAdjustmentInterval]
  let maxStep ← pickUint32 "difficultyMaxStepBits" [aux.difficultyMaxStepBits, aux.difficultyMaxStep]
  let minBits ← requireParam "difficultyMinBits" aux.minDifficultyBits
  let maxBits ← requireParam "difficultyMaxBits" aux.maxDifficultyBits
  let genesisBits ← requireParam "genesisDifficultyBits" aux.genesisDifficultyBits
  let mtpWindow ← requireParam "medianTimePastWindow" aux.medianTimePastWindow
  let maxTimeDrift ← requireParam "maxTimeDrift" aux.maxTimeDrift
  let maxBlockSize ← requireParam "maxBlockSize" aux.maxBlockSize
  let merkleHeight ← requireParam "merkleActivationHeight" aux.merkleActivationHeight
  let binaryHeight ← requireParam "binaryEncodingActivationHeight" aux.binaryEncodingActivationHeight
  let p : ConsensusParams :=
    { difficultyEnable, targetBlockTime := targetMs * 1000000, difficultyWindow := window, difficultyMaxStep := maxStep
      minDifficultyBits := minBits, maxDifficultyBits := maxBits, genesisDifficultyBits := genesisBits
      medianTimePastWindow := mtpWindow, maxTimeDrift, maxBlockSize, merkleEnable, merkleActivationHeight := merkleHeight
      binaryEncodingEnable, binaryEncodingActivationHeight := binaryHeight }
  validateConsensusParams p
  .ok p

/-! ## The configuration -/

variable (C : Crypto)

def validateGenesisMinerAddress (addr : Bytes) : Result Unit :=
  if addressPrefix <+: addr then validateAddress C addr
  else do
    let b ← (hexDecode addr).wrap "invalid hex: "
    failIf (b.length ≠ 32) s!"raw address must be 32 bytes, got {b.length}"

def normalizeGenesisAddress (addr : Bytes) : Bytes :=
  if addressPrefix <+: addr then addr else generateAddressFromRawHex C addr

/-- `LoadGenesisConfig`, on the decoded file. -/
def loadGenesisConfig (raw : GenesisConfigJSON) : Result GenesisConfig := do
  failIf (raw.chainID = 0) "genesis chainId must be > 0"
  failIf (raw.timestamp ≤ 0) "genesis timestamp must be > 0"
  failIf (raw.initialSupply = 0) "genesis initialSupply must be > 0"
  (validateGenesisMinerAddress C raw.genesisMinerAddress).wrap "invalid genesisMinerAddress: "
  let policy ← parseMonetaryPolicy raw.monetaryPolicy
  let consensus ← parseConsensusParams raw.consensusParams
  .ok { network := raw.network, chainID := raw.chainID, timestamp := raw.timestamp
        genesisMinerAddress := normalizeGenesisAddress C raw.genesisMinerAddress, initialSupply := raw.initialSupply
        genesisMessage := raw.genesisMessage, monetaryPolicy := policy
        consensusParams := { consensus with monetaryPolicy := policy } }

theorem validParams_of_parse {raw : Option ConsensusParamsJSON} {p : ConsensusParams} (h : parseConsensusParams raw = .ok p) :
    ValidParams p := by
  unfold parseConsensusParams at h
  iterate 15 obtain ⟨_, -, h⟩ := bind_eq_ok.mp h
  obtain ⟨_, hvalid, h⟩ := bind_eq_ok.mp h
  cases h
  exact validateConsensusParams_ok_iff.mp hvalid

theorem validate_of_parseMonetaryPolicy {raw : Option MonetaryPolicyJSON} {p : MonetaryPolicy}
    (h : parseMonetaryPolicy raw = .ok p) : p.validate = .ok () := by
  unfold parseMonetaryPolicy at h
  iterate 4 obtain ⟨_, -, h⟩ := bind_eq_ok.mp h
  obtain ⟨_, hvalid, h⟩ := bind_eq_ok.mp h
  cases h
  exact hvalid

structure ValidConfig (cfg : GenesisConfig) : Prop where
  chainID : cfg.chainID ≠ 0
  timestamp : 0 < cfg.timestamp
  genesisMinerAddress : addressPrefix <+: cfg.genesisMinerAddress
  initialSupply : cfg.initialSupply ≠ 0
  monetaryPolicy : cfg.monetaryPolicy.validate = .ok ()
  samePolicy : cfg.consensusParams.monetaryPolicy = cfg.monetaryPolicy
  consensusParams : ValidParams cfg.consensusParams

section

variable {C : Crypto} {raw : GenesisConfigJSON} {cfg : GenesisConfig}

theorem validateAddress_normalizeGenesisAddress {addr : Bytes} (h : validateGenesisMinerAddress C addr = .ok ()) :
    validateAddress C (normalizeGenesisAddress C addr) = .ok () := by
  unfold normalizeGenesisAddress
  unfold validateGenesisMinerAddress at h
  split
  · rename_i hneo
    rwa [if_pos hneo] at h
  · rename_i hneo
    rw [if_neg hneo] at h
    obtain ⟨b, hb, hlen⟩ := bind_eq_ok.mp h
    rw [Result.wrap_eq_ok] at hb
    rw [failIf_eq_ok, not_not] at hlen
    rw [generateAddressFromRawHex, hb]
    simp only [hlen, ne_eq, not_true_eq_false, if_false]
    exact validateAddress_encodeAddress C (List.cons_ne_nil _ _)

theorem valid_of_load (h : loadGenesisConfig C raw = .ok cfg) : ValidConfig cfg ∧ validateAddress C cfg.genesisMinerAddress = .ok () := by
  unfold loadGenesisConfig at h
  obtain ⟨_, hchain, h⟩ := bind_eq_ok.mp h
  obtain ⟨_, htime, h⟩ := bind_eq_ok.mp h
  obtain ⟨_, hsupply, h⟩ := bind_eq_ok.mp h
  obtain ⟨_, haddr, h⟩ := bind_eq_ok.mp h
  obtain ⟨policy, hpolicy, h⟩ := bind_eq_ok.mp h
  obtain ⟨p, hp, h⟩ := bind_eq_ok.mp h
  cases h
  have haddr := validateAddress_normalizeGenesisAddress (Result.wrap_eq_ok.mp haddr)
  obtain ⟨h1, h2, h3, h4, h5, h6, h7, h8, h9, h10, h11⟩ := validParams_of_parse hp
  exact ⟨⟨failIf_eq_ok.mp hchain, Int64.not_le.mp (failIf_eq_ok.mp htime), prefix_of_validateAddress haddr, failIf_eq_ok.mp hsupply,
    validate_of_parseMonetaryPolicy hpolicy, rfl, ⟨h1, h2, h3, h4, h5, h6, h7, h8, h9, h10, h11⟩⟩, haddr⟩

theorem validConfig_of_load (h : loadGenesisConfig C raw = .ok cfg) : ValidConfig cfg := (valid_of_load h).1

end

def genesisMessageOrDefault (cfg : GenesisConfig) : Bytes :=
  if cfg.genesisMessage ≠ [] then cfg.genesisMessage else str s!"genesis allocation (supply={cfg.initialSupply})"

/-! ## The genesis block -/

def genesisTemplate (cfg : GenesisConfig) (consensus : ConsensusParams) : Block :=
  let minerAddr :=
    if addressPrefix <+: cfg.genesisMinerAddress then cfg.genesisMinerAddress
    else generateAddressFromRawHex C cfg.genesisMinerAddress
  { version := blockVersionForHeight consensus 0, height := 0, timestampUnix := cfg.timestamp
    difficultyBits := consensus.genesisDifficultyBits, minerAddress := minerAddr
    transactions :=
      [{ type := .coinbase, chainID := cfg.chainID, toAddress := minerAddr, amount := cfg.initialSupply
         data := genesisMessageOrDefault cfg }] }

/-- `BuildGenesisBlock`; `none` when the search for a nonce does not return. -/
def buildGenesisBlock (cfg : GenesisConfig) (consensus : ConsensusParams) : Option (Result Block) :=
  let genesis := genesisTemplate C cfg consensus
  match powRun C consensus genesis with
  | none => none
  | some (.error e) => some (.error e)
  | some (.ok (nonce, hash)) => some (.ok { genesis with nonce := nonce, hash := some hash })

/-- `ensureBlockHash`: the hash of the header, and the block with its hash filled in. -/
def ensureBlockHash (b : Block) (consensus : ConsensusParams) : Result (Bytes × Block) := do
  let header ← b.headerBytesForConsensus C consensus b.nonce
  let sum := C.sha256 header
  .ok (sum, if b.hash.bytes.length = 0 then { b with hash := some sum } else b)

/-- The checks of `ValidateGenesisBlock` on the only transaction of a genesis block. -/
def validateGenesisCoinbase (cb : Transaction) (cfg : GenesisConfig) : Result Unit := do
  failIf (cb.type ≠ .coinbase) "genesis tx must be coinbase"
  failIf (cb.chainID ≠ cfg.chainID) s!"genesis coinbase chainId mismatch: {cb.chainID} != {cfg.chainID}"
  failIf (cb.toAddress ≠ cfg.genesisMinerAddress)
    s!"genesis coinbase toAddress mismatch: {text cb.toAddress} != {text cfg.genesisMinerAddress}"
  failIf (cb.amount ≠ cfg.initialSupply) s!"genesis supply mismatch: {cb.amount} != {cfg.initialSupply}"
  failIf (cb.data ≠ genesisMessageOrDefault cfg)
    s!"genesis message mismatch: \"{text cb.data}\" != \"{text (genesisMessageOrDefault cfg)}\""

/-- `ValidateGenesisBlock`. It fills in a missing hash, so it returns the block. -/
def validateGenesisBlock (b : Block) (cfg : GenesisConfig) (consensus : ConsensusParams) : Result Block := do
  failIf (b.height ≠ 0) s!"invalid genesis height: {b.height}"
  failIf (b.prevHash.bytes.length ≠ 0) "invalid genesis prevHash"
  failIf (b.version ≠ blockVersionForHeight consensus 0) s!"invalid genesis version: {b.version}"
  failIf (b.timestampUnix ≠ cfg.timestamp) s!"genesis timestamp mismatch: {b.timestampUnix} != {cfg.timestamp}"
  failIf (b.minerAddress ≠ cfg.genesisMinerAddress)
    s!"genesis miner mismatch: {text b.minerAddress} != {text cfg.genesisMinerAddress}"
  failIf (b.difficultyBits ≠ consensus.genesisDifficultyBits)
    s!"genesis difficulty mismatch: {b.difficultyBits} != {consensus.genesisDifficultyBits}"
  match b.transactions with
  | [cb] => validateGenesisCoinbase cb cfg
  | _ => .error "genesis must contain exactly one transaction"
  let ok ← powValidate C consensus b
  failIf (ok = false) "invalid genesis pow"
  let (_, b) ← ensureBlockHash C b consensus
  .ok b

end NeoCoin
