import NeoCoin.Forks

/-!
# What the header of a block determines

Two blocks with one header agree in what the rules read (`SameHeader`). Every block that the node builds or checks has the digest of its
header as its hash (`Hashed`), so the same holds of two blocks with one hash.
-/

namespace NeoCoin

open GoLib List

variable {C : Crypto} {p : ConsensusParams} {bs : List Block} {b b' : Block} {nonce nonce' : UInt64}
  {header hash : Bytes} {cfg : GenesisConfig} {σ : Type}

def headerMessages (C : Crypto) (p : ConsensusParams) (bs : List Block) : List Bytes :=
  bs.filterMap fun b => (b.headerBytesForConsensus C p b.nonce).toOption

/-- No two headers of these blocks share a digest, and none has that of 32 zeros, which is how a binary header writes that there is no
previous block. -/
structure HeadersDistinct (C : Crypto) (p : ConsensusParams) (bs : List Block) : Prop where
  collisionFree : C.CollisionFreeOn (headerMessages C p bs)
  nonzero : ∀ m ∈ headerMessages C p bs, C.sha256 m ≠ List.replicate 32 0

theorem HeadersDistinct.of_subset {bs' : List Block} (h : HeadersDistinct C p bs') (hsub : ∀ b ∈ bs, b ∈ bs') : HeadersDistinct C p bs := by
  have hmem : ∀ m ∈ headerMessages C p bs, m ∈ headerMessages C p bs' := by
    intro m hm
    obtain ⟨b, hb, hheader⟩ := mem_filterMap.mp hm
    exact mem_filterMap.mpr ⟨b, hsub b hb, hheader⟩
  exact ⟨h.collisionFree.mono hmem, fun m hm => h.nonzero m (hmem m hm)⟩

theorem HeadersDistinct.mono {bs' : List Block} (h : HeadersDistinct C p (bs ++ bs')) : HeadersDistinct C p bs :=
  h.of_subset fun _ hb => mem_append_left _ hb

/-- Two blocks agree in what a header says about the place of a block in the chain, its time and its work. -/
structure SameHeader (b b' : Block) : Prop where
  version : b.version = b'.version
  height : b.height = b'.height
  timestampUnix : b.timestampUnix = b'.timestampUnix
  prevHash : headerPrev b.prevHash.bytes = headerPrev b'.prevHash.bytes
  difficultyBits : b.difficultyBits = b'.difficultyBits

namespace HeaderAux

/-! ## What a header says -/

theorem headerPrev_length (prevHash : Bytes) : (headerPrev prevHash).length = 32 := by
  unfold headerPrev
  split
  · assumption
  · simp

theorem binaryHeader_of_ok (h : blockHeaderPreimageBinaryV1 C b nonce p = .ok header) :
    ∃ root rest, rest.length = 40 ∧ header = 0x01 :: (leBytes 4 b.version.toNat ++ (leBytes 8 b.height.toNat ++
      (leBytes 8 b.timestampUnix.toUInt64.toNat ++ (headerPrev b.prevHash.bytes ++ (root ++ (leBytes 4 b.difficultyBits.toNat ++
        rest)))))) := by
  unfold blockHeaderPreimageBinaryV1 at h
  iterate 3 obtain ⟨_, -, h⟩ := bind_eq_ok.mp h
  obtain ⟨miner, hminer, h⟩ := bind_eq_ok.mp h
  obtain ⟨root, -, h⟩ := bind_eq_ok.mp h
  have hlen := decodeHex32_length (Result.orError_eq_ok.mp hminer)
  refine ⟨root, miner ++ leBytes 8 nonce.toNat, by simp [hlen], ?_⟩
  rw [← Except.ok.inj h]
  simp [binaryEncodingVersionV1]

theorem sameHeader_of_binary
    (h : blockHeaderPreimageBinaryV1 C b nonce p = .ok header) (h' : blockHeaderPreimageBinaryV1 C b' nonce' p = .ok header) :
    SameHeader b b' := by
  obtain ⟨root, rest, hrest, heq⟩ := binaryHeader_of_ok h
  obtain ⟨root', rest', hrest', heq'⟩ := binaryHeader_of_ok h'
  have hsame := (List.cons.inj (heq.symm.trans heq')).2
  obtain ⟨hversion, hsame⟩ := append_inj hsame (by simp)
  obtain ⟨hheight, hsame⟩ := append_inj hsame (by simp)
  obtain ⟨htime, hsame⟩ := append_inj hsame (by simp)
  obtain ⟨hprev, hsame⟩ := append_inj hsame (by simp [headerPrev_length])
  -- the commitment is cut off from behind
  obtain ⟨-, hsame⟩ := append_inj' hsame (by simp [hrest, hrest'])
  obtain ⟨hbits, -⟩ := append_inj hsame (by simp)
  exact ⟨leBytes_uint32_inj hversion, leBytes_uint64_inj hheight, leBytes_int64_inj htime, hprev, leBytes_uint32_inj hbits⟩

theorem headerJSON_eq (b : Block) (nonce : UInt64) (rootField : String) (root : Bytes) : ∃ rest, headerJSON b nonce rootField root =
      0x7b :: (Json.field "version" (Json.nat b.version.toNat) ++ Json.comma ::
        (Json.field "height" (Json.nat b.height.toNat) ++ Json.comma ::
          (Json.field "timestampUnix" (Json.int b.timestampUnix.toInt) ++ Json.comma ::
            (Json.field "prevHashB64" (Json.string (base64Encode b.prevHash.bytes)) ++ Json.comma ::
              (Json.field rootField (Json.string (hexEncode root)) ++ Json.comma ::
                (Json.field "difficultyBits" (Json.nat b.difficultyBits.toNat) ++ Json.comma :: rest)))))) := by
  unfold headerJSON Json.object
  simp only [Json.commaSep_cons_cons, cons_append, append_assoc]
  exact ⟨_, rfl⟩

theorem isPlain_hexEncode (b : Bytes) : ∀ c ∈ hexEncode b, Json.isPlain c = true :=
  fun c hc => Json.isPlain_of_fromHexChar (hexDecode_digits (hexDecode_hexEncode b) c hc)

theorem headerJSON_inj (rootField : UInt32 → String) {root root' : Bytes}
    (h : headerJSON b nonce (rootField b.version) root = headerJSON b' nonce' (rootField b'.version) root') :
    SameHeader b b' ∧ b.prevHash.bytes = b'.prevHash.bytes := by
  obtain ⟨rest, heq⟩ := headerJSON_eq b nonce (rootField b.version) root
  obtain ⟨rest', heq'⟩ := headerJSON_eq b' nonce' (rootField b'.version) root'
  rw [heq, heq'] at h
  have hplain : ∀ x : Bytes, ∀ c ∈ base64Encode x, Json.isPlain c = true :=
    fun x c hc => Json.isPlain_of_isBase64 (base64Encode_chars x c hc)
  obtain ⟨hversion, -, h⟩ := decimal_append_inj Json.not_isDecimal_comma Json.not_isDecimal_comma
    (Json.field_append_inj (List.cons.inj h).2)
  obtain ⟨hheight, -, h⟩ := decimal_append_inj Json.not_isDecimal_comma Json.not_isDecimal_comma (Json.field_append_inj h)
  obtain ⟨htime, h⟩ := Json.int_append_inj (Json.field_append_inj h)
  obtain ⟨hprev, h⟩ := Json.string_append_inj (hplain _) (hplain _) (Json.field_append_inj h)
  have hversion := UInt32.toNat_inj.mp hversion
  have hprev := base64Encode_inj hprev
  rw [hversion] at h
  obtain ⟨-, h⟩ := Json.string_append_inj (isPlain_hexEncode _) (isPlain_hexEncode _) (Json.field_append_inj (List.cons.inj h).2)
  obtain ⟨hbits, -⟩ := decimal_append_inj Json.not_isDecimal_comma Json.not_isDecimal_comma
    (Json.field_append_inj (List.cons.inj h).2)
  exact ⟨⟨hversion, UInt64.toNat_inj.mp hheight, Int64.toInt_inj.mp htime, by rw [hprev], UInt32.toNat_inj.mp hbits⟩, hprev⟩

theorem sameHeader_of_ok (h : b.headerBytesForConsensus C p nonce = .ok header) (h' : b'.headerBytesForConsensus C p nonce' = .ok header) :
    SameHeader b b' := by
  -- the two encodings differ in their first byte
  have hmixed : ∀ {x y : Block} {n n' : UInt64} {rootField : String} {root : Bytes},
      blockHeaderPreimageBinaryV1 C x n p = .ok header → headerJSON y n' rootField root = header → False := by
    intro x y n n' rootField root hx hy
    obtain ⟨_, _, -, heq⟩ := binaryHeader_of_ok hx
    obtain ⟨rest', heq'⟩ := headerJSON_eq y n' rootField root
    rw [← hy, heq'] at heq
    exact absurd (List.cons.inj heq).1 (by decide)
  unfold Block.headerBytesForConsensus at h h'
  split at h
  · split at h'
    · exact sameHeader_of_binary h h'
    · obtain ⟨root', -, h'⟩ := bind_eq_ok.mp h'
      exact (hmixed h (Except.ok.inj h')).elim
  · obtain ⟨root, -, h⟩ := bind_eq_ok.mp h
    split at h'
    · exact (hmixed h' (Except.ok.inj h)).elim
    · obtain ⟨root', -, h'⟩ := bind_eq_ok.mp h'
      exact (headerJSON_inj (fun version => if version = 2 then "merkleRootHex" else "txRootHex")
        ((Except.ok.inj h).trans (Except.ok.inj h').symm)).1

/-! ## Blocks with the digest of their header -/

def Hashed (C : Crypto) (p : ConsensusParams) (b : Block) : Prop :=
  ∃ header, b.headerBytesForConsensus C p b.nonce = .ok header ∧ b.hash.bytes = C.sha256 header

theorem Hashed.length (h : Hashed C p b) : b.hash.bytes.length = 32 := by
  obtain ⟨header, -, hhash⟩ := h
  rw [hhash, C.sha256_length]

theorem Hashed.mem_headerMessages (h : Hashed C p b)
    (hb : b ∈ bs) : ∃ header ∈ headerMessages C p bs, b.headerBytesForConsensus C p b.nonce = .ok header ∧
      b.hash.bytes = C.sha256 header := by
  obtain ⟨header, hheader, hhash⟩ := h
  refine ⟨header, mem_filterMap.mpr ⟨b, hb, ?_⟩, hheader, hhash⟩
  rw [hheader]
  rfl

theorem powRunLoop_ok {n : Nat} {start : UInt64} (h : powRunLoop C p b n start = some (.ok (nonce, hash))) :
    ∃ header, b.headerBytesForConsensus C p nonce = .ok header ∧ hash = C.sha256 header ∧ beNat hash < powTarget b := by
  induction n generalizing start with
  | zero => nomatch h
  | succ n ih =>
    unfold powRunLoop at h
    split at h
    · nomatch h
    · rename_i header hheader
      simp only at h
      split at h
      · rename_i hbelow
        cases h
        exact ⟨header, hheader, rfl, hbelow⟩
      · exact ih h

theorem headerBytes_filled (C : Crypto) (p : ConsensusParams) (nonce : UInt64) (hb : b.hash.bytes = []) (hlen : hash.length = 32) :
    Block.headerBytesForConsensus C { b with nonce := nonce, hash := some hash } p nonce = b.headerBytesForConsensus C p nonce := by
  unfold Block.headerBytesForConsensus blockHeaderPreimageBinaryV1
  simp only [GoSlice.bytes_some, hb, hlen, length_nil, ne_eq, not_true_eq_false, and_false, false_and]
  rfl

theorem hashed_of_powRun (hb : b.hash.bytes = [])
    (h : powRun C p b = some (.ok (nonce, hash))) : Hashed C p { b with nonce := nonce, hash := some hash } := by
  obtain ⟨header, hheader, rfl, -⟩ := powRunLoop_ok h
  refine ⟨header, ?_, rfl⟩
  rw [← hheader]
  exact headerBytes_filled C p nonce hb (C.sha256_length header)

theorem powValidate_of_hashed (h : Hashed C p b) (hbelow : beNat b.hash.bytes < powTarget b) : powValidate C p b = .ok true := by
  obtain ⟨header, hheader, hhash⟩ := h
  rw [hhash] at hbelow
  unfold powValidate
  rw [hheader]
  simp [bind, Except.bind, hhash, hbelow]

theorem powValidate_of_powRun (hb : b.hash.bytes = [])
    (h : powRun C p b = some (.ok (nonce, hash))) : powValidate C p { b with nonce := nonce, hash := some hash } = .ok true := by
  obtain ⟨header, -, -, hbelow⟩ := powRunLoop_ok h
  exact powValidate_of_hashed (hashed_of_powRun hb h) hbelow

theorem hashed_of_powValidate (h : powValidate C p b = .ok true) (hhash : b.hash.bytes.length ≠ 0) : Hashed C p b := by
  unfold powValidate at h
  obtain ⟨header, hheader, h⟩ := bind_eq_ok.mp h
  refine ⟨header, hheader, ?_⟩
  by_contra hne
  -- a hash that is there and differs is refused
  simp only [if_pos (And.intro hhash hne)] at h
  exact absurd (Except.ok.inj h) (by simp)

/-- What `AddBlock` establishes of a block before it looks at the chain. -/
structure External (C : Crypto) (p : ConsensusParams) (chainID : UInt64) (b : Block) : Prop where
  height : b.height ≠ 0
  version : b.version = blockVersionForHeight p b.height
  hash : b.hash.bytes.length ≠ 0
  bits : b.difficultyBits ≠ 0
  maxBits : b.difficultyBits ≤ maxDifficultyBits
  pow : powValidate C p b = .ok true
  transactions : ∀ tx ∈ b.transactions, checkBlockTx C p chainID b.height tx = .ok ()

theorem checkExternal_ok_iff {chainID : UInt64} : checkExternal C p chainID b = .ok () ↔ External C p chainID b := by
  unfold checkExternal
  simp only [↓unit_bind_eq_ok, bind_eq_ok, failIf_eq_ok, not_not, forM_eq_ok, UInt32.not_lt, gt_iff_lt, Bool.not_eq_false]
  constructor
  · rintro ⟨h1, h2, h3, h4, h5, ok, h6, rfl, h7⟩
    exact ⟨h1, h2, h3, h4, h5, h6, h7⟩
  · rintro ⟨h1, h2, h3, h4, h5, h6, h7⟩
    exact ⟨h1, h2, h3, h4, h5, true, h6, rfl, h7⟩

theorem External.hashed {chainID : UInt64} (h : External C p chainID b) : Hashed C p b :=
  hashed_of_powValidate h.pow h.hash

/-! ## The genesis block -/

/-- What `ValidateGenesisBlock` establishes of the block it returns. -/
structure IsGenesis (C : Crypto) (cfg : GenesisConfig) (b : Block) : Prop where
  height : b.height = 0
  prevHash : b.prevHash.bytes = []
  version : b.version = blockVersionForHeight cfg.consensusParams 0
  timestamp : b.timestampUnix = cfg.timestamp
  minerAddress : b.minerAddress = cfg.genesisMinerAddress
  bits : b.difficultyBits = cfg.consensusParams.genesisDifficultyBits
  transactions : ∃ cb, b.transactions = [cb] ∧ validateGenesisCoinbase cb cfg = .ok ()
  pow : powValidate C cfg.consensusParams b = .ok true
  hash : b.hash.bytes.length ≠ 0

theorem IsGenesis.hashed (h : IsGenesis C cfg b) : Hashed C cfg.consensusParams b :=
  hashed_of_powValidate h.pow h.hash

theorem ensureBlockHash_of_hash {sum : Bytes} (h : ensureBlockHash C b p = .ok (sum, b')) (hhash : b.hash.bytes.length ≠ 0) : b' = b := by
  unfold ensureBlockHash at h
  obtain ⟨header, -, h⟩ := bind_eq_ok.mp h
  cases h
  exact if_neg hhash

theorem ensureBlockHash_of_hashed (h : Hashed C p b) : ensureBlockHash C b p = .ok (b.hash.bytes, b) := by
  have hlen := h.length
  obtain ⟨header, hheader, hhash⟩ := h
  have hne : ¬b.hash.bytes.length = 0 := by
    rw [hlen]
    decide
  unfold ensureBlockHash
  simp only [hheader, bind, Except.bind, if_neg hne]
  rw [hhash]

theorem isGenesis_of_validate (h : validateGenesisBlock C b cfg cfg.consensusParams = .ok b') : IsGenesis C cfg b' := by
  unfold validateGenesisBlock at h
  obtain ⟨_, hheight, h⟩ := bind_eq_ok.mp h
  obtain ⟨_, hprev, h⟩ := bind_eq_ok.mp h
  obtain ⟨_, hversion, h⟩ := bind_eq_ok.mp h
  obtain ⟨_, htime, h⟩ := bind_eq_ok.mp h
  obtain ⟨_, hminer, h⟩ := bind_eq_ok.mp h
  obtain ⟨_, hbits, h⟩ := bind_eq_ok.mp h
  simp only [failIf_eq_ok, not_not] at hheight hprev hversion htime hminer hbits
  simp only at h
  split at h
  · rename_i cb htxs
    obtain ⟨_, hcb, h⟩ := bind_eq_ok.mp h
    obtain ⟨ok, hpow, h⟩ := bind_eq_ok.mp h
    obtain ⟨_, hok, h⟩ := bind_eq_ok.mp h
    obtain ⟨⟨sum, b1⟩, hensure, h⟩ := bind_eq_ok.mp h
    cases h
    obtain rfl := Bool.eq_true_of_not_eq_false (failIf_eq_ok.mp hok)
    have hprev := length_eq_zero_iff.mp hprev
    unfold ensureBlockHash at hensure
    obtain ⟨header, hheader, hensure⟩ := bind_eq_ok.mp hensure
    cases hensure
    split
    · rename_i hempty
      have hnil := length_eq_zero_iff.mp hempty
      have hbelow : beNat (C.sha256 header) < powTarget b := by
        unfold powValidate at hpow
        rw [hheader] at hpow
        simpa [bind, Except.bind, hnil] using hpow
      have hhashed : Hashed C cfg.consensusParams { b with hash := some (C.sha256 header) } :=
        ⟨header, (headerBytes_filled C _ b.nonce hnil (C.sha256_length header)).trans hheader, rfl⟩
      exact ⟨hheight, hprev, hversion, htime, hminer, hbits, ⟨cb, htxs, hcb⟩, powValidate_of_hashed hhashed hbelow,
        by simp [C.sha256_length]⟩
    · rename_i hhash
      exact ⟨hheight, hprev, hversion, htime, hminer, hbits, ⟨cb, htxs, hcb⟩, hpow, hhash⟩
  · cases h

theorem validateGenesisBlock_of_isGenesis (h : IsGenesis C cfg b) : validateGenesisBlock C b cfg cfg.consensusParams = .ok b := by
  obtain ⟨cb, htxs, hcb⟩ := h.transactions
  unfold validateGenesisBlock
  simp only [bind_eq_ok, failIf_eq_ok, not_not, htxs, hcb]
  refine ⟨(), h.height, (), by rw [h.prevHash]; rfl, (), h.version, (), h.timestamp, (), h.minerAddress, (), h.bits, ?_⟩
  exact ⟨(), trivial, true, h.pow, (), by simp, _, ensureBlockHash_of_hashed h.hashed, rfl⟩

theorem isGenesis_of_build (hcfg : ValidConfig cfg)
    (h : buildGenesisBlock C cfg cfg.consensusParams = some (.ok b)) : IsGenesis C cfg b := by
  have hminer : (genesisTemplate C cfg cfg.consensusParams).minerAddress = cfg.genesisMinerAddress :=
    if_pos hcfg.genesisMinerAddress
  unfold buildGenesisBlock at h
  simp only at h
  split at h
  · cases h
  · cases h
  · rename_i nonce hash hpow
    cases h
    have hhash := hashed_of_powRun rfl hpow
    refine ⟨rfl, rfl, rfl, rfl, hminer, rfl, ⟨_, rfl, ?_⟩, powValidate_of_powRun rfl hpow, by rw [hhash.length]; decide⟩
    simp [validateGenesisCoinbase, hcfg.genesisMinerAddress]

theorem loadGenesis_nil_ok {S : ChainStore σ} {st st' : σ} {path : Path} (h : loadGenesis C S cfg [] st = some (.ok (path, st'))) :
    ∃ g, buildGenesisBlock C cfg cfg.consensusParams = some (.ok g) ∧ path = ⟨[g], cons_ne_nil g []⟩ ∧
      (S.appendCanonical st g).1 = .ok () ∧ st' = (S.putBlock (S.appendCanonical st g).2 g).2 := by
  simp only [loadGenesis] at h
  split at h
  · cases h
  · rename_i built hbuilt
    obtain ⟨g, hg, h⟩ := bind_eq_ok.mp (Option.some.inj h)
    obtain ⟨_, happend, h⟩ := bind_eq_ok.mp h
    obtain ⟨hpath, hst⟩ := Prod.mk.inj (Except.ok.inj h)
    rw [hg] at hbuilt
    exact ⟨g, hbuilt, hpath.symm, happend, hst.symm⟩

theorem loadGenesis_of_isGenesis (S : ChainStore σ) (path : Path) (st : σ)
    (h : IsGenesis C cfg (path.1.head path.2)) : loadGenesis C S cfg path.1 st = some (.ok (path, st)) := by
  obtain ⟨blocks, hne⟩ := path
  cases blocks with
  | nil => exact absurd rfl hne
  | cons first rest =>
    refine congrArg some (bind_eq_ok.mpr ⟨first, validateGenesisBlock_of_isGenesis h, rfl⟩)

theorem isGenesis_of_load {S : ChainStore σ} {blocks : List Block} {st st' : σ}
    {path : Path} (hcfg : ValidConfig cfg) (h : loadGenesis C S cfg blocks st = some (.ok (path, st'))) :
    IsGenesis C cfg (path.1.head path.2) := by
  cases blocks with
  | nil =>
    obtain ⟨g, hbuilt, rfl, -, -⟩ := loadGenesis_nil_ok h
    exact isGenesis_of_build hcfg hbuilt
  | cons first rest =>
    obtain ⟨first', hvalid, h⟩ := bind_eq_ok.mp (Option.some.inj h)
    cases h
    exact isGenesis_of_validate hvalid

end HeaderAux

end NeoCoin
