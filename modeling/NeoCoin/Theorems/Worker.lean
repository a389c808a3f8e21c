import NeoCoin.Internal.Worker
import NeoCoin.Theorems.Locking

/-!
# Solutions of mining workers

The worker of `internal/mining/worker.go` hashes a shorter header than the chain, so that a block it submits is valid only if two
headers have one digest. Its header has two bytes of the nonce, so that after some 65536 rounds the search sees the same headers again.
-/

namespace NeoCoin.Internal.Worker

open GoLib

section

variable {C : Crypto} {b b' : Block}

theorem mineBlockLoop_eq {n : Nat} {nonce : UInt64} (h : mineBlockLoop C b n nonce = some b') :
    b' = { b with hash := some (C.sha256 (prepareHeader b b'.nonce)), nonce := b'.nonce } ∧
      beNat (C.sha256 (prepareHeader b b'.nonce)) ≤ workForDifficultyBits b.difficultyBits := by
  induction n generalizing nonce with
  | zero => cases h
  | succ n ih =>
    simp only [mineBlockLoop] at h
    split at h
    · rename_i hle
      cases h
      exact ⟨rfl, hle⟩
    · exact ih h

theorem workForDifficultyBits_eq (h : 1 ≤ b.difficultyBits ∧ b.difficultyBits ≤ 256) :
    workForDifficultyBits b.difficultyBits = powTarget b.toBlock := by
  have hne : b.difficultyBits ≠ 0 := fun hzero => absurd h.1 (by rw [hzero]; decide)
  have hsub : (256 - b.difficultyBits).toNat = 256 - b.difficultyBits.toNat := UInt32.toNat_sub_of_le _ _ h.2
  rw [workForDifficultyBits, if_neg hne, if_neg (UInt32.not_lt.mpr h.2), powTarget, hsub]

theorem powValidate_mined (p : ConsensusParams) (hbits : 1 ≤ b.difficultyBits ∧ b.difficultyBits ≤ 256) (h : Mines C b b') :
    powValidate C p b' = .ok true ↔ ∃ header, b'.headerBytesForConsensus C p b'.nonce = .ok header ∧
      C.sha256 header = C.sha256 (prepareHeader b b'.nonce) ∧ beNat (C.sha256 header) ≠ powTarget b.toBlock := by
  obtain ⟨n, hn⟩ := h
  obtain ⟨heq, hle⟩ := mineBlockLoop_eq hn
  rw [workForDifficultyBits_eq hbits] at hle
  have hhash : b'.hash.bytes = C.sha256 (prepareHeader b b'.nonce) := by
    rw [heq]
    rfl
  have htarget : powTarget b'.toBlock = powTarget b.toBlock := by
    rw [heq]
    rfl
  rw [powValidate, bind_eq_ok]
  refine exists_congr fun header => and_congr_right fun _ => ?_
  simp only [hhash, htarget, C.sha256_length]
  split
  · rename_i hne
    exact iff_of_false (by simp) fun hsame => hne.2 hsame.1.symm
  · rename_i hsame
    have hsame : C.sha256 (prepareHeader b b'.nonce) = C.sha256 header := by simpa using hsame
    rw [hsame] at hle
    simp [hsame, Nat.lt_iff_le_and_ne, hle]

/-! ## The two headers -/

theorem prepareHeader_length_le (b : Block) (nonce : UInt64) : (prepareHeader b nonce).length ≤ b.prevHash.bytes.length + 9 := by
  have h32 : ∀ x : UInt32, (varint32 x).length ≤ 3 := fun x => by
    unfold varint32
    split <;> simp
  have h64 : ∀ x : UInt64, (varint64 x).length ≤ 3 := fun x => by
    unfold varint64
    split <;> simp
  have hversion := h32 b.version
  have hbits := h32 b.difficultyBits
  have hnonce := h64 nonce
  simp only [prepareHeader, List.length_append, List.length_nil]
  omega

/-- The JSON header has the previous hash as text, which is no shorter than the hash, and the names of its fields. -/
theorem headerJSON_length_gt (b : NeoCoin.Block) (nonce : UInt64) (rootField : String) (root : Bytes) :
    b.prevHash.bytes.length + 9 < (headerJSON b nonce rootField root).length := by
  have hplain := fun c hc => Json.isPlain_of_isBase64 (base64Encode_chars b.prevHash.bytes c hc)
  have hprev : (Json.string (base64Encode b.prevHash.bytes)).length = (b.prevHash.bytes.length + 2) / 3 * 4 + 2 := by
    rw [Json.string_of_isPlain hplain]
    simp [base64Encode_length]
  have hname : (Json.string (str "prevHashB64")).length = 13 := by decide
  rw [headerJSON, Json.object_length]
  simp only [List.map_cons, List.sum_cons, Json.field_length "prevHashB64", hprev, hname, List.length_cons]
  omega

/-- The consensus header is longer than the header of the worker. -/
theorem header_length_gt {p : ConsensusParams} {nonce : UInt64} {header : Bytes} (h : b.headerBytesForConsensus C p nonce = .ok header) :
    b.prevHash.bytes.length + 9 < header.length := by
  unfold Block.headerBytesForConsensus at h
  split at h
  · simp only [blockHeaderPreimageBinaryV1, bind_eq_ok, failIf_eq_ok] at h
    obtain ⟨_, -, _, hprev, _, -, miner, -, root, -, h⟩ := h
    have hfield : (headerPrev b.prevHash.bytes).length = 32 := by
      unfold headerPrev
      split
      · assumption
      · exact List.length_replicate
    rw [← Except.ok.inj h]
    simp only [List.length_append, List.length_cons, leBytes_length, hfield]
    omega
  · obtain ⟨root, -, h⟩ := bind_eq_ok.mp h
    rw [← Except.ok.inj h]
    exact headerJSON_length_gt _ _ _ _

theorem header_ne {p : ConsensusParams} {header : Bytes} (h : Mines C b b')
    (hheader : b'.headerBytesForConsensus C p b'.nonce = .ok header) : header ≠ prepareHeader b b'.nonce := by
  obtain ⟨n, hn⟩ := h
  have hprev : b'.prevHash = b.prevHash := by rw [(mineBlockLoop_eq hn).1]
  rintro rfl
  have hlong := header_length_gt hheader
  have hshort := prepareHeader_length_le b b'.nonce
  rw [hprev] at hlong
  omega

/-! ## The nonces -/

theorem varint64_eq_iff (m n : UInt64) : varint64 m = varint64 n ↔ m = n ∨ 0xFD ≤ m ∧ 0xFD ≤ n ∧ m.toNat % 65536 = n.toNat % 65536 := by
  have hbyte : ∀ x y : UInt64, x.toUInt8 = y.toUInt8 ↔ x.toNat % 256 = y.toNat % 256 := fun x y => by
    rw [← UInt8.toNat_inj, UInt64.toNat_toUInt8, UInt64.toNat_toUInt8]
  have hshift : ∀ x : UInt64, (x >>> 8).toNat = x.toNat / 256 := fun x => by
    simp [UInt64.toNat_shiftRight, Nat.shiftRight_eq_div_pow]
  simp only [varint64, ← UInt64.toNat_inj, UInt64.lt_iff_toNat_lt, UInt64.le_iff_toNat_le, UInt64.reduceToNat]
  split <;> split
  · simp only [List.cons.injEq, and_true, hbyte]
    omega
  · exact iff_of_false (by simp) (by omega)
  · exact iff_of_false (by simp) (by omega)
  · simp only [List.cons.injEq, and_true, true_and, hbyte, hshift]
    omega

end

/-- No template has both: that every block that the worker submits is valid, and that every nonce has its own header. A block that it
submits is valid exactly if the consensus header, which is another one than the worker's, has the same digest, and that is not the target
itself. Two nonces have the same header in the worker exactly when they are one, or both are above 252 and have the same last two bytes. -/
theorem worker_never_valid (C : Crypto) (p : ConsensusParams) (b : Block) (hbits : 1 ≤ b.difficultyBits ∧ b.difficultyBits ≤ 256) :
    ¬((∀ b', Mines C b b' → powValidate C p b' = .ok true) ∧ ∀ m n : UInt64, m ≠ n → prepareHeader b m ≠ prepareHeader b n) ∧
      (∀ b', Mines C b b' → (powValidate C p b' = .ok true ↔
        ∃ header, b'.headerBytesForConsensus C p b'.nonce = .ok header ∧ header ≠ prepareHeader b b'.nonce ∧
          C.sha256 header = C.sha256 (prepareHeader b b'.nonce) ∧ beNat (C.sha256 header) ≠ powTarget b.toBlock)) ∧
      ∀ m n : UInt64, prepareHeader b m = prepareHeader b n ↔ m = n ∨ 0xFD ≤ m ∧ 0xFD ≤ n ∧ m.toNat % 65536 = n.toNat % 65536 := by
  have hnonces : ∀ m n : UInt64,
      prepareHeader b m = prepareHeader b n ↔ m = n ∨ 0xFD ≤ m ∧ 0xFD ≤ n ∧ m.toNat % 65536 = n.toNat % 65536 := by
    intro m n
    rw [← varint64_eq_iff, prepareHeader, prepareHeader, List.append_cancel_left_eq]
  refine ⟨fun h => h.2 253 65789 (by decide) ((hnonces 253 65789).mpr (by decide)), ?_, hnonces⟩
  intro b' hmines
  rw [powValidate_mined p hbits hmines]
  exact exists_congr fun header => and_congr_right fun hheader => (and_iff_right (header_ne hmines hheader)).symm

namespace Sample

open Internal.Sample (crypto node)

def template : Block := { Internal.Sample.block with hash := none }

end Sample

open Internal.Sample

theorem worker_headers_two : prepareHeader Sample.template 252 ≠ prepareHeader Sample.template 65788 ∧
    prepareHeader Sample.template 254 = prepareHeader Sample.template 65790 :=
  have hnonces := (worker_never_valid crypto node.consensus Sample.template (by decide)).2.2
  ⟨fun h => absurd ((hnonces 252 65788).mp h) (by decide), (hnonces 254 65790).mpr (by decide)⟩

/-- The worker finds a nonce for a template of difficulty 1, and the block that it submits is not valid; and two nonces share a header. -/
theorem worker_invalid : (∃ b', Mines crypto Sample.template b' ∧ powValidate crypto node.consensus b' = .ok false) ∧
      prepareHeader Sample.template 253 = prepareHeader Sample.template 65789 := by
  have hmine : (match mineBlockLoop crypto Sample.template 8 0 with
      | some b' => decide (powValidate crypto node.consensus b' = .ok false)
      | none => false) = true := by
    simp only [crypto, goCrypto_eq]
    decide +kernel
  refine ⟨?_, by decide⟩
  split at hmine
  · rename_i b' hb'
    exact ⟨b', ⟨8, hb'⟩, of_decide_eq_true hmine⟩
  · cases hmine

end NeoCoin.Internal.Worker
