import NeoCoin.Internal.LightClient
import NeoCoin.Lib.MerkleLift
import Mathlib.Data.List.GetD

/-!
# Inclusion proofs for the light client

`CreateMerkleProof` leaves out the levels on which a node has no sibling, and `VerifyMerkleProof` counts only the steps it is given.
-/

namespace NeoCoin.Internal

open GoLib GoLib.MerkleLift List

variable {C : Crypto} {txs : List Transaction} {target : Transaction} {i : Nat}

/-! ## The two functions over the tree -/

def joinHashes (C : Crypto) (x y : Bytes) : Bytes := hash256 C (x ++ y)

def txHashes (C : Crypto) (txs : List Transaction) : List Bytes := (txs.map (txIDOf C)).map (hash256 C)

/-- The root of transactions by the rule of `buildMerkleProof`, in hexadecimal. -/
def spvRoot (C : Crypto) (txs : List Transaction) : Bytes :=
  hexEncode ((loop (joinHashes C) txs.length (txHashes C txs)).headD [])

theorem nextLevel_eq_up (C : Crypto) (level : List Bytes) : nextLevel C level = up (joinHashes C) level := by
  induction level using List.twoStepInduction with
  | nil => rfl
  | singleton x => rfl
  | cons_cons x y rest ih _ =>
    rw [nextLevel, ih]
    rfl

theorem proofStep_eq {level : List Bytes} {idx : Nat} (h : idx < level.length) :
    proofStep level idx = ((sibling level idx).toList).map hexEncode := by
  have hat : ∀ {k : Nat}, k < level.length → level[k]? = some (level.getD k []) := by
    intro k hk
    rw [List.getElem?_eq_getElem hk, getD_eq_getElem _ _ hk]
  unfold proofStep sibling
  split
  · split
    · rename_i hnext
      rw [hat hnext]
      rfl
    · rename_i hend
      rw [List.getElem?_eq_none (by omega)]
      rfl
  · rw [hat (by omega)]
    rfl

theorem buildMerkleProofLoop_eq (C : Crypto) {n : Nat} {level : List Bytes} {idx : Nat} (h : idx < level.length) :
    buildMerkleProofLoop C n level idx = (branch (joinHashes C) n level idx).map hexEncode := by
  induction n generalizing level idx with
  | zero => rfl
  | succ n ih =>
    unfold buildMerkleProofLoop branch
    split
    · have hhalf : idx / 2 < (up (joinHashes C) level).length := by
        rw [length_up]
        omega
      rw [proofStep_eq h, nextLevel_eq_up, ih hhalf, map_append]
    · rfl

theorem hexDecodeStart_hexEncode (b : Bytes) : hexDecodeStart (hexEncode b) = b := by
  induction b with
  | nil => rfl
  | cons c rest ih =>
    obtain ⟨x, y, hx, hy, hxy⟩ := fromHexChar_hexDigit c
    simp only [hexEncode, hexDecodeStart, hx, hy, hxy, ih]

theorem verifyMerkleProofLoop_eq (C : Crypto) (sibs : List Bytes) (hash : Bytes) (idx : Nat) :
    verifyMerkleProofLoop C (sibs.map hexEncode) hash idx = climb (joinHashes C) sibs hash idx := by
  induction sibs generalizing hash idx with
  | nil => rfl
  | cons s rest ih =>
    have hmod : (idx : Int).tmod 2 = ((idx % 2 : Nat) : Int) := rfl
    have hdiv : (idx : Int).tdiv 2 = ((idx / 2 : Nat) : Int) := rfl
    simp only [map_cons, verifyMerkleProofLoop, hexDecodeStart_hexEncode, hmod, hdiv, ih, climb, beside, Nat.cast_eq_zero]
    split
    · rfl
    · rfl

theorem findIdx?_txID (hi : txs[i]? = some target)
    (hdist : (txs.map (txIDOf C)).Nodup) : txs.findIdx? (fun tx => txIDOf C tx = txIDOf C target) = some i := by
  obtain ⟨hlt, rfl⟩ := List.getElem?_eq_some_iff.mp hi
  rw [List.findIdx?_eq_some_iff_getElem]
  refine ⟨hlt, by simp, ?_⟩
  intro j hj
  have hne := nodup_iff_getElem?_ne_getElem?.mp hdist j i hj (by rw [length_map]; exact hlt)
  rw [List.getElem?_map, List.getElem?_map, List.getElem?_eq_getElem hlt, List.getElem?_eq_getElem (hj.trans hlt)] at hne
  simpa using hne

theorem createMerkleProof_eq (hi : txs[i]? = some target) (hdist : (txs.map (txIDOf C)).Nodup) : createMerkleProof C txs target = some
      { txIndex := i, txHash := txIDOf C target
        proof := (branch (joinHashes C) txs.length (txHashes C txs) i).map hexEncode } := by
  have hlt := lt_of_getElem? hi
  have hhashes : (txs.map fun tx => hash256 C (txIDOf C tx)) = txHashes C txs := by
    rw [txHashes, map_map]
    rfl
  have hlength : (txHashes C txs).length = txs.length := by simp [txHashes]
  simp only [createMerkleProof, findIdx?_txID hi hdist, hhashes, buildMerkleProof, hlength]
  rw [buildMerkleProofLoop_eq C (by rw [hlength]; exact hlt)]

/-! ## What is hashed -/

/-- The pairs that are joined in the tree of some transactions and on the way up from one of them. -/
def joinedPairs (C : Crypto) (txs : List Transaction) (target : Transaction) (i : Nat) : List (Bytes × Bytes) :=
  treePairs (joinHashes C) txs.length (txHashes C txs) ++
    climbPairs (joinHashes C) (branch (joinHashes C) txs.length (txHashes C txs) i) (hash256 C (txIDOf C target)) i

def joinedMessages (C : Crypto) (txs : List Transaction) (target : Transaction) (i : Nat) : List Bytes :=
  (joinedPairs C txs target i).map fun p => p.1 ++ p.2

theorem joinedPairs_length : ∀ p ∈ joinedPairs C txs target i, p.1.length = 32 ∧ p.2.length = 32 := by
  have hleaves : ∀ x ∈ txHashes C txs, x.length = 32 := by
    intro x hx
    obtain ⟨id, -, rfl⟩ := mem_map.mp hx
    exact C.sha256_length id
  have hnode : ∀ x y : Bytes, (joinHashes C x y).length = 32 := fun x y => C.sha256_length (x ++ y)
  intro p hp
  rcases mem_append.mp hp with hp | hp
  · exact forall_treePairs hnode hleaves p hp
  · exact forall_climbPairs hnode (forall_branch hnode hleaves) (C.sha256_length _) p hp

theorem apart_of_collisionFree (hcf : C.CollisionFreeOn (txs.map (txIDOf C) ++ joinedMessages C txs target i))
    (hid : ∀ id ∈ txs.map (txIDOf C), id ∉ joinedMessages C txs target i) :
    Apart (hash256 C) (joinHashes C) (txs.map (txIDOf C)) (joinedPairs C txs target i) := by
  have hmessage : ∀ p ∈ joinedPairs C txs target i, p.1 ++ p.2 ∈ joinedMessages C txs target i := fun p hp =>
    mem_map.mpr ⟨p, hp, rfl⟩
  refine ⟨?_, ?_, ?_⟩
  · intro m hm m' hm' heq
    exact hcf m (mem_append_left _ hm) m' (mem_append_left _ hm') heq
  · intro p hp q hq heq
    have hsame := hcf _ (mem_append_right _ (hmessage p hp)) _ (mem_append_right _ (hmessage q hq)) heq
    obtain ⟨h₁, h₂⟩ := append_inj hsame ((joinedPairs_length p hp).1.trans (joinedPairs_length q hq).1.symm)
    exact Prod.ext h₁ h₂
  · intro m hm p hp heq
    have hsame := hcf m (mem_append_left _ hm) _ (mem_append_right _ (hmessage p hp)) heq
    exact hid m hm (hsame ▸ hmessage p hp)

/-! ## Acceptance -/

theorem branch_ne_nil_of_paired {n : Nat} {l : List Bytes} (hi : i < l.length) (hlong : 1 < l.length)
    (h : Paired (n + 1) l.length i) : branch (joinHashes C) (n + 1) l i ≠ [] := by
  obtain ⟨hsib, -⟩ := h hlong
  rw [branch, if_pos hlong]
  cases hs : sibling l i with
  | none =>
    obtain ⟨heven, hlast⟩ := (sibling_eq_none_iff hi).mp hs
    have := hsib heven
    omega
  | some s => exact cons_ne_nil _ _

/-- The proof of a transaction is accepted exactly when there are at least two transactions and each node on the way from this one has a
sibling. No two of the hashed messages collide, and no id is the message of a pair. -/
theorem verifyMerkleProof_accepts_iff (C : Crypto) (txs : List Transaction) (target : Transaction) (i : Nat)
    (hi : txs[i]? = some target) (hdist : (txs.map (txIDOf C)).Nodup)
    (hcf : C.CollisionFreeOn (txs.map (txIDOf C) ++ joinedMessages C txs target i))
    (hid : ∀ id ∈ txs.map (txIDOf C), id ∉ joinedMessages C txs target i) :
    verifyMerkleProof C (createMerkleProof C txs target) (spvRoot C txs) = true ↔
      2 ≤ txs.length ∧ Paired txs.length txs.length i := by
  have hlt := lt_of_getElem? hi
  have hlength : (txHashes C txs).length = txs.length := by simp [txHashes]
  have hroot : ∃ r, loop (joinHashes C) txs.length (txHashes C txs) = [r] := by
    refine loop_singleton ?_ (by omega)
    rw [← length_pos_iff]
    omega
  obtain ⟨r, hr⟩ := hroot
  have hid' : (txs.map (txIDOf C))[i]? = some (txIDOf C target) := by
    rw [List.getElem?_map, hi]
    rfl
  have hiff := climb_branch_eq_iff hdist (apart_of_collisionFree hcf hid) (fun p hp => mem_append_left _ hp)
    (fun p hp => mem_append_right _ hp) hid' hr
  rw [length_map] at hiff
  rw [createMerkleProof_eq hi hdist]
  simp only [verifyMerkleProof, map_eq_nil_iff, spvRoot, hr, headD_cons, verifyMerkleProofLoop_eq, hexEncode_inj]
  by_cases hlong : 2 ≤ txs.length
  · by_cases hpaired : Paired txs.length txs.length i
    · have hne : branch (joinHashes C) txs.length (txHashes C txs) i ≠ [] := by
        obtain ⟨n, hn⟩ : ∃ n, txs.length = n + 1 := ⟨txs.length - 1, by omega⟩
        rw [← hlength] at hpaired hlt hn
        rw [← hlength, hn]
        rw [hn] at hpaired
        refine branch_ne_nil_of_paired hlt (by omega) ?_
        rw [hn]
        exact hpaired
      rw [if_neg hne, decide_eq_true_eq]
      exact ⟨fun _ => ⟨hlong, hpaired⟩, fun _ => hiff.mpr hpaired⟩
    · have hmiss := fun h => hpaired (hiff.mp h)
      simp only [hpaired, and_false, iff_false, Bool.not_eq_true]
      split
      · rfl
      · exact decide_eq_false hmiss
  · have hshort : branch (joinHashes C) txs.length (txHashes C txs) i = [] := by
      obtain rfl : i = 0 := by omega
      obtain ⟨n, hn⟩ : ∃ n, txs.length = n + 1 := ⟨0, by omega⟩
      rw [hn, branch, if_neg (by omega)]
    simp [hshort, hlong]

namespace Sample

def reward (amount : UInt64) : Transaction := { type := .coinbase, amount }

theorem reward_txIDs :
    txIDOf (goCrypto []) (reward 1) = hexEncode (beBytes 32 0x197a8315dadd02fe6a7e2eda23474591d43cb2cd6c21aae89ec0f02639c4123c) ∧
      txIDOf (goCrypto []) (reward 2) = hexEncode (beBytes 32 0x5603c6e0a82d4dac4a619dce00e5d8c7614c44c475047d6c7bd896d860143909) ∧
      txIDOf (goCrypto []) (reward 3) = hexEncode (beBytes 32 0x3dd4b85aa5b6873dd5ef5e7d4d8b5b4361c297280460b130321496427ac018cd) := by
  simp only [goCrypto_eq]
  decide +kernel

end Sample

open Internal.Sample

/-- The first of two transactions. -/
theorem verifyMerkleProof_accepts_first : verifyMerkleProof (goCrypto []) (createMerkleProof (goCrypto []) [reward 1, reward 2] (reward 1))
      (spvRoot (goCrypto []) [reward 1, reward 2]) = true := by
  obtain ⟨h₁, h₂, -⟩ := reward_txIDs
  refine (verifyMerkleProof_accepts_iff (goCrypto []) _ (reward 1) 0 rfl ?_ ?_ ?_).mpr ⟨le_rfl, by decide⟩
  · simp only [map_cons, map_nil, h₁, h₂]
    decide
  · simp only [joinedMessages, joinedPairs, txHashes, map_cons, map_nil, h₁, h₂]
    rw [goCrypto_eq]
    decide +kernel
  · simp only [joinedMessages, joinedPairs, txHashes, map_cons, map_nil, h₁, h₂]
    rw [goCrypto_eq]
    decide +kernel

/-- The only transaction of a list, and the last one of three, are in the tree, and their proofs are not accepted. -/
theorem verifyMerkleProof_refuses : verifyMerkleProof (goCrypto []) (createMerkleProof (goCrypto []) [reward 1] (reward 1))
        (spvRoot (goCrypto []) [reward 1]) = false ∧
      ([reward 1, reward 2, reward 3].map (txIDOf (goCrypto []))).Nodup ∧
      verifyMerkleProof (goCrypto [])
        (createMerkleProof (goCrypto []) [reward 1, reward 2, reward 3] (reward 3))
        (spvRoot (goCrypto []) [reward 1, reward 2, reward 3]) = false := by
  obtain ⟨h₁, h₂, h₃⟩ := reward_txIDs
  have hnodup : ([reward 1, reward 2, reward 3].map (txIDOf (goCrypto []))).Nodup := by
    simp only [map_cons, map_nil, h₁, h₂, h₃]
    decide
  rw [@createMerkleProof_eq _ [reward 1] _ 0 rfl (nodup_singleton _),
    @createMerkleProof_eq _ [reward 1, reward 2, reward 3] _ 2 rfl hnodup]
  refine ⟨rfl, hnodup, ?_⟩
  simp only [spvRoot, txHashes, map_cons, map_nil, h₁, h₂, h₃]
  rw [goCrypto_eq]
  decide +kernel

end NeoCoin.Internal
