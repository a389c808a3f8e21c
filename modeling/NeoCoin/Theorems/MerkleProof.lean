import NeoCoin.MerkleProof
import NeoCoin.Theorems.Commitment

/-!
# Merkle proofs

`merkleProof_complete` and `merkleProof_sound`. The index is not part of what is checked, so that the proof of one leaf is accepted for
every place (`proof_tied_iff`).
-/

namespace NeoCoin

open GoLib List

variable {leaf root : Bytes} {index : Int} {branch leaves ms : List Bytes} {siblingLeft : List Bool}

/-- The messages that are hashed for the Merkle root of a list. -/
def treeMessages (C : Crypto) (leaves : List Bytes) : List Bytes :=
  leaves.map (fun l => 0x00 :: l) ++
    (Merkle.hashedPairs (hashNode C) leaves.length (leaves.map (hashLeaf C))).map fun q => 0x01 :: q.1 ++ q.2

def proofMessages (C : Crypto) (leaf : Bytes) (branch : List Bytes) (siblingLeft : List Bool) : List Bytes :=
  (0x00 :: leaf) :: (Merkle.climbPairs (hashNode C) (hashLeaf C leaf) (branch.zip siblingLeft)).map fun q => 0x01 :: q.1 ++ q.2

namespace MerkleProofAux

open CommitmentAux

variable {C : Crypto}

/-! ## What the loops compute -/

theorem merkleProofLoop_eq (n : Nat) (level : List Bytes) (idx : Nat) (branch : List Bytes) (siblingLeft : List Bool) :
    merkleProofLoop C n level idx branch siblingLeft =
      (branch ++ (Merkle.branch (hashNode C) n level idx).map Prod.fst,
        siblingLeft ++ (Merkle.branch (hashNode C) n level idx).map Prod.snd, Merkle.loop (hashNode C) n level) := by
  induction n generalizing level idx branch siblingLeft with
  | zero => simp [merkleProofLoop, Merkle.branch, Merkle.loop]
  | succ n ih =>
    unfold merkleProofLoop Merkle.branch Merkle.loop
    split
    · simp
    · unfold Merkle.sibling
      dsimp only
      split
      · rw [ih]
        simp only [map_cons, append_assoc, cons_append, nil_append]
        rfl
      · rw [ih]
        simp only [map_cons, append_assoc, cons_append, nil_append]
        rfl

theorem verifyMerkleLoop_ok_iff {cur r : Bytes} {path : List (Bytes × Bool)} :
    verifyMerkleLoop C cur path = .ok r ↔ (∀ s ∈ path, s.1.length = 32) ∧ Merkle.climb (hashNode C) cur path = r := by
  induction path generalizing cur with
  | nil => simp [verifyMerkleLoop, Merkle.climb]
  | cons s path ih =>
    have hnode : (if s.2 then hashNode C s.1 cur else hashNode C cur s.1) =
        hashNode C (Merkle.beside s cur).1 (Merkle.beside s cur).2 := by
      unfold Merkle.beside
      split
      · rfl
      · rfl
    unfold verifyMerkleLoop Merkle.climb
    rw [unit_bind_eq_ok, hnode, forall_mem_cons]
    simp only [failIf_eq_ok, not_not, ih, and_assoc]

structure Accepted (C : Crypto) (leaf : Bytes) (index : Int) (branch : List Bytes) (siblingLeft : List Bool) (root : Bytes) : Prop where
  leaf_length : leaf.length = 32
  root_length : root.length = 32
  sides : branch.length = siblingLeft.length
  index_nonneg : 0 ≤ index
  siblings : ∀ s ∈ branch.zip siblingLeft, s.1.length = 32
  climb : Merkle.climb (hashNode C) (hashLeaf C leaf) (branch.zip siblingLeft) = root

theorem verifyMerkleProof_ok_true_iff :
    verifyMerkleProof C leaf index branch siblingLeft root = .ok true ↔ Accepted C leaf index branch siblingLeft root := by
  unfold verifyMerkleProof
  simp only [↓unit_bind_eq_ok, bind_eq_ok, failIf_eq_ok, not_not, Int.not_lt, Except.ok.injEq, decide_eq_true_eq]
  constructor
  · rintro ⟨hleaf, hroot, hsides, hindex, cur, hloop, rfl⟩
    obtain ⟨hsiblings, hclimb⟩ := verifyMerkleLoop_ok_iff.mp hloop
    exact ⟨hleaf, hroot, hsides, hindex, hsiblings, hclimb⟩
  · rintro ⟨hleaf, hroot, hsides, hindex, hsiblings, hclimb⟩
    exact ⟨hleaf, hroot, hsides, hindex, root, verifyMerkleLoop_ok_iff.mpr ⟨hsiblings, hclimb⟩, rfl⟩

/-! ## Proofs are accepted -/

theorem merkleRoot_of_loop (h32 : ∀ l ∈ leaves, l.length = 32) {r : Bytes}
    (hloop : Merkle.loop (hashNode C) leaves.length (leaves.map (hashLeaf C)) = [r]) : merkleRoot C leaves = .ok r := by
  have hall : leaves.any (fun l => l.length ≠ 32) = false := by
    rw [any_eq_false]
    intro l hl
    simp [h32 l hl]
  have hroot : Merkle.root (hashNode C) (leaves.map (hashLeaf C)) = some r := by
    rw [Merkle.root, length_map, hloop]
    rfl
  rw [merkleRoot, hall, hroot]
  rfl

/-- A proof in range: it climbs from the leaf to the root, whatever index it is checked with. -/
theorem merkleProof_spec (h32 : ∀ l ∈ leaves, l.length = 32) {i : Nat} (hi : i < leaves.length) :
    ∃ branch siblingLeft root, merkleProof C leaves i = .ok (branch, siblingLeft, root) ∧ merkleRoot C leaves = .ok root ∧
      ∀ index : Int, 0 ≤ index → Accepted C (leaves.getD i []) index branch siblingLeft root := by
  have hlength : (leaves.map (hashLeaf C)).length = leaves.length := length_map _
  have hi' : i < (leaves.map (hashLeaf C)).length := hlength ▸ hi
  have hne : leaves.map (hashLeaf C) ≠ [] := ne_nil_of_length_pos (Nat.zero_lt_of_lt hi')
  obtain ⟨_, root, hrooted, hloop⟩ := Merkle.rooted_loop (hashNode C) (fun _ => True) hne (Nat.le_refl _) fun _ _ => trivial
  rw [hlength] at hloop
  have hdigest : ∀ x ∈ leaves.map (hashLeaf C), x.length = 32 := by
    intro x hx
    obtain ⟨l, -, rfl⟩ := mem_map.mp hx
    exact C.sha256_length _
  have hstart : (leaves.map (hashLeaf C)).getD i default = hashLeaf C (leaves.getD i []) := by
    rw [getD_eq_getElem _ _ hi', getD_eq_getElem _ _ hi, getElem_map]
  obtain ⟨path, hpath⟩ : ∃ path, path = Merkle.branch (hashNode C) leaves.length (leaves.map (hashLeaf C)) i := ⟨_, rfl⟩
  have hzip : (path.map Prod.fst).zip (path.map Prod.snd) = path := by
    rw [← unzip_fst, ← unzip_snd, zip_unzip]
  refine ⟨path.map Prod.fst, path.map Prod.snd, root, ?_, merkleRoot_of_loop h32 hloop, ?_⟩
  · unfold merkleProof
    rw [Int.toNat_natCast, merkleProofLoop_eq, hloop, ← hpath]
    refine bind_eq_ok.mpr ⟨(), failIf_eq_ok.mpr (by omega), bind_eq_ok.mpr ⟨(), failIf_eq_ok.mpr (by omega), bind_eq_ok.mpr ⟨(),
      failIf_eq_ok.mpr ?_, rfl⟩⟩⟩
    rintro ⟨l, hl, hlen⟩
    exact hlen (h32 l hl)
  · intro index hindex
    refine ⟨?_, ?_, by simp, hindex, ?_, ?_⟩
    · rw [getD_eq_getElem _ _ hi]
      exact h32 _ (getElem_mem hi)
    · exact hrooted.forall (P := fun x : Bytes => x.length = 32) (fun _ _ => C.sha256_length _) hdigest
    · rw [hzip, hpath]
      exact Merkle.branch_forall (P := fun x : Bytes => x.length = 32) (fun _ _ => C.sha256_length _) hdigest hi'
    · rw [hzip, hpath, ← hstart]
      exact Merkle.climb_branch (hashNode C) hi' hloop

/-! ## What is accepted is a leaf -/

theorem leavesIn_treeMessages (h : ∀ m ∈ treeMessages C leaves, m ∈ ms) : LeavesIn C ms leaves := by
  refine ⟨fun l hl => h _ ?_, fun q hq => h _ ?_⟩
  · exact mem_append_left _ (mem_map_of_mem hl)
  · exact mem_append_right _ (mem_map.mpr ⟨q, hq, rfl⟩)

theorem LeavesIn.hashedIn (h : LeavesIn C ms leaves) :
    ∀ q ∈ Merkle.hashedPairs (hashNode C) (leaves.map (hashLeaf C)).length (leaves.map (hashLeaf C)), HashedIn ms q := by
  intro q hq
  rw [length_map] at hq
  exact ⟨h.pair q hq, hashedPairs_length leaves _ q hq⟩

theorem LeavesIn.leafIn (h : LeavesIn C ms leaves) : ∀ x ∈ leaves.map (hashLeaf C), LeafIn C ms x := by
  intro x hx
  obtain ⟨l, hl, rfl⟩ := mem_map.mp hx
  exact ⟨l, rfl, h.leaf l hl⟩

theorem Accepted.hashedIn
    (h : Accepted C leaf index branch siblingLeft root) (hms : ∀ m ∈ proofMessages C leaf branch siblingLeft, m ∈ ms) :
    ∀ q ∈ Merkle.climbPairs (hashNode C) (hashLeaf C leaf) (branch.zip siblingLeft), HashedIn ms q := by
  intro q hq
  refine ⟨hms _ (mem_cons_of_mem _ (mem_map.mpr ⟨q, hq, rfl⟩)), ?_⟩
  exact Merkle.climbPairs_forall (P := fun x : Bytes => x.length = 32) (fun _ _ => C.sha256_length _) (C.sha256_length _) h.siblings q hq

theorem Accepted.mem
    (hcf : C.CollisionFreeOn ms) (htree : LeavesIn C ms leaves) (hproof : ∀ m ∈ proofMessages C leaf branch siblingLeft, m ∈ ms)
    (hroot : merkleRoot C leaves = .ok root) (h : Accepted C leaf index branch siblingLeft root) : leaf ∈ leaves := by
  obtain ⟨hne, hroot⟩ := merkleRoot_ok hroot
  obtain ⟨_, r, hrooted, hloop⟩ := Merkle.rooted_loop (hashNode C) (HashedIn ms) (l := leaves.map (hashLeaf C)) (by simpa using hne)
    (Nat.le_refl _) (LeavesIn.hashedIn htree)
  rw [Merkle.root, hloop] at hroot
  cases hroot
  have hleaf : (0x00 :: leaf) ∈ ms := hproof _ (.head _)
  have hmem := hrooted.mem_of_climb (hashNode_inj hcf) (hashNode_not_leaf hcf) (LeavesIn.leafIn htree) ⟨leaf, rfl, hleaf⟩
    (h.hashedIn hproof) h.climb
  obtain ⟨l, hl, heq⟩ := mem_map.mp hmem
  obtain rfl : l = leaf := (List.cons.inj (hcf _ (htree.leaf l hl) _ hleaf heq)).2
  exact hl

end MerkleProofAux

open MerkleProofAux CommitmentAux

/-- For every place there is a proof; its root is the Merkle root, it has a side for each sibling, and it is accepted. -/
theorem merkleProof_complete (C : Crypto) (leaves : List Bytes) (h32 : ∀ l ∈ leaves, l.length = 32) (index : Int) (hlow : 0 ≤ index)
    (hhigh : index < leaves.length) :
    ∃ branch siblingLeft root, merkleProof C leaves index = .ok (branch, siblingLeft, root) ∧ merkleRoot C leaves = .ok root ∧
      branch.length = siblingLeft.length ∧
      verifyMerkleProof C (leaves.getD index.toNat []) index branch siblingLeft root = .ok true := by
  obtain ⟨i, rfl⟩ := Int.eq_ofNat_of_zero_le hlow
  obtain ⟨branch, siblingLeft, root, hproof, hroot, haccepted⟩ := merkleProof_spec (C := C) h32 (Int.ofNat_lt.mp hhigh)
  have h := haccepted i hlow
  exact ⟨branch, siblingLeft, root, hproof, hroot, h.sides, verifyMerkleProof_ok_true_iff.mpr h⟩

namespace Sample

def threeLeaves : List Bytes := [List.replicate 32 1, List.replicate 32 2, List.replicate 32 3]

end Sample

open Sample

/-- The proof of the leaf that is left over. -/
theorem merkleProof_complete_last : ∃ branch siblingLeft root, merkleProof crypto threeLeaves 2 = .ok (branch, siblingLeft, root) ∧
      merkleRoot crypto threeLeaves = .ok root ∧ branch.length = siblingLeft.length ∧
      verifyMerkleProof crypto (threeLeaves.getD 2 []) 2 branch siblingLeft root = .ok true :=
  merkleProof_complete crypto threeLeaves (by decide) 2 (by decide) (by decide)

/-- Whatever is accepted against the Merkle root of a list is a leaf of the list, if no two of the hashed messages collide. -/
theorem merkleProof_sound (C : Crypto) (leaves : List Bytes) (root leaf : Bytes) (index : Int) (branch : List Bytes)
    (siblingLeft : List Bool) (hcf : C.CollisionFreeOn (treeMessages C leaves ++ proofMessages C leaf branch siblingLeft))
    (hroot : merkleRoot C leaves = .ok root) (hverify : verifyMerkleProof C leaf index branch siblingLeft root = .ok true) :
    leaf ∈ leaves :=
  Accepted.mem hcf (leavesIn_treeMessages fun _ => mem_append_left _) (fun _ => mem_append_right _) hroot
    (verifyMerkleProof_ok_true_iff.mp hverify)

namespace Sample

def twoLeaves : List Bytes := [List.replicate 32 1, List.replicate 32 2]

/-- The digest of the second leaf, and the root over the two. -/
def secondDigest : Bytes := beBytes 32 0xcba8c596120bdb69debbd923d92cba948bde7c7d06a465a1bb7d98d3116038fa

@[inherit_doc secondDigest]
def twoRoot : Bytes := beBytes 32 0x3a066e0f40c6a1981ebfa60d2411625d0517ae22c2fc8c7c1784ff8a75c78565

theorem twoLeaves_digests : ((treeMessages crypto twoLeaves).map crypto.sha256).Nodup ∧
    merkleRoot crypto twoLeaves = .ok twoRoot ∧
    (∀ m ∈ proofMessages crypto (List.replicate 32 1) [secondDigest] [false], m ∈ treeMessages crypto twoLeaves) ∧
    merkleProof crypto twoLeaves 0 = .ok ([secondDigest], [false], twoRoot) ∧
    verifyMerkleProof crypto (List.replicate 32 1) 0 [secondDigest] [false] twoRoot = .ok true ∧
    verifyMerkleProof crypto (List.replicate 32 1) 1 [secondDigest] [false] twoRoot = .ok true := by
  decide +kernel

theorem twoLeaves_collisionFree :
    crypto.CollisionFreeOn (treeMessages crypto twoLeaves ++ proofMessages crypto (List.replicate 32 1) [secondDigest] [false]) := by
  obtain ⟨hnodup, -, hsub, -⟩ := twoLeaves_digests
  exact (Crypto.CollisionFreeOn.of_nodup hnodup).mono fun m hm => (mem_append.mp hm).elim id (hsub m)

end Sample

/-- The proof of the first of two leaves. -/
theorem merkleProof_sound_first : List.replicate 32 1 ∈ twoLeaves := by
  obtain ⟨-, hroot, -, -, hverify, -⟩ := twoLeaves_digests
  exact merkleProof_sound crypto twoLeaves twoRoot (List.replicate 32 1) 0 [secondDigest] [false]
    twoLeaves_collisionFree hroot hverify

/-- The index is not checked: a proof is accepted for no other place exactly if there is no other place. -/
theorem proof_tied_iff (C : Crypto) (leaves : List Bytes) (h32 : ∀ l ∈ leaves, l.length = 32) :
    (∀ i j : Nat, i < leaves.length → j < leaves.length → i ≠ j → ∀ branch siblingLeft root,
        merkleProof C leaves i = .ok (branch, siblingLeft, root) →
          verifyMerkleProof C (leaves.getD i []) j branch siblingLeft root ≠ .ok true) ↔
      leaves.length ≤ 1 := by
  constructor
  · intro h
    by_contra hlong
    have hi : 0 < leaves.length := by omega
    obtain ⟨branch, siblingLeft, root, hproof, -, haccepted⟩ := merkleProof_spec (C := C) h32 hi
    exact h 0 1 hi (by omega) (by decide) branch siblingLeft root hproof
      (verifyMerkleProof_ok_true_iff.mpr (haccepted 1 (by decide)))
  · intro hshort i j hi hj hne
    omega

/-- Two leaves are one too many. -/
theorem proof_tied_iff_two : ¬∀ i j : Nat, i < twoLeaves.length → j < twoLeaves.length → i ≠ j → ∀ branch siblingLeft root,
    merkleProof crypto twoLeaves i = .ok (branch, siblingLeft, root) →
      verifyMerkleProof crypto (twoLeaves.getD i []) j branch siblingLeft root ≠ .ok true :=
  mt (proof_tied_iff crypto twoLeaves (by decide)).mp (by decide)

/-- Of two different leaves, the proof of the first is accepted as one for the second place. -/
theorem proof_accepted_for_other_place : twoLeaves.Nodup ∧ (∀ l ∈ twoLeaves, l.length = 32) ∧
      ∃ branch siblingLeft root, merkleProof crypto twoLeaves 0 = .ok (branch, siblingLeft, root) ∧
        merkleRoot crypto twoLeaves = .ok root ∧
        verifyMerkleProof crypto (twoLeaves.getD 0 []) 1 branch siblingLeft root = .ok true := by
  obtain ⟨-, hroot, -, hproof, -, hverify⟩ := twoLeaves_digests
  exact ⟨by decide, by decide, [secondDigest], [false], twoRoot, hproof, hroot, hverify⟩

end NeoCoin
