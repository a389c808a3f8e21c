import NeoCoin.Theorems.Paths

/-!
# The path to a tip

`computeCanonicalForTipLocked` follows the previous hashes through `blocksByHash`, whatever is in it. It comes to an end, and what it
returns is a chain from genesis to the tip (`computeCanonicalForTip_spec`).
-/

namespace NeoCoin

open GoLib

variable {m : GoMap Bytes Block} {path : List Block}

structure Reconstructed (C : Crypto) (p : ConsensusParams) (m : GoMap Bytes Block) (tip : Bytes) (cand : Candidate) : Prop where
  genesis : (cand.path.1.head cand.path.2).height = 0 ∧ (cand.path.1.head cand.path.2).prevHash.bytes = []
  tip : m.lookup tip = some cand.path.tip
  height : ∀ (i : Nat) (b : Block), cand.path.1[i]? = some b → b.height.toNat = i
  prevHash : ∀ (i : Nat) (a b : Block), cand.path.1[i]? = some a → cand.path.1[i + 1]? = some b → b.prevHash.bytes = a.hash.bytes
  times : Increasing cand.path.1
  state : applyBlocks C p cand.path.1 ∅ = (.ok (), cand.state)
  work : cand.work = (cand.path.1.map fun b => workForDifficultyBits b.difficultyBits).sum

namespace ReconstructionAux

open PathAux

/-! ## The walk -/

theorem walkBackLoop_mono {n k : Nat} (hle : n ≤ k) {seen : List Bytes} {cur : Bytes}
    {r : Result Path} (h : walkBackLoop m n seen cur path = some r) : walkBackLoop m k seen cur path = some r := by
  induction n generalizing k seen cur path with
  | zero => cases h
  | succ n ih =>
    obtain ⟨k, rfl⟩ : ∃ j, k = j + 1 := ⟨k - 1, by omega⟩
    unfold walkBackLoop at h ⊢
    split
    · rename_i hseen
      rwa [if_pos hseen] at h
    · rename_i hseen
      rw [if_neg hseen] at h
      split
      · rename_i hmissing
        rwa [hmissing] at h
      · rename_i b hb
        simp only [hb] at h
        split
        · rename_i hroot
          rwa [if_pos hroot] at h
        · rename_i hgoes
          rw [if_neg hgoes] at h
          exact ih (Nat.le_of_succ_le_succ hle) h

/-- What the walk returns: it ends in the block it was asked for, and no block after the first has height 0. By induction on the
rounds. -/
theorem walkBackLoop_spec {n : Nat} {seen : List Bytes} {cur : Bytes} {out : Path}
    (h : walkBackLoop m n seen cur path = some (.ok out)) (hpath : ∀ b ∈ path, b.height ≠ 0) :
    (∃ before b, out.1 = before ++ b :: path ∧ m.lookup cur = some b) ∧ ∀ b ∈ out.1.tail, b.height ≠ 0 := by
  induction n generalizing seen cur path with
  | zero => cases h
  | succ n ih =>
    unfold walkBackLoop at h
    split at h
    · cases h
    · split at h
      · cases h
      · rename_i b hb
        split at h
        · cases h
          exact ⟨⟨[], b, rfl, hb⟩, hpath⟩
        · rename_i hgoes
          obtain ⟨⟨before, parent, hout, -⟩, htail⟩ := ih h (List.forall_mem_cons.mpr ⟨fun h0 => hgoes (Or.inl h0), hpath⟩)
          exact ⟨⟨before ++ [parent], b, by rw [hout, List.append_assoc]; rfl, hb⟩, htail⟩

theorem walkBack_spec {tip : Bytes} {path : Path} (h : walkBack m tip = .ok path) :
    m.lookup tip = some path.tip ∧ ∀ b ∈ path.1.tail, b.height ≠ 0 := by
  have hsome : walkBackLoop m (m.keys.card + 1) [] tip [] = some (.ok path) := by
    rw [← h, walkBack, Option.some_get]
  obtain ⟨⟨before, b, hpath, hb⟩, htail⟩ := walkBackLoop_spec hsome (by simp)
  refine ⟨?_, htail⟩
  rw [hb, Path.tip]
  simp only [hpath, List.getLast_append_singleton]

/-! ## The heights -/

theorem toNat_height_of_linked {p : ConsensusParams} (h : Linked p path) (htail : ∀ b ∈ path.tail, b.height ≠ 0)
    {i : Nat} {b : Block} (hb : path[i]? = some b) : b.height.toNat = i := by
  induction i generalizing b with
  | zero => rw [(h.genesis b hb).height]; rfl
  | succ i ih =>
    obtain ⟨hi, -⟩ := List.getElem?_eq_some_iff.mp hb
    have hprev : path[i]? = some (path.getD i default) := by
      rw [List.getD_eq_getElem _ _ (by omega), List.getElem?_eq_getElem (by omega)]
    have hmem : b ∈ path.tail := by
      rw [← List.getElem?_tail] at hb
      exact List.mem_of_getElem? hb
    have hne : b.height.toNat ≠ 0 := fun h0 => htail b hmem (UInt64.toNat_inj.mp h0)
    have hsucc := congrArg UInt64.toNat (h.follows i b hb).height
    rw [UInt64.toNat_add, ih hprev, UInt64.toNat_one] at hsucc
    have hlt := (path.getD i default).height.toNat_lt
    rw [ih hprev] at hlt
    omega

end ReconstructionAux

open PathAux ReconstructionAux

/-- The walk through any map ends after at most one round for each key and one more, and what the call returns is a chain from genesis to
the tip, with its state and its work. -/
theorem computeCanonicalForTip_spec (C : Crypto) (p : ConsensusParams) (m : GoMap Bytes Block) (clock : Nat → Int64) (tip : Bytes) :
    (∀ n, m.keys.card < n → walkBackLoop m n [] tip [] = some (walkBack m tip)) ∧
      ∀ cand, computeCanonicalForTip C p m clock tip = .ok cand → Reconstructed C p m tip cand := by
  constructor
  · intro n hn
    refine walkBackLoop_mono hn ?_
    rw [walkBack, Option.some_get]
  · intro cand h
    obtain ⟨path, hwalk, h⟩ := bind_eq_ok.mp h
    obtain ⟨⟨state, work⟩, hval, h⟩ := bind_eq_ok.mp h
    cases h
    obtain ⟨hlinkage, happ, hwork⟩ := (validatePath_ok_iff C p path.1 clock 0 path.1 ∅ 0).mp hval
    simp only [Nat.zero_add] at hlinkage hwork
    obtain ⟨hlinked, htimes⟩ := linked_of_linkage hlinkage
    obtain ⟨htip, htail⟩ := walkBack_spec hwalk
    have hfirst : path.1[0]? = some (path.1.head path.2) := by
      rw [← List.head?_eq_getElem?, List.head?_eq_some_head path.2]
    refine ⟨?_, htip, fun i b hb => toNat_height_of_linked hlinked htail hb, ?_, ((times_ok_iff p path.1 clock).mp htimes).1, happ, hwork⟩
    · exact ⟨(hlinked.genesis _ hfirst).height, (hlinked.genesis _ hfirst).prevHash⟩
    · intro i a b ha hb
      have hprev := (hlinked.follows i b hb).prevHash
      rwa [List.getD_eq_getElem?_getD, ha] at hprev

namespace Sample

def loopBlock : Block := { emptyBlock with prevHash := some [0xaa] }

/-- The genesis block, a block under a key that is not its hash, and a cycle. -/
def tangled : GoMap Bytes Block :=
  ((GoMap.set ∅ genesis.hashHex genesis).set [0x74] emptyBlock).set (hexEncode [0xaa]) loopBlock

end Sample

open Sample

/-- The block under the other key has a path, and from the cycle there is none. -/
theorem computeCanonicalForTip_spec_tangled : walkBackLoop tangled 4 [] (hexEncode [0xaa]) [] = some (walkBack tangled (hexEncode [0xaa])) ∧
      walkBack tangled (hexEncode [0xaa]) = .error "cycle detected" ∧
      ∃ cand, computeCanonicalForTip crypto params tangled (fun _ => 2) [0x74] = .ok cand ∧
        Reconstructed crypto params tangled [0x74] cand := by
  have hcard : tangled.keys.card < 4 := by decide
  have hcycle : walkBack tangled (hexEncode [0xaa]) = .error "cycle detected" := by decide
  have hok : (computeCanonicalForTip crypto params tangled (fun _ => 2) [0x74]).toOption.isSome = true := by
    rw [crypto, goCrypto_eq]
    decide +kernel
  rcases hcand : computeCanonicalForTip crypto params tangled (fun _ => 2) [0x74] with e | cand
  · rw [hcand] at hok
    cases hok
  · refine ⟨?_, hcycle, cand, rfl, ?_⟩
    · exact (computeCanonicalForTip_spec crypto params tangled (fun _ => 2) (hexEncode [0xaa])).1 4 hcard
    · exact (computeCanonicalForTip_spec crypto params tangled (fun _ => 2) [0x74]).2 cand hcand

end NeoCoin
