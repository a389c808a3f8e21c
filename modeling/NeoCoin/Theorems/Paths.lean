import NeoCoin.Theorems.ForkChoice
import Mathlib.Data.List.GetD

/-!
# The canonical chain block by block

`candidate_ok_iff` says once what the checks of `computeCanonicalForTipLocked` establish: the path is the parent chain of its tip, its
headers are linked (`Linked`), its times increase and are not too far ahead of the clock, and its blocks apply. The linkage also holds of
a chain that was extended by mining (`ChainInv`); of the times it need not.
-/

namespace NeoCoin

open GoLib ForkTree List

variable {clock : Nat → Int64} {chainID : UInt64} {handled : List Block} {path : List Block} {i : Nat} {p : ConsensusParams}
  {b genesis : Block} {m : GoMap Bytes Block} {σ : Type} {C : Crypto} {cfg : GenesisConfig} {bc : Blockchain σ} {S : ChainStore σ}

/-! ## The times of a path -/

def Increasing (path : List Block) : Prop := path.Pairwise fun a b => a.timestampUnix < b.timestampUnix

namespace PathAux

open HeaderAux TreeAux

theorem toInt_add_drift (now : Int64) {drift : Int64} (h : 0 < drift) : (now + drift).toInt =
      if now.toInt + drift.toInt < 2 ^ 63 then now.toInt + drift.toInt else now.toInt + drift.toInt - 2 ^ 64 := by
  have hpos := Int64.lt_iff_toInt_lt.mp h
  have hdrift := drift.toInt_lt
  have hlow := now.le_toInt
  have hhigh := now.toInt_lt
  rw [show (0 : Int64).toInt = 0 from rfl] at hpos
  rw [Int64.toInt_add]
  split
  · exact Int.bmod_eq_of_le (by omega) (by omega)
  · rw [← Int.sub_bmod_right]
    exact Int.bmod_eq_of_le (by omega) (by omega)

variable (p : ConsensusParams)

theorem medianWindow_pos : 0 < (if p.medianTimePastWindow ≤ 0 then 11 else p.medianTimePastWindow : Int64).toInt.toNat := by
  split
  · decide
  · rename_i hpos
    have hpos := Int64.lt_iff_toInt_lt.mp (Int64.not_le.mp hpos)
    rw [show (0 : Int64).toInt = 0 from rfl] at hpos
    omega

theorem exists_medianTimePast_eq (hi : i < path.length) :
    ∃ j, ∃ hj : j < path.length, j ≤ i ∧ medianTimePast p path i = path[j].timestampUnix := by
  have hpos := medianWindow_pos p
  unfold medianTimePast
  simp only
  generalize (if p.medianTimePastWindow ≤ 0 then 11 else p.medianTimePastWindow : Int64).toInt.toNat = window at hpos
  generalize hts : ((path.take (i + 1)).drop (i + 1 - window)).map (·.timestampUnix) = ts
  have hlen : ts.length / 2 < (ts.insertionSort (· ≤ ·)).length := by
    rw [length_insertionSort, ← hts]
    simp only [length_map, length_drop, length_take]
    omega
  have hmem : (ts.insertionSort (· ≤ ·)).getD (ts.length / 2) 0 ∈ ts := by
    rw [getD_eq_getElem _ _ hlen]
    exact (mem_insertionSort (· ≤ ·)).mp (getElem_mem hlen)
  generalize (ts.insertionSort (· ≤ ·)).getD (ts.length / 2) 0 = median at hmem
  rw [← hts] at hmem
  obtain ⟨b, hb, rfl⟩ := mem_map.mp hmem
  obtain ⟨j, hj, rfl⟩ := getElem_of_mem (mem_of_mem_drop hb)
  rw [length_take] at hj
  refine ⟨j, by omega, by omega, ?_⟩
  rw [getElem_take]

theorem medianTimePast_le (hinc : Increasing path) (hi : i < path.length) : medianTimePast p path i ≤ path[i].timestampUnix := by
  obtain ⟨j, hj, hle, heq⟩ := exists_medianTimePast_eq p hi
  rw [heq]
  rcases Nat.lt_or_eq_of_le hle with hlt | rfl
  · exact Int64.le_of_lt (pairwise_iff_getElem.mp hinc j i hj hi hlt)
  · exact Int64.le_refl _

theorem validateBlockTime_succ_iff (hi : i + 1 < path.length) (now : Int64) :
    validateBlockTime p path (i + 1) now = .ok () ↔
      path[i].timestampUnix < path[i + 1].timestampUnix ∧ medianTimePast p path i < path[i + 1].timestampUnix ∧
        (0 < p.maxTimeDrift → path[i + 1].timestampUnix ≤ now + p.maxTimeDrift) := by
  have hinside : ¬(i + 1 = 0 ∨ path.length ≤ i + 1) := by omega
  have hprev : path.getD (i + 1 - 1) default = path[i] := by
    rw [Nat.add_sub_cancel, getD_eq_getElem _ _ (by omega)]
  unfold validateBlockTime
  rw [if_neg hinside, hprev, getD_eq_getElem _ _ hi, Nat.add_sub_cancel]
  simp only [unit_bind_eq_ok, failIf_eq_ok, Int64.not_le, not_and, gt_iff_lt, Int64.not_lt]

theorem validateBlockTime_zero (path : List Block) (now : Int64) : validateBlockTime p path 0 now = .ok () :=
  if_pos (Or.inl rfl)

theorem times_ok_iff (path : List Block) (clock : Nat → Int64) :
    (∀ i, i < path.length → validateBlockTime p path i (clock i) = .ok ()) ↔
      Increasing path ∧ ∀ i b, path[i + 1]? = some b → 0 < p.maxTimeDrift → b.timestampUnix ≤ clock (i + 1) + p.maxTimeDrift := by
  constructor
  · intro h
    have hstep := fun i (hi : i + 1 < path.length) => (validateBlockTime_succ_iff p hi (clock (i + 1))).mp (h (i + 1) hi)
    constructor
    · let earlier := fun a b : Block => a.timestampUnix < b.timestampUnix
      have : Trans earlier earlier earlier := ⟨Int64.lt_trans⟩
      exact isChain_iff_pairwise.mp (isChain_iff_getElem.mpr fun i hi => (hstep i hi).1)
    · intro i b hb
      obtain ⟨hi, rfl⟩ := List.getElem?_eq_some_iff.mp hb
      exact (hstep i hi).2.2
  · rintro ⟨hinc, hahead⟩ i hi
    cases i with
    | zero => exact validateBlockTime_zero p path (clock 0)
    | succ i =>
      have hlt := pairwise_iff_getElem.mp hinc i (i + 1) (by omega) hi (by omega)
      refine (validateBlockTime_succ_iff p hi _).mpr ⟨hlt, ?_, hahead i _ (List.getElem?_eq_getElem hi)⟩
      exact Int64.lt_of_le_of_lt (medianTimePast_le p hinc (by omega)) hlt

end PathAux

/-! ## Linked headers -/

@[mk_iff] structure GenesisHeader (p : ConsensusParams) (b : Block) : Prop where
  height : b.height = 0
  prevHash : b.prevHash.bytes = []
  version : b.version = blockVersionForHeight p 0

/-- The header of a block after the blocks `before`, of which `prev` is the last. -/
@[mk_iff] structure Follows (p : ConsensusParams) (before : List Block) (prev b : Block) : Prop where
  height : b.height = prev.height + 1
  prevHash : b.prevHash.bytes = prev.hash.bytes
  difficulty : p.difficultyEnable = true → b.difficultyBits = nextDifficultyBitsFromPath p before
  version : b.version = blockVersionForHeight p b.height

/-- The headers of a path follow each other, from a first block on. -/
structure Linked (p : ConsensusParams) (path : List Block) : Prop where
  genesis : ∀ b, path[0]? = some b → GenesisHeader p b
  follows : ∀ i b, path[i + 1]? = some b → Follows p (path.take (i + 1)) (path.getD i default) b

theorem linked_singleton (h : GenesisHeader p b) : Linked p [b] := by
  refine ⟨?_, ?_⟩
  · intro b' hb'
    cases hb'
    exact h
  · intro i b' hb'
    exact absurd hb' (by simp)

theorem Linked.snoc {path : Path} (h : Linked p path.1) (hb : Follows p path.1 path.tip b) : Linked p (path.snoc b).1 := by
  have hpos := length_pos_iff.mpr path.2
  refine ⟨?_, ?_⟩
  · intro b' hb'
    refine h.genesis b' ?_
    rwa [Path.snoc, List.getElem?_append_left hpos] at hb'
  · intro i b' hb'
    rw [Path.snoc] at hb' ⊢
    rcases Nat.lt_trichotomy (i + 1) path.1.length with hlt | heq | hgt
    · rw [List.getElem?_append_left hlt] at hb'
      rw [take_append_of_le_length (by omega), getD_append _ _ _ _ (by omega)]
      exact h.follows i b' hb'
    · rw [heq, List.getElem?_append_right (by omega), Nat.sub_self] at hb'
      obtain rfl : b = b' := Option.some.inj hb'
      have htip : (path.1 ++ [b]).getD i default = path.tip := by
        rw [getD_append _ _ _ _ (by omega), getD_eq_getElem _ _ (by omega), Path.tip, getLast_eq_getElem]
        congr 1
        omega
      rw [heq, take_left, htip]
      exact hb
    · exact absurd hb' (by rw [List.getElem?_eq_none (by simp; omega)]; simp)

theorem Linked.height (h : Linked p path) (hb : path[i]? = some b) : b.height = UInt64.ofNat i := by
  induction i generalizing b with
  | zero => exact (h.genesis b hb).height
  | succ i ih =>
    obtain ⟨hi, -⟩ := List.getElem?_eq_some_iff.mp hb
    have hprev : path[i]? = some (path.getD i default) := by
      rw [getD_eq_getElem _ _ (by omega), List.getElem?_eq_getElem (by omega)]
    rw [(h.follows i b hb).height, ih hprev, UInt64.ofNat_add]
    rfl

namespace PathAux

open HeaderAux TreeAux

theorem checkLinkage_zero_iff (p : ConsensusParams) (path : List Block) (clock : Nat → Int64) (b : Block) :
    checkLinkage p path clock 0 b = .ok () ↔ GenesisHeader p b := by
  unfold checkLinkage
  rw [if_pos rfl]
  simp only [unit_bind_eq_ok, failIf_eq_ok, not_or, not_not, length_eq_zero_iff, and_assoc, genesisHeader_iff]

theorem checkLinkage_succ_iff (p : ConsensusParams) (clock : Nat → Int64) (hb : path[i + 1]? = some b) :
    checkLinkage p path clock (i + 1) b = .ok () ↔
      Follows p (path.take (i + 1)) (path.getD i default) b ∧ validateBlockTime p path (i + 1) (clock (i + 1)) = .ok () ∧
        (p.difficultyEnable = true → nextDifficultyBitsFromPath p (path.take (i + 1)) ≠ 0) := by
  obtain ⟨hi, -⟩ := List.getElem?_eq_some_iff.mp hb
  have hexpected : expectedDifficultyBitsForBlockIndex p path (i + 1) = nextDifficultyBitsFromPath p (path.take (i + 1)) :=
    if_neg (by omega)
  have hprev : b.prevHashHex = (path.getD i default).hashHex ↔ b.prevHash.bytes = (path.getD i default).hash.bytes := hexEncode_inj
  unfold checkLinkage
  rw [if_neg (Nat.succ_ne_zero i), Nat.add_sub_cancel]
  simp only [hexpected, follows_iff]
  cases henable : p.difficultyEnable with
  | false =>
    simp only [unit_bind_eq_ok, failIf_eq_ok, not_not, hprev, Bool.false_eq_true, if_false, false_implies]
    tauto
  | true =>
    simp only [unit_bind_eq_ok, failIf_eq_ok, not_not, hprev, if_true, true_implies]
    tauto

theorem linked_of_linkage (h : ∀ i b, path[i]? = some b → checkLinkage p path clock i b = .ok ()) :
    Linked p path ∧ ∀ i, i < path.length → validateBlockTime p path i (clock i) = .ok () := by
  refine ⟨⟨?_, ?_⟩, ?_⟩
  · intro b hb
    exact (checkLinkage_zero_iff p path clock b).mp (h 0 b hb)
  · intro i b hb
    exact ((checkLinkage_succ_iff p clock hb).mp (h (i + 1) b hb)).1
  · intro i hi
    cases i with
    | zero => exact validateBlockTime_zero p path (clock 0)
    | succ i =>
      have hb := List.getElem?_eq_getElem hi
      exact ((checkLinkage_succ_iff p clock hb).mp (h (i + 1) _ hb)).2.1

theorem linkage_ok_iff (hp : BitsValid p) (path : List Block) (clock : Nat → Int64) :
    (∀ i b, path[i]? = some b → checkLinkage p path clock i b = .ok ()) ↔
      Linked p path ∧ ∀ i, i < path.length → validateBlockTime p path i (clock i) = .ok () := by
  constructor
  · exact linked_of_linkage
  · rintro ⟨hlinked, htimes⟩ i b hb
    cases i with
    | zero => exact (checkLinkage_zero_iff p path clock b).mpr (hlinked.genesis b hb)
    | succ i =>
      obtain ⟨hi, -⟩ := List.getElem?_eq_some_iff.mp hb
      exact (checkLinkage_succ_iff p clock hb).mpr
        ⟨hlinked.follows i b hb, htimes (i + 1) hi, fun _ => nextDifficultyBits_ne_zero hp _⟩

/-- The validation from index `i` on succeeds when every block left passes its checks and they all apply. By induction on what is
left. -/
theorem validatePath_ok_iff (C : Crypto) (p : ConsensusParams) (path : List Block) (clock : Nat → Int64) (i : Nat)
    (rest : List Block) (s : State) (w : Nat) {s' : State} {w' : Nat} : validatePath C p path clock i rest s w = .ok (s', w') ↔
      (∀ j b, rest[j]? = some b → checkLinkage p path clock (i + j) b = .ok ()) ∧ applyBlocks C p rest s = (.ok (), s') ∧
        w' = w + pathWork rest := by
  constructor
  · intro h
    refine ⟨?_, validatePath_ok h⟩
    induction rest generalizing i s w with
    | nil =>
      intro j b hb
      exact absurd hb (by simp)
    | cons b rest ih =>
      unfold validatePath at h
      obtain ⟨_, hcheck, h⟩ := bind_eq_ok.mp h
      obtain ⟨_, -, h⟩ := bind_eq_ok.mp h
      intro j b' hb'
      cases j with
      | zero =>
        cases hb'
        exact hcheck
      | succ j =>
        have := ih (i + 1) _ _ h j b' hb'
        rwa [Nat.add_right_comm, Nat.add_assoc] at this
  · induction rest generalizing i s w with
    | nil =>
      rintro ⟨-, happ, rfl⟩
      cases happ
      rfl
    | cons b rest ih =>
      rintro ⟨hcheck, happ, rfl⟩
      obtain ⟨hb, happ⟩ := (applyBlocks_cons_ok_iff C p).mp happ
      have hpay := (applyBlockToState_ok_iff C p).mpr ⟨hb, rfl⟩
      unfold validatePath
      refine bind_eq_ok.mpr ⟨(), hcheck 0 b rfl, bind_eq_ok.mpr ⟨(), by rw [hpay], ?_⟩⟩
      rw [hpay]
      refine ih (i + 1) _ _ ⟨?_, happ, ?_⟩
      · intro j b' hb'
        have := hcheck (j + 1) b' hb'
        rwa [← Nat.add_assoc, Nat.add_right_comm] at this
      · simp only [pathWork, map_cons, sum_cons]
        omega

/-! ## The walk finds the whole chain -/

theorem chainTo_ne_nil {k : Bytes} (h : ChainTo parentKey m k path) : path ≠ [] := by
  cases h with
  | root => exact cons_ne_nil _ _
  | child => simp

/-- The walk from a key whose chain is known returns that chain, if it is given the rounds: the keys it has seen have longer chains. By
induction on the rounds. -/
theorem walkBackLoop_of_chain (n : Nat) (seen : List Bytes) {cur : Bytes} {found : List Block} {out : Path}
    (hchain : ChainTo parentKey m cur found) (hheight : ∀ b ∈ found.tail, b.height ≠ 0)
    (hseen : ∀ k ∈ seen, ∃ longer, ChainTo parentKey m k longer ∧ found.length < longer.length) (hout : out.1 = found ++ path) :
    walkBackLoop m n seen cur path = none ∨ walkBackLoop m n seen cur path = some (.ok out) := by
  induction n generalizing seen cur path found with
  | zero => exact Or.inl rfl
  | succ n ih =>
    have hfresh : cur ∉ seen := by
      intro hmem
      obtain ⟨longer, hlonger, hlt⟩ := hseen cur hmem
      rw [hchain.unique hlonger] at hlt
      exact Nat.lt_irrefl _ hlt
    unfold walkBackLoop
    rw [if_neg hfresh]
    cases hchain with
    | @root _ b hb hparent =>
      have hnil : b.prevHash.bytes = [] := by
        by_contra hne
        rw [parentKey, if_neg hne] at hparent
        cases hparent
      rw [hb]
      simp only [hnil, length_nil, or_true, if_true]
      have heq : (⟨b :: path, cons_ne_nil b path⟩ : Path) = out := Subtype.ext hout.symm
      exact Or.inr (by rw [heq])
    | @child _ parent b before hb hparent hbefore =>
      have hne : b.prevHash.bytes ≠ [] := by
        intro hnil
        rw [parentKey, if_pos hnil] at hparent
        cases hparent
      have hkey : parent = b.prevHashHex := by
        rw [parentKey, if_neg hne] at hparent
        exact (Option.some.inj hparent).symm
      have htail : (before ++ [b]).tail = before.tail ++ [b] := tail_append_of_ne_nil (chainTo_ne_nil hbefore)
      rw [htail] at hheight
      have hgoes : ¬(b.height = 0 ∨ b.prevHash.bytes.length = 0) := by
        rintro (h0 | h0)
        · exact hheight b (by simp) h0
        · exact hne (length_eq_zero_iff.mp h0)
      rw [hb]
      simp only [if_neg hgoes]
      refine ih (cur :: seen) (hkey ▸ hbefore) ?_ ?_ ?_
      · intro b' hb'
        exact hheight b' (mem_append_left _ hb')
      · intro k hk
        rcases mem_cons.mp hk with rfl | hk
        · exact ⟨before ++ [b], ChainTo.child hb hparent hbefore, by simp⟩
        · obtain ⟨longer, hlonger, hlt⟩ := hseen k hk
          rw [length_append, length_singleton] at hlt
          exact ⟨longer, hlonger, by omega⟩
      · rw [hout]
        simp

theorem walkBack_of_chain {tip : Bytes} {path : Path} (hchain : ChainTo parentKey m tip path.1)
    (hheight : ∀ b ∈ path.1.tail, b.height ≠ 0) : walkBack m tip = .ok path := by
  have hsome := walkBackLoop_isSome m (m.keys.card + 1) [] tip [] nodup_nil (by simp) (by simp)
  rcases walkBackLoop_of_chain (m.keys.card + 1) [] hchain hheight (by simp) (append_nil _).symm with hnone | hok
  · rw [hnone] at hsome
    cases hsome
  · unfold walkBack
    simp only [hok, Option.get_some]

theorem candidate_ok_iff (C : Crypto) (hp : BitsValid p) (m : GoMap Bytes Block) (clock : Nat → Int64) (tip : Bytes) (cand : Candidate) :
    computeCanonicalForTip C p m clock tip = .ok cand ↔
      walkBack m tip = .ok cand.path ∧ (Linked p cand.path.1 ∧
        ∀ i, i < cand.path.1.length → validateBlockTime p cand.path.1 i (clock i) = .ok ()) ∧
        applyBlocks C p cand.path.1 ∅ = (.ok (), cand.state) ∧ cand.work = pathWork cand.path.1 := by
  simp only [computeCanonicalForTip, bind_eq_ok]
  constructor
  · rintro ⟨path, hwalk, ⟨state, work⟩, hval, heq⟩
    cases heq
    obtain ⟨hlink, happ, hwork⟩ := (validatePath_ok_iff C p path.1 clock 0 path.1 ∅ 0).mp hval
    simp only [Nat.zero_add] at hlink hwork
    exact ⟨hwalk, (linkage_ok_iff hp path.1 clock).mp hlink, happ, hwork⟩
  · rintro ⟨hwalk, hlink, happ, hwork⟩
    refine ⟨cand.path, hwalk, (cand.state, cand.work), ?_, rfl⟩
    refine (validatePath_ok_iff C p cand.path.1 clock 0 cand.path.1 ∅ 0).mpr ⟨?_, happ, by rw [Nat.zero_add]; exact hwork⟩
    simp only [Nat.zero_add]
    exact (linkage_ok_iff hp cand.path.1 clock).mpr hlink

end PathAux

/-! ## The invariant -/

/-- A block as a node takes it in, by adding or by mining: it has its work, and it is not a second genesis block. -/
structure GoodBlock (C : Crypto) (p : ConsensusParams) (genesis b : Block) : Prop where
  pow : powValidate C p b = .ok true
  hash : b.hash.bytes.length ≠ 0
  bits : b.difficultyBits ≠ 0
  maxBits : b.difficultyBits ≤ maxDifficultyBits
  root : b.height = 0 → b.prevHash.bytes = [] → b = genesis

/-- What holds of a node at every point of a run from genesis, whatever the digest does. -/
structure ChainInv {σ : Type} (C : Crypto) (cfg : GenesisConfig) (genesis : Block) (bc : Blockchain σ) : Prop where
  config : ValidConfig cfg
  consensus : bc.consensus = cfg.consensusParams
  chainID : bc.chainID = cfg.chainID
  isGenesis : HeaderAux.IsGenesis C cfg genesis
  head : bc.blocks.1.head? = some genesis
  linked : Linked bc.consensus bc.blocks.1
  tree : ∀ k b, bc.blocksByHash.lookup k = some b → GoodBlock C bc.consensus genesis b
  blocks : ∀ b ∈ bc.blocks.1, GoodBlock C bc.consensus genesis b
  derived : Derived C bc

theorem ChainInv.validParams (h : ChainInv C cfg genesis bc) : ValidParams bc.consensus := by
  rw [h.consensus]
  exact h.config.consensusParams

namespace PathAux

open HeaderAux TreeAux

theorem goodBlock_of_external (h : External C p chainID b) : GoodBlock C p genesis b :=
  ⟨h.pow, h.hash, h.bits, h.maxBits, fun h0 => absurd h0 h.height⟩

theorem clampDifficultyBits_le (h : ValidParams p) (bits : UInt32) :
    clampDifficultyBits p bits ≤ p.maxDifficultyBits ∧ p.minDifficultyBits ≤ clampDifficultyBits p bits := by
  have hmax := h.minLeMax
  have hbetween : ∀ c : UInt32,
      (if c < p.minDifficultyBits then p.minDifficultyBits else if c > p.maxDifficultyBits then p.maxDifficultyBits else c) ≤
          p.maxDifficultyBits ∧
        p.minDifficultyBits ≤
          (if c < p.minDifficultyBits then p.minDifficultyBits else if c > p.maxDifficultyBits then p.maxDifficultyBits else c) := by
    intro c
    split
    · exact ⟨hmax, UInt32.le_refl _⟩
    · rename_i hmin
      split
      · exact ⟨UInt32.le_refl _, hmax⟩
      · rename_i hle
        exact ⟨UInt32.not_lt.mp hle, UInt32.not_lt.mp hmin⟩
  exact hbetween _

theorem nextDifficultyBits_between (h : ValidParams p) (path : List Block) :
    nextDifficultyBitsFromPath p path ≤ p.maxDifficultyBits ∧ p.minDifficultyBits ≤ nextDifficultyBitsFromPath p path := by
  unfold nextDifficultyBitsFromPath
  split
  · exact ⟨h.genesisMax, h.genesisMin⟩
  · simp only
    split
    · split
      · exact ⟨h.genesisMax, h.genesisMin⟩
      · exact clampDifficultyBits_le h _
    · split
      · exact clampDifficultyBits_le h _
      · exact clampDifficultyBits_le h _

theorem goodBlock_of_mined {transfers : List Transaction} {now : Int64}
    (genesis : Block) (hp : ValidParams bc.consensus) (htip : bc.blocks.tip.hash.bytes.length ≠ 0)
    (h : minedBlock C bc transfers now = some b) :
    GoodBlock C bc.consensus genesis b ∧ Follows bc.consensus bc.blocks.1 bc.blocks.tip b := by
  unfold minedBlock at h
  split at h
  · cases h
  · split at h
    · rename_i hpow
      cases h
      have hbetween := nextDifficultyBits_between hp bc.blocks.1
      have hprev : (GoSlice.copy bc.blocks.tip.hash.bytes).bytes = bc.blocks.tip.hash.bytes := GoSlice.bytes_copy _
      refine ⟨⟨powValidate_of_powRun rfl hpow, ?_, nextDifficultyBits_ne_zero (bitsValid_of_validParams hp) _, ?_, ?_⟩,
        ⟨rfl, hprev, fun _ => rfl, rfl⟩⟩
      · rw [(hashed_of_powRun rfl hpow).length]
        decide
      · exact UInt32.le_trans hbetween.1 hp.maxDifficultyBits
      · -- a block that names a previous block is not a genesis block, even if its height has wrapped around
        intro _ hnil
        exact absurd (length_eq_zero_iff.mpr (hprev.symm.trans hnil)) htip
    · cases h

theorem good_candidate {cand : Candidate} (h : ChainInv C cfg genesis bc) (hv : Validated C bc b clock cand) :
    Linked bc.consensus cand.path.1 ∧ (∀ b' ∈ cand.path.1, GoodBlock C bc.consensus genesis b') ∧
      cand.path.1.head? = some genesis := by
  obtain ⟨-, ⟨hlinked, -⟩, -, -⟩ := (candidate_ok_iff C (bitsValid_of_validParams h.validParams) _ clock _ cand).mp hv.computed
  have hext := checkExternal_ok_iff.mp hv.external
  have hgood : ∀ b' ∈ cand.path.1, GoodBlock C bc.consensus genesis b' := by
    intro b' hb'
    obtain ⟨k, hk⟩ := (chain_of_candidate hv.computed).exists_lookup hb'
    rw [GoMap.lookup_set] at hk
    split at hk
    · cases hk
      exact goodBlock_of_external hext
    · exact h.tree k b' hk
  refine ⟨hlinked, hgood, ?_⟩
  obtain ⟨first, rest, hpath⟩ := exists_cons_of_ne_nil cand.path.2
  have hfirst := hlinked.genesis first (by rw [hpath]; rfl)
  rw [hpath, List.head?_cons, (hgood first (by rw [hpath]; simp)).root hfirst.height hfirst.prevHash]

/-- Every step keeps the invariant. -/
theorem chainInv_step {bc' : Blockchain σ}
    {block : Option Block} (hstep : Step C S bc block bc') (h : ChainInv C cfg genesis bc) : ChainInv C cfg genesis bc' := by
  have hderived := derived_step hstep h.derived
  have hid := (step_startedWith hstep).2.1.trans h.chainID
  -- a block from outside goes into the tree under its hash
  have hinsert : ∀ {b : Block}, GoodBlock C bc.consensus genesis b → ∀ k b',
      (bc.blocksByHash.set b.hashHex b).lookup k = some b' → GoodBlock C bc.consensus genesis b' := by
    intro b hb k b' hk
    rw [GoMap.lookup_set] at hk
    split at hk
    · cases hk
      exact hb
    · exact h.tree k b' hk
  rcases step_cases hstep with ⟨st, rfl, -⟩ | ⟨b, clock, cand, rfl, hv, -, -, rfl⟩ | ⟨b, clock, cand, rfl, hv, -, -, rfl⟩ |
    ⟨b, transfers, now, rfl, hm, -, rfl⟩
  · exact ⟨h.config, h.consensus, hid, h.isGenesis, h.head, h.linked, h.tree, h.blocks, hderived⟩
  · have hext := checkExternal_ok_iff.mp hv.external
    exact ⟨h.config, h.consensus, hid, h.isGenesis, h.head, h.linked, hinsert (goodBlock_of_external hext), h.blocks, hderived⟩
  · have hext := checkExternal_ok_iff.mp hv.external
    obtain ⟨hlinked, hgood, hhead⟩ := good_candidate h hv
    exact ⟨h.config, h.consensus, hid, h.isGenesis, hhead, hlinked, hinsert (goodBlock_of_external hext), hgood, hderived⟩
  · have htip := h.blocks bc.blocks.tip (getLast_mem bc.blocks.2)
    obtain ⟨hgood, hfollows⟩ := goodBlock_of_mined genesis h.validParams htip.hash hm.mined
    have hmap := addToIndex_of_hash bc.blocksByHash hgood.hash
    refine ⟨h.config, h.consensus, hid, h.isGenesis, ?_, h.linked.snoc hfollows, ?_, ?_, hderived⟩
    · exact (List.head?_append_of_ne_nil _ bc.blocks.2).trans h.head
    · intro k b' hk
      refine hinsert hgood k b' ?_
      rw [← hmap]
      exact hk
    · exact forall_mem_concat.mpr ⟨h.blocks, hgood⟩

theorem chainInv_runs {bc0 : Blockchain σ}
    (hrun : Runs C S bc0 handled bc) (h0 : ChainInv C cfg genesis bc0) : ChainInv C cfg genesis bc := by
  induction hrun with
  | start => exact h0
  | step _ hstep ih => exact chainInv_step hstep ih

/-- A loaded node that holds only its genesis block has the invariant. -/
theorem chainInv_load {minerAddress : Bytes} {raw : GenesisConfigJSON} {ignoreRulesHash : Bool} {st : σ}
    (l : Loading C S chainID minerAddress raw ignoreRulesHash st bc) (hblocks : bc.blocks.1 = [genesis])
    (htree : bc.blocksByHash = GoMap.set ∅ genesis.hashHex genesis) : ChainInv C l.cfg genesis bc := by
  have hvalid := validConfig_of_load l.config
  have hg := isGenesis_of_load hvalid l.genesis
  rw [← ensureBlockHash_of_hash l.hashed hg.hash] at hg
  have hi := initChain_ok_iff.mp l.init
  have hpath := congrArg Subtype.val hi.blocks
  obtain ⟨hfirst, -⟩ := List.cons.inj (hpath.symm.trans hblocks)
  rw [hfirst] at hg
  have hgood : GoodBlock C bc.consensus genesis genesis := by
    have hbits := bitsValid_of_validParams hvalid.consensusParams
    refine ⟨by rw [hi.consensus]; exact hg.pow, hg.hash, by rw [hg.bits]; exact hbits.genesis, ?_, fun _ _ => rfl⟩
    rw [hg.bits]
    exact UInt32.le_trans hvalid.consensusParams.genesisMax hvalid.consensusParams.maxDifficultyBits
  refine ⟨hvalid, hi.consensus, hi.chainID, hg, by rw [hblocks]; rfl, ?_, ?_, ?_, hi.derived⟩
  · rw [hblocks, hi.consensus]
    exact linked_singleton ⟨hg.height, hg.prevHash, hg.version⟩
  · intro k b hk
    rw [htree, GoMap.lookup_set] at hk
    split at hk
    · cases hk
      exact hgood
    · exact absurd hk (by simp)
  · intro b hb
    rw [hblocks] at hb
    obtain rfl := mem_singleton.mp hb
    exact hgood

theorem chainInv_freshRun (hrun : FreshRun C S handled bc) : ∃ cfg genesis, ChainInv C cfg genesis bc := by
  obtain ⟨_, _, _, _, _, _, genesis, bs, hload, hblocks, htree, hsteps, -⟩ := hrun
  obtain ⟨l⟩ := loadBlockchain_ok_iff.mp hload
  exact ⟨l.cfg, genesis, chainInv_runs hsteps (chainInv_load l hblocks htree)⟩

end PathAux

end NeoCoin
