import NeoCoin.Internal.Consensus
import NeoCoin.Theorems.Paths

/-!
# The consensus package against the chain

`internal/consensus` asks a time to be above the mean of the last times where the chain asks it to be above their median. On a chain whose
times are positive and increase neither says more than that the time is above the last.
-/

namespace NeoCoin.Internal.Consensus

open GoLib NeoCoin.PathAux List

def info (b : NeoCoin.Block) : BlockInfo := ⟨b.height, b.difficultyBits, b.timestampUnix⟩

section

variable {p : ConsensusParams} {chain : List NeoCoin.Block}

theorem toInt_sum_le {last : Int64} (times : List BlockInfo) (acc : Int64) (h : ∀ b ∈ times, 0 < b.timestampUnix ∧ b.timestampUnix ≤ last) :
    (times.foldl (fun mtp b => mtp + b.timestampUnix) acc).toInt ≤ acc.toInt + times.length * last.toInt := by
  induction times generalizing acc with
  | nil => simp
  | cons b times ih =>
    obtain ⟨hpos, hle⟩ := h b (.head _)
    have hadd := toInt_add_drift acc hpos
    have hlast := Int64.le_iff_toInt_le.mp hle
    have hrest := ih (acc + b.timestampUnix) fun c hc => h c (.tail b hc)
    rw [foldl_cons, length_cons, Nat.cast_succ, Int.add_mul]
    split at hadd <;> omega

theorem mean_le {last : Int64} {times : List BlockInfo} (hlast : 0 < last) (hne : times.length ≠ 0) (hlen : times.length < 2 ^ 63)
    (h : ∀ b ∈ times, 0 < b.timestampUnix ∧ b.timestampUnix ≤ last) :
    times.foldl (fun mtp b => mtp + b.timestampUnix) 0 / Int64.ofNat times.length ≤ last := by
  have hsum := toInt_sum_le times 0 h
  have hpos := Int64.lt_iff_toInt_lt.mp hlast
  have hw : (Int64.ofNat times.length).toInt = times.length := Int64.toInt_ofNat_of_lt hlen
  have hnot : Int64.ofNat times.length ≠ -1 := by
    intro heq
    rw [heq] at hw
    exact absurd hw (by rw [show (-1 : Int64).toInt = -1 from rfl]; omega)
  rw [Int64.toInt_zero] at hsum hpos
  rw [Int64.le_iff_toInt_le, Int64.toInt_div_of_ne_right _ _ hnot, hw]
  generalize Int64.toInt (List.foldl _ _ _) = sum at hsum ⊢
  rcases Int.lt_or_le sum 0 with hneg | hnonneg
  · have hquot := Int.tdiv_nonneg (show 0 ≤ -sum by omega) (Int.natCast_nonneg times.length)
    rw [Int.neg_tdiv] at hquot
    omega
  · rw [Int.tdiv_eq_ediv_of_nonneg hnonneg]
    exact Int.ediv_le_of_le_mul (by omega) (by rw [Int.mul_comm]; omega)

theorem le_last {prev : NeoCoin.Block} (hinc : Increasing chain) (hprev : chain.getLast? = some prev) :
    ∀ b ∈ chain, b.timestampUnix ≤ prev.timestampUnix := by
  obtain ⟨before, rfl⟩ := List.getLast?_eq_some_iff.mp hprev
  intro b hb
  rcases mem_append.mp hb with hbefore | htip
  · exact Int64.le_of_lt ((pairwise_append.mp hinc).2.2 b hbefore prev (.head _))
  · rw [mem_singleton.mp htip]
    exact Int64.le_refl _

theorem validateTimestamp_iff (hp : 0 < p.medianTimePastWindow) (hpos : ∀ b ∈ chain, 0 < b.timestampUnix) (hinc : Increasing chain)
    {prev : NeoCoin.Block} (hprev : chain.getLast? = some prev) (t now : Int64) :
    validateTimestamp t (chain.map info) p now = .ok () ↔ prev.timestampUnix < t ∧ t ≤ now + p.maxTimeDrift := by
  have hprev0 := hpos prev (mem_of_getLast? hprev)
  have hlen : chain.length ≠ 0 := by
    intro hzero
    rw [length_eq_zero_iff.mp hzero] at hprev
    cases hprev
  have hwindow := Int64.lt_iff_toInt_lt.mp hp
  rw [Int64.toInt_zero] at hwindow
  have hmax := p.medianTimePastWindow.toInt_lt
  simp only [validateTimestamp, List.getLast?_map, hprev, Option.map_some, length_map, bind_eq_ok, failIf_eq_ok, Int64.not_le,
    gt_iff_lt, Int64.not_lt, exists_const, info]
  generalize hsize : (if (chain.length : Int) < p.medianTimePastWindow.toInt then chain.length else p.medianTimePastWindow.toInt.toNat) =
    size
  have hsize' : size ≠ 0 ∧ size < 2 ^ 63 ∧ size ≤ chain.length := by
    split at hsize <;> omega
  have hwithin : ∀ b ∈ (chain.map info).drop (chain.length - size), 0 < b.timestampUnix ∧ b.timestampUnix ≤ prev.timestampUnix := by
    intro b hb
    obtain ⟨b, hmem, rfl⟩ := mem_map.mp (mem_of_mem_drop hb)
    exact ⟨hpos b hmem, le_last hinc hprev b hmem⟩
  have hmean := mean_le hprev0 (by simp; omega) (by simp; omega) hwithin
  rw [length_drop, length_map, Nat.sub_sub_self hsize'.2.2] at hmean
  constructor
  · rintro ⟨-, hdrift, -, hgt⟩
    exact ⟨hgt, hdrift⟩
  · rintro ⟨hgt, hdrift⟩
    exact ⟨Int64.lt_trans hprev0 hgt, hdrift, Int64.lt_of_le_of_lt hmean hgt, hgt⟩

theorem nextDifficultyBits_eq (p : ConsensusParams) (chain : List NeoCoin.Block) :
    nextDifficultyBits p (chain.map info) = nextDifficultyBitsFromPath p chain := by
  unfold nextDifficultyBits nextDifficultyBitsFromPath
  rw [List.getLast?_map]
  cases chain.getLast? with
  | none => rfl
  | some parent =>
    simp only [Option.map_some, length_map]
    rw [show (default : BlockInfo) = info default from rfl, getD_map]
    rfl

end

/-- For positive windows and drift and every chain whose times are positive and increase, `ValidateTimestamp` accepts a header exactly
when `validateBlockTime` does, and both packages ask for the same difficulty. -/
theorem consensus_agrees (p : ConsensusParams) (hp : 0 < p.medianTimePastWindow ∧ 0 < p.maxTimeDrift ∧ 0 < p.difficultyWindow)
    (chain : List NeoCoin.Block) (hne : chain ≠ []) (hpos : ∀ b ∈ chain, 0 < b.timestampUnix) (hinc : Increasing chain)
    (header : NeoCoin.Block) (now : Int64) : (validateTimestamp header.timestampUnix (chain.map info) p now = .ok () ↔
      validateBlockTime p (chain ++ [header]) chain.length now = .ok ()) ∧
    nextDifficultyBits p (chain.map info) = nextDifficultyBitsFromPath p chain := by
  refine ⟨?_, nextDifficultyBits_eq p chain⟩
  obtain ⟨before, prev, hchain⟩ := (eq_nil_or_concat chain).resolve_left hne
  have hprev : chain.getLast? = some prev := by simp [hchain]
  have hlen : chain.length = before.length + 1 := by simp [hchain]
  have hi : before.length + 1 < (chain ++ [header]).length := by simp [hchain]
  have hlast : (chain ++ [header])[before.length] = prev := by simp [hchain]
  have hcur : (chain ++ [header])[before.length + 1] = header := by simp [hchain]
  have hsucc := validateBlockTime_succ_iff p hi now
  rw [hlast, hcur] at hsucc
  rw [validateTimestamp_iff hp.1 hpos hinc hprev, hlen, hsucc]
  constructor
  · rintro ⟨hgt, hdrift⟩
    refine ⟨hgt, ?_, fun _ => hdrift⟩
    have hinc' : Increasing (chain ++ [header]) := by
      refine pairwise_append.mpr ⟨hinc, pairwise_singleton _ _, fun b hb _ htip => ?_⟩
      rw [mem_singleton.mp htip]
      exact Int64.lt_of_le_of_lt (le_last hinc hprev b hb) hgt
    have hmedian := medianTimePast_le p hinc' (Nat.lt_of_succ_lt hi)
    rw [hlast] at hmedian
    exact Int64.lt_of_le_of_lt hmedian hgt
  · rintro ⟨hgt, -, hdrift⟩
    exact ⟨hgt, hdrift hp.2.1⟩

/-- Two blocks whose times add up to more than 64 bits hold. -/
theorem consensus_agrees_far :
    let p : ConsensusParams := { medianTimePastWindow := 11, maxTimeDrift := 7200, difficultyWindow := 20 }
    let chain : List NeoCoin.Block := [{ timestampUnix := 0x4000000000000000 }, { timestampUnix := 0x4000000000000001 }]
    ∀ (header : NeoCoin.Block) (now : Int64), validateTimestamp header.timestampUnix (chain.map info) p now = .ok () ↔
      validateBlockTime p (chain ++ [header]) chain.length now = .ok () :=
  fun header now => (consensus_agrees _ (by decide) _ (by simp) (by decide) (by unfold Increasing; decide) header now).1

end NeoCoin.Internal.Consensus

namespace NeoCoin

open GoLib List PathAux

/-! ## The median rule -/

/-- The place of the median among the last blocks of a path. -/
def medianPlace (p : ConsensusParams) (i : Nat) : Nat :=
  let n := min (if p.medianTimePastWindow ≤ 0 then 11 else p.medianTimePastWindow : Int64).toInt.toNat (i + 1)
  i + 1 - n + n / 2

/-- The times of the last blocks of a path, of which `medianTimePast` takes the median. -/
def lastTimes (p : ConsensusParams) (path : List Block) (i : Nat) : List Int64 :=
  let n := min (if p.medianTimePastWindow ≤ 0 then 11 else p.medianTimePastWindow : Int64).toInt.toNat (i + 1)
  ((path.take (i + 1)).drop (i + 1 - n)).map (·.timestampUnix)

section

variable {path : List Block} {i : Nat} (p : ConsensusParams)

theorem lastTimes_sorted (hinc : Increasing path) : (lastTimes p path i).Pairwise (· ≤ ·) := by
  refine pairwise_map.mpr (Pairwise.imp Int64.le_of_lt ?_)
  exact hinc.sublist ((drop_sublist _ _).trans (take_sublist _ _))

/-- The times are sorted, so that the median is the one in their middle. -/
theorem medianTimePast_eq (hinc : Increasing path) (hi : i < path.length) :
    ∃ hmid : (lastTimes p path i).length / 2 < (lastTimes p path i).length, ∃ hj : medianPlace p i < path.length,
      medianTimePast p path i = (lastTimes p path i)[(lastTimes p path i).length / 2] ∧
      medianTimePast p path i = path[medianPlace p i].timestampUnix := by
  have hpos := medianWindow_pos p
  have hsorted := lastTimes_sorted (i := i) p hinc
  unfold medianTimePast medianPlace
  unfold lastTimes at hsorted ⊢
  simp only at hsorted ⊢
  generalize (if p.medianTimePastWindow ≤ 0 then 11 else p.medianTimePastWindow : Int64).toInt.toNat = window at hpos hsorted
  rw [show i + 1 - window = i + 1 - min window (i + 1) by omega, hsorted.insertionSort_eq]
  have hlen : (((path.take (i + 1)).drop (i + 1 - min window (i + 1))).map (·.timestampUnix)).length = min window (i + 1) := by
    simp only [length_map, length_drop, length_take]
    omega
  refine ⟨by omega, by omega, getD_eq_getElem _ _ _, ?_⟩
  simp only [hlen]
  rw [getD_eq_getElem _ _ (by omega), getElem_map, getElem_drop, getElem_take]

end

/-- In a sorted list an entry is no less than itself and all the entries before it. -/
theorem lt_countP_of_sorted {l : List Int64} (h : l.Pairwise (· ≤ ·)) {k : Nat} (hk : k < l.length) : k < l.countP (· ≤ l[k]) := by
  have hall : ∀ a ∈ l.take (k + 1), decide (a ≤ l[k]) = true := by
    intro a ha
    obtain ⟨j, hj, rfl⟩ := getElem_of_mem ha
    rw [length_take] at hj
    rw [getElem_take, decide_eq_true_eq]
    rcases Nat.lt_or_eq_of_le (Nat.le_of_lt_succ (lt_of_lt_of_le hj (min_le_left _ _))) with hlt | rfl
    · exact pairwise_iff_getElem.mp h j k _ hk hlt
    · exact Int64.le_refl _
  calc k < (l.take (k + 1)).length := by rw [length_take]; omega
    _ = (l.take (k + 1)).countP (· ≤ l[k]) := (countP_eq_length.mpr hall).symm
    _ ≤ l.countP (· ≤ l[k]) := (take_sublist _ _).countP_le

/-- On a path whose times increase the median is the time of a block in the middle of the window, at least half of the times in the window
are no later, and for the next block the comparison with it makes no difference: without it `validateBlockTime` gives the same errors. -/
theorem medianRule_redundant (p : ConsensusParams) (path : List Block) (i : Nat) (hi : i < path.length) (hinc : Increasing path) :
    (∃ hj : medianPlace p i < path.length, medianTimePast p path i = path[medianPlace p i].timestampUnix) ∧ medianPlace p i ≤ i ∧
      medianTimePast p path i ∈ lastTimes p path i ∧
      (lastTimes p path i).length ≤ 2 * (lastTimes p path i).countP (· ≤ medianTimePast p path i) ∧
      medianTimePast p path i ≤ path[i].timestampUnix ∧
      ∀ b now, validateBlockTime p (path.take (i + 1) ++ [b]) (i + 1) now = (do
        failIf (b.timestampUnix ≤ path[i].timestampUnix) s!"timestamp not increasing at height {b.height}"
        failIf (p.maxTimeDrift > 0 ∧ b.timestampUnix > now + p.maxTimeDrift) s!"timestamp too far in future at height {b.height}") := by
  obtain ⟨hmid, hj, hmedian, hplace⟩ := medianTimePast_eq p hinc hi
  have hle := medianTimePast_le p hinc hi
  refine ⟨⟨hj, hplace⟩, ?_, hmedian ▸ getElem_mem hmid, ?_, hle, fun b now => ?_⟩
  · have hpos := medianWindow_pos p
    unfold medianPlace
    simp only
    omega
  · have hcount := lt_countP_of_sorted (lastTimes_sorted p hinc) hmid
    rw [← hmedian] at hcount
    omega
  · have hlen : (path.take (i + 1)).length = i + 1 := length_take_of_le hi
    have hinside : ¬(i + 1 = 0 ∨ (path.take (i + 1) ++ [b]).length ≤ i + 1) := by
      rw [length_append, hlen]
      simp
    have hprev : (path.take (i + 1) ++ [b])[i]? = some path[i] := by
      rw [getElem?_append_left (by omega), getElem?_take_of_lt (by omega), getElem?_eq_getElem hi]
    have hcur : (path.take (i + 1) ++ [b])[i + 1]? = some b := by
      rw [getElem?_append_right (by omega), hlen]
      simp
    unfold validateBlockTime
    rw [if_neg hinside, Nat.add_sub_cancel, getD_eq_getElem?_getD, getD_eq_getElem?_getD, hprev, hcur]
    by_cases hold : b.timestampUnix ≤ path[i].timestampUnix
    · simp [failIf, hold, bind, Except.bind]
    · have hsame : medianTimePast p (path.take (i + 1) ++ [b]) i = medianTimePast p path i := by
        unfold medianTimePast
        rw [take_left' hlen]
      have hnot : ¬b.timestampUnix ≤ medianTimePast p path i := fun h => hold (Int64.le_trans h hle)
      simp [failIf, hold, hsame, hnot, bind, Except.bind]

theorem medianRule_redundant_two : medianPlace {} 1 ≤ 1 ∧
    validateBlockTime {} ([{ timestampUnix := 1 }, { timestampUnix := 2 }] ++ [{ timestampUnix := 3 }]) 2 0 = .ok () := by
  obtain ⟨-, hplace, -, -, -, hrule⟩ := medianRule_redundant {} [{ timestampUnix := 1 }, { timestampUnix := 2 }] 1 (by decide)
    (by unfold Increasing; decide)
  exact ⟨hplace, hrule { timestampUnix := 3 } 0⟩

end NeoCoin
