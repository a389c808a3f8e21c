import NeoCoin.Genesis

/-!
# The difficulty after a full window

`nextDifficultyBitsFromPath` moves the difficulty by at most one step. Here the times are integers of any size (`pace`), and the difficulty
that follows is `adjusted`. The code works in 64 bits, where a difference or a product can wrap, and cuts the new difficulty down to 32
bits.
-/

namespace NeoCoin

open GoLib

variable {p : ConsensusParams} {bits : Nat}

/-! ## The difficulty as it should be -/

inductive Pace where
  | fast
  | steady
  | slow
  deriving DecidableEq, Repr

/-- The pace of a span of time, where another one is expected. -/
def pace (expected span : Int) : Pace := if span < expected / 2 then .fast else if 2 * expected < span then .slow else .steady

/-- The seconds that a window should take: whole seconds a block, and at least one. -/
def ConsensusParams.expectedSpan (p : ConsensusParams) : Int := p.difficultyWindow.toInt * max 1 (p.targetBlockTime.toInt / 1000000000)

def ConsensusParams.adjusted (p : ConsensusParams) (bits : Nat) : Pace → Nat
  | .fast => min p.maxDifficultyBits.toNat (bits + p.difficultyMaxStep.toNat)
  | .steady => bits
  | .slow => max p.minDifficultyBits.toNat (bits - p.difficultyMaxStep.toNat)

/-! ## The difficulty in machine integers -/

/-- A number of seconds in 64 bits, of which there is one at least. -/
def wrapSeconds (seconds : Int) : Int := max 1 (seconds.bmod (2 ^ 64))

/-- The pace as the code finds it. Four times the expected span wraps to a negative number, or to one that is too small. -/
def cutPace (expected span : Int) : Pace :=
  if expected < 2 ^ 61 then pace expected span
  else if expected < 2 ^ 62 ∨ 3 * 2 ^ 61 ≤ expected ∨ span < expected / 2 ∨ 4 * (expected - 2 ^ 62) < expected / 2 then .fast
  else .slow

/-- The pace of a window, from the integers that its spans would be. -/
def wrappedPace (expected span : Int) : Pace := cutPace (wrapSeconds expected) (wrapSeconds span)

/-- The difficulty that the code makes of a pace. A step up may wrap to a smaller difficulty. -/
def ConsensusParams.wrappedBits (p : ConsensusParams) (bits : Nat) : Pace → Nat
  | .fast =>
    if bits + p.difficultyMaxStep.toNat < 2 ^ 32 then p.adjusted bits .fast
    else max p.minDifficultyBits.toNat (bits + p.difficultyMaxStep.toNat - 2 ^ 32)
  | .steady => bits
  | .slow => p.adjusted bits .slow

namespace RetargetAux

theorem wrapSeconds_pos (seconds : Int) : 0 < wrapSeconds seconds := by
  unfold wrapSeconds
  omega

theorem wrapSeconds_eq {seconds : Int} (hlow : -2 ^ 63 ≤ seconds) (hhigh : seconds < 2 ^ 63) : wrapSeconds seconds = max 1 seconds := by
  rw [wrapSeconds, Int.bmod_eq_of_le (by omega) (by omega)]

theorem wrappedPace_eq {expected span : Int} (hpos : 0 < expected) (hexpected : expected < 2 ^ 61) (hlow : -2 ^ 63 ≤ span)
    (hhigh : span < 2 ^ 63) : wrappedPace expected span = pace expected (max 1 span) := by
  have hone : max 1 expected = expected := by omega
  rw [wrappedPace, wrapSeconds_eq (by omega) (by omega), wrapSeconds_eq hlow hhigh, hone, cutPace, if_pos hexpected]

theorem expectedSpan_pos (hp : ValidParams p) : 0 < p.expectedSpan := by
  have hwindow : 0 < p.difficultyWindow.toInt := Int64.lt_iff_toInt_lt.mp hp.difficultyWindow
  exact Int.mul_pos hwindow (by omega)

theorem toInt_orOne (x : Int64) : (if x ≤ 0 then 1 else x).toInt = max 1 x.toInt := by
  have hzero : x ≤ 0 ↔ x.toInt ≤ 0 := Int64.le_iff_toInt_le
  split
  · rename_i h
    have hle := hzero.mp h
    rw [Int64.toInt_one]
    omega
  · rename_i h
    have hlt := Int.not_le.mp fun hle => h (hzero.mpr hle)
    omega

theorem toInt_div_of_pos {x : Int64} (hx : 0 < x.toInt) (k : Int64) (hk : k ≠ -1) : (x / k).toInt = x.toInt / k.toInt := by
  rw [Int64.toInt_div_of_ne_right _ _ hk, Int.tdiv_eq_ediv_of_nonneg (by omega)]

theorem bmod_eq_sub {x : Int} (k : Int) (hlow : -2 ^ 63 ≤ x - k * 2 ^ 64) (hhigh : x - k * 2 ^ 64 < 2 ^ 63) :
    x.bmod (2 ^ 64) = x - k * 2 ^ 64 := by
  rw [Int.bmod_def]
  split
  · omega
  · omega

/-- The span that is compared: at least a quarter of the expected one, and then at most four times it, as far as that does not wrap. -/
def cutSpan (expected span : Int) : Int :=
  let span := if span < expected / 4 then expected / 4 else span
  if span > (expected * 4).bmod (2 ^ 64) then (expected * 4).bmod (2 ^ 64) else span

theorem cutPace_iff {expected span : Int} (he : 0 < expected) (hmax : expected < 2 ^ 63) (hs : 0 < span) :
    (cutSpan expected span < expected / 2 ↔ cutPace expected span = .fast) ∧
      (¬cutSpan expected span < expected / 2 →
        (cutSpan expected span > (expected * 2).bmod (2 ^ 64) ↔ cutPace expected span = .slow)) := by
  unfold cutSpan cutPace
  rcases Int.lt_or_le expected (2 ^ 61) with hsmall | hbig
  · rw [if_pos hsmall, Int.bmod_eq_of_le (by omega) (by omega), Int.bmod_eq_of_le (by omega) (by omega)]
    unfold pace
    grind
  · rw [if_neg (Int.not_lt.mpr hbig)]
    rcases Int.lt_or_le expected (2 ^ 62) with hsmall | hbig
    · rw [bmod_eq_sub 1 (by omega) (by omega), Int.bmod_eq_of_le (by omega) (by omega)]
      grind
    · rw [bmod_eq_sub 1 (x := expected * 2) (by omega) (by omega)]
      rcases Int.lt_or_le expected (3 * 2 ^ 61) with hsmall | hbig
      · rw [bmod_eq_sub 1 (by omega) (by omega)]
        grind
      · rw [bmod_eq_sub 2 (by omega) (by omega)]
        grind

theorem compare_eq {α : Type} {expected span : Int64} (he : 0 < expected.toInt) (hs : 0 < span.toInt) (fast steady slow : α) :
    (let span := if span < expected / 4 then expected / 4 else span
     let span := if span > expected * 4 then expected * 4 else span
     if span < expected / 2 then fast else if span > expected * 2 then slow else steady) =
      match cutPace expected.toInt span.toInt with
      | .fast => fast
      | .steady => steady
      | .slow => slow := by
  have hquarter : (expected / 4).toInt = expected.toInt / 4 := toInt_div_of_pos he 4 (by decide)
  have hhalf : (expected / 2).toInt = expected.toInt / 2 := toInt_div_of_pos he 2 (by decide)
  have hdouble : (expected * 2).toInt = (expected.toInt * 2).bmod (2 ^ 64) := Int64.toInt_mul expected 2
  have hfour : (expected * 4).toInt = (expected.toInt * 4).bmod (2 ^ 64) := Int64.toInt_mul expected 4
  obtain ⟨hfast, hslow⟩ := cutPace_iff he expected.toInt_lt hs
  simp only [Int64.lt_iff_toInt_lt, gt_iff_lt, apply_ite Int64.toInt, hquarter, hhalf, hdouble, hfour]
  change (if cutSpan expected.toInt span.toInt < expected.toInt / 2 then fast
    else if (expected.toInt * 2).bmod (2 ^ 64) < cutSpan expected.toInt span.toInt then slow else steady) = _
  by_cases hf : cutSpan expected.toInt span.toInt < expected.toInt / 2
  · rw [if_pos hf, hfast.mp hf]
  · rw [if_neg hf]
    by_cases hl : cutSpan expected.toInt span.toInt > (expected.toInt * 2).bmod (2 ^ 64)
    · rw [if_pos hl, (hslow hf).mp hl]
    · rw [if_neg hl]
      cases hpace : cutPace expected.toInt span.toInt with
      | fast => exact absurd (hfast.mpr hpace) hf
      | steady => rfl
      | slow => exact absurd ((hslow hf).mpr hpace) hl

theorem toInt_of_pos {w : Int64} (h : (0 : Int64).toInt < w.toInt) : w.toInt = w.toUInt64.toNat := by
  have hle : (0 : Int) ≤ w.toInt := Int.le_of_lt h
  have hbits : w.toInt = w.toBitVec.toInt := rfl
  rw [hbits, BitVec.toInt_eq_toNat_of_msb ?_]
  · rfl
  · rw [BitVec.msb_eq_toInt, decide_eq_false_iff_not]
    exact Int.not_lt.mpr hle

theorem toNat_low (next : Int64) : (if next < 1 then 1 else next).toUInt64.toUInt32.toNat = (max 1 next.toInt).toNat % 2 ^ 32 := by
  have hone : next < 1 ↔ next.toInt < 1 := Int64.lt_iff_toInt_lt
  rw [UInt64.toNat_toUInt32]
  split
  · rename_i h
    have hlt := hone.mp h
    have hmax : max 1 next.toInt = 1 := by omega
    rw [hmax]
    rfl
  · rename_i h
    have hle := Int.not_lt.mp fun hlt => h (hone.mpr hlt)
    have hbits : next.toInt = next.toUInt64.toNat := toInt_of_pos (by rw [Int64.toInt_zero]; omega)
    have hmax : (max 1 next.toInt).toNat = next.toUInt64.toNat := by omega
    rw [hmax]

theorem toNat_clampDifficultyBits (hp : ValidParams p) (bits : UInt32) :
    (clampDifficultyBits p bits).toNat = max p.minDifficultyBits.toNat (min p.maxDifficultyBits.toNat bits.toNat) := by
  have hmin : p.minDifficultyBits.toNat ≠ 0 := fun h => hp.minDifficultyBits (UInt32.toNat_inj.mp h)
  have hmax : p.maxDifficultyBits.toNat ≤ 256 := UInt32.le_iff_toNat_le.mp hp.maxDifficultyBits
  have hle := UInt32.le_iff_toNat_le.mp hp.minLeMax
  have hone : (1 : UInt32).toNat = 1 := rfl
  have htop : maxDifficultyBits.toNat = 256 := rfl
  simp only [clampDifficultyBits, gt_iff_lt, UInt32.lt_iff_toNat_lt, apply_ite UInt32.toNat, hone, htop]
  grind

theorem toInt_expectedSpan (hp : ValidParams p) : (let targetSec := p.targetBlockTime / 1000000000
     let targetSec := if targetSec ≤ 0 then 1 else targetSec
     let expectedSpanSec := p.difficultyWindow * targetSec
     if expectedSpanSec ≤ 0 then 1 else expectedSpanSec).toInt = wrapSeconds p.expectedSpan := by
  have htarget : 0 < p.targetBlockTime.toInt := Int64.lt_iff_toInt_lt.mp hp.targetBlockTime
  have hseconds : (p.targetBlockTime / 1000000000).toInt = p.targetBlockTime.toInt / 1000000000 :=
    toInt_div_of_pos htarget 1000000000 (by decide)
  have hatLeast := toInt_orOne (p.targetBlockTime / 1000000000)
  rw [hseconds] at hatLeast
  rw [toInt_orOne, Int64.toInt_mul, hatLeast]
  rfl

theorem toInt_actualSpan (parent older : Block) : (let actualSpanSec := parent.timestampUnix - older.timestampUnix
     if actualSpanSec ≤ 0 then 1 else actualSpanSec).toInt =
      wrapSeconds (parent.timestampUnix.toInt - older.timestampUnix.toInt) := by
  rw [toInt_orOne, Int64.toInt_sub]
  rfl

def nextBits (bits step : Nat) : Pace → Int64
  | .fast => Int64.ofNat bits + Int64.ofNat step
  | .steady => Int64.ofNat bits
  | .slow => Int64.ofNat bits - Int64.ofNat step

theorem toInt_nextBits {step : Nat} (hbits : bits ≤ 256) (hstep : step < 2 ^ 32) (t : Pace) : (nextBits bits step t).toInt = match t with
      | .fast => (bits : Int) + step
      | .steady => (bits : Int)
      | .slow => (bits : Int) - step := by
  have hb : (Int64.ofNat bits).toInt = bits := Int64.toInt_ofNat_of_lt (by omega)
  have hs : (Int64.ofNat step).toInt = step := Int64.toInt_ofNat_of_lt (by omega)
  cases t with
  | fast =>
    rw [nextBits, Int64.toInt_add, hb, hs]
    exact Int.bmod_eq_of_le (by omega) (by omega)
  | steady => exact hb
  | slow =>
    rw [nextBits, Int64.toInt_sub, hb, hs]
    exact Int.bmod_eq_of_le (by omega) (by omega)

theorem retargetBits_eq (hp : ValidParams p) (parent older : Block) : retargetBits p parent older =
      (let next := nextBits parent.difficultyBits.toNat p.difficultyMaxStep.toNat
        (wrappedPace p.expectedSpan (parent.timestampUnix.toInt - older.timestampUnix.toInt))
       clampDifficultyBits p (if next < 1 then 1 else next).toUInt64.toUInt32) := by
  have hexpected := toInt_expectedSpan hp
  have hspan := toInt_actualSpan parent older
  have hcompare := compare_eq (by rw [hexpected]; exact wrapSeconds_pos _) (by rw [hspan]; exact wrapSeconds_pos _)
    (nextBits parent.difficultyBits.toNat p.difficultyMaxStep.toNat .fast)
    (nextBits parent.difficultyBits.toNat p.difficultyMaxStep.toNat .steady)
    (nextBits parent.difficultyBits.toNat p.difficultyMaxStep.toNat .slow)
  rw [hexpected, hspan] at hcompare
  have hclamp := congrArg (fun next : Int64 => clampDifficultyBits p (if next < 1 then 1 else next).toUInt64.toUInt32) hcompare
  refine Eq.trans hclamp ?_
  unfold wrappedPace
  cases cutPace (wrapSeconds p.expectedSpan) (wrapSeconds (parent.timestampUnix.toInt - older.timestampUnix.toInt)) with
  | fast => rfl
  | steady => rfl
  | slow => rfl

theorem toNat_retargetBits (hp : ValidParams p) {parent older : Block}
    (hlow : p.minDifficultyBits ≤ parent.difficultyBits) (hhigh : parent.difficultyBits ≤ p.maxDifficultyBits) :
    (retargetBits p parent older).toNat = p.wrappedBits parent.difficultyBits.toNat
      (wrappedPace p.expectedSpan (parent.timestampUnix.toInt - older.timestampUnix.toInt)) := by
  have hmin : p.minDifficultyBits.toNat ≠ 0 := fun h => hp.minDifficultyBits (UInt32.toNat_inj.mp h)
  have hmax : p.maxDifficultyBits.toNat ≤ 256 := UInt32.le_iff_toNat_le.mp hp.maxDifficultyBits
  have hlow := UInt32.le_iff_toNat_le.mp hlow
  have hhigh := UInt32.le_iff_toNat_le.mp hhigh
  have hstep := p.difficultyMaxStep.toNat_lt
  rw [retargetBits_eq hp]
  generalize wrappedPace p.expectedSpan (parent.timestampUnix.toInt - older.timestampUnix.toInt) = t
  have hnext := toInt_nextBits (hhigh.trans hmax) hstep t
  rw [toNat_clampDifficultyBits hp, toNat_low, hnext]
  cases t with
  | fast =>
    dsimp only [ConsensusParams.wrappedBits, ConsensusParams.adjusted]
    split
    · omega
    · omega
  | steady =>
    dsimp only [ConsensusParams.wrappedBits]
    omega
  | slow =>
    dsimp only [ConsensusParams.wrappedBits, ConsensusParams.adjusted]
    omega

theorem nextDifficultyBits_of_window (henable : p.difficultyEnable = true) {path : List Block} {parent : Block}
    (hparent : path.getLast? = some parent) (hlong : p.difficultyWindow.toInt < path.length) : nextDifficultyBitsFromPath p path =
      retargetBits p parent (path.getD (path.length - 1 - p.difficultyWindow.toInt.toNat) default) := by
  have hfull : ¬((path.length - 1 : Nat) : Int) < p.difficultyWindow.toInt := by omega
  simp only [nextDifficultyBitsFromPath, hparent, henable, Bool.true_eq_false, if_false, hfull]

theorem adjusted_between (hlow : p.minDifficultyBits.toNat ≤ bits) (hhigh : bits ≤ p.maxDifficultyBits.toNat) (t : Pace) :
    p.minDifficultyBits.toNat ≤ p.adjusted bits t ∧ p.adjusted bits t ≤ p.maxDifficultyBits.toNat := by
  cases t with
  | steady => exact ⟨hlow, hhigh⟩
  | fast | slow =>
    simp only [ConsensusParams.adjusted]
    omega

end RetargetAux

open RetargetAux

/-- The difficulty after a path of a full window is the exact one for a pace, so within the bounds, at most one step from the parent's,
and not moved against the pace. -/
structure Retargeted (p : ConsensusParams) (path : List Block) (bits : Nat) (t : Pace) : Prop where
  exact : (nextDifficultyBitsFromPath p path).toNat = p.adjusted bits t
  within : p.minDifficultyBits ≤ nextDifficultyBitsFromPath p path ∧ nextDifficultyBitsFromPath p path ≤ p.maxDifficultyBits
  step : (nextDifficultyBitsFromPath p path).toNat ≤ bits + p.difficultyMaxStep.toNat ∧
    bits ≤ (nextDifficultyBitsFromPath p path).toNat + p.difficultyMaxStep.toNat
  direction : (t ≠ .slow → bits ≤ (nextDifficultyBitsFromPath p path).toNat) ∧
    (t ≠ .fast → (nextDifficultyBitsFromPath p path).toNat ≤ bits)

theorem RetargetAux.retargeted_of_eq {path : List Block} {t : Pace}
    (hlow : p.minDifficultyBits.toNat ≤ bits) (hhigh : bits ≤ p.maxDifficultyBits.toNat)
    (h : (nextDifficultyBitsFromPath p path).toNat = p.adjusted bits t) : Retargeted p path bits t := by
  refine ⟨h, ?_, ?_, ?_⟩
  · rw [UInt32.le_iff_toNat_le, UInt32.le_iff_toNat_le, h]
    exact adjusted_between hlow hhigh t
  · rw [h]
    cases t with
    | steady => exact ⟨Nat.le_add_right _ _, Nat.le_add_right _ _⟩
    | fast | slow =>
      simp only [ConsensusParams.adjusted]
      omega
  · rw [h]
    cases t with
    | fast => exact ⟨fun _ => Nat.le_min.mpr ⟨hhigh, Nat.le_add_right _ _⟩, fun hne => absurd rfl hne⟩
    | steady => exact ⟨fun _ => Nat.le_refl _, fun _ => Nat.le_refl _⟩
    | slow => exact ⟨fun hne => absurd rfl hne, fun _ => Nat.max_le.mpr ⟨hlow, Nat.sub_le _ _⟩⟩

/-- A pace that should leave the difficulty where it is: there is no room for a step, or none is due. -/
def ConsensusParams.Rests (p : ConsensusParams) (bits : Nat) : Pace → Prop
  | .fast => bits = p.maxDifficultyBits.toNat
  | .steady => True
  | .slow => bits = p.minDifficultyBits.toNat

/-- A pace that leaves the difficulty where it is in 32 bits: a step up that wraps is one down. -/
def ConsensusParams.WrappedRests (p : ConsensusParams) (bits : Nat) : Pace → Prop
  | .fast => if bits + p.difficultyMaxStep.toNat < 2 ^ 32 then p.Rests bits .fast else p.Rests bits .slow
  | t => p.Rests bits t

instance ConsensusParams.decidableRests (p : ConsensusParams) (bits : Nat) : (t : Pace) → Decidable (p.Rests bits t)
  | .fast => inferInstanceAs (Decidable (bits = p.maxDifficultyBits.toNat))
  | .steady => inferInstanceAs (Decidable True)
  | .slow => inferInstanceAs (Decidable (bits = p.minDifficultyBits.toNat))

instance ConsensusParams.decidableWrappedRests (p : ConsensusParams) (bits : Nat) : (t : Pace) → Decidable (p.WrappedRests bits t)
  | .fast => inferInstanceAs (Decidable (if bits + p.difficultyMaxStep.toNat < 2 ^ 32 then p.Rests bits .fast else p.Rests bits .slow))
  | .steady => inferInstanceAs (Decidable (p.Rests bits .steady))
  | .slow => inferInstanceAs (Decidable (p.Rests bits .slow))

/-- The adjustment of a difficulty is exact. Either the pace is found in 64 bits, and a step up is one in 32 bits; or no step is due and
none is taken; or a slow window is taken for a fast one, and the step up wraps to the smallest difficulty, where the step down should
lead. -/
def RetargetFits (p : ConsensusParams) (span : Int) (bits : Nat) : Prop :=
  (wrappedPace p.expectedSpan span = pace p.expectedSpan (max 1 span) ∧
    (pace p.expectedSpan (max 1 span) = .fast → bits + p.difficultyMaxStep.toNat < 2 ^ 32)) ∨
  (p.WrappedRests bits (wrappedPace p.expectedSpan span) ∧ p.Rests bits (pace p.expectedSpan (max 1 span))) ∨
  (wrappedPace p.expectedSpan span = .fast ∧ pace p.expectedSpan (max 1 span) = .slow ∧ 2 ^ 32 ≤ bits + p.difficultyMaxStep.toNat ∧
    bits + p.difficultyMaxStep.toNat ≤ 2 ^ 32 + p.minDifficultyBits.toNat)

instance (p : ConsensusParams) (span : Int) (bits : Nat) : Decidable (RetargetFits p span bits) := by
  unfold RetargetFits
  infer_instance

/-- What the code makes of the pace that it finds is what the real pace asks for, in three ways. -/
theorem RetargetAux.wrappedBits_eq_iff (hp : ValidParams p) (hlow : p.minDifficultyBits.toNat ≤ bits)
    (hhigh : bits ≤ p.maxDifficultyBits.toNat) (found real : Pace) : p.wrappedBits bits found = p.adjusted bits real ↔
      (found = real ∧ (real = .fast → bits + p.difficultyMaxStep.toNat < 2 ^ 32)) ∨
      (p.WrappedRests bits found ∧ p.Rests bits real) ∨
      (found = .fast ∧ real = .slow ∧ 2 ^ 32 ≤ bits + p.difficultyMaxStep.toNat ∧
        bits + p.difficultyMaxStep.toNat ≤ 2 ^ 32 + p.minDifficultyBits.toNat) := by
  have hmax : p.maxDifficultyBits.toNat ≤ 256 := UInt32.le_iff_toNat_le.mp hp.maxDifficultyBits
  have hstep : p.difficultyMaxStep.toNat ≠ 0 := fun h => hp.difficultyMaxStep (UInt32.toNat_inj.mp h)
  have hstepMax := p.difficultyMaxStep.toNat_lt
  cases found with
  | fast =>
    -- a step up that wraps leads below the difficulty, and a step down of that size to the least one
    cases real with
    | fast | steady | slow =>
      grind [ConsensusParams.wrappedBits, ConsensusParams.adjusted, ConsensusParams.WrappedRests, ConsensusParams.Rests]
  | steady =>
    cases real with
    | steady => exact ⟨fun _ => Or.inl ⟨rfl, fun h => by cases h⟩, fun _ => rfl⟩
    | fast | slow => grind [ConsensusParams.wrappedBits, ConsensusParams.adjusted, ConsensusParams.WrappedRests, ConsensusParams.Rests]
  | slow =>
    cases real with
    | slow => exact ⟨fun _ => Or.inl ⟨rfl, fun h => by cases h⟩, fun _ => rfl⟩
    | fast | steady => grind [ConsensusParams.wrappedBits, ConsensusParams.adjusted, ConsensusParams.WrappedRests, ConsensusParams.Rests]

/-- The seconds that the last window of a path took. -/
def ConsensusParams.windowSpan (p : ConsensusParams) (path : List Block) (parent : Block) : Int :=
  parent.timestampUnix.toInt - (path.getD (path.length - 1 - p.difficultyWindow.toInt.toNat) default).timestampUnix.toInt

/-- After a path of a full window whose last block is within the bounds, the difficulty is the exact one if and only if nothing wraps on
the way that makes a difference at that span and that difficulty. Nothing does where a window should take less than `2 ^ 61` seconds, its
times are less than `2 ^ 63` seconds apart, and the difficulty and a step fit into 32 bits. -/
theorem retarget_exact_iff (p : ConsensusParams) (hp : validateConsensusParams p = .ok ()) (henable : p.difficultyEnable = true)
    (path : List Block) (parent : Block) (hparent : path.getLast? = some parent) (hlong : p.difficultyWindow.toInt < path.length)
    (hlow : p.minDifficultyBits ≤ parent.difficultyBits) (hhigh : parent.difficultyBits ≤ p.maxDifficultyBits) :
    (Retargeted p path parent.difficultyBits.toNat (pace p.expectedSpan (max 1 (p.windowSpan path parent))) ↔
      RetargetFits p (p.windowSpan path parent) parent.difficultyBits.toNat) ∧
    (p.expectedSpan < 2 ^ 61 → -2 ^ 63 ≤ p.windowSpan path parent → p.windowSpan path parent < 2 ^ 63 →
      parent.difficultyBits.toNat + p.difficultyMaxStep.toNat < 2 ^ 32 →
      RetargetFits p (p.windowSpan path parent) parent.difficultyBits.toNat) := by
  have hp := validateConsensusParams_ok_iff.mp hp
  have hlow' := UInt32.le_iff_toNat_le.mp hlow
  have hhigh' := UInt32.le_iff_toNat_le.mp hhigh
  have hbits : (nextDifficultyBitsFromPath p path).toNat =
      p.wrappedBits parent.difficultyBits.toNat (wrappedPace p.expectedSpan (p.windowSpan path parent)) := by
    rw [nextDifficultyBits_of_window henable hparent hlong, toNat_retargetBits hp hlow hhigh]
    rfl
  refine ⟨?_, fun hexpected hspanLow hspanHigh hstep =>
    Or.inl ⟨wrappedPace_eq (expectedSpan_pos hp) hexpected hspanLow hspanHigh, fun _ => hstep⟩⟩
  unfold RetargetFits
  rw [← wrappedBits_eq_iff hp hlow' hhigh', ← hbits]
  exact ⟨fun h => h.exact, retargeted_of_eq hlow' hhigh'⟩

namespace Sample

def retargeting : ConsensusParams :=
  { difficultyEnable := true, targetBlockTime := 15000000000, difficultyWindow := 1, difficultyMaxStep := 1, minDifficultyBits := 1
    maxDifficultyBits := 255, genesisDifficultyBits := 18, medianTimePastWindow := 11, maxTimeDrift := 7200, maxBlockSize := 1000000 }

def leaping : ConsensusParams := { retargeting with difficultyMaxStep := 0xffffffff }

/-- The difficulty 50 and a step fit into 32 bits, the greatest difficulty and a step do not. -/
def striding : ConsensusParams := { retargeting with difficultyMaxStep := 0xffffff9c }

def twoBlocks (first last : Int64) (bits : UInt32) : List Block :=
  [{ timestampUnix := first }, { timestampUnix := last, difficultyBits := bits }]

end Sample

open Sample

/-- A block after five seconds, with a small step and with a great one. -/
theorem retarget_exact_iff_early : Retargeted retargeting (twoBlocks 100 105 18) 18 .fast ∧
    Retargeted striding (twoBlocks 100 105 50) 50 .fast :=
  ⟨(retarget_exact_iff retargeting rfl rfl (twoBlocks 100 105 18) _ rfl (by decide) (by decide) (by decide)).1.mpr (by decide),
    (retarget_exact_iff striding rfl rfl (twoBlocks 100 105 50) _ rfl (by decide) (by decide) (by decide)).1.mpr (by decide)⟩

/-- A step up that wraps leads down; and a difference of two timestamps that wraps makes a slow block a fast one. -/
theorem retarget_wraps : validateConsensusParams leaping = .ok () ∧ pace leaping.expectedSpan 5 = .fast ∧
      leaping.adjusted 200 .fast = 255 ∧ nextDifficultyBitsFromPath leaping (twoBlocks 100 105 200) = 199 ∧
    validateConsensusParams retargeting = .ok () ∧
      pace retargeting.expectedSpan (Int64.maxValue.toInt - Int64.minValue.toInt) = .slow ∧
      retargeting.adjusted 18 .slow = 17 ∧
      nextDifficultyBitsFromPath retargeting (twoBlocks Int64.minValue Int64.maxValue 18) = 19 := by
  decide

end NeoCoin
