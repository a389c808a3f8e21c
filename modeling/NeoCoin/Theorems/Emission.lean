import NeoCoin.Genesis
import NeoCoin.Lib.Eras

/-!
# The emission of a policy

Rewards that halve every `HalvingInterval` blocks sum to less than twice the first era. In the code a reward that has been halved away is 1
until the 64th halving, when the policy has no tail emission.
-/

namespace NeoCoin

open GoLib

/-- The subsidy at a height, as a natural number: the first reward halved once for each interval, at least 1 or the tail emission where
nothing is left of it; after 64 halvings the tail emission. -/
def MonetaryPolicy.subsidy (p : MonetaryPolicy) (height : Nat) : Nat :=
  let halvings := height / p.halvingInterval.toNat
  if 64 ≤ halvings then p.tailEmission.toNat
  else if p.initialBlockReward.toNat / 2 ^ halvings = 0 then max 1 p.tailEmission.toNat
  else p.initialBlockReward.toNat / 2 ^ halvings

/-- The rewards of the blocks from height 1 up to a height, as a natural number. -/
def MonetaryPolicy.emitted (p : MonetaryPolicy) (height : UInt64) : Nat :=
  ∑ h ∈ Finset.Icc 1 height.toNat, (p.blockReward (UInt64.ofNat h)).toNat

def bitLength (n : UInt64) : Nat := (Nat.digits 2 n.toNat).length

def bitCount (n : UInt64) : Nat := (Nat.digits 2 n.toNat).sum

namespace EmissionAux

variable {p : MonetaryPolicy}

theorem bitLength_le (n : UInt64) : bitLength n ≤ 64 :=
  (Nat.digits_length_le_iff (by decide) n.toNat).mpr n.toNat_lt

theorem interval_pos (hinterval : p.halvingInterval ≠ 0) : 0 < p.halvingInterval.toNat :=
  Nat.pos_of_ne_zero fun h => hinterval (UInt64.toNat_inj.mp h)

theorem halvings_ge_iff (height : UInt64) : height / p.halvingInterval ≥ 64 ↔ 64 ≤ height.toNat / p.halvingInterval.toNat := by
  rw [ge_iff_le, UInt64.le_iff_toNat_le, UInt64.toNat_div]
  rfl

theorem toNat_halved {height : UInt64} (h : ¬64 ≤ height.toNat / p.halvingInterval.toNat) :
    (p.initialBlockReward >>> (height / p.halvingInterval)).toNat =
      p.initialBlockReward.toNat / 2 ^ (height.toNat / p.halvingInterval.toNat) := by
  rw [UInt64.toNat_shiftRight, UInt64.toNat_div, Nat.mod_eq_of_lt (Nat.not_le.mp h), Nat.shiftRight_eq_div_pow]

theorem halved_eq_zero_iff {height : UInt64} (h : ¬64 ≤ height.toNat / p.halvingInterval.toNat) :
    p.initialBlockReward >>> (height / p.halvingInterval) = 0 ↔
      p.initialBlockReward.toNat / 2 ^ (height.toNat / p.halvingInterval.toNat) = 0 := by
  rw [← UInt64.toNat_inj, toNat_halved h]
  rfl

theorem toNat_blockReward (hinterval : p.halvingInterval ≠ 0) (height : UInt64) :
    (p.blockReward height).toNat = p.subsidy height.toNat := by
  unfold MonetaryPolicy.blockReward MonetaryPolicy.subsidy
  rw [if_neg hinterval]
  by_cases hcut : 64 ≤ height.toNat / p.halvingInterval.toNat
  · rw [if_pos ((halvings_ge_iff height).mpr hcut), if_pos hcut]
  · rw [if_neg fun h => hcut ((halvings_ge_iff height).mp h), if_neg hcut]
    simp only [halved_eq_zero_iff hcut]
    by_cases hgone : p.initialBlockReward.toNat / 2 ^ (height.toNat / p.halvingInterval.toNat) = 0
    · by_cases htail : p.tailEmission = 0
      · rw [if_pos ⟨hgone, htail⟩, if_pos hgone, htail]
        rfl
      · have hpos : p.tailEmission.toNat ≠ 0 := fun h => htail (UInt64.toNat_inj.mp h)
        rw [if_neg fun h => htail h.2, if_pos hgone, if_pos hgone]
        omega
    · rw [if_neg fun h => hgone h.1, if_neg hgone, if_neg hgone, toNat_halved hcut]

theorem blockReward_eq (hinterval : p.halvingInterval ≠ 0) (htail : p.tailEmission = 0) {h : Nat} (hh : h < 2 ^ 64) :
    (p.blockReward (UInt64.ofNat h)).toNat = p.initialBlockReward.toNat / 2 ^ (h / p.halvingInterval.toNat) +
      if bitLength p.initialBlockReward ≤ h / p.halvingInterval.toNat ∧ h / p.halvingInterval.toNat < 64 then 1 else 0 := by
  have hgone : p.initialBlockReward.toNat / 2 ^ (h / p.halvingInterval.toNat) = 0 ↔ _ := Eras.div_two_pow_eq_zero_iff _ _
  have hlength := bitLength_le p.initialBlockReward
  rw [toNat_blockReward hinterval, UInt64.toNat_ofNat_of_lt' hh, MonetaryPolicy.subsidy, htail]
  by_cases hcut : 64 ≤ h / p.halvingInterval.toNat
  · rw [if_pos hcut, hgone.mpr (hlength.trans hcut), if_neg (by omega)]
    rfl
  · rw [if_neg hcut]
    by_cases hleft : bitLength p.initialBlockReward ≤ h / p.halvingInterval.toNat
    · rw [if_pos (hgone.mpr hleft), if_pos ⟨hleft, Nat.not_le.mp hcut⟩, hgone.mpr hleft]
      rfl
    · rw [if_neg fun h => hleft (hgone.mp h), if_neg fun h => hleft h.1, Nat.add_zero]

theorem initialBlockReward_add_emitted (hinterval : p.halvingInterval ≠ 0) (htail : p.tailEmission = 0)
    (hreward : p.initialBlockReward ≠ 0) (height : UInt64) : p.initialBlockReward.toNat + p.emitted height =
      ∑ h ∈ Finset.range (height.toNat + 1), p.initialBlockReward.toNat / 2 ^ (h / p.halvingInterval.toNat) +
        (min (height.toNat + 1) (64 * p.halvingInterval.toNat) - bitLength p.initialBlockReward * p.halvingInterval.toNat) := by
  have hall : ∑ h ∈ Finset.range (height.toNat + 1), (p.blockReward (UInt64.ofNat h)).toNat =
      p.initialBlockReward.toNat + p.emitted height := by
    have hzero : (p.blockReward (UInt64.ofNat 0)).toNat = p.initialBlockReward.toNat := by
      unfold MonetaryPolicy.blockReward
      rw [if_neg hinterval]
      simp [hreward]
    rw [Finset.range_eq_Ico, Finset.sum_eq_sum_Ico_succ_bot (Nat.succ_pos _), hzero]
    rfl
  rw [← hall, ← Eras.sum_range_eras (interval_pos hinterval), ← Finset.sum_add_distrib]
  refine Finset.sum_congr rfl ?_
  intro h hh
  refine blockReward_eq hinterval htail ?_
  have hlt := height.toNat_lt
  have hle := Finset.mem_range.mp hh
  omega

theorem halved_away (n : UInt64) (k : Nat) (hk : bitLength n ≤ k) : n.toNat / 2 ^ k = 0 :=
  (Eras.div_two_pow_eq_zero_iff _ k).mpr hk

theorem twice_first_era (p : MonetaryPolicy) :
    p.halvingInterval.toNat * ∑ k ∈ Finset.range (bitLength p.initialBlockReward), p.initialBlockReward.toNat / 2 ^ k +
      bitCount p.initialBlockReward * p.halvingInterval.toNat = 2 * p.initialBlockReward.toNat * p.halvingInterval.toNat := by
  rw [Nat.mul_comm p.halvingInterval.toNat, ← Nat.add_mul]
  exact congrArg (· * p.halvingInterval.toNat) (Eras.sum_halvings p.initialBlockReward.toNat)

theorem emitted_le_of_before (hinterval : p.halvingInterval ≠ 0) (htail : p.tailEmission = 0) (hreward : p.initialBlockReward ≠ 0)
    {height : UInt64} (hbefore : height.toNat + 1 ≤ bitLength p.initialBlockReward * p.halvingInterval.toNat) :
    p.emitted height ≤ 2 * p.initialBlockReward.toNat * p.halvingInterval.toNat := by
  have hsum := initialBlockReward_add_emitted hinterval htail hreward height
  have hle := (Eras.sum_range_of_ended (interval_pos hinterval) (halved_away p.initialBlockReward) (height.toNat + 1)).1
  have htwice := twice_first_era p
  omega

theorem emitted_of_after (hinterval : p.halvingInterval ≠ 0) (htail : p.tailEmission = 0) (hreward : p.initialBlockReward ≠ 0)
    {height : UInt64} (hafter : bitLength p.initialBlockReward * p.halvingInterval.toNat ≤ height.toNat + 1) :
    p.emitted height + (bitLength p.initialBlockReward + bitCount p.initialBlockReward) * p.halvingInterval.toNat +
        p.initialBlockReward.toNat =
      2 * p.initialBlockReward.toNat * p.halvingInterval.toNat + min (height.toNat + 1) (64 * p.halvingInterval.toNat) := by
  have hsum := initialBlockReward_add_emitted hinterval htail hreward height
  rw [(Eras.sum_range_of_ended (interval_pos hinterval) (halved_away p.initialBlockReward) (height.toNat + 1)).2 hafter] at hsum
  have htwice := twice_first_era p
  have hlength := Nat.mul_le_mul_right p.halvingInterval.toNat (bitLength_le p.initialBlockReward)
  rw [Nat.add_mul]
  omega

end EmissionAux

/-- The emission is within the greatest supply of the tokenomics exactly when the blocks until then, or until the 64th halving, are no
more than the eras for each digit, and each digit 1, of the first reward, and that reward itself. -/
theorem emission_cap_iff (p : MonetaryPolicy) (height : UInt64) (hvalid : p.validate = .ok ()) (htail : p.tailEmission = 0) :
    p.emitted height ≤ 2 * p.initialBlockReward.toNat * p.halvingInterval.toNat ↔
      min (height.toNat + 1) (64 * p.halvingInterval.toNat) ≤
        (bitLength p.initialBlockReward + bitCount p.initialBlockReward) * p.halvingInterval.toNat +
          p.initialBlockReward.toNat := by
  obtain ⟨hreward, hinterval, -⟩ := MonetaryPolicy.validate_ok_iff.mp hvalid
  have hreward : p.initialBlockReward ≠ 0 := fun h => hreward ⟨h, htail⟩
  rcases Nat.le_total (bitLength p.initialBlockReward * p.halvingInterval.toNat) (height.toNat + 1) with hafter | hbefore
  · have hemitted := EmissionAux.emitted_of_after hinterval htail hreward hafter
    omega
  · have hemitted := EmissionAux.emitted_le_of_before hinterval htail hreward hbefore
    have hsplit := Nat.add_mul (bitLength p.initialBlockReward) (bitCount p.initialBlockReward) p.halvingInterval.toNat
    omega

namespace Sample

def tokenomics : MonetaryPolicy :=
  { initialBlockReward := 50, halvingInterval := 210000, minerFeeShare := 100, tailEmission := 0 }

theorem bits_tokenomics : bitLength tokenomics.initialBlockReward = 6 ∧ bitCount tokenomics.initialBlockReward = 3 := by
  have hreward : tokenomics.initialBlockReward.toNat = 50 := rfl
  have hdigits : Nat.digits 2 50 = [0, 1, 0, 0, 1, 1] := by norm_num
  rw [bitLength, bitCount, hreward, hdigits]
  exact ⟨rfl, rfl⟩

end Sample

/-- The first nine eras of the tokenomics stay within 21,000,000. -/
theorem emission_cap_iff_tokenomics : Sample.tokenomics.validate = .ok () ∧ Sample.tokenomics.emitted 1890000 ≤ 21000000 := by
  refine ⟨rfl, (emission_cap_iff Sample.tokenomics 1890000 rfl rfl).mpr ?_⟩
  rw [Sample.bits_tokenomics.1, Sample.bits_tokenomics.2]
  decide

/-- Up to the 64th halving the tokenomics emit 32,549,950. -/
theorem tokenomics_exceeds_cap :
    Sample.tokenomics.validate = .ok () ∧ Sample.tokenomics.tailEmission = 0 ∧ Sample.tokenomics.emitted 13439999 = 32549950 ∧
      2 * Sample.tokenomics.initialBlockReward.toNat * Sample.tokenomics.halvingInterval.toNat = 21000000 := by
  have hafter : bitLength Sample.tokenomics.initialBlockReward * Sample.tokenomics.halvingInterval.toNat ≤
      (13439999 : UInt64).toNat + 1 := by
    rw [Sample.bits_tokenomics.1]
    decide
  have hemitted := EmissionAux.emitted_of_after (by decide) rfl (by decide) hafter
  rw [Sample.bits_tokenomics.1, Sample.bits_tokenomics.2] at hemitted
  have hreward : Sample.tokenomics.initialBlockReward.toNat = 50 := rfl
  have hinterval : Sample.tokenomics.halvingInterval.toNat = 210000 := rfl
  have hheight : (13439999 : UInt64).toNat = 13439999 := rfl
  rw [hreward, hinterval, hheight] at hemitted
  rw [hreward, hinterval]
  refine ⟨rfl, rfl, ?_, by decide⟩
  generalize Sample.tokenomics.emitted 13439999 = emission at hemitted ⊢
  omega

end NeoCoin
