import NeoCoin.Theorems.Emission
import NeoCoin.Theorems.Rules
import NeoCoin.Theorems.Subsidy

/-!
# What a coinbase has to pay

The coinbase of a block pays the subsidy of its height and the miner's share of the fees, both computed in 64 bits (`coinbase_exact_iff`).
The second implementation has its own copy of the subsidy (`same_subsidy_iff`).
-/

namespace NeoCoin

open GoLib

namespace CoinbaseAux

open EmissionAux

variable {p : MonetaryPolicy}

/-! ## The miner's share of the fees -/

theorem toNat_minerFeeAmount (p : MonetaryPolicy) (fees : UInt64) :
    (p.minerFeeAmount fees).toNat = fees.toNat * p.minerFeeShare.toNat % 2 ^ 64 / 100 := by
  unfold MonetaryPolicy.minerFeeAmount
  split
  · rename_i hzero
    rcases hzero with h | h
    · simp [h]
    · simp [h]
  · rw [UInt64.toNat_div, UInt64.toNat_mul, UInt8.toNat_toUInt64]
    rfl

theorem toNat_minerFeeAmount_eq_iff (p : MonetaryPolicy) (fees : UInt64) :
    (p.minerFeeAmount fees).toNat = fees.toNat * p.minerFeeShare.toNat / 100 ↔ fees.toNat * p.minerFeeShare.toNat < 2 ^ 64 := by
  rw [toNat_minerFeeAmount]
  omega

theorem minerFeeShare_le (hp : p.validate = .ok ()) : p.minerFeeShare.toNat ≤ 100 := by
  have hshare := (MonetaryPolicy.validate_ok_iff.mp hp).2.2
  exact UInt8.le_iff_toNat_le.mp (UInt8.not_lt.mp hshare)

end CoinbaseAux

open CoinbaseAux EmissionAux

/-- The miner gets its share of the fees, rounded down. -/
structure FeeShareExact (p : MonetaryPolicy) (fees : UInt64) : Prop where
  floor : (p.minerFeeAmount fees).toNat = fees.toNat * p.minerFeeShare.toNat / 100
  le : p.minerFeeAmount fees ≤ fees
  whole : p.minerFeeShare = 100 → p.minerFeeAmount fees = fees
  mono : ∀ fewer ≤ fees, p.minerFeeAmount fewer ≤ p.minerFeeAmount fees

theorem CoinbaseAux.feeShareExact_iff {p : MonetaryPolicy} (hp : p.validate = .ok ()) (fees : UInt64) :
    FeeShareExact p fees ↔ fees.toNat * p.minerFeeShare.toNat < 2 ^ 64 := by
  constructor
  · intro h
    exact (toNat_minerFeeAmount_eq_iff p fees).mp h.floor
  · intro hfits
    have hfloor := (toNat_minerFeeAmount_eq_iff p fees).mpr hfits
    have hshare : fees.toNat * p.minerFeeShare.toNat ≤ fees.toNat * 100 := Nat.mul_le_mul_left _ (minerFeeShare_le hp)
    refine ⟨hfloor, ?_, ?_, ?_⟩
    · rw [UInt64.le_iff_toNat_le, hfloor]
      omega
    · intro hwhole
      rw [← UInt64.toNat_inj, hfloor, hwhole]
      exact Nat.mul_div_cancel _ (by decide)
    · intro fewer hfewer
      have hle : fewer.toNat * p.minerFeeShare.toNat ≤ fees.toNat * p.minerFeeShare.toNat :=
        Nat.mul_le_mul_right _ (UInt64.le_iff_toNat_le.mp hfewer)
      rw [UInt64.le_iff_toNat_le, hfloor, (toNat_minerFeeAmount_eq_iff p fewer).mpr (Nat.lt_of_le_of_lt hle hfits)]
      exact Nat.div_le_div_right hle

/-- The miner's share is exact and its sum with the subsidy does not wrap if and only if the fees times the percentage fit into 64 bits,
and the subsidy and the exact share do together. -/
theorem coinbase_exact_iff (policy : MonetaryPolicy) (hp : policy.validate = .ok ()) (fees height : UInt64) :
    (FeeShareExact policy fees ∧ ∀ p transfers, p.monetaryPolicy = policy → transferFees transfers = fees →
      (expectedCoinbase p height transfers).toNat = (policy.blockReward height).toNat + (policy.minerFeeAmount fees).toNat) ↔
    fees.toNat * policy.minerFeeShare.toNat < 2 ^ 64 ∧
      policy.subsidy height.toNat + fees.toNat * policy.minerFeeShare.toNat / 100 < 2 ^ 64 := by
  rw [feeShareExact_iff hp]
  refine and_congr_right fun hfits => ?_
  have hreward := toNat_blockReward (MonetaryPolicy.validate_ok_iff.mp hp).2.1 height
  have hshare := (toNat_minerFeeAmount_eq_iff policy fees).mpr hfits
  constructor
  · intro h
    -- a block with one transfer can have any fees
    have hone := h { monetaryPolicy := policy } [{ type := .transfer, fee := fees }] rfl (by simp [transferFees])
    rw [hreward, hshare] at hone
    rw [← hone]
    exact UInt64.toNat_lt _
  · rintro hsum p transfers rfl rfl
    rw [expectedCoinbase, UInt64.toNat_add, hreward, hshare]
    exact Nat.mod_eq_of_lt hsum

open Sample

/-- The whole of the fees, in a block of the first era. -/
theorem coinbase_exact_iff_first : FeeShareExact tailless.monetaryPolicy 1000 ∧ ∀ transfers, transferFees transfers = 1000 →
      (expectedCoinbase tailless 1 transfers).toNat = 1050 := by
  have h := (coinbase_exact_iff tailless.monetaryPolicy rfl 1000 1).mpr (by decide)
  exact ⟨h.1, fun transfers hfees => h.2 tailless transfers rfl hfees⟩

def Sample.lavish : ConsensusParams :=
  { monetaryPolicy := { initialBlockReward := 0xffffffffffffffff, halvingInterval := 2, minerFeeShare := 100, tailEmission := 0 } }

/-- Fees of which the product with the percentage is a multiple of `2 ^ 64`: nothing is left for the miner. And a subsidy that one unit of
fees wraps around. -/
theorem coinbase_wraps : tailless.monetaryPolicy.validate = .ok () ∧ tailless.monetaryPolicy.minerFeeShare = 100 ∧
      tailless.monetaryPolicy.minerFeeAmount 0x8000000000000000 = 0 ∧
    lavish.monetaryPolicy.validate = .ok () ∧ lavish.monetaryPolicy.blockReward 1 = 0xffffffffffffffff ∧
      lavish.monetaryPolicy.minerFeeAmount 1 = 1 ∧ expectedCoinbase lavish 1 [{ type := .transfer, fee := 1 }] = 0 := by
  decide

/-! ## The second implementation -/

namespace CoinbaseAux

theorem blockReward_eq_internal_iff {p : MonetaryPolicy} (hinterval : p.halvingInterval ≠ 0) (height : UInt64) :
    p.blockReward height = Internal.blockReward p height ↔
      p.tailEmission ≠ 0 ∨ 64 ≤ height.toNat / p.halvingInterval.toNat ∨
        2 ^ (height.toNat / p.halvingInterval.toNat) ≤ p.initialBlockReward.toNat := by
  unfold MonetaryPolicy.blockReward Internal.blockReward
  rw [if_neg hinterval, if_neg hinterval]
  by_cases hcut : 64 ≤ height.toNat / p.halvingInterval.toNat
  · rw [if_pos ((halvings_ge_iff height).mpr hcut), if_pos ((halvings_ge_iff height).mpr hcut)]
    simp [hcut]
  · rw [if_neg fun h => hcut ((halvings_ge_iff height).mp h), if_neg fun h => hcut ((halvings_ge_iff height).mp h)]
    simp only [halved_eq_zero_iff hcut, Nat.div_eq_zero_iff_lt (Nat.two_pow_pos _)]
    by_cases hgone : p.initialBlockReward.toNat < 2 ^ (height.toNat / p.halvingInterval.toNat)
    · by_cases htail : p.tailEmission = 0
      · rw [if_pos ⟨hgone, htail⟩, if_pos hgone, htail]
        simp [hcut, hgone]
      · rw [if_neg fun h => htail h.2, if_pos hgone]
        simp [htail]
    · rw [if_neg fun h => hgone h.1, if_neg hgone]
      simp [Nat.not_lt.mp hgone]

end CoinbaseAux

/-- The two implementations pay one subsidy at a height if and only if there is a tail emission, or the reward has not been halved away,
or the 64 halvings are over. -/
theorem same_subsidy_iff (policy : MonetaryPolicy) (hp : policy.validate = .ok ()) (height : UInt64) :
    (policy.blockReward height = Internal.blockReward policy height ↔
      policy.tailEmission ≠ 0 ∨ 64 ≤ height.toNat / policy.halvingInterval.toNat ∨
        2 ^ (height.toNat / policy.halvingInterval.toNat) ≤ policy.initialBlockReward.toNat) ∧
    ∀ (C : Crypto) (p p' : ConsensusParams) (transfers : List Transaction), p.monetaryPolicy = policy →
      C.CollisionFreeOn [p.marshalBinary, p'.marshalBinary] → p.rulesHash C = p'.rulesHash C →
      (expectedCoinbase p height transfers = Internal.expectedCoinbase p' height transfers ↔
        policy.tailEmission ≠ 0 ∨ 64 ≤ height.toNat / policy.halvingInterval.toNat ∨
          2 ^ (height.toNat / policy.halvingInterval.toNat) ≤ policy.initialBlockReward.toNat) := by
  have hsubsidy := blockReward_eq_internal_iff (MonetaryPolicy.validate_ok_iff.mp hp).2.1 height
  refine ⟨hsubsidy, ?_⟩
  rintro C p p' transfers rfl hfree hrules
  have hencoding := hfree _ (by simp) _ (by simp) hrules
  have hpolicy : p'.monetaryPolicy = p.monetaryPolicy := by
    rw [(RulesAux.marshalBinary_inj hencoding).1]
    rfl
  rw [expectedCoinbase, Internal.expectedCoinbase, hpolicy, UInt64.add_left_inj]
  exact hsubsidy

theorem same_subsidy_iff_first : tailless.monetaryPolicy.blockReward 599 = Internal.blockReward tailless.monetaryPolicy 599 :=
  (same_subsidy_iff tailless.monetaryPolicy rfl 599).1.mpr (by decide)

/-- A reward of 50 is halved away at the sixth halving: one implementation pays 1 then, the other 0. -/
theorem subsidies_differ : tailless.monetaryPolicy.validate = .ok () ∧ tailless.monetaryPolicy.blockReward 600 = 1 ∧
      Internal.blockReward tailless.monetaryPolicy 600 = 0 ∧
      expectedCoinbase tailless 600 [] ≠ Internal.expectedCoinbase tailless 600 [] := by
  refine ⟨rfl, by decide, by decide, by decide⟩

end NeoCoin
