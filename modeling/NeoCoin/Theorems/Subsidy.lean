import NeoCoin.Internal.Ledger

/-!
# Blocks without transfers

A block without transfers has a coinbase of exactly the block reward, and a coinbase of 0 is refused.
-/

namespace NeoCoin

open GoLib

/-- Some coinbase of the amount that a block without transfers must pay passes its checks, and every block with it that is small enough
is applied. -/
def SubsidyAccepted (C : Crypto) (p : ConsensusParams) (height : UInt64) : Prop :=
  ∃ cb : Transaction, cb.type = .coinbase ∧ cb.amount = expectedCoinbase p height [] ∧ cb.verifyForConsensus C p height = .ok () ∧
    ∀ b s, b.height = height → b.transactions = [cb] → b.minerAddress = cb.toAddress →
      (p.maxBlockSize > 0 → blockSizeForConsensus b ≤ p.maxBlockSize.toNat) → (applyBlockToState C p s b).1 = .ok ()

def Internal.SubsidyAccepted (C : Crypto) (p : ConsensusParams) (height : UInt64) : Prop :=
  ∃ cb : Transaction, cb.type = .coinbase ∧ cb.amount = expectedCoinbase p height [] ∧ verifyForConsensus C cb p height = .ok () ∧
    ∀ b s, b.height = height → b.transactions = [cb] → b.minerAddress = cb.toAddress →
      (p.maxBlockSize > 0 → blockSizeForConsensus b ≤ p.maxBlockSize.toNat) → (applyBlockToState C p s b).1 = .ok ()

namespace SubsidyAux

def coinbaseOf (C : Crypto) (amount : UInt64) : Transaction :=
  { type := .coinbase, chainID := 1, toAddress := generateAddress C [], amount := amount }

theorem verified_coinbaseOf (C : Crypto) {amount : UInt64} (h : amount ≠ 0) : VerifiedCoinbase C (coinbaseOf C amount) :=
  ⟨(by decide : (1 : UInt64) ≠ 0), h, validateAddress_generateAddress C [], rfl, rfl, rfl, rfl⟩

theorem minerFeeAmount_zero (p : MonetaryPolicy) : p.minerFeeAmount 0 = 0 := if_pos (Or.inr rfl)

theorem expectedCoinbase_nil (p : ConsensusParams) (height : UInt64) :
    expectedCoinbase p height [] = p.monetaryPolicy.blockReward height := by
  have hfees : transferFees [] = 0 := rfl
  rw [expectedCoinbase, hfees, minerFeeAmount_zero, UInt64.add_zero]

theorem expectedCoinbase_internal_nil (p : ConsensusParams) (height : UInt64) :
    Internal.expectedCoinbase p height [] = Internal.blockReward p.monetaryPolicy height := by
  have hfees : transferFees [] = 0 := rfl
  rw [Internal.expectedCoinbase, hfees, minerFeeAmount_zero, UInt64.add_zero]

theorem subsidyAccepted_iff (C : Crypto) (p : ConsensusParams) (height : UInt64) :
    SubsidyAccepted C p height ↔ p.monetaryPolicy.blockReward height ≠ 0 := by
  constructor
  · rintro ⟨cb, htype, hamount, hverify, -⟩
    have hv := (verifyForConsensus_coinbase_iff C p height htype).mp hverify
    rw [← expectedCoinbase_nil, ← hamount]
    exact hv.amount
  · intro h
    rw [← expectedCoinbase_nil] at h
    have hv := verified_coinbaseOf C h
    refine ⟨coinbaseOf C _, rfl, rfl, (verifyForConsensus_coinbase_iff C p height rfl).mpr hv, ?_⟩
    rintro b s rfl htxs hminer hsize
    have haccepted : BlockAccepted C p b (coinbaseOf C (expectedCoinbase p b.height [])) [] s :=
      ⟨htxs, hsize, rfl, fun _ => ⟨hminer ▸ hv.toAddress, hminer.symm, rfl⟩, hv, trivial⟩
    rw [(applyBlockToState_ok_iff C p).mpr ⟨⟨_, _, haccepted⟩, rfl⟩]

theorem subsidyAccepted_internal_iff (C : Crypto) (p : ConsensusParams) (height : UInt64) :
    Internal.SubsidyAccepted C p height ↔ Internal.blockReward p.monetaryPolicy height ≠ 0 := by
  constructor
  · rintro ⟨cb, htype, hamount, hverify, -⟩
    have hv := (Internal.verifyForConsensus_coinbase_iff C p height htype).mp hverify
    rw [← expectedCoinbase_internal_nil, ← hamount]
    exact hv.amount
  · intro h
    rw [← expectedCoinbase_internal_nil] at h
    have hv := verified_coinbaseOf C h
    refine ⟨coinbaseOf C _, rfl, rfl, (Internal.verifyForConsensus_coinbase_iff C p height rfl).mpr hv, ?_⟩
    rintro b s rfl htxs hminer hsize
    have heconomics : b.height > 0 → Internal.checkEconomics C p b (coinbaseOf C (Internal.expectedCoinbase p b.height [])) [] = .ok () :=
      fun _ => (Internal.checkEconomics_ok_iff C p).mpr ⟨hminer ▸ hv.toAddress, hminer.symm, rfl⟩
    rw [Internal.applyBlockToState_coinbase s htxs hsize rfl heconomics hv]

theorem blockReward_eq_zero_iff {p : MonetaryPolicy} (hp : p.validate = .ok ()) (height : UInt64) :
    p.blockReward height = 0 ↔ p.tailEmission = 0 ∧ 64 ≤ height / p.halvingInterval := by
  have hinterval := (MonetaryPolicy.validate_ok_iff.mp hp).2.1
  unfold MonetaryPolicy.blockReward
  rw [if_neg hinterval]
  by_cases hcut : height / p.halvingInterval ≥ 64
  · rw [if_pos hcut]
    exact ⟨fun h => ⟨h, hcut⟩, fun h => h.1⟩
  · simp only [if_neg hcut]
    split
    · simp [show ¬64 ≤ height / p.halvingInterval from hcut]
    · split
      · grind
      · grind

theorem blockReward_internal_eq_zero_iff {p : MonetaryPolicy} (hp : p.validate = .ok ()) (height : UInt64) :
    Internal.blockReward p height = 0 ↔
      p.tailEmission = 0 ∧ (64 ≤ height / p.halvingInterval ∨ p.initialBlockReward >>> (height / p.halvingInterval) = 0) := by
  have hinterval := (MonetaryPolicy.validate_ok_iff.mp hp).2.1
  unfold Internal.blockReward
  rw [if_neg hinterval]
  by_cases hcut : height / p.halvingInterval ≥ 64
  · rw [if_pos hcut]
    exact ⟨fun h => ⟨h, Or.inl hcut⟩, fun h => h.1⟩
  · simp only [if_neg hcut]
    split
    · grind
    · grind

end SubsidyAux

open SubsidyAux

/-- A block without transfers can be valid at a height exactly as long as the policy pays something there. -/
theorem subsidy_iff (C : Crypto) {p : ConsensusParams} (hp : p.monetaryPolicy.validate = .ok ()) (height : UInt64) :
    (SubsidyAccepted C p height ↔ ¬(p.monetaryPolicy.tailEmission = 0 ∧ 64 ≤ height / p.monetaryPolicy.halvingInterval)) ∧
    (Internal.SubsidyAccepted C p height ↔
      ¬(p.monetaryPolicy.tailEmission = 0 ∧ (64 ≤ height / p.monetaryPolicy.halvingInterval ∨
        p.monetaryPolicy.initialBlockReward >>> (height / p.monetaryPolicy.halvingInterval) = 0))) := by
  constructor
  · rw [subsidyAccepted_iff, Ne, blockReward_eq_zero_iff hp]
  · rw [subsidyAccepted_internal_iff, Ne, blockReward_internal_eq_zero_iff hp]

namespace Sample

def tailless : ConsensusParams :=
  { monetaryPolicy := { initialBlockReward := 50, halvingInterval := 100, minerFeeShare := 100, tailEmission := 0 } }

end Sample

open Sample

theorem subsidy_iff_first : SubsidyAccepted (goCrypto []) tailless 1 ∧ Internal.SubsidyAccepted (goCrypto []) tailless 1 :=
  have h := subsidy_iff (goCrypto []) (p := tailless) rfl 1
  ⟨h.1.mpr (by decide), h.2.mpr (by decide)⟩

/-- Without tail emission the coinbase of a block without transfers has to be 0 from height 6400 on, and in the second implementation
from height 600 on. -/
theorem no_subsidy_after_halvings : tailless.monetaryPolicy.validate = .ok () ∧
    expectedCoinbase tailless 6400 [] = 0 ∧ Internal.expectedCoinbase tailless 600 [] = 0 ∧
    (∀ C, ¬SubsidyAccepted C tailless 6400) ∧ ∀ C, ¬Internal.SubsidyAccepted C tailless 600 := by
  refine ⟨rfl, by decide, by decide, ?_, ?_⟩
  · intro C
    rw [subsidyAccepted_iff]
    decide
  · intro C
    rw [subsidyAccepted_internal_iff]
    decide

end NeoCoin
