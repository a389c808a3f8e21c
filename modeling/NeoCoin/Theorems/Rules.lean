import NeoCoin.Chain
import NeoCoin.Theorems.Retarget
import NeoCoin.Theorems.Value
import Mathlib.Data.List.GetD

/-!
# What the rules hash says about the rules

The rules hash is the digest of `MarshalBinary`, which writes the two windows of the parameters, 64-bit integers, with 32 bits each, and
everything else in full (`marshalBinary_inj`).
-/

namespace NeoCoin

open GoLib List

variable {p : ConsensusParams} {w m : Int64}

/-- Two sets of parameters ask for the same difficulty on every path, and give the same verdict on every time and every block. -/
structure SameRules (p p' : ConsensusParams) : Prop where
  difficulty : ∀ path, nextDifficultyBitsFromPath p path = nextDifficultyBitsFromPath p' path
  time : ∀ path idx now, validateBlockTime p path idx now = validateBlockTime p' path idx now
  ledger : ∀ C s b, applyBlockToState C p s b = applyBlockToState C p' s b

theorem SameRules.symm {p' : ConsensusParams} (h : SameRules p p') : SameRules p' p :=
  ⟨fun path => (h.difficulty path).symm, fun path idx now => (h.time path idx now).symm, fun C s b => (h.ledger C s b).symm⟩

namespace RulesAux

open RetargetAux

/-! ## The encoding -/

theorem writeBool_length (v : Bool) : (writeBool v).length = 1 := by
  cases v
  · rfl
  · rfl

theorem writeBool_inj {v w : Bool} (h : writeBool v = writeBool w) : v = w := by
  revert v w
  decide

def withWindows (p : ConsensusParams) (difficulty median : Int64) : ConsensusParams :=
  { p with difficultyWindow := difficulty, medianTimePastWindow := median }

theorem marshalBinary_inj {p' : ConsensusParams} (h : p.marshalBinary = p'.marshalBinary) :
    p' = withWindows p p'.difficultyWindow p'.medianTimePastWindow ∧
      p.difficultyWindow.toUInt64.toUInt32 = p'.difficultyWindow.toUInt64.toUInt32 ∧
      p.medianTimePastWindow.toUInt64.toUInt32 = p'.medianTimePastWindow.toUInt64.toUInt32 := by
  unfold ConsensusParams.marshalBinary at h
  -- every field has a fixed width, so the last one can be cut off again and again
  obtain ⟨h, htail⟩ := append_inj' h (by simp)
  obtain ⟨h, hshare⟩ := append_inj' h rfl
  obtain ⟨h, hhalving⟩ := append_inj' h (by simp)
  obtain ⟨h, hreward⟩ := append_inj' h (by simp)
  obtain ⟨h, hsize⟩ := append_inj' h (by simp)
  obtain ⟨h, hbinaryHeight⟩ := append_inj' h (by simp)
  obtain ⟨h, hbinary⟩ := append_inj' h (by simp [writeBool_length])
  obtain ⟨h, hmerkleHeight⟩ := append_inj' h (by simp)
  obtain ⟨h, hmerkle⟩ := append_inj' h (by simp [writeBool_length])
  obtain ⟨h, hdrift⟩ := append_inj' h (by simp)
  obtain ⟨h, hmedian⟩ := append_inj' h (by simp)
  obtain ⟨h, hgenesis⟩ := append_inj' h (by simp)
  obtain ⟨h, hmax⟩ := append_inj' h (by simp)
  obtain ⟨h, hmin⟩ := append_inj' h (by simp)
  obtain ⟨h, hstep⟩ := append_inj' h (by simp)
  obtain ⟨h, hwindow⟩ := append_inj' h (by simp)
  obtain ⟨h, htarget⟩ := append_inj' h (by simp)
  obtain ⟨-, henable⟩ := append_inj' h (by simp [writeBool_length])
  refine ⟨?_, leBytes_uint32_inj hwindow, leBytes_uint32_inj hmedian⟩
  have hpolicy : p.monetaryPolicy = p'.monetaryPolicy :=
    MonetaryPolicy.ext (leBytes_uint64_inj hreward) (leBytes_uint64_inj hhalving) (List.cons.inj hshare).1 (leBytes_uint64_inj htail)
  exact ConsensusParams.ext (writeBool_inj henable).symm (leBytes_int64_inj htarget).symm rfl (leBytes_uint32_inj hstep).symm
    (leBytes_uint32_inj hmin).symm (leBytes_uint32_inj hmax).symm (leBytes_uint32_inj hgenesis).symm rfl
    (leBytes_int64_inj hdrift).symm (leBytes_uint64_inj hsize).symm (writeBool_inj hmerkle).symm
    (leBytes_uint64_inj hmerkleHeight).symm (writeBool_inj hbinary).symm (leBytes_uint64_inj hbinaryHeight).symm hpolicy.symm

theorem gap_of_low_eq {w' : Int64} (hpos : 0 < w) (hlt : w < w') (hlow : w.toUInt64.toUInt32 = w'.toUInt64.toUInt32) :
    w.toInt + 2 ≤ w'.toInt := by
  have hpos := Int64.lt_iff_toInt_lt.mp hpos
  have hlt := Int64.lt_iff_toInt_lt.mp hlt
  have hlow := congrArg UInt32.toNat hlow
  have hw : w.toInt = w.toUInt64.toNat := toInt_of_pos hpos
  have hw' : w'.toInt = w'.toUInt64.toNat := toInt_of_pos (Int.lt_trans hpos hlt)
  rw [UInt64.toNat_toUInt32, UInt64.toNat_toUInt32] at hlow
  rw [hw, hw'] at hlt ⊢
  omega

/-! ## The difficulty -/

/-- A parent with some difficulty, some seconds after the start of its window. -/
def parentAfter (seconds : Int64) (bits : UInt32) : Block := { timestampUnix := seconds, difficultyBits := bits }

theorem exists_wrappedPace_ne_steady (expected : Int) : ∃ seconds : Int64, wrappedPace expected seconds.toInt ≠ .steady := by
  have hone : wrapSeconds (1 : Int64).toInt = 1 := by decide
  have hhundred : wrapSeconds (100 : Int64).toInt = 100 := by decide
  by_cases hshort : 4 ≤ wrapSeconds expected
  · refine ⟨1, ?_⟩
    rw [wrappedPace, hone, cutPace, pace]
    grind
  · have hpos := wrapSeconds_pos expected
    refine ⟨100, ?_⟩
    rw [wrappedPace, hhundred, cutPace, pace]
    grind

/-- Where the bounds leave room, a pace that is not steady moves the lowest difficulty or the highest. -/
theorem exists_wrappedBits_ne (hp : ValidParams p) (hroom : p.minDifficultyBits ≠ p.maxDifficultyBits) {found : Pace}
    (hfound : found ≠ .steady) :
    ∃ bits, p.minDifficultyBits.toNat ≤ bits ∧ bits ≤ p.maxDifficultyBits.toNat ∧ p.wrappedBits bits found ≠ p.adjusted bits .steady := by
  have hne : p.minDifficultyBits.toNat ≠ p.maxDifficultyBits.toNat := fun h => hroom (UInt32.toNat_inj.mp h)
  have hle := UInt32.le_iff_toNat_le.mp hp.minLeMax
  have hmoves : ∀ {bits}, p.minDifficultyBits.toNat ≤ bits → bits ≤ p.maxDifficultyBits.toNat → ¬p.WrappedRests bits found →
      p.wrappedBits bits found ≠ p.adjusted bits .steady := by
    intro bits hlow hhigh hmoves heq
    rcases (wrappedBits_eq_iff hp hlow hhigh found .steady).mp heq with ⟨h, -⟩ | ⟨h, -⟩ | ⟨-, h, -⟩
    · exact hfound h
    · exact hmoves h
    · cases h
  cases found with
  | steady => exact absurd rfl hfound
  | slow => exact ⟨_, hle, Nat.le_refl _, hmoves hle (Nat.le_refl _) (Ne.symm hne)⟩
  | fast =>
    by_cases hfits : p.minDifficultyBits.toNat + p.difficultyMaxStep.toNat < 2 ^ 32
    · refine ⟨_, Nat.le_refl _, hle, hmoves (Nat.le_refl _) hle ?_⟩
      rw [ConsensusParams.WrappedRests, if_pos hfits]
      exact hne
    · refine ⟨_, hle, Nat.le_refl _, hmoves hle (Nat.le_refl _) ?_⟩
      rw [ConsensusParams.WrappedRests, if_neg (by omega)]
      exact Ne.symm hne

theorem exists_retarget_ne (hp : ValidParams p) (hroom : p.minDifficultyBits ≠ p.maxDifficultyBits) :
    ∃ seconds bits, retargetBits p (parentAfter seconds bits) default ≠ clampDifficultyBits p bits := by
  obtain ⟨seconds, hpace⟩ := exists_wrappedPace_ne_steady p.expectedSpan
  obtain ⟨bits, hlow, hhigh, hne⟩ := exists_wrappedBits_ne hp hroom hpace
  have hmax : p.maxDifficultyBits.toNat ≤ 256 := UInt32.le_iff_toNat_le.mp hp.maxDifficultyBits
  have hbits : (UInt32.ofNat bits).toNat = bits := UInt32.toNat_ofNat_of_lt' (show bits < 2 ^ 32 by omega)
  refine ⟨seconds, UInt32.ofNat bits, fun hsame => hne ?_⟩
  have hnat := congrArg UInt32.toNat hsame
  rw [toNat_retargetBits hp (UInt32.le_iff_toNat_le.mpr (by rw [parentAfter, hbits]; exact hlow))
    (UInt32.le_iff_toNat_le.mpr (by rw [parentAfter, hbits]; exact hhigh)), toNat_clampDifficultyBits hp, parentAfter, hbits] at hnat
  have hspan : seconds.toInt - (default : Block).timestampUnix.toInt = seconds.toInt := Int.sub_zero _
  rw [hspan] at hnat
  rw [hnat, ConsensusParams.adjusted]
  omega

theorem difficultyWindow_le_of_sameRules (hp : ValidParams p) (henable : p.difficultyEnable = true)
    (hroom : p.minDifficultyBits ≠ p.maxDifficultyBits) (h : SameRules p (withWindows p w m)) : w ≤ p.difficultyWindow := by
  by_contra hlt
  have hlt := Int64.lt_iff_toInt_lt.mp (Int64.not_le.mp hlt)
  have hpos := Int64.lt_iff_toInt_lt.mp hp.difficultyWindow
  rw [show (0 : Int64).toInt = 0 from rfl] at hpos
  obtain ⟨seconds, bits, hne⟩ := exists_retarget_ne hp hroom
  obtain ⟨n, hn⟩ : ∃ n : Nat, p.difficultyWindow.toInt = n := ⟨p.difficultyWindow.toInt.toNat, by omega⟩
  have hpath := h.difficulty (List.replicate n default ++ [parentAfter seconds bits])
  have hlast : (List.replicate n default ++ [parentAfter seconds bits]).getLast? = some (parentAfter seconds bits) := by simp
  have hlen : (List.replicate n (default : Block) ++ [parentAfter seconds bits]).length - 1 = n := by simp
  simp only [nextDifficultyBitsFromPath, hlast, hlen, henable, withWindows, Bool.true_eq_false, if_false] at hpath
  rw [if_neg (by omega), if_pos (by omega), hn] at hpath
  refine hne (Eq.trans ?_ hpath)
  congr 1
  have hzero : n - (n : Int).toNat = 0 := by omega
  rw [hzero]
  cases n with
  | zero => omega
  | succ n => rfl

/-! ## The time -/

def blockAt (seconds : Int64) : Block := { timestampUnix := seconds }

/-- Late blocks, then as many early ones as it takes to have the median in a window of `w`, then a block between. -/
def latePath (late early : Nat) : List Block :=
  List.replicate late (blockAt 2) ++ List.replicate early (blockAt 0) ++ [blockAt 1]

theorem sorted_late (late early : Nat) : (List.replicate late (2 : Int64) ++ List.replicate early 0).insertionSort (· ≤ ·) =
      List.replicate early 0 ++ List.replicate late 2 := by
  have hinsert : ∀ early late : Nat, (List.replicate early (0 : Int64) ++ List.replicate late 2).orderedInsert (· ≤ ·) 2 =
      List.replicate early 0 ++ List.replicate (late + 1) 2 := by
    intro early late
    induction early with
    | zero =>
      cases late with
      | zero => rfl
      | succ late => rfl
    | succ early ih =>
      rw [replicate_succ, cons_append, orderedInsert_cons, if_neg (by decide), ih]
      rfl
  induction late with
  | zero =>
    simp only [replicate_zero, nil_append, append_nil]
    refine List.Pairwise.insertionSort_eq ?_
    rw [pairwise_replicate]
    exact Or.inr (Int64.le_refl 0)
  | succ late ih =>
    rw [replicate_succ, cons_append, insertionSort_cons, ih, hinsert]
    rfl

theorem medianTimePast_latePath (p : ConsensusParams) (late early : Nat) {v : Nat} (hv : p.medianTimePastWindow.toInt = v) (hpos : 0 < v)
    (hle : v ≤ late + early) (hearly : early ≤ v) :
    medianTimePast p (latePath late early) (late + early - 1) = if v / 2 < early then 0 else 2 := by
  have hwindow : ¬p.medianTimePastWindow ≤ 0 := by
    rw [Int64.le_iff_toInt_le, hv, show (0 : Int64).toInt = 0 from rfl]
    omega
  have htimes : (((latePath late early).take (late + early - 1 + 1)).drop (late + early - 1 + 1 - v)).map (·.timestampUnix) =
      List.replicate (v - early) 2 ++ List.replicate early 0 := by
    rw [show late + early - 1 + 1 = late + early by omega, latePath, take_left' (by simp), drop_append,
      drop_replicate, length_replicate, drop_replicate, map_append, map_replicate, map_replicate]
    congr 2
    · omega
    · omega
  unfold medianTimePast
  simp only [if_neg hwindow, hv, Int.toNat_natCast]
  rw [htimes, sorted_late]
  have hlen : (List.replicate (v - early) (2 : Int64) ++ List.replicate early 0).length = v := by
    simp
    omega
  rw [hlen]
  by_cases hlow : v / 2 < early
  · rw [if_pos hlow, getD_append _ _ _ _ (by simpa using hlow), getD_replicate (0 : Int64) hlow]
  · rw [if_neg hlow, getD_append_right _ _ _ _ (by simpa using hlow), getD_replicate (2 : Int64)]
    rw [length_replicate]
    omega

theorem medianWindow_le_of_sameRules (hp : ValidParams p)
    (hgap : p.medianTimePastWindow < m → p.medianTimePastWindow.toInt + 2 ≤ m.toInt) (h : SameRules p (withWindows p w m)) :
    m ≤ p.medianTimePastWindow := by
  by_contra hlt
  have hgap := hgap (Int64.not_le.mp hlt)
  have hpos := Int64.lt_iff_toInt_lt.mp hp.medianTimePastWindow
  rw [show (0 : Int64).toInt = 0 from rfl] at hpos
  obtain ⟨v, hv⟩ : ∃ v : Nat, p.medianTimePastWindow.toInt = v := ⟨p.medianTimePastWindow.toInt.toNat, by omega⟩
  obtain ⟨v', hv'⟩ : ∃ v' : Nat, m.toInt = v' := ⟨m.toInt.toNat, by omega⟩
  obtain ⟨early, hearly⟩ : ∃ early, early = v / 2 + 1 := ⟨_, rfl⟩
  obtain ⟨late, hlate⟩ : ∃ late, late = v' - early := ⟨_, rfl⟩
  have hmedian := medianTimePast_latePath p late early hv (by omega) (by omega) (by omega)
  have hmedian' := medianTimePast_latePath (withWindows p w m) late early hv' (by omega) (by omega) (by omega)
  rw [if_pos (by omega)] at hmedian
  rw [if_neg (by omega)] at hmedian'
  -- the last block is later than the median of the shorter window and earlier than that of the longer one
  have htime := h.time (latePath late early) (late + early) 0
  have hlen : (latePath late early).length = late + early + 1 := by
    simp [latePath]
    omega
  have hprev : (latePath late early).getD (late + early - 1) default = blockAt 0 := by
    rw [latePath, getD_append _ _ _ _ (by simp; omega), getD_append_right _ _ _ _ (by simp; omega), getD_replicate]
    simp
    omega
  have hcur : (latePath late early).getD (late + early) default = blockAt 1 := by
    rw [latePath, getD_append_right _ _ _ _ (by simp)]
    simp
  have hinside : ¬(late + early = 0 ∨ (latePath late early).length ≤ late + early) := by
    rw [hlen]
    omega
  have hdrift : ¬(p.maxTimeDrift > 0 ∧ (blockAt 1).timestampUnix > 0 + p.maxTimeDrift) := by
    have hdrift := Int64.lt_iff_toInt_lt.mp hp.maxTimeDrift
    rw [Int64.zero_add]
    rintro ⟨-, hlate⟩
    have hlate := Int64.lt_iff_toInt_lt.mp hlate
    rw [show (0 : Int64).toInt = 0 from rfl] at hdrift
    rw [show (blockAt 1).timestampUnix.toInt = 1 from rfl] at hlate
    omega
  have hok : validateBlockTime p (latePath late early) (late + early) 0 = .ok () := by
    unfold validateBlockTime
    rw [if_neg hinside]
    simp only [hprev, hcur, hmedian, bind_eq_ok, failIf_eq_ok]
    exact ⟨(), by decide, (), by decide, hdrift⟩
  rw [hok] at htime
  have hbad := htime.symm
  unfold validateBlockTime at hbad
  rw [if_neg hinside] at hbad
  simp only [hprev, hcur, hmedian', bind_eq_ok, failIf_eq_ok] at hbad
  obtain ⟨-, -, -, hold, -⟩ := hbad
  exact hold (by decide)

/-! ## Parameters that differ in the windows only -/

theorem clamp_of_min_eq_max (hp : ValidParams p) (h : p.minDifficultyBits = p.maxDifficultyBits) (bits : UInt32) :
    clampDifficultyBits p bits = p.minDifficultyBits := by
  rw [← UInt32.toNat_inj, toNat_clampDifficultyBits hp, h]
  omega

theorem retargetBits_of_min_eq_max (hp : ValidParams p) (h : p.minDifficultyBits = p.maxDifficultyBits)
    (parent older : Block) : retargetBits p parent older = p.minDifficultyBits :=
  clamp_of_min_eq_max hp h _

theorem nextDifficultyBitsFromPath_withWindows (hp : ValidParams p) (hp' : ValidParams (withWindows p w m))
    (h : p.difficultyEnable = true → p.minDifficultyBits ≠ p.maxDifficultyBits → p.difficultyWindow = w) (path : List Block) :
    nextDifficultyBitsFromPath p path = nextDifficultyBitsFromPath (withWindows p w m) path := by
  by_cases hsame : p.difficultyWindow = w
  · rw [← hsame]
    rfl
  · unfold nextDifficultyBitsFromPath
    cases path.getLast? with
    | none => rfl
    | some parent =>
      cases henable : p.difficultyEnable with
      | false =>
        simp only [withWindows, henable, if_true]
        rfl
      | true =>
        have heq : p.minDifficultyBits = p.maxDifficultyBits := by
          by_contra hroom
          exact hsame (h henable hroom)
        simp only [show (withWindows p w m).difficultyEnable = true from henable, clamp_of_min_eq_max hp heq,
          clamp_of_min_eq_max hp' heq, retargetBits_of_min_eq_max hp heq, retargetBits_of_min_eq_max hp' heq, ite_self]
        rfl

theorem applyTxs_withWindows (C : Crypto) (p : ConsensusParams) (w m : Int64) (height : UInt64) (i : Nat) (txs : List Transaction)
    (s : State) : applyTxs C p height i txs s = applyTxs C (withWindows p w m) height i txs s := by
  induction txs generalizing i s with
  | nil => rfl
  | cons tx txs ih =>
    have htx : applyTx C (withWindows p w m) height i tx s = applyTx C p height i tx s := rfl
    unfold applyTxs
    rw [htx]
    cases applyTx C p height i tx s with
    | error e => rfl
    | ok s' => exact ih (i + 1) s'

theorem applyBlockToState_withWindows (C : Crypto) (p : ConsensusParams) (w m : Int64) (s : State) (b : Block) :
    applyBlockToState C p s b = applyBlockToState C (withWindows p w m) s b := by
  have hcheck : checkBlock C (withWindows p w m) b = checkBlock C p b := rfl
  unfold applyBlockToState
  rw [hcheck]
  cases checkBlock C p b with
  | error e => rfl
  | ok _ => exact applyTxs_withWindows C p w m b.height 0 b.transactions s

end RulesAux

open RulesAux

/-- Parameters with one encoding have the same rules exactly when no window the rules depend on was cut off. -/
theorem sameRules_iff {p p' : ConsensusParams} (hp : validateConsensusParams p = .ok ()) (hp' : validateConsensusParams p' = .ok ())
    (heq : p.marshalBinary = p'.marshalBinary) : SameRules p p' ↔
      (p.difficultyEnable = true → p.minDifficultyBits ≠ p.maxDifficultyBits → p.difficultyWindow = p'.difficultyWindow) ∧
        p.medianTimePastWindow = p'.medianTimePastWindow := by
  obtain ⟨hother, -, hlow⟩ := marshalBinary_inj heq
  have hv := validateConsensusParams_ok_iff.mp hp
  have hv' := validateConsensusParams_ok_iff.mp hp'
  obtain ⟨w, hw⟩ : ∃ w, w = p'.difficultyWindow := ⟨_, rfl⟩
  obtain ⟨m, hmedian⟩ : ∃ m, m = p'.medianTimePastWindow := ⟨_, rfl⟩
  rw [← hw, ← hmedian] at hother ⊢
  rw [← hmedian] at hlow
  subst hother
  constructor
  · intro h
    have hback : SameRules (withWindows p w m) (withWindows (withWindows p w m) p.difficultyWindow p.medianTimePastWindow) := h.symm
    refine ⟨?_, ?_⟩
    · intro henable hroom
      exact Int64.le_antisymm (difficultyWindow_le_of_sameRules hv' henable hroom hback)
        (difficultyWindow_le_of_sameRules hv henable hroom h)
    · refine Int64.le_antisymm (medianWindow_le_of_sameRules hv' ?_ hback) (medianWindow_le_of_sameRules hv ?_ h)
      · exact fun hlt => gap_of_low_eq hv'.medianTimePastWindow hlt hlow.symm
      · exact fun hlt => gap_of_low_eq hv.medianTimePastWindow hlt hlow
  · rintro ⟨hdifficulty, rfl⟩
    exact ⟨nextDifficultyBitsFromPath_withWindows hv hv' hdifficulty, fun _ _ _ => rfl,
      fun C s b => applyBlockToState_withWindows C p w _ s b⟩

namespace Sample

/-- The sample parameters with the difficulty adjusted over short windows. -/
def adjusting : ConsensusParams := withWindows { params with difficultyEnable := true } 1 1

def longWindows : ConsensusParams := withWindows adjusting 4294967297 4294967297

def unadjusted : ConsensusParams := { adjusting with difficultyEnable := false }

end Sample

open Sample

theorem sameRules_unadjusted : validateConsensusParams unadjusted = .ok () ∧ SameRules unadjusted (withWindows unadjusted 4294967297 1) :=
  have hshort : validateConsensusParams unadjusted = .ok () := rfl
  have hlong : validateConsensusParams (withWindows unadjusted 4294967297 1) = .ok () := rfl
  ⟨hshort, (sameRules_iff hshort hlong rfl).mpr ⟨fun h => absurd h (by decide), rfl⟩⟩

/-- Windows of 1 and of 2 ^ 32 + 1 are encoded alike. The node with the short window raises the difficulty where the other does not; and
they differ in whether a block is too old. -/
theorem sameEncoding_differentRules : (validateConsensusParams adjusting = .ok () ∧ validateConsensusParams longWindows = .ok () ∧
      adjusting.monetaryPolicy.validate = .ok () ∧ longWindows.monetaryPolicy.validate = .ok ()) ∧
    adjusting.marshalBinary = longWindows.marshalBinary ∧
    nextDifficultyBitsFromPath adjusting [genesis, Sample.block] = 2 ∧
    nextDifficultyBitsFromPath longWindows [genesis, Sample.block] = 1 ∧
    validateBlockTime adjusting (latePath 1 1) 2 0 = .ok () ∧
    validateBlockTime longWindows (latePath 1 1) 2 0 = .error "timestamp too old at height 0" := by
  refine ⟨⟨rfl, rfl, rfl, rfl⟩, rfl, rfl, rfl, ?_, ?_⟩
  · decide
  · decide

end NeoCoin
