import Mathlib.Algebra.Order.BigOperators.Group.Finset
import NeoCoin.Tendermint

/-!
# Agreement of votes

A hash passes with as many votes as the quorum, which is a sum of power, so that what passes depends on the number of the voters and not
on their power. Who proposes is left open where several validators may stand at the index of a height and a round, and nobody does where
that index is negative.
-/

namespace NeoCoin

open GoLib List

variable {addr : Bytes} {votes : List (Bytes × Bytes)}

/-! ## Weights -/

theorem toNat_sum_uint64 {α : Type*} (s : Finset α) (f : α → UInt64) : (∑ a ∈ s, f a).toNat = (∑ a ∈ s, (f a).toNat) % 2 ^ 64 := by
  classical
  induction s using Finset.induction_on with
  | empty => rfl
  | insert a s ha ih =>
    rw [Finset.sum_insert ha, Finset.sum_insert ha, UInt64.toNat_add, ih]
    omega

theorem exists_mem_of_two_thirds {α : Type*} [DecidableEq α] {whole s s' : Finset α} {weight : α → Nat} (hs : s ⊆ whole) (hs' : s' ⊆ whole)
    (h : 2 * ∑ a ∈ whole, weight a < 3 * ∑ a ∈ s, weight a) (h' : 2 * ∑ a ∈ whole, weight a < 3 * ∑ a ∈ s', weight a) :
    ∃ a, a ∈ s ∧ a ∈ s' := by
  by_contra hnone
  have hdisjoint : Disjoint s s' := Finset.disjoint_left.mpr fun a ha ha' => hnone ⟨a, ha, ha'⟩
  have hsum : ∑ a ∈ s, weight a + ∑ a ∈ s', weight a ≤ ∑ a ∈ whole, weight a := by
    rw [← Finset.sum_union hdisjoint]
    exact Finset.sum_le_sum_of_subset (Finset.union_subset hs hs')
  omega

namespace Tendermint

/-! ## Power -/

def active (t : Tendermint) : Finset Bytes := t.vals.keys.filter fun addr => (t.vals.lookup addr).any TMValidator.active

def powerOf (t : Tendermint) (addr : Bytes) : Nat := (t.vals.lookup addr).elim 0 fun v => v.power.toNat

/-- The power of validators, as a sum that does not wrap around. -/
def power (t : Tendermint) (addrs : Finset Bytes) : Nat := ∑ addr ∈ addrs, t.powerOf addr

/-- Two thirds of the power of the validators that take part, as 64-bit arithmetic gives them. -/
def twoThirds (t : Tendermint) : Nat := t.power t.active % 2 ^ 64 * 2 % 2 ^ 64 / 3

variable {t : Tendermint}

theorem mem_active : addr ∈ t.active ↔ ∃ v, t.vals.lookup addr = some v ∧ v.active = true := by
  rw [active, Finset.mem_filter, Finmap.mem_keys, Option.any_eq_true]
  constructor
  · intro h
    exact h.2
  · intro h
    obtain ⟨v, hv, hactive⟩ := h
    exact ⟨Finmap.mem_iff.mpr ⟨v, hv⟩, v, hv, hactive⟩

theorem totalPower_toNat (t : Tendermint) : t.totalPower.toNat = t.power t.active % 2 ^ 64 := by
  rw [totalPower, GoMap.sumBy_eq_sum, toNat_sum_uint64, power, active, Finset.sum_filter]
  congr 1
  refine Finset.sum_congr rfl fun addr _ => ?_
  rcases hv : t.vals.lookup addr with _ | v
  · simp
  · rw [powerOf, hv]
    by_cases hactive : v.active = true
    · simp [hactive]
    · simp [hactive]

theorem quorum_toInt (t : Tendermint) : t.quorum.toInt64.toInt = t.twoThirds := by
  have htotal := totalPower_toNat t
  have hnat : t.quorum.toNat = t.twoThirds := by
    unfold quorum twoThirds
    split
    · rename_i hzero
      rw [← htotal, hzero]
      rfl
    · rw [UInt64.toNat_div, UInt64.toNat_mul, htotal]
      rfl
  have hlt : t.twoThirds < 2 ^ 63 := by
    unfold twoThirds
    omega
  rw [toInt_toInt64 (by rw [hnat]; exact hlt), hnat]

/-! ## Recorded votes -/

/-- The online validators, not jailed, that are recorded as voting for a hash. -/
def supporters (t : Tendermint) (blockHash : Bytes) : Finset Bytes :=
  t.active.filter fun addr => (t.ballots t.height t.round).lookup addr = some blockHash

def run (t : Tendermint) (votes : List (Bytes × Bytes)) : Tendermint := votes.foldl (fun t v => (t.vote v.1 v.2).2) t

section

variable (votes : List (Bytes × Bytes))

def Single : Prop := ∀ addr x y, (addr, x) ∈ votes → (addr, y) ∈ votes → x = y

theorem ballots_record (addr blockHash : Bytes) :
    (t.record addr blockHash).ballots t.height t.round = (t.ballots t.height t.round).set addr blockHash := by
  simp only [record, ballots, GoMap.lookup_set_self, Option.getD_some]

theorem vote_of_active (h : addr ∈ t.active) (blockHash : Bytes) :
    t.vote addr blockHash = (decide (t.twoThirds ≤ (t.record addr blockHash).countVotes t.height t.round blockHash),
      t.record addr blockHash) := by
  obtain ⟨v, hv, hactive⟩ := mem_active.mp h
  have hnot : (!v.online || v.jailed) = false := by
    unfold TMValidator.active at hactive
    revert hactive
    cases v.online <;> cases v.jailed <;> decide
  unfold vote
  rw [hv]
  simp only [hnot, Bool.false_eq_true, if_false]
  rw [show (t.record addr blockHash).quorum = t.quorum from rfl, quorum_toInt]
  congr 1
  rw [decide_eq_decide]
  exact Int.ofNat_le

theorem vote_of_not_active (h : addr ∉ t.active) (blockHash : Bytes) : t.vote addr blockHash = (false, t) := by
  unfold vote
  split
  · rfl
  · rename_i v hv
    have hactive : v.active ≠ true := fun hactive => h (mem_active.mpr ⟨v, hv, hactive⟩)
    have hnot : (!v.online || v.jailed) = true := by
      unfold TMValidator.active at hactive
      revert hactive
      cases v.online <;> cases v.jailed <;> decide
    rw [if_pos hnot]

theorem run_snoc (v : Bytes × Bytes) : t.run (votes ++ [v]) = ((t.run votes).vote v.1 v.2).2 := by
  simp [run]

/-- What a sequence of votes leaves alone. -/
theorem run_same : (t.run votes).vals = t.vals ∧ (t.run votes).height = t.height ∧ (t.run votes).round = t.round := by
  induction votes using List.reverseRecOn with
  | nil => exact ⟨rfl, rfl, rfl⟩
  | append_singleton votes v ih =>
    rw [run_snoc]
    by_cases hactive : v.1 ∈ (t.run votes).active
    · rw [vote_of_active hactive]
      exact ih
    · rw [vote_of_not_active hactive]
      exact ih

theorem active_run : (t.run votes).active = t.active := by
  rw [active, active, (run_same votes).1]

theorem twoThirds_run : (t.run votes).twoThirds = t.twoThirds := by
  simp only [twoThirds, power, powerOf, active_run, (run_same votes).1]

end

theorem Single.of_append {votes' : List (Bytes × Bytes)} (h : Single (votes ++ votes')) : Single votes := fun addr x y hx hy =>
  h addr x y (mem_append_left _ hx) (mem_append_left _ hy)

theorem Single.upto {pre post : List (Bytes × Bytes)} {v : Bytes × Bytes} (h : Single votes) (hvotes : votes = pre ++ v :: post) :
    Single (pre ++ [v]) := by
  rw [hvotes, append_cons] at h
  exact h.of_append

/-- The votes of the height and the round after a sequence of them: those of the validators that take part. -/
theorem lookup_run (hnew : t.ballots t.height t.round = ∅) (hsingle : Single votes) (addr x : Bytes) :
    ((t.run votes).ballots t.height t.round).lookup addr = some x ↔ addr ∈ t.active ∧ (addr, x) ∈ votes := by
  induction votes using List.reverseRecOn with
  | nil => simp [run, hnew]
  | append_singleton votes v ih =>
    have ih := ih hsingle.of_append
    obtain ⟨voter, y⟩ := v
    rw [run_snoc]
    by_cases hactive : voter ∈ (t.run votes).active
    · rw [vote_of_active hactive]
      obtain ⟨-, hheight, hround⟩ := run_same (t := t) votes
      have hballots := ballots_record (t := t.run votes) voter y
      rw [hheight, hround] at hballots
      rw [hballots]
      rw [active_run] at hactive
      by_cases haddr : addr = voter
      · subst haddr
        rw [GoMap.lookup_set_self, Option.some_inj]
        constructor
        · rintro rfl
          exact ⟨hactive, by simp⟩
        · intro h
          exact hsingle addr y x (by simp) h.2
      · rw [GoMap.lookup_set_of_ne _ _ haddr, ih]
        simp [haddr]
    · rw [vote_of_not_active hactive, ih]
      rw [active_run] at hactive
      constructor
      · intro h
        exact ⟨h.1, mem_append_left _ h.2⟩
      · intro h
        refine ⟨h.1, (mem_append.mp h.2).resolve_right fun hlast => hactive ?_⟩
        rw [mem_singleton, Prod.mk.injEq] at hlast
        rw [← hlast.1]
        exact h.1

theorem mem_supporters_run (hnew : t.ballots t.height t.round = ∅) (hsingle : Single votes)
    (addr x : Bytes) : addr ∈ (t.run votes).supporters x ↔ addr ∈ t.active ∧ (addr, x) ∈ votes := by
  obtain ⟨-, hheight, hround⟩ := run_same (t := t) votes
  rw [supporters, Finset.mem_filter, active_run, hheight, hround, lookup_run hnew hsingle]
  simp

/-- The count of the votes for a hash is the number of the validators that support it. -/
theorem countVotes_run (hnew : t.ballots t.height t.round = ∅) (hsingle : Single votes) (x : Bytes) :
    (t.run votes).countVotes t.height t.round x = ((t.run votes).supporters x).card := by
  unfold countVotes
  congr 1
  ext addr
  rw [Finset.mem_filter, Finmap.mem_keys, mem_supporters_run hnew hsingle, ← lookup_run hnew hsingle]
  constructor
  · intro h
    exact h.2
  · intro h
    exact ⟨Finmap.mem_iff.mpr ⟨x, h⟩, h⟩

/-! ## Agreement -/

/-- `Vote` returns true for a vote that comes after others. -/
def Passes (t : Tendermint) (votes : List (Bytes × Bytes)) (v : Bytes × Bytes) : Prop := ((t.run votes).vote v.1 v.2).1 = true

/-- The votes pass at most one hash, and only one with more than two thirds of the power behind it. -/
structure Agree (t : Tendermint) (votes : List (Bytes × Bytes)) : Prop where
  one : ∀ pre v post pre' v' post', votes = pre ++ v :: post → votes = pre' ++ v' :: post' → t.Passes pre v → t.Passes pre' v' →
    v.2 = v'.2
  backed : ∀ {pre v post}, votes = pre ++ v :: post → t.Passes pre v →
    2 * t.power t.active < 3 * t.power ((t.run (pre ++ [v])).supporters v.2)

theorem passes_iff (hnew : t.ballots t.height t.round = ∅) {v : Bytes × Bytes} (hsingle : Single (votes ++ [v])) :
    t.Passes votes v ↔ v.1 ∈ t.active ∧ t.twoThirds ≤ ((t.run (votes ++ [v])).supporters v.2).card := by
  unfold Passes
  by_cases hactive : v.1 ∈ (t.run votes).active
  · obtain ⟨-, hheight, hround⟩ := run_same (t := t) votes
    have hcount := countVotes_run hnew hsingle v.2
    rw [run_snoc, vote_of_active hactive] at hcount ⊢
    rw [decide_eq_true_iff, twoThirds_run, hheight, hround, hcount]
    rw [active_run] at hactive
    simp only [hactive, true_and]
  · rw [vote_of_not_active hactive]
    rw [active_run] at hactive
    simp [hactive]

theorem supporters_subset (votes : List (Bytes × Bytes)) (x : Bytes) : (t.run votes).supporters x ⊆ t.active := by
  rw [← active_run (t := t) votes]
  exact Finset.filter_subset _ _

/-- Votes agree in every sequence exactly when no set of validators is as numerous as two thirds of the power without having them. -/
theorem votes_agree_iff (hnew : t.ballots t.height t.round = ∅) : (∀ votes, Single votes → t.Agree votes) ↔
      ∀ voters ⊆ t.active, voters.Nonempty → t.twoThirds ≤ voters.card → 2 * t.power t.active < 3 * t.power voters := by
  constructor
  · -- the voters of the set vote for one hash, one after the other, and the last of these votes passes
    intro h voters hvoters hnonempty hcard
    obtain ⟨last, hlast⟩ := hnonempty
    set pre := ((voters.erase last).toList).map fun addr => (addr, ([] : Bytes)) with hpre
    have hmem : ∀ addr x, (addr, x) ∈ pre ++ [(last, [])] ↔ addr ∈ voters ∧ x = [] := by
      intro addr x
      simp only [hpre, mem_append, mem_map, Finset.mem_toList, Finset.mem_erase, mem_singleton, Prod.mk.injEq]
      grind
    have hsingle : Single (pre ++ [(last, [])]) := by
      intro addr x y hx hy
      rw [((hmem addr x).mp hx).2, ((hmem addr y).mp hy).2]
    have hsupporters : (t.run (pre ++ [(last, [])])).supporters [] = voters := by
      ext addr
      rw [mem_supporters_run hnew hsingle, hmem]
      constructor
      · intro h
        exact h.2.1
      · intro h
        exact ⟨hvoters h, h, rfl⟩
    have hpasses : t.Passes pre (last, []) := by
      rw [passes_iff hnew hsingle, hsupporters]
      exact ⟨hvoters hlast, hcard⟩
    have hbacked := (h _ hsingle).backed rfl hpasses
    rw [hsupporters] at hbacked
    exact hbacked
  · intro h votes hsingle
    have hbacked : ∀ {pre v post}, votes = pre ++ v :: post → t.Passes pre v →
        2 * t.power t.active < 3 * t.power ((t.run (pre ++ [v])).supporters v.2) := by
      intro pre v post hvotes hpasses
      have hsingle := hsingle.upto hvotes
      obtain ⟨hactive, hcard⟩ := (passes_iff hnew hsingle).mp hpasses
      refine h _ (supporters_subset _ _) ⟨v.1, ?_⟩ hcard
      rw [mem_supporters_run hnew hsingle]
      exact ⟨hactive, by simp⟩
    refine ⟨?_, hbacked⟩
    intro pre v post pre' v' post' hvotes hvotes' hpasses hpasses'
    -- a validator stands behind both hashes, and has voted for one
    obtain ⟨addr, haddr, haddr'⟩ := exists_mem_of_two_thirds (supporters_subset _ _) (supporters_subset _ _) (hbacked hvotes hpasses)
      (hbacked hvotes' hpasses')
    rw [mem_supporters_run hnew (hsingle.upto hvotes)] at haddr
    rw [mem_supporters_run hnew (hsingle.upto hvotes')] at haddr'
    refine hsingle addr v.2 v'.2 ?_ ?_
    · rw [hvotes, append_cons]
      exact mem_append_left _ haddr.2
    · rw [hvotes', append_cons]
      exact mem_append_left _ haddr'.2

/-- Three validators with the powers one, two and two. -/
def Sample.council : Tendermint where
  vals := [(1, 1), (2, 2), (3, 2)].foldl (fun vals v => vals.set [v.1] ⟨[v.1], 0, v.2, true, false⟩) (∅ : GoMap Bytes TMValidator)

theorem votes_agree_council : Sample.council.active.card = 3 ∧ ∀ votes, Single votes → Sample.council.Agree votes := by
  refine ⟨by decide, ?_⟩
  refine (votes_agree_iff (by decide)).mpr fun voters hvoters _ hcard => ?_
  have hall : Sample.council.active.card ≤ voters.card := Nat.le_trans (by decide) hcard
  rw [Finset.eq_of_subset_of_card_le hvoters hall]
  decide

def Sample.committee : Tendermint where
  vals := [1, 2, 3, 4].foldl (fun vals i => vals.set [i] ⟨[i], 0, 1, true, false⟩) (∅ : GoMap Bytes TMValidator)

/-- Two votes of four pass a hash, and the two others pass another one. -/
theorem votes_disagree : Single [([1], [0]), ([2], [0]), ([3], [1]), ([4], [1])] ∧ Sample.committee.Passes [([1], [0])] ([2], [0]) ∧
    Sample.committee.Passes [([1], [0]), ([2], [0]), ([3], [1])] ([4], [1]) ∧
    ¬ Sample.committee.Agree [([1], [0]), ([2], [0]), ([3], [1]), ([4], [1])] := by
  have hfirst : Sample.committee.Passes [([1], [0])] ([2], [0]) := by
    unfold Passes
    decide
  have hsecond : Sample.committee.Passes [([1], [0]), ([2], [0]), ([3], [1])] ([4], [1]) := by
    unfold Passes
    decide
  refine ⟨?_, hfirst, hsecond, ?_⟩
  · intro addr x y hx hy
    simp only [mem_cons, Prod.mk.injEq, not_mem_nil, or_false] at hx hy
    grind
  · intro h
    have hsame := h.one [([1], [0])] _ _ [([1], [0]), ([2], [0]), ([3], [1])] _ _ rfl rfl hfirst hsecond
    revert hsame
    decide

/-! ## Proposers -/

/-- Two instances with the same validators; their powers, their votes and their states may differ. -/
def SameValidators (t t' : Tendermint) : Prop :=
  ∀ addr, (t.vals.lookup addr).map (fun v => (v.address, v.stake, v.online, v.jailed)) =
    (t'.vals.lookup addr).map fun v => (v.address, v.stake, v.online, v.jailed)

/-- How many of the validators that take part have such a stake. -/
def countStakes (t : Tendermint) (p : UInt64 → Bool) : Nat :=
  (t.active.filter fun addr => (t.vals.lookup addr).any fun v => p v.stake).card

/-- A validator that may stand at an index of the sorted list: not more than the index have a greater stake, and more have no smaller
one. -/
def StandsAt (t : Tendermint) (i : Nat) (v : TMValidator) : Prop :=
  (∃ addr, t.vals.lookup addr = some v ∧ v.active = true) ∧
    t.countStakes (fun stake => stake > v.stake) ≤ i ∧ i < t.countStakes fun stake => ¬v.stake > stake

/-- The index of the proposer, which has the sign of the sum as an `int`. -/
def proposerIndex (t : Tendermint) (height round : UInt64) : Int := (height + round).toInt64.toInt.tmod t.active.card

section

variable {t' : Tendermint} {list : List TMValidator}

theorem stake_weakOrder : WeakOrder fun v w : TMValidator => v.stake > w.stake :=
  ⟨fun v w => (Std.le_total (a := v.stake) (b := w.stake)).imp UInt64.not_lt.mpr UInt64.not_lt.mpr, fun _ _ _ hab hbc =>
    UInt64.not_lt.mpr (UInt64.le_trans (UInt64.not_lt.mp hbc) (UInt64.not_lt.mp hab))⟩

theorem exists_sortedVals (t : Tendermint) : ∃ list, t.SortedVals list := by
  obtain ⟨list, hlist⟩ := exists_sortSlice stake_weakOrder
    ((((t.vals.entries.map fun e => (e.1, e.2)).toList).map Prod.snd).filter TMValidator.active)
  exact ⟨list, _, Multiset.coe_toList _, hlist⟩

/-- The validators that take part and whose stake is such are as many in every range over the map. -/
theorem countP_range {range : List (Bytes × TMValidator)} (hrange : GoMap.IsRange t.vals range) (p : UInt64 → Bool) :
    ((range.map Prod.snd).filter TMValidator.active).countP (fun v => p v.stake) = t.countStakes p := by
  have hkeys : ((range.filter fun e => e.2.active && p e.2.stake).map Prod.fst).toFinset =
      t.active.filter fun addr => (t.vals.lookup addr).any fun v => p v.stake := by
    ext addr
    simp only [mem_toFinset, mem_map, mem_filter, Bool.and_eq_true, Prod.exists, exists_and_right, exists_eq_right,
      GoMap.mem_range_iff hrange, Finset.mem_filter, mem_active, Option.any_eq_true]
    constructor
    · rintro ⟨v, hv, hactive, hp⟩
      exact ⟨⟨v, hv, hactive⟩, v, hv, hp⟩
    · rintro ⟨⟨v, hv, hactive⟩, w, hw, hp⟩
      cases hv.symm.trans hw
      exact ⟨v, hv, hactive, hp⟩
  have hnodup : ((range.filter fun e => e.2.active && p e.2.stake).map Prod.fst).Nodup :=
    (GoMap.nodup_keys_range hrange).sublist (filter_sublist.map _)
  rw [countStakes, ← hkeys, toFinset_card_of_nodup hnodup, length_map, ← countP_eq_length_filter, countP_filter, countP_map]
  exact countP_congr fun e _ => by simp [Bool.and_comm]

theorem SortedVals.length (h : t.SortedVals list) : list.length = t.active.card := by
  obtain ⟨range, hrange, hsort⟩ := h
  have hcount := countP_range hrange fun _ => true
  rw [countP_true, countStakes] at hcount
  rw [hsort.perm.length_eq, hcount]
  congr 1
  refine Finset.filter_true_of_mem fun addr haddr => ?_
  obtain ⟨v, hv, -⟩ := mem_active.mp haddr
  simp [hv]

/-- Who may stand at an index of the sorted list. -/
theorem exists_sortedVals_iff {i : Nat} {v : TMValidator} : (∃ list, t.SortedVals list ∧ list[i]? = some v) ↔ t.StandsAt i v := by
  have hlist : ∀ range, GoMap.IsRange t.vals range →
      ((∃ list, SortSlice (fun v w : TMValidator => v.stake > w.stake) ((range.map Prod.snd).filter TMValidator.active) list ∧
        list[i]? = some v) ↔ t.StandsAt i v) := by
    intro range hrange
    have hmem : v ∈ (range.map Prod.snd).filter TMValidator.active ↔ ∃ addr, t.vals.lookup addr = some v ∧ v.active = true := by
      simp [GoMap.mem_range_iff hrange]
    have habove := countP_range hrange fun stake => decide (stake > v.stake)
    have hnotBelow := countP_range hrange fun stake => decide (¬v.stake > stake)
    rw [exists_sortSlice_getElem_iff stake_weakOrder, hmem, habove, hnotBelow, StandsAt]
  constructor
  · rintro ⟨list, ⟨range, hrange, hsort⟩, hi⟩
    exact (hlist range hrange).mp ⟨list, hsort, hi⟩
  · intro h
    obtain ⟨list, hsort, hi⟩ := (hlist _ (Multiset.coe_toList _)).mpr h
    exact ⟨list, ⟨_, Multiset.coe_toList _, hsort⟩, hi⟩

theorem proposerOf_eq (h : t.SortedVals list) (hactive : t.active ≠ ∅) (height round : UInt64) : proposerOf list height round =
    if t.proposerIndex height round < 0 then
      .panicked s!"runtime error: index out of range [{t.proposerIndex height round}]"
    else .returned ((list[(t.proposerIndex height round).toNat]?.map TMValidator.address).getD []) := by
  have hpos : 0 < t.active.card := Finset.card_pos.mpr (Finset.nonempty_iff_ne_empty.mpr hactive)
  have hlen := h.length
  have hlt : t.proposerIndex height round < t.active.card := Int.tmod_lt_of_pos _ (by omega)
  unfold proposerOf
  rw [if_neg (by omega), hlen]
  unfold proposerIndex at hlt ⊢
  generalize (height + round).toInt64.toInt.tmod t.active.card = i at hlt ⊢
  by_cases hneg : i < 0
  · simp only [if_pos hneg]
  · simp only [if_neg hneg, List.getElem?_eq_getElem (show i.toNat < list.length by omega)]
    rfl

theorem SameValidators.active (h : t.SameValidators t') : t'.active = t.active := by
  ext addr
  have hsame := h addr
  rw [mem_active, mem_active]
  rcases hv : t.vals.lookup addr with _ | v <;> rcases hv' : t'.vals.lookup addr with _ | v' <;> rw [hv, hv'] at hsame
  · cases hsame
  · cases hsame
  · simp only [Option.map_some, Option.some.injEq, Prod.mk.injEq] at hsame
    simp [TMValidator.active, hsame]

theorem SameValidators.countStakes (h : t.SameValidators t') (p : UInt64 → Bool) : t'.countStakes p = t.countStakes p := by
  unfold Tendermint.countStakes
  rw [h.active]
  congr 1
  refine Finset.filter_congr fun addr _ => ?_
  have hstake : (t'.vals.lookup addr).map TMValidator.stake = (t.vals.lookup addr).map TMValidator.stake := by
    simpa [Option.map_map, Function.comp_def] using congrArg (Option.map fun e => e.2.1) (h addr).symm
  have hany := congrArg (Option.any p) hstake
  simp only [Option.any_map] at hany
  rw [hany]

/-- Where a validator of one instance may stand, one with the same address may in the other. -/
theorem SameValidators.standsAt (h : t.SameValidators t') {i : Nat} {v' : TMValidator} (hv' : t'.StandsAt i v') :
    ∃ v, t.StandsAt i v ∧ v.address = v'.address := by
  obtain ⟨⟨addr, hlookup', hactive'⟩, hlow, hhigh⟩ := hv'
  have hsame := h addr
  rw [hlookup'] at hsame
  obtain ⟨v, hlookup, heq⟩ := Option.map_eq_some_iff.mp hsame
  simp only [Prod.mk.injEq] at heq
  obtain ⟨haddress, hstake, honline, hjailed⟩ := heq
  rw [h.countStakes, ← hstake] at hlow hhigh
  refine ⟨v, ⟨⟨addr, hlookup, ?_⟩, hlow, hhigh⟩, haddress⟩
  rw [← hactive', TMValidator.active, TMValidator.active, honline, hjailed]

end

/-- Two instances with the validators of `t` return the same proposer for a height and a round, without a panic, if and only if nobody
takes part, or the index of the proposer is not negative and all who may stand there have one address. -/
theorem proposers_agree_iff (t : Tendermint) (height round : UInt64) :
    (∀ t', t.SameValidators t' → ∀ exit exit', t.GetProposer height round exit → t'.GetProposer height round exit' →
      ∃ addr, exit = .returned addr ∧ exit' = .returned addr) ↔
    t.active = ∅ ∨ 0 ≤ t.proposerIndex height round ∧
      ∀ v w, t.StandsAt (t.proposerIndex height round).toNat v → t.StandsAt (t.proposerIndex height round).toNat w →
        v.address = w.address := by
  constructor
  · intro h
    by_cases hactive : t.active = ∅
    · exact Or.inl hactive
    have hlists := fun list list' (hlist : t.SortedVals list) (hlist' : t.SortedVals list') =>
      h t (fun _ => rfl) _ _ ⟨list, hlist, rfl⟩ ⟨list', hlist', rfl⟩
    have hindex : ¬t.proposerIndex height round < 0 := by
      intro hneg
      obtain ⟨list, hlist⟩ := exists_sortedVals t
      obtain ⟨addr, heq, -⟩ := hlists list list hlist hlist
      rw [proposerOf_eq hlist hactive, if_pos hneg] at heq
      cases heq
    refine Or.inr ⟨Int.not_lt.mp hindex, fun v w hv hw => ?_⟩
    obtain ⟨list, hlist, hi⟩ := exists_sortedVals_iff.mpr hv
    obtain ⟨list', hlist', hi'⟩ := exists_sortedVals_iff.mpr hw
    obtain ⟨addr, heq, heq'⟩ := hlists list list' hlist hlist'
    rw [proposerOf_eq hlist hactive, if_neg hindex, hi] at heq
    rw [proposerOf_eq hlist' hactive, if_neg hindex, hi'] at heq'
    exact (Machine.Exit.returned.inj heq).trans (Machine.Exit.returned.inj heq').symm
  · rintro h t' hsame _ _ ⟨list, hlist, rfl⟩ ⟨list', hlist', rfl⟩
    have hlen := hlist.length
    have hlen' : list'.length = t.active.card := by rw [hlist'.length, hsame.active]
    by_cases hactive : t.active = ∅
    · rw [hactive, Finset.card_empty] at hlen hlen'
      exact ⟨[], if_pos hlen, if_pos hlen'⟩
    obtain ⟨hindex, hone⟩ := h.resolve_left hactive
    have hpos : 0 < t.active.card := Finset.card_pos.mpr (Finset.nonempty_iff_ne_empty.mpr hactive)
    have hlt : t.proposerIndex height round < t.active.card := Int.tmod_lt_of_pos _ (by omega)
    have hindex' : t'.proposerIndex height round = t.proposerIndex height round := by rw [proposerIndex, hsame.active, proposerIndex]
    have hi := List.getElem?_eq_getElem (l := list) (i := (t.proposerIndex height round).toNat) (by omega)
    have hi' := List.getElem?_eq_getElem (l := list') (i := (t.proposerIndex height round).toNat) (by omega)
    obtain ⟨w, hw, haddress⟩ := hsame.standsAt (exists_sortedVals_iff.mp ⟨list', hlist', hi'⟩)
    have hsameAddress := hone _ w (exists_sortedVals_iff.mp ⟨list, hlist, hi⟩) hw
    refine ⟨w.address, ?_, ?_⟩
    · rw [proposerOf_eq hlist hactive, if_neg (Int.not_lt.mpr hindex), hi, Option.map_some, Option.getD_some, hsameAddress]
    · rw [proposerOf_eq hlist' (by rw [hsame.active]; exact hactive), hindex', if_neg (Int.not_lt.mpr hindex), hi', haddress]
      rfl

def Sample.validator (i : UInt8) : TMValidator := ⟨[i], 1000, 1000, true, false⟩

def Sample.pair : Tendermint where
  vals := GoMap.set (GoMap.set ∅ [1] (Sample.validator 1)) [2] (Sample.validator 2)

/-- The order in which the map is visited decides who proposes, and at the largest height nobody does. -/
theorem proposers_differ : Sample.pair.GetProposer 1 0 (.returned [2]) ∧ Sample.pair.GetProposer 1 0 (.returned [1]) ∧
      Sample.pair.GetProposer (-1) 0 (.panicked "runtime error: index out of range [-1]") := by
  have hsorted : ∀ i j, GoMap.IsRange Sample.pair.vals [([i], Sample.validator i), ([j], Sample.validator j)] →
      Sample.pair.SortedVals [Sample.validator i, Sample.validator j] :=
    fun i j h => ⟨_, h, .refl _, by simp [Sample.validator]⟩
  have hfirst := hsorted 1 2 (by decide)
  exact ⟨⟨_, hfirst, rfl⟩, ⟨_, hsorted 2 1 (by decide), rfl⟩, ⟨_, hfirst, rfl⟩⟩

end Tendermint

end NeoCoin
