import NeoCoin.Lib.Consecutive
import NeoCoin.Theorems.Node
import NeoCoin.Theorems.Pool

/-!
# Submitted transactions can be executed

The pending transactions of a sender are a queue (`Executable`). A submission that passes the checks of `handleSubmitTx` cuts the queue at
its nonce and goes to the end. The checks add in 64 bits, so that this holds as long as the sums fit.
-/

namespace NeoCoin

open GoLib List

variable {nonce : UInt64} {ids : List Bytes} {id : Bytes} {out : Outside} {requireAI : Bool} {i : Nat} {acct : Account}
  {isReplacement : Bool}

def Transaction.cost (tx : Transaction) : Nat := tx.amount.toNat + tx.fee.toNat

/-- The pending transactions of a sender have the nonces that follow the one of its account, and cost no more than it holds. -/
def Executable (C : Crypto) (state : State) (m : Mempool) (a : Bytes) : Prop :=
  ∃ q : List Transaction, m.pendingOf C a = q ∧ Consecutive Transaction.nonce (state.get a).nonce.toNat q ∧
    (q.map Transaction.cost).sum ≤ (state.get a).balance.toNat

/-- What a transaction and the pending ones of its sender before it cost is less than `2 ^ 64`. -/
def Fits (C : Crypto) (m : Mempool) (tx : Transaction) : Prop :=
  ∀ a, tx.fromAddress C = .ok a →
    (((m.pendingOf C a).filter fun t => t.nonce < tx.nonce).map Transaction.cost).sum + tx.cost < 2 ^ 64

instance (C : Crypto) (m : Mempool) (tx : Transaction) : Decidable (Fits C m tx) := decidableForallOk _ _

/-- The maps of the pool fit together, and what is pending can be executed. -/
structure PoolInv (C : Crypto) (state : State) (m : Mempool) : Prop where
  indexed : Indexed C m
  executable : ∀ a, Executable C state m a

/-- What a submission reads of the pool: the pending transactions of its sender, and their ids if it replaces one. -/
structure ReadsPool (C : Crypto) (m : Mempool) (out : Outside) (tx : Transaction) : Prop where
  pending : ∀ a, tx.fromAddress C = .ok a → PendingForSender m a out.pending
  later : ∀ a, tx.fromAddress C = .ok a → GoMap.IsRange ((m.bySenderNonce.lookup a).getD ∅) out.later

instance (C : Crypto) (m : Mempool) (out : Outside) (tx : Transaction) : Decidable (ReadsPool C m out tx) :=
  decidable_of_iff (_ ∧ _) ⟨fun h => ⟨h.1, h.2⟩, fun h => ⟨h.pending, h.later⟩⟩

theorem poolInv_newMempool (C : Crypto) (state : State) (maxSize : Int64) : PoolInv C state (newMempool maxSize) := by
  refine ⟨indexed_newMempool C maxSize, ?_⟩
  intro a
  exact ⟨[], rfl, Consecutive.nil _ _, Nat.zero_le _⟩

namespace SubmitAux

open PoolAux

/-! ## What a submission reads -/

variable {C : Crypto} {m : Mempool} {a : Bytes} {q : List Transaction}

theorem listed_slot (h : Indexed C m) (hq : m.pendingOf C a = q) : ListedBy Transaction.nonce (m.slot a) q := by
  intro n tx
  rw [slot_eq_some_iff h, hq, Multiset.mem_coe]

variable {tx : Transaction} {pending : List MempoolEntry}

theorem mem_pendingForSender (h : Indexed C m) (hpending : PendingForSender m a pending) :
    (∃ e ∈ pending, e.tx = tx) ↔ m.slot a tx.nonce = some tx := by
  have hmem : ∀ e, e ∈ pending ↔ ∃ n id, m.idAt a n = some id ∧ m.entries.lookup id = some e := by
    intro e
    have hidAt : ∀ n id, (⟨n, id⟩ : Sigma fun _ : UInt64 => Bytes) ∈ ((m.bySenderNonce.lookup a).getD ∅).entries ↔
        m.idAt a n = some id := by
      intro n id
      rw [← Finmap.lookup_eq_some_iff]
      unfold Mempool.idAt
      cases m.bySenderNonce.lookup a with
      | none => simp
      | some byNonce => rfl
    rw [← Multiset.mem_coe, hpending.entries, Multiset.mem_filterMap]
    constructor
    · intro hin
      obtain ⟨⟨n, id⟩, hin, he⟩ := hin
      exact ⟨n, id, (hidAt n id).mp hin, he⟩
    · intro hin
      obtain ⟨n, id, hid, he⟩ := hin
      exact ⟨⟨n, id⟩, (hidAt n id).mpr hid, he⟩
  constructor
  · intro hex
    obtain ⟨e, he, rfl⟩ := hex
    obtain ⟨n, id, hid, hlookup⟩ := (hmem e).mp he
    obtain ⟨e', he', ha, rfl⟩ := h.slot a n id hid
    cases hlookup.symm.trans he'
    unfold Mempool.slot
    rw [hid, Option.bind_some, hlookup]
    rfl
  · intro hslot
    obtain ⟨id, hid, hslot⟩ := Option.bind_eq_some_iff.mp hslot
    obtain ⟨e, he, rfl⟩ := Option.map_eq_some_iff.mp hslot
    exact ⟨e, (hmem e).mpr ⟨_, id, hid, he⟩, rfl⟩

theorem lookup_pendingByNonce (h : Indexed C m) (hpending : PendingForSender m a pending) (n : UInt64) :
    (pendingByNonce pending).lookup n = m.slot a n := by
  have hslot : ∀ {tx : Transaction}, (∃ e ∈ pending, e.tx = tx) ↔ m.slot a tx.nonce = some tx := mem_pendingForSender h hpending
  have hone : ∀ e ∈ pending, ∀ e' ∈ pending, e.tx.nonce = e'.tx.nonce → e.tx = e'.tx := by
    intro e he e' he' heq
    have h1 := hslot.mp ⟨e, he, rfl⟩
    have h2 := hslot.mp ⟨e', he', rfl⟩
    rw [heq, h2] at h1
    exact (Option.some.inj h1).symm
  refine Option.ext fun tx => ?_
  unfold pendingByNonce
  rw [GoMap.lookup_foldl_set hone]
  constructor
  · intro hfound
    rcases hfound with ⟨e, he, rfl, rfl⟩ | ⟨hnone, -⟩
    · exact hslot.mp ⟨e, he, rfl⟩
    · exact absurd hnone (by simp)
  · intro hfound
    obtain ⟨-, hn⟩ := (slot_eq_some_iff h).mp hfound
    rw [← hn] at hfound
    obtain ⟨e, he, rfl⟩ := hslot.mpr hfound
    exact Or.inl ⟨e, he, hn, rfl⟩

/-! ## The loops -/

section Loops

variable {byNonce : GoMap UInt64 Transaction} {c : Nat}

theorem add_ofNat_costs (debit : UInt64) (tx : Transaction) (txs : List Transaction) :
    debit + (tx.amount + tx.fee) + UInt64.ofNat (txs.map Transaction.cost).sum =
      debit + UInt64.ofNat ((tx :: txs).map Transaction.cost).sum := by
  rw [map_cons, sum_cons, Transaction.cost, UInt64.ofNat_add (tx.amount.toNat + tx.fee.toNat), UInt64.ofNat_add,
    UInt64.ofNat_toNat, UInt64.ofNat_toNat, UInt64.add_assoc]

theorem ofNat_add_one (c i : Nat) : UInt64.ofNat (c + 1 + i) + 1 = UInt64.ofNat (c + 1 + (i + 1)) := by
  rw [← Nat.add_assoc, UInt64.ofNat_add (c + 1 + i) 1]
  rfl

/-- The first loop finds the nonce after the queue, and adds up the queue in 64 bits. By induction on the rounds, from any place. -/
theorem contiguousLoop_eq (hq : ListedBy Transaction.nonce byNonce.lookup q) (h : Consecutive Transaction.nonce c q) (hc : c < 2 ^ 64)
    {n : Nat} (hi : i ≤ q.length) (hn : q.length - i < n) (debit : UInt64) : contiguousLoop byNonce n (UInt64.ofNat (c + 1 + i)) debit =
      some (UInt64.ofNat (c + 1 + q.length), debit + UInt64.ofNat ((q.drop i).map Transaction.cost).sum) := by
  induction n generalizing i debit with
  | zero => exact absurd hn (Nat.not_lt_zero _)
  | succ n ih =>
    unfold contiguousLoop
    rcases Nat.lt_or_eq_of_le hi with hlt | rfl
    · rw [hq.found h (List.getElem?_eq_getElem hlt)]
      simp only
      rw [ofNat_add_one, ih (by omega) (by omega), drop_eq_getElem_cons hlt, add_ofNat_costs]
    · rw [hq.end_eq_none h hc]
      simp

theorem debitBeforeLoop_eq (hq : ListedBy Transaction.nonce byNonce.lookup q) (h : Consecutive Transaction.nonce c q) {k : Nat}
    (hi : i + k ≤ q.length) (debit : UInt64) : debitBeforeLoop byNonce k (UInt64.ofNat (c + 1 + i)) debit =
      .ok (debit + UInt64.ofNat (((q.drop i).take k).map Transaction.cost).sum) := by
  induction k generalizing i debit with
  | zero => simp [debitBeforeLoop]
  | succ k ih =>
    have hlt : i < q.length := by omega
    unfold debitBeforeLoop
    rw [hq.found h (List.getElem?_eq_getElem hlt)]
    simp only
    rw [ofNat_add_one, ih (by omega), drop_eq_getElem_cons hlt, take_succ_cons, add_ofNat_costs]

end Loops

/-! ## The decision -/

/-- A transaction that goes to place `i` of a queue, and that the balance pays for as far as 64 bits can say. -/
structure Affordable (acct : Account) (q : List Transaction) (tx : Transaction) (i : Nat) : Prop where
  place : i ≤ q.length
  nonce : tx.nonce.toNat = acct.nonce.toNat + 1 + i
  funds : (((q.take i).map Transaction.cost).sum + tx.cost) % 2 ^ 64 ≤ acct.balance.toNat

theorem funds_of_check {debit : Nat}
    (h : ¬acct.balance < 0 + UInt64.ofNat debit + (tx.amount + tx.fee)) : (debit + tx.cost) % 2 ^ 64 ≤ acct.balance.toNat := by
  have hsum : 0 + UInt64.ofNat debit + (tx.amount + tx.fee) = UInt64.ofNat (debit + tx.cost) := by
    rw [UInt64.zero_add, UInt64.ofNat_add, Transaction.cost, UInt64.ofNat_add, UInt64.ofNat_toNat, UInt64.ofNat_toNat]
  rw [hsum, UInt64.not_lt, UInt64.le_iff_toNat_le, UInt64.toNat_ofNat'] at h
  exact h

theorem length_le_card {byNonce : GoMap UInt64 Transaction} {c : Nat} (hq : ListedBy Transaction.nonce byNonce.lookup q)
    (h : Consecutive Transaction.nonce c q) : q.length ≤ byNonce.keys.card := by
  have hsub : (q.map Transaction.nonce).toFinset ⊆ byNonce.keys := by
    intro n hn
    obtain ⟨tx, htx, rfl⟩ := mem_map.mp (mem_toFinset.mp hn)
    exact Finmap.mem_keys.mpr (Finmap.mem_of_lookup_eq_some ((hq _ tx).mpr ⟨htx, rfl⟩))
  have hcard := Finset.card_le_card hsub
  rw [toFinset_card_of_nodup h.nodup_keys, length_map] at hcard
  exact hcard

theorem contiguousLoop_start {byNonce : GoMap UInt64 Transaction}
    (hq : ListedBy Transaction.nonce byNonce.lookup q) (h : Consecutive Transaction.nonce acct.nonce.toNat q) :
    contiguousLoop byNonce (byNonce.keys.card + 1) (acct.nonce + 1) 0 =
      some (UInt64.ofNat (acct.nonce.toNat + 1 + q.length), 0 + UInt64.ofNat (q.map Transaction.cost).sum) := by
  have hloop := contiguousLoop_eq hq h acct.nonce.toNat_lt (Nat.zero_le _) (Nat.lt_succ_of_le (length_le_card hq h)) 0
  rw [Nat.add_zero, drop_zero, UInt64.ofNat_add, UInt64.ofNat_toNat] at hloop
  exact hloop

theorem affordable_of_check
    (hq : ListedBy Transaction.nonce (pendingByNonce pending).lookup q) (h : Consecutive Transaction.nonce acct.nonce.toNat q)
    (hnonce : tx.nonce ≠ 0) (hok : checkPending acct pending tx = some (.ok isReplacement)) : ∃ i, Affordable acct q tx i := by
  have hlast := h.lt acct.nonce.toNat_lt
  unfold checkPending at hok
  simp only [contiguousLoop_start hq h] at hok
  have hok := Option.some.inj hok
  split at hok
  · rename_i hend
    obtain ⟨_, hfunds, -⟩ := bind_eq_ok.mp hok
    have hn := congrArg UInt64.toNat hend
    rw [UInt64.toNat_ofNat'] at hn
    have hne : tx.nonce.toNat ≠ 0 := fun h0 => hnonce (UInt64.toNat_inj.mp h0)
    refine ⟨q.length, Nat.le_refl _, by omega, ?_⟩
    rw [take_length]
    exact funds_of_check (refuseIf_eq_ok.mp hfunds)
  · split at hok
    · cases hok
    · rename_i existing hexisting
      obtain ⟨i, hi, hn⟩ := hq.place h hexisting
      obtain ⟨hlt, -⟩ := List.getElem?_eq_some_iff.mp hi
      have hstart : UInt64.ofNat (acct.nonce.toNat + 1 + 0) = acct.nonce + 1 := by
        rw [Nat.add_zero, UInt64.ofNat_add, UInt64.ofNat_toNat]
        rfl
      have hrounds : tx.nonce.toNat - (acct.nonce + 1).toNat = i := by
        rw [← hstart, UInt64.toNat_ofNat']
        omega
      have hbefore := debitBeforeLoop_eq hq h (show 0 + i ≤ q.length by omega) 0
      rw [hstart, drop_zero] at hbefore
      rw [hrounds, hbefore] at hok
      obtain ⟨_, hdebit, hok⟩ := bind_eq_ok.mp hok
      cases hdebit
      obtain ⟨_, hfunds, -⟩ := bind_eq_ok.mp hok
      exact ⟨i, by omega, hn, funds_of_check (refuseIf_eq_ok.mp hfunds)⟩

/-- A transaction has a place in the queue of the pending transactions that were read, and is paid for. -/
def CheckedAgainst (acct : Account) (pending : List MempoolEntry) (tx : Transaction) : Prop :=
  ∃ q i, (∀ t, t ∈ q ↔ ∃ e ∈ pending, e.tx = t) ∧ Consecutive Transaction.nonce acct.nonce.toNat q ∧ Affordable acct q tx i

/-! ## The change of the pool -/

section Commit

variable {m' : Mempool} {state : State}

theorem mem_pendingOf_iff_slot (h : Indexed C m) : tx ∈ m.pendingOf C a ↔ m.slot a tx.nonce = some tx := by
  rw [slot_eq_some_iff h, and_iff_left rfl]

theorem executable_of_slots (h : Indexed C m) (h' : Indexed C m') (hslots : ∀ n, m'.slot a n = m.slot a n)
    (hex : Executable C state m a) : Executable C state m' a := by
  obtain ⟨q, hq, hrest⟩ := hex
  refine ⟨q, ?_, hrest⟩
  rw [← hq]
  refine (Multiset.Nodup.ext (nodup_pendingOf h' a) (nodup_pendingOf h a)).mpr ?_
  intro tx
  rw [mem_pendingOf_iff_slot h', mem_pendingOf_iff_slot h, hslots]

theorem pendingOf_evict (h : Indexed C m) (hq : m.pendingOf C a = q) {c : Nat} (hcons : Consecutive Transaction.nonce c q)
    (hn : nonce.toNat = c + 1 + i)
    (hids : ∀ id, id ∈ ids ↔ ∃ n, nonce ≤ n ∧ m.idAt a n = some id) : (m.removeMany C ids).pendingOf C a = q.take i := by
  have hnodup := nodup_pendingOf h a
  rw [hq, Multiset.coe_nodup] at hnodup
  have h' := indexed_removeMany h ids
  refine (Multiset.Nodup.ext (nodup_pendingOf h' a) (Multiset.coe_nodup.mpr (hnodup.sublist (take_sublist i q)))).mpr ?_
  intro tx
  rw [mem_pendingOf_iff_slot h', slot_evict h hids, Multiset.mem_coe, ← hcons.filter_lt hn, mem_filter, decide_eq_true_eq,
    ← UInt64.not_le]
  by_cases hle : nonce ≤ tx.nonce
  · simp [hle]
  · rw [if_neg fun hboth => hle hboth.2, ← mem_pendingOf_iff_slot h, hq, Multiset.mem_coe]
    exact (and_iff_left hle).symm

theorem executable_insert (h : Indexed C m) (hq : m.pendingOf C a = q)
    (hcons : Consecutive Transaction.nonce (state.get a).nonce.toNat q) (now : Int64)
    (hfresh : id ∉ m.entries) (h' : Indexed C (m.insert tx id a now)) (hn : tx.nonce.toNat = (state.get a).nonce.toNat + 1 + q.length)
    (hfunds : (q.map Transaction.cost).sum + tx.cost ≤ (state.get a).balance.toNat) : Executable C state (m.insert tx id a now) a := by
  have hsnoc := hcons.snoc hn
  refine ⟨q ++ [tx], ?_, hsnoc, ?_⟩
  · refine (Multiset.Nodup.ext (nodup_pendingOf h' a) (Multiset.coe_nodup.mpr (List.Nodup.of_map _ hsnoc.nodup_keys))).mpr ?_
    intro tx'
    rw [mem_pendingOf_iff_slot h', slot_insert h now hfresh, Multiset.mem_coe, mem_append, mem_singleton]
    by_cases heq : tx'.nonce = tx.nonce
    · rw [if_pos ⟨rfl, heq⟩]
      constructor
      · intro htx
        exact Or.inr (Option.some.inj htx).symm
      · intro htx
        rcases htx with hmem | rfl
        · -- the queue has earlier nonces only
          obtain ⟨j, hj⟩ := List.getElem?_of_mem hmem
          obtain ⟨hlt, -⟩ := List.getElem?_eq_some_iff.mp hj
          have hj := hcons.key_eq hj
          rw [heq, hn] at hj
          omega
        · rfl
    · rw [if_neg fun hboth => heq hboth.2, ← mem_pendingOf_iff_slot h, hq, Multiset.mem_coe]
      constructor
      · exact Or.inl
      · intro htx
        rcases htx with hmem | rfl
        · exact hmem
        · exact absurd rfl heq
  · rw [map_append, sum_append]
    simpa using hfunds

/-- The pool after an insertion at the end of the queue of the sender. -/
theorem poolInv_insert (h : Indexed C m) (hothers : ∀ a', a' ≠ a → Executable C state m a') (hq : m.pendingOf C a = q)
    (hcons : Consecutive Transaction.nonce (state.get a).nonce.toNat q) (now : Int64)
    (ha : tx.fromAddress C = .ok a) (hfresh : id ∉ m.entries) (hfree : m.idAt a tx.nonce = none)
    (hn : tx.nonce.toNat = (state.get a).nonce.toNat + 1 + q.length)
    (hfunds : (q.map Transaction.cost).sum + tx.cost ≤ (state.get a).balance.toNat) : PoolInv C state (m.insert tx id a now) := by
  have h' := indexed_insert h now hfresh hfree ha
  refine ⟨h', ?_⟩
  intro a'
  by_cases heq : a' = a
  · rw [heq]
    exact executable_insert h hq hcons now hfresh h' hn hfunds
  · refine executable_of_slots h h' ?_ (hothers a' heq)
    intro n
    rw [slot_insert h now hfresh, if_neg fun hboth => heq hboth.1]

/-- The pool after an eviction from the queue of a sender: the other queues are as they were. -/
theorem poolInv_evict (h : PoolInv C state m) (hq : m.pendingOf C a = q)
    (hcons : Consecutive Transaction.nonce (state.get a).nonce.toNat q) (hsum : (q.map Transaction.cost).sum ≤ (state.get a).balance.toNat)
    (hn : nonce.toNat = (state.get a).nonce.toNat + 1 + i)
    (hids : ∀ id, id ∈ ids ↔ ∃ n, nonce ≤ n ∧ m.idAt a n = some id) : PoolInv C state (m.removeMany C ids) := by
  refine ⟨indexed_removeMany h.indexed ids, ?_⟩
  intro a'
  by_cases heq : a' = a
  · rw [heq]
    refine ⟨q.take i, pendingOf_evict h.indexed hq hcons hn hids, hcons.take i, Nat.le_trans ?_ hsum⟩
    conv_rhs => rw [← take_append_drop i q]
    rw [map_append, sum_append]
    exact Nat.le_add_right _ _
  · refine executable_of_slots h.indexed (indexed_removeMany h.indexed ids) ?_ (h.executable a')
    intro n
    rw [slot_evict h.indexed hids, if_neg fun hboth => heq hboth.1]

theorem commitSubmission_pool (C : Crypto) (p : ConsensusParams) (out : Outside) (m : Mempool) (tx : Transaction) (height : UInt64)
    (isReplacement : Bool) : (commitSubmission C p out m tx height isReplacement).2 =
      if isReplacement then (m.replaceByFeeWithTxID C out.later out.now tx [] p height).pool
      else (m.addWithTxID C out.filter out.entries out.now tx [] p height).2 := by
  unfold commitSubmission
  cases isReplacement with
  | true =>
    simp only [if_true]
    split
    · rfl
    · split
      · rfl
      · rfl
  | false =>
    simp only [Bool.false_eq_true, if_false]
    split
    · split
      · rfl
      · rfl
    · rfl

/-- A submission keeps the pool executable if what it was checked against is still there and its sum fits in 64 bits. -/
theorem poolInv_commit (h : PoolInv C state m) {p : ConsensusParams} {height : UInt64}
    (ha : tx.fromAddress C = .ok a) (hchecked : CheckedAgainst (state.get a) pending tx)
    (hsame : ∀ t, t.nonce < tx.nonce → (t ∈ m.pendingOf C a ↔ ∃ e ∈ pending, e.tx = t))
    (hfits : Fits C m tx) (hroom : m.HasRoom) (hlater : GoMap.IsRange ((m.bySenderNonce.lookup a).getD ∅) out.later) :
    PoolInv C state (commitSubmission C p out m tx height isReplacement).2 := by
  obtain ⟨q, hq, hcons, hsum⟩ := h.executable a
  obtain ⟨q', i, hseen, hcons', haff⟩ := hchecked
  have htake : q.take i = q'.take i := by
    refine hcons.take_eq_take hcons' haff.nonce ?_
    intro t ht
    rw [← Multiset.mem_coe, ← hq, hsame t ht, hseen]
  have hplace : i ≤ q.length := by
    have hlen := congrArg List.length htake
    rw [length_take, length_take, Nat.min_eq_left haff.place] at hlen
    omega
  have hfunds : ((q.take i).map Transaction.cost).sum + tx.cost ≤ (state.get a).balance.toNat := by
    have hfit := hfits a ha
    rw [hq, Multiset.filter_coe, hcons.filter_lt haff.nonce, Multiset.map_coe, Multiset.sum_coe] at hfit
    have hchecked := haff.funds
    rw [← htake, Nat.mod_eq_of_lt hfit] at hchecked
    exact hchecked
  rw [commitSubmission_pool]
  cases isReplacement with
  | false =>
    simp only [Bool.false_eq_true, if_false]
    rcases addWithTxID_cases C out.filter out.entries out.now m tx [] p height with hnone | ⟨a', id, ids, ha', hfresh, hfree, hids, heq⟩
    · rw [hnone]
      exact h
    · cases ha.symm.trans ha'
      rw [hids hroom] at heq
      -- the slot is free, so that the queue ends before it
      have hend : i = q.length := by
        refine Nat.le_antisymm hplace (Nat.not_lt.mp ?_)
        intro hlt
        have hfound := (listed_slot h.indexed hq).found hcons (List.getElem?_eq_getElem hlt)
        rw [← haff.nonce, UInt64.ofNat_toNat, Mempool.slot, hfree] at hfound
        cases hfound
      rw [hend, take_length] at hfunds
      rw [heq]
      exact poolInv_insert h.indexed (fun a' _ => h.executable a') hq hcons out.now ha hfresh hfree (by rw [← hend]; exact haff.nonce)
        hfunds
  | true =>
    simp only [if_true]
    have hrange : ∀ a', tx.fromAddress C = .ok a' → GoMap.IsRange ((m.bySenderNonce.lookup a').getD ∅) out.later := by
      intro a' ha'
      rw [← Except.ok.inj (ha.symm.trans ha')]
      exact hlater
    rcases replaceByFee_cases h.indexed out.later out.now tx [] p height hrange with hnone | ⟨a', ids, ha', -, hids, hpool⟩
    · rw [hnone]
      exact h
    · cases ha.symm.trans ha'
      have hevicted := poolInv_evict h hq hcons hsum haff.nonce hids
      rcases hpool with hpool | ⟨id, -, hfresh, hpool⟩
      · rw [hpool]
        exact hevicted
      · rw [hpool]
        refine poolInv_insert hevicted.indexed (fun a' _ => hevicted.executable a') (pendingOf_evict h.indexed hq hcons haff.nonce hids)
          (hcons.take i) out.now ha hfresh (idAt_evict_self h.indexed hids) ?_ hfunds
        rw [length_take, Nat.min_eq_left hplace]
        exact haff.nonce

end Commit

/-! ## A submission alone -/

section Alone

variable {σ : Type} {bc : Blockchain σ} {pending : List MempoolEntry} {tx : Transaction}

theorem queue_of_pending (h : PoolInv C bc.state m) (hpending : PendingForSender m a pending) :
    ∃ q, (∀ t, t ∈ q ↔ ∃ e ∈ pending, e.tx = t) ∧ ListedBy Transaction.nonce (pendingByNonce pending).lookup q ∧
      Consecutive Transaction.nonce (bc.state.get a).nonce.toNat q := by
  obtain ⟨q, hq, hcons, -⟩ := h.executable a
  refine ⟨q, ?_, ?_, hcons⟩
  · intro t
    rw [mem_pendingForSender h.indexed hpending, ← mem_pendingOf_iff_slot h.indexed, hq, Multiset.mem_coe]
  · intro n t
    have hslot := listed_slot h.indexed hq n t
    rw [← lookup_pendingByNonce h.indexed hpending] at hslot
    exact hslot

theorem checkedAgainst_of_check (h : PoolInv C bc.state m) (hpending : PendingForSender m a pending) (hnonce : tx.nonce ≠ 0)
    (hok : checkPending (bc.state.get a) pending tx = some (.ok isReplacement)) : CheckedAgainst (bc.state.get a) pending tx := by
  obtain ⟨q, hmem, hq, hcons⟩ := queue_of_pending h hpending
  obtain ⟨i, haff⟩ := affordable_of_check hq hcons hnonce hok
  exact ⟨q, i, hmem, hcons, haff⟩

theorem poolInv_submit (h : PoolInv C bc.state m) {req : SubmitRequest} {r : HttpResponse} {m' : Mempool} (hroom : m.HasRoom)
    (hreads : ∀ tx, readSubmission bc.chainID req = .ok tx → ReadsPool C m out tx ∧ Fits C m tx)
    (hrun : handleSubmitTx C { bc, requireAI, mp := some m } out req = some (r, some m')) : PoolInv C bc.state m' := by
  rcases handleSubmitTx_cases hrun with hsame | ⟨tx, a, m₀, isReplacement, hm, hread, hadm, ha, hpending, hm'⟩
  · rw [Option.some.inj hsame]
    exact h
  · cases hm
    rw [Option.some.inj hm']
    obtain ⟨hpool, hfits⟩ := hreads tx hread
    refine poolInv_commit h ha (checkedAgainst_of_check h (hpool.pending a ha) (hadm.transfer ha).nonce hpending) ?_ hfits hroom
      (hpool.later a ha)
    intro t _
    rw [mem_pendingForSender h.indexed (hpool.pending a ha), mem_pendingOf_iff_slot h.indexed]

theorem cost_le_balance {state : State} (h : Executable C state m a) :
    ((m.pendingOf C a).map Transaction.cost).sum ≤ (state.get a).balance.toNat := by
  obtain ⟨q, hq, -, hsum⟩ := h
  rw [hq, Multiset.map_coe, Multiset.sum_coe]
  exact hsum

end Alone

end SubmitAux

/-! ## Submissions one after the other -/

open SubmitAux

/-- The pools that submissions can leave, one after the other, on a chain that stays as it is, where `ok` holds of the pool before each
and of its transaction. -/
inductive Submitted {σ : Type} (C : Crypto) (bc : Blockchain σ) (requireAI : Bool) (maxSize : Int64)
    (ok : Mempool → Transaction → Prop) : Mempool → Prop where
  | empty : Submitted C bc requireAI maxSize ok (newMempool maxSize)
  | submit {m m' : Mempool} {out : Outside} {req : SubmitRequest} {r : HttpResponse} :
      Submitted C bc requireAI maxSize ok m → m.HasRoom →
      (∀ tx, readSubmission bc.chainID req = .ok tx → ReadsPool C m out tx ∧ ok m tx) →
      handleSubmitTx C { bc, requireAI, mp := some m } out req = some (r, some m') → Submitted C bc requireAI maxSize ok m'

theorem poolInv_of_submitted {σ : Type} {C : Crypto} {bc : Blockchain σ} {maxSize : Int64} {m : Mempool}
    (hrun : Submitted C bc requireAI maxSize (Fits C) m) : PoolInv C bc.state m := by
  induction hrun with
  | empty => exact poolInv_newMempool C bc.state maxSize
  | submit _ hroom hreads hrun ih => exact poolInv_submit ih hroom hreads hrun

/-- As long as the sums of the checks fit in 64 bits, what submissions leave in the pool can be executed. -/
theorem submitted_executable {σ : Type} (C : Crypto) (bc : Blockchain σ) (requireAI : Bool) (maxSize : Int64) (m : Mempool)
    (hrun : Submitted C bc requireAI maxSize (Fits C) m) (a : Bytes) : Executable C bc.state m a :=
  (poolInv_of_submitted hrun).executable a

namespace Sample

/-- A transfer of the miner that takes the place of the one with the lower fee. -/
def dearer : Transaction :=
  { type := .transfer, chainID := 1, fromPubKey := some minerKey, toAddress := payeeAddress, amount := 900, fee := 2, nonce := 1
    signature := some (beBytes 64
      0x91587aac27098aa0fb42cc91022617bc18e02911f11d05378b0fa7aa0dcc174b461cd33a3564eb41b342b324dac353e76a06ce23047ff879d63e6eafb0efc30e) }

def second : Transaction :=
  { type := .transfer, chainID := 1, fromPubKey := some minerKey, toAddress := payeeAddress, amount := 500, fee := 1, nonce := 2
    signature := some (beBytes 64
      0xefd0dd58189874519e952d8489a34d142bfb436eca54223bd782f62e2376e5e43983c5a9fa43b334b4333f87ff7c98e64ee5d4007cea567b4c9948271f335802) }

def dearerHash : Bytes := beBytes 32 0x9238f8f3194f10520d8ad4a68a6608da9d51ca4a8f13f0f4071e608006e15b15

def secondHash : Bytes := beBytes 32 0x2704532904085996c694a9f492af7467a695ffaa8d609241889bd9c9f69f7a5b

def payingID : Bytes := hexEncode payingHash

def dearerID : Bytes := hexEncode dearerHash

def overspendID : Bytes := hexEncode overspendHash

/-- SHA-256, and Ed25519 on the signing hashes of transfers of the miner. -/
def minerCrypto : Crypto :=
  goCrypto
    [(minerKey, payingHash, paying.signature.bytes),
      (minerKey, dearerHash, dearer.signature.bytes),
      (minerKey, secondHash, second.signature.bytes)]

def poolOf (tx : Transaction) (id fromAddr : Bytes) : Mempool := (newMempool 10).insert tx id fromAddr 5

/-- What a submission finds at time 5 in a pool with the transfer that pays a fee. -/
def afterPaying : Outside :=
  { pending := [{ tx := paying, txIDHex := payingID, received := 5 }], later := [(1, payingID)], now := 5 }

theorem paying_accepted :
    handleSubmitTx minerCrypto { bc := node, mp := some (newMempool 10) } { now := 5 } { body := some (some paying) } =
      some (queued payingID, some (poolOf paying payingID minerAddress)) := by
  simp only [minerCrypto, goCrypto_eq]
  decide +kernel

theorem dearer_accepted : handleSubmitTx minerCrypto { bc := node, mp := some (poolOf paying payingID minerAddress) } afterPaying
        { body := some (some dearer) } =
      some (queued dearerID, some (poolOf dearer dearerID minerAddress)) := by
  simp only [minerCrypto, goCrypto_eq]
  decide +kernel

theorem dearer_submitted : Submitted minerCrypto node false 10 (Fits minerCrypto) (poolOf dearer dearerID minerAddress) := by
  have hpaying : Submitted minerCrypto node false 10 (Fits minerCrypto) (poolOf paying payingID minerAddress) := by
    refine Submitted.submit Submitted.empty (by decide) ?_ paying_accepted
    simp only [minerCrypto, goCrypto_eq]
    decide +kernel
  exact Submitted.submit hpaying (by decide +kernel) (by decide +kernel) dearer_accepted

end Sample

open Sample

/-- Two submissions, of which the second takes the place of the first. -/
theorem submitted_executable_dearer : Submitted minerCrypto node false 10 (Fits minerCrypto)
        (poolOf dearer dearerID minerAddress) ∧
      Executable minerCrypto node.state (poolOf dearer dearerID minerAddress)
        minerAddress :=
  ⟨dearer_submitted, submitted_executable _ _ _ _ _ dearer_submitted _⟩

namespace Sample

def spenderAddress : Bytes := str "NEO006a3803d5f059902a1c6dafbc9ba4729212f7caac08634cc3ae76b27529f03827088b314d"

theorem overspend_accepted :
    handleSubmitTx crypto { bc := node, mp := some (newMempool 10) } { now := 5 } { body := some (some overspend) } =
      some (queued overspendID, some (poolOf overspend overspendID spenderAddress)) := by
  simp only [crypto, goCrypto_eq]
  decide +kernel

end Sample

/-- A submission of everything there could be, by an account without anything, is accepted. -/
theorem overspend_not_executable : Submitted crypto node false 10 (fun _ _ => True)
        (poolOf overspend overspendID spenderAddress) ∧
      ¬Executable crypto node.state (poolOf overspend overspendID spenderAddress)
        spenderAddress := by
  refine ⟨Submitted.submit Submitted.empty (by decide) ?_ overspend_accepted, ?_⟩
  · simp only [crypto, goCrypto_eq]
    decide +kernel
  · intro hex
    refine absurd (SubmitAux.cost_le_balance hex) ?_
    simp only [crypto, goCrypto_eq]
    decide +kernel

end NeoCoin
