import Mathlib.Data.List.Permutation
import NeoCoin.Internal.Selection
import NeoCoin.Theorems.Accounting
import NeoCoin.Theorems.Calls

/-!
# Selected transactions

A batch that `SelectMempoolTxs` of `internal/blockchain` returns is sorted by fee and by nothing else, and each sender was checked alone:
a batch applies if and only if every transfer is payable after whatever may stand before it (`PayableAfter`).
-/

namespace NeoCoin.Internal

open GoLib List

variable {before : List Transaction} {i : Nat} {entries valid : List TxEntry} {addr : Bytes} {e : TxEntry} {s : State} {t : Transaction}

/-! ## One transfer after others -/

def paidTo (txs : List Transaction) (a : Bytes) : UInt64 := ((txs.filter fun t => t.toAddress = a).map fun t => t.amount).sum

def sentBy (C : Crypto) (txs : List Transaction) (a : Bytes) : List Transaction := txs.filter fun t => t.sender C = a

def costOf (C : Crypto) (txs : List Transaction) (a : Bytes) : UInt64 := ((sentBy C txs a).map fun t => t.amount + t.fee).sum

/-- After some transfers, a transfer has the next nonce of its sender, and the balance of the sender covers it. -/
@[mk_iff] structure PayableAfter (C : Crypto) (s : State) (before : List Transaction) (t : Transaction) : Prop where
  nonce : (s.get (t.sender C)).nonce + UInt64.ofNat (sentBy C before (t.sender C)).length + 1 = t.nonce
  funds : t.amount + t.fee ≤ (s.get (t.sender C)).balance + paidTo before (t.sender C) - costOf C before (t.sender C)

section

variable {C : Crypto} {p : ConsensusParams} {height : UInt64}

theorem PayableAfter.perm {before' : List Transaction} (h : PayableAfter C s before t)
    (hperm : before'.Perm before) : PayableAfter C s before' t := by
  have hsent : ∀ a, (sentBy C before' a).Perm (sentBy C before a) := fun a => hperm.filter _
  have hcost : ∀ a, costOf C before' a = costOf C before a := fun a => ((hsent a).map _).sum_eq
  have hpaid : ∀ a, paidTo before' a = paidTo before a := fun a => ((hperm.filter _).map _).sum_eq
  refine ⟨?_, ?_⟩
  · rw [(hsent _).length_eq]
    exact h.nonce
  · rw [hpaid, hcost]
    exact h.funds

theorem payableAfter_nil_iff : PayableAfter C s [] t ↔
    (s.get (t.sender C)).nonce + 1 = t.nonce ∧ t.amount + t.fee ≤ (s.get (t.sender C)).balance := by
  constructor
  · intro h
    exact ⟨by simpa [sentBy] using h.nonce, by simpa [sentBy, paidTo, costOf] using h.funds⟩
  · intro h
    exact ⟨by simpa [sentBy] using h.1, by simpa [sentBy, paidTo, costOf] using h.2⟩

structure Verified (C : Crypto) (p : ConsensusParams) (height : UInt64) (t : Transaction) : Prop where
  type : t.type = .transfer
  verified : verifyForConsensus C t p height = .ok ()
  sender : fromAddress C t = .ok (t.sender C)

theorem applyTx_of_verified (ht : Verified C p height t) (s : State) :
    applyTx C p height (i + 1) t s = .ok (t.pay C s) ∧ PayableAfter C s [] t ∨
      (∃ e, applyTx C p height (i + 1) t s = .error e) ∧ ¬PayableAfter C s [] t := by
  simp only [payableAfter_nil_iff, applyTx, ht.type, applyTransfer, ht.verified, ht.sender, bind, Except.bind]
  by_cases hnonce : (s.get (t.sender C)).nonce + 1 = t.nonce
  · by_cases hfunds : t.amount + t.fee ≤ (s.get (t.sender C)).balance
    · left
      simp only [failIf, hnonce, ne_eq, not_true_eq_false, if_false, UInt64.not_lt.mpr hfunds]
      exact ⟨rfl, trivial, hfunds⟩
    · right
      simp only [failIf, hnonce, ne_eq, not_true_eq_false, if_false, UInt64.not_le.mp hfunds, if_true]
      exact ⟨⟨_, rfl⟩, fun h => hfunds h.2⟩
  · right
    simp only [failIf, hnonce, ne_eq, not_false_eq_true, if_true, false_and]
    exact ⟨⟨_, rfl⟩, trivial⟩

/-! ## What transfers do to an account -/

theorem balance_credit (s : State) (a a' : Bytes) (amount : UInt64) :
    ((State.credit s a amount).get a').balance = (s.get a').balance + if a = a' then amount else 0 := by
  unfold State.credit
  by_cases h : a = a'
  · simp [h]
  · simp [h, Ne.symm h]

theorem balance_debit (s : State) (a a' : Bytes) (total nonce : UInt64) :
    ((State.debit s a total nonce).get a').balance = (s.get a').balance - if a = a' then total else 0 := by
  unfold State.debit
  by_cases h : a = a'
  · simp [h]
  · simp [h, Ne.symm h]

section

variable (t : Transaction) (ts : List Transaction) (a : Bytes)

theorem paidTo_cons : paidTo (t :: ts) a = (if t.toAddress = a then t.amount else 0) + paidTo ts a := by
  unfold paidTo
  by_cases h : t.toAddress = a
  · simp [h]
  · simp [h]

theorem costOf_cons : costOf C (t :: ts) a = (if t.sender C = a then t.amount + t.fee else 0) + costOf C ts a := by
  unfold costOf sentBy
  by_cases h : t.sender C = a
  · simp [h]
  · simp [h]

theorem length_sentBy_cons :
    UInt64.ofNat (sentBy C (t :: ts) a).length = (if t.sender C = a then 1 else 0) + UInt64.ofNat (sentBy C ts a).length := by
  unfold sentBy
  by_cases h : t.sender C = a
  · simp [h, UInt64.ofNat_add, UInt64.add_comm]
  · simp [h]

end

theorem payableAfter_pay_iff {t' : Transaction}
    (hnonce : (s.get (t.sender C)).nonce + 1 = t.nonce) : PayableAfter C (t.pay C s) before t' ↔ PayableAfter C s (t :: before) t' := by
  have hbalance : ((t.pay C s).get (t'.sender C)).balance + paidTo before (t'.sender C) - costOf C before (t'.sender C) =
      (s.get (t'.sender C)).balance + paidTo (t :: before) (t'.sender C) - costOf C (t :: before) (t'.sender C) := by
    unfold Transaction.pay
    rw [balance_credit, balance_debit, paidTo_cons, costOf_cons]
    grind
  have hnext : ((t.pay C s).get (t'.sender C)).nonce + UInt64.ofNat (sentBy C before (t'.sender C)).length =
      (s.get (t'.sender C)).nonce + UInt64.ofNat (sentBy C (t :: before) (t'.sender C)).length := by
    rw [NonceAux.nonce_pay, length_sentBy_cons]
    split
    · rename_i h
      rw [if_pos h.symm, h, ← hnonce, UInt64.add_assoc]
    · rename_i h
      rw [if_neg (Ne.symm h), UInt64.zero_add]
  constructor
  · intro h
    exact ⟨hnext ▸ h.nonce, hbalance ▸ h.funds⟩
  · intro h
    exact ⟨hnext ▸ h.nonce, hbalance ▸ h.funds⟩

/-- A list of such transfers is applied if and only if each is payable after those before it. By induction on the list, for any state. -/
theorem applyTxs_iff {ts : List Transaction} (hts : ∀ t ∈ ts, Verified C p height t) (s : State) :
    (applyTxs C p height (i + 1) ts s).1 = .ok () ↔ ∀ before t after, ts = before ++ t :: after → PayableAfter C s before t := by
  induction ts generalizing i s with
  | nil => simp [applyTxs]
  | cons t ts ih =>
    unfold applyTxs
    rcases applyTx_of_verified (i := i) (hts t (.head _)) s with ⟨hok, hpay⟩ | ⟨⟨e, herr⟩, hpay⟩
    · simp only [hok]
      rw [ih (fun t' h => hts t' (.tail t h)) _]
      have hnonce := (payableAfter_nil_iff.mp hpay).1
      constructor
      · intro h before t' after heq
        cases before with
        | nil =>
          obtain ⟨rfl, -⟩ := List.cons.inj heq
          exact hpay
        | cons b before =>
          obtain ⟨rfl, hrest⟩ := List.cons.inj heq
          exact (payableAfter_pay_iff hnonce).mp (h before t' after hrest)
      · intro h before t' after heq
        exact (payableAfter_pay_iff hnonce).mpr (h (t :: before) t' after (by rw [heq, cons_append]))
    · simp only [herr]
      constructor
      · intro h
        cases h
      · intro h
        exact absurd (h [] t ts rfl) hpay

end

/-! ## What the workers return -/

section

variable {C : Crypto}

/-- The lists that the first loop builds hold transfers of their sender. By induction from the end of the entries. -/
theorem mem_bySender (h : e ∈ (bySender C entries).get addr) : e ∈ entries ∧ e.tx.type = .transfer ∧ fromAddress C e.tx = .ok addr := by
  induction entries using List.reverseRecOn with
  | nil =>
    rw [bySender, foldl_nil, GoMap.get_empty] at h
    cases h
  | append_singleton entries last ih =>
    have hmono : e ∈ (bySender C entries).get addr → e ∈ entries ++ [last] ∧ e.tx.type = .transfer ∧ fromAddress C e.tx = .ok addr :=
      fun h => ⟨mem_append_left _ (ih h).1, (ih h).2⟩
    unfold bySender at h hmono
    rw [foldl_append, foldl_cons, foldl_nil] at h
    split at h
    · exact hmono h
    · rename_i htype
      split at h
      · exact hmono h
      · rename_i fromAddr hfrom
        rw [GoMap.get_set] at h
        split at h
        · rename_i haddr
          subst haddr
          rcases mem_append.mp h with h | h
          · exact hmono h
          · obtain rfl := mem_singleton.mp h
            exact ⟨mem_append_right _ h, not_not.mp htype, hfrom⟩
        · exact hmono h

theorem validateLoop_sublist (p : ConsensusParams) (chainID height : UInt64) (addr : Bytes) (txs : List TxEntry) (state : State)
    (nonce : UInt64) : (validateLoop C p chainID height addr txs state nonce).Sublist
      (txs.filter fun e => verifyForConsensus C (e.tx.withChainID chainID) p height = .ok ()) := by
  induction txs generalizing state nonce with
  | nil => exact .slnil
  | cons entry txs ih =>
    simp only [validateLoop]
    split
    · rename_i herr
      rw [filter_cons_of_neg (by rw [herr]; simp)]
      exact ih state nonce
    · rename_i hok
      rw [filter_cons_of_pos (by simpa using hok)]
      split
      · exact (ih _ _).cons entry
      · split
        · exact (ih _ _).cons entry
        · exact (ih _ _).cons_cons entry

theorem sender_of_fromAddress (h : fromAddress C t = .ok addr) : addr = t.sender C := by
  unfold fromAddress at h
  iterate 2 obtain ⟨_, -, h⟩ := bind_eq_ok.mp h
  exact (Except.ok.inj h).symm

theorem Validated.verified {σ : Type} {bc : Blockchain σ} (h : Validated C bc entries valid)
    (hchain : ∀ e ∈ entries, e.tx.chainID ≠ 0) (he : e ∈ valid) : Verified C bc.consensus (bc.blocks.tip.height + 1) e.tx := by
  obtain ⟨range, results, hrange, hresults, rfl⟩ := h
  obtain ⟨result, hresult, he⟩ := mem_flatten.mp he
  obtain ⟨i, hi, rfl⟩ := mem_iff_getElem.mp hresult
  have hi' : i < range.length := hresults.length_eq ▸ hi
  obtain ⟨txs, hsorted, hworker⟩ := hresults.get hi' hi
  rw [get_eq_getElem] at hsorted hworker
  rw [hworker] at he
  obtain ⟨hin, hverified⟩ := mem_filter.mp ((validateLoop_sublist ..).subset he)
  have hlookup : (bySender C entries).lookup range[i].1 = some range[i].2 := (GoMap.mem_range_iff hrange).mp (getElem_mem hi')
  have hget : e ∈ (bySender C entries).get range[i].1 := by
    rw [GoMap.get, hlookup]
    exact hsorted.perm.subset hin
  obtain ⟨hentry, htype, hfrom⟩ := mem_bySender hget
  have hself : e.tx.withChainID bc.chainID = e.tx := by
    simp [Transaction.withChainID, hchain e hentry]
  exact ⟨htype, hself ▸ of_decide_eq_true hverified, sender_of_fromAddress hfrom ▸ hfrom⟩

end

/-! ## Batches -/

/-- Each transfer that the workers return is payable after whatever may stand before it in a batch: as few others as a batch has room
for, as long as their fees are not lower and the fees of the rest are not higher. -/
def PayableInOrder {σ : Type} (C : Crypto) (bc : Blockchain σ) (entries : List TxEntry) (max : Int64) : Prop :=
  ∀ valid, Validated C bc entries valid → ∀ before e after, (before ++ e :: after).Perm valid → before.length < maxPicked max →
    (∀ b ∈ before, e.tx.fee ≤ b.tx.fee) → (∀ a ∈ after, a.tx.fee ≤ e.tx.fee) →
    PayableAfter C bc.state (before.map TxEntry.tx) e.tx

theorem weakOrder_byFee : WeakOrder fun a b : TxEntry => a.tx.fee > b.tx.fee where
  asymm a b := by
    rcases UInt64.le_total a.tx.fee b.tx.fee with h | h
    · exact .inl (UInt64.not_lt.mpr h)
    · exact .inr (UInt64.not_lt.mpr h)
  trans a b c hab hbc := UInt64.not_lt.mpr (UInt64.le_trans (UInt64.not_lt.mp hbc) (UInt64.not_lt.mp hab))

/-- Every batch that may be selected applies if and only if each transfer is payable wherever it may stand in one. -/
theorem selected_applies_iff {σ : Type} {C : Crypto} {bc : Blockchain σ} {entries : List TxEntry}
    (hchain : ∀ e ∈ entries, e.tx.chainID ≠ 0) (max : Int64) : (∀ picked, SelectsMempoolTxs C bc entries max picked →
      (applyTxs C bc.consensus (bc.blocks.tip.height + 1) 1 (picked.map TxEntry.tx) bc.state).1 = .ok ()) ↔
      PayableInOrder C bc entries max := by
  have happlies : ∀ {valid sorted : List TxEntry}, Validated C bc entries valid → sorted.Perm valid →
      ((applyTxs C bc.consensus (bc.blocks.tip.height + 1) 1 ((sorted.take (maxPicked max)).map TxEntry.tx) bc.state).1 = .ok () ↔
        ∀ before t after, (sorted.take (maxPicked max)).map TxEntry.tx = before ++ t :: after → PayableAfter C bc.state before t) := by
    intro valid sorted hvalid hperm
    refine applyTxs_iff ?_ bc.state
    intro t ht
    obtain ⟨e, he, rfl⟩ := mem_map.mp ht
    exact hvalid.verified hchain (hperm.subset (mem_of_mem_take he))
  constructor
  · intro h valid hvalid before e after hperm hroom hbefore hafter
    obtain ⟨before', after', hb, hsorted⟩ := exists_sortSlice_around weakOrder_byFee hperm
      (fun b hb => UInt64.not_lt.mpr (hbefore b hb)) (fun a ha => UInt64.not_lt.mpr (hafter a ha))
    have happly := h _ ⟨valid, _, hvalid, hsorted, rfl⟩
    rw [happlies hvalid hsorted.perm] at happly
    have htake : (before' ++ e :: after').take (maxPicked max) = before' ++ e :: after'.take (maxPicked max - before.length - 1) := by
      rw [take_append, hb.length_eq, take_of_length_le (by rw [hb.length_eq]; omega),
        show maxPicked max - before.length = (maxPicked max - before.length - 1) + 1 by omega, take_succ_cons]
      rfl
    have hpay := happly (before'.map TxEntry.tx) e.tx _ (by rw [htake, map_append, map_cons])
    exact hpay.perm (hb.symm.map _)
  · intro h picked hpicked
    obtain ⟨valid, sorted, hvalid, hsorted, rfl⟩ := hpicked
    rw [happlies hvalid hsorted.perm]
    intro before t after heq
    obtain ⟨before', rest, htake, rfl, hrest⟩ := map_eq_append_iff.mp heq
    obtain ⟨e, after', rfl, rfl, rfl⟩ := map_eq_cons_iff.mp hrest
    have hsplit : sorted = before' ++ e :: (after' ++ sorted.drop (maxPicked max)) := by
      rw [← cons_append, ← append_assoc, ← htake, take_append_drop]
    have hlen : (before' ++ e :: after').length ≤ maxPicked max := by
      rw [← htake]
      exact length_take_le _ _
    rw [hsplit] at hsorted
    obtain ⟨-, hcons, hcross⟩ := pairwise_append.mp hsorted.sorted
    obtain ⟨hafter, -⟩ := pairwise_cons.mp hcons
    refine h valid hvalid before' e _ hsorted.perm ?_ ?_ ?_
    · rw [length_append, length_cons] at hlen
      omega
    · exact fun b hb => UInt64.not_lt.mp (hcross b hb e (.head _))
    · exact fun a ha => UInt64.not_lt.mp (hafter a ha)

namespace Sample

open NeoCoin.Sample (minerKey minerAddress)

def payingEntry : TxEntry := { tx := paying, txIDHex := hexEncode payingHash }

def tipping : Transaction :=
  { paying with
    fee := 2, nonce := 2
    signature := some (beBytes 64
      0x288b43574b758ad5aca3825bd7c6ffa1ff83214079fc01b6e776b0e7f5eaedf58882544406ede87d9eb7c1b204824160f8bc2365317c17e956079ec78e2ce50f) }

def tippingHash : Bytes := beBytes 32 0x18183baba9eaa1f6a865b40eb45895660ed0833308aa4099c7e27d313d122555

def tippingEntry : TxEntry := { tx := tipping, txIDHex := hexEncode tippingHash }

/-- The transfer `paying` at a higher fee than `tipping`. -/
def urgent : Transaction :=
  { paying with
    fee := 3
    signature := some (beBytes 64
      0xeefa9155a30418eb258efc84373d44b8d9d7497392a16416749eece4c17d083840533032aaf51acd3e8ae4129037be2fa61823c8c3666a404ee195a57a4dd300) }

def urgentHash : Bytes := beBytes 32 0x8c1cce0da1c248aba4e321d7f65b7e64f0126498d8b444a1ffe6dd151a746230

def urgentEntry : TxEntry := { tx := urgent, txIDHex := hexEncode urgentHash }

def cryptoBoth : Crypto :=
  goCrypto [(minerKey, payingHash, paying.signature.bytes), (minerKey, tippingHash, tipping.signature.bytes),
    (minerKey, urgentHash, urgent.signature.bytes)]

theorem fromAddress_paying : fromAddress cryptoBoth paying = .ok minerAddress := by
  rw [← Result.toOption_eq_some]
  rw [Sample.cryptoBoth, goCrypto_eq]
  decide +kernel

/-- Two transfers of the miner: one worker checks them, in the order of their nonces. -/
theorem validated_pair_iff {bc : Blockchain (Bolt Block)} {a b : TxEntry} (ha : a.tx.type = .transfer) (hb : b.tx.type = .transfer)
    (hfroma : fromAddress cryptoBoth a.tx = .ok minerAddress) (hfromb : fromAddress cryptoBoth b.tx = .ok minerAddress)
    (hnonce : a.tx.nonce < b.tx.nonce) : Validated cryptoBoth bc [a, b] valid ↔
      valid = validateTxsForSender cryptoBoth bc.consensus bc.chainID (bc.blocks.tip.height + 1) bc.state minerAddress [a, b] := by
  have hrange : GoMap.IsRange (bySender cryptoBoth [a, b]) [(minerAddress, [a, b])] := by
    simp only [bySender, foldl_cons, foldl_nil, ha, hb, hfroma, hfromb, ne_eq, not_true_eq_false, if_false, GoMap.get_set_self,
      GoMap.set_set]
    rfl
  constructor
  · rintro ⟨range, results, hrange', hresults, rfl⟩
    have hperm : range.Perm [(minerAddress, [a, b])] := Multiset.coe_eq_coe.mp (hrange'.trans hrange.symm)
    obtain rfl := perm_singleton.mp hperm
    obtain ⟨result, rest, ⟨txs, hsorted, rfl⟩, hrest, rfl⟩ := forall₂_cons_left_iff.mp hresults
    obtain rfl := forall₂_nil_left_iff.mp hrest
    rcases perm_pair.mp hsorted.perm with rfl | rfl
    · simp
    · exact absurd hnonce (pairwise_pair.mp hsorted.sorted)
  · rintro rfl
    refine ⟨_, [_], hrange, .cons ⟨_, ⟨.refl _, ?_⟩, rfl⟩ .nil, by simp⟩
    exact pairwise_pair.mpr (UInt64.not_lt.mpr (UInt64.le_of_lt hnonce))

theorem loaded_miner : ∃ bc, loaded = some (.ok bc) ∧ (bc.state.get minerAddress).nonce = 0 ∧
    PayableAfter cryptoBoth bc.state [] urgent ∧ PayableAfter cryptoBoth bc.state [urgent] tipping ∧
    ∀ first ∈ [payingEntry, urgentEntry], validateTxsForSender cryptoBoth bc.consensus bc.chainID (bc.blocks.tip.height + 1) bc.state
      minerAddress [first, tippingEntry] = [first, tippingEntry] := by
  refine ⟨node, node_loads, ?_⟩
  simp only [payableAfter_iff, cryptoBoth, goCrypto_eq]
  decide +kernel

end Sample

/-- Two transfers of the miner, the first at the higher fee: both are in the batch, and every batch is applied. -/
theorem selected_applies_paying : ∃ bc, Sample.loaded = some (.ok bc) ∧
    SelectsMempoolTxs Sample.cryptoBoth bc [Sample.urgentEntry, Sample.tippingEntry] 0 [Sample.urgentEntry, Sample.tippingEntry] ∧
    ∀ picked, SelectsMempoolTxs Sample.cryptoBoth bc [Sample.urgentEntry, Sample.tippingEntry] 0 picked →
      (applyTxs Sample.cryptoBoth bc.consensus (bc.blocks.tip.height + 1) 1 (picked.map TxEntry.tx) bc.state).1 = .ok () := by
  obtain ⟨bc, hbc, -, hurgent, htipping, hworker⟩ := Sample.loaded_miner
  have hvalid : ∀ valid, Validated Sample.cryptoBoth bc [Sample.urgentEntry, Sample.tippingEntry] valid ↔
      valid = [Sample.urgentEntry, Sample.tippingEntry] := by
    intro valid
    rw [Sample.validated_pair_iff rfl rfl Sample.fromAddress_paying Sample.fromAddress_paying (by decide), hworker _ (by simp)]
  refine ⟨bc, hbc, ⟨_, _, (hvalid _).mpr rfl, ⟨.refl _, by decide⟩, rfl⟩, (selected_applies_iff (by decide) 0).mpr ?_⟩
  intro valid hv before e after hperm hroom hbefore hafter
  obtain rfl := (hvalid valid).mp hv
  -- `tipping` is not first: the other has the higher fee
  rcases perm_pair.mp hperm with heq | heq
  · rcases before with _ | ⟨b, _ | ⟨b', before⟩⟩
    · obtain ⟨rfl, -⟩ := List.cons.inj heq
      exact hurgent
    · obtain ⟨rfl, hrest⟩ := List.cons.inj heq
      obtain ⟨rfl, -⟩ := List.cons.inj hrest
      exact htipping
    · simp at heq
  · rcases before with _ | ⟨b, _ | ⟨b', before⟩⟩
    · obtain ⟨rfl, rfl⟩ := List.cons.inj heq
      exact absurd (hafter _ (.head _)) (by decide)
    · obtain ⟨rfl, hrest⟩ := List.cons.inj heq
      obtain ⟨rfl, -⟩ := List.cons.inj hrest
      exact absurd (hbefore _ (.head _)) (by decide)
    · simp at heq

/-- Two transfers of one sender, the second at a higher fee: the batch has the second one first, and it is rejected. -/
theorem selected_reordered : ∃ bc, Sample.loaded = some (.ok bc) ∧
      SelectsMempoolTxs Sample.cryptoBoth bc [Sample.payingEntry, Sample.tippingEntry] 0 [Sample.tippingEntry, Sample.payingEntry] ∧
      (applyTxs Sample.cryptoBoth bc.consensus (bc.blocks.tip.height + 1) 1 [Sample.tipping, Sample.paying] bc.state).1 ≠ .ok () := by
  obtain ⟨bc, hbc, hnonce, -, -, hworker⟩ := Sample.loaded_miner
  have hfrom : fromAddress Sample.cryptoBoth Sample.tipping = .ok NeoCoin.Sample.minerAddress := Sample.fromAddress_paying
  have hvalid : Validated Sample.cryptoBoth bc [Sample.payingEntry, Sample.tippingEntry] [Sample.payingEntry, Sample.tippingEntry] := by
    rw [Sample.validated_pair_iff rfl rfl Sample.fromAddress_paying hfrom (by decide), hworker _ (by simp)]
  refine ⟨bc, hbc, ⟨_, _, hvalid, ⟨.swap _ _ _, by decide⟩, rfl⟩, ?_⟩
  intro hok
  have hverified : ∀ t ∈ [Sample.tipping, Sample.paying], Verified Sample.cryptoBoth bc.consensus (bc.blocks.tip.height + 1) t := by
    intro t ht
    obtain ⟨e, he, rfl⟩ : ∃ e ∈ [Sample.payingEntry, Sample.tippingEntry], t = e.tx := by
      rcases mem_pair.mp ht with rfl | rfl
      · exact ⟨Sample.tippingEntry, by simp, rfl⟩
      · exact ⟨Sample.payingEntry, by simp, rfl⟩
    exact hvalid.verified (by decide) he
  have hpay := (applyTxs_iff hverified bc.state).mp hok [] _ _ rfl
  have hbad := (payableAfter_nil_iff.mp hpay).1
  rw [← sender_of_fromAddress hfrom, hnonce] at hbad
  exact absurd hbad (by decide)

end NeoCoin.Internal
