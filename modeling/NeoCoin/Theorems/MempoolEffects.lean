import NeoCoin.Theorems.MempoolIndexes

/-!
# What the calls do to the pool

In every pool that any calls lead to, an entry of `byHash` stands under its own id, in the list of its sender and in the heap, and the
heap is one (`Rooted`); the other structures may hold more.
-/

namespace NeoCoin.Internal.Mempool

open GoLib List

variable {e : MempoolEntry} {rest : List MempoolEntry} {mp₁ mp₀ : Mempool} {C : Crypto} {mp mp' : Mempool}

structure Rooted (C : Crypto) (mp : Mempool) : Prop where
  keyed : ∀ txid e, mp.byHash.lookup txid = some e → e.txid = txid
  listed : ∀ txid e, mp.byHash.lookup txid = some e → e ∈ mp.bySender.get (fromAddressSafe C e.tx)
  sent : ∀ a, ∀ e ∈ mp.bySender.get a, fromAddressSafe C e.tx = a
  heaped : ∀ txid e, mp.byHash.lookup txid = some e → e ∈ mp.feeHeap
  heap : Heap.IsHeap FeeHeap.less mp.feeHeap

theorem lookup_removeEntry {entry : MempoolEntry} {txid : Bytes} :
    (mp.removeEntry C entry).byHash.lookup txid = some e ↔ mp.byHash.lookup txid = some e ∧ txid ≠ entry.txid :=
  GoMap.lookup_delete_eq_some_iff

theorem get_bySender_removeEntry (mp : Mempool) (entry : MempoolEntry) (a : Bytes) : (mp.removeEntry C entry).bySender.get a =
      if a = fromAddressSafe C entry.tx then (mp.bySender.get a).filter (fun e => e ≠ entry) else mp.bySender.get a :=
  get_takeOut mp.bySender _ a entry

/-- The map may lose more, and the heap what the map does not hold. -/
theorem Rooted.removeEntry (h : Rooted C mp) (entry : MempoolEntry) {m : GoMap Bytes MempoolEntry} {heap : List MempoolEntry}
    (hm : ∀ txid e, m.lookup txid = some e → mp.byHash.lookup txid = some e ∧ e ≠ entry)
    (hheap : ∀ e ∈ mp.feeHeap, e ≠ entry → e ∈ heap) (hisHeap : Heap.IsHeap FeeHeap.less heap) :
    Rooted C { mp.removeEntry C entry with byHash := m, feeHeap := heap } where
  keyed txid e he := h.keyed txid e (hm txid e he).1
  listed txid e he := by
    obtain ⟨hlookup, hne⟩ := hm txid e he
    have hmem := h.listed txid e hlookup
    show e ∈ (mp.removeEntry C entry).bySender.get _
    rw [get_bySender_removeEntry]
    split
    · exact mem_filter.mpr ⟨hmem, by simpa using hne⟩
    · exact hmem
  sent a e he := by
    replace he : e ∈ (mp.removeEntry C entry).bySender.get a := he
    rw [get_bySender_removeEntry] at he
    split at he
    · exact h.sent a e (mem_of_mem_filter he)
    · exact h.sent a e he
  heaped txid e he := hheap e (h.heaped txid e (hm txid e he).1) (hm txid e he).2
  heap := hisHeap

theorem Rooted.lookup_removed (h : Rooted C mp) {entry : MempoolEntry} {txid : Bytes}
    (he : (mp.removeEntry C entry).byHash.lookup txid = some e) : mp.byHash.lookup txid = some e ∧ e ≠ entry := by
  obtain ⟨hlookup, hne⟩ := lookup_removeEntry.mp he
  refine ⟨hlookup, ?_⟩
  rintro rfl
  exact hne (h.keyed txid e hlookup).symm

theorem Rooted.remove (h : Rooted C mp) (entry : MempoolEntry) : Rooted C (mp.removeEntry C entry) :=
  h.removeEntry entry (fun _ _ he => h.lookup_removed he) (fun _ he _ => he) h.heap

theorem Rooted.pop (h : Rooted C mp) {entry : MempoolEntry}
    (hpop : Heap.pop FeeHeap.less mp.feeHeap = some (entry, rest)) : Rooted C ({ mp with feeHeap := rest }.removeEntry C entry) := by
  refine h.removeEntry entry (fun _ _ he => h.lookup_removed he) ?_ (Heap.pop_isHeap feeOrder h.heap hpop)
  intro e he hne
  exact (mem_cons.mp ((Heap.pop_perm hpop).mem_iff.mp he)).resolve_left hne

/-! ## Eviction -/

/-- What a full pool evicts: the first entries that the heap gives, one more than there are too many. -/
def victims (mp : Mempool) : List MempoolEntry := Heap.drain FeeHeap.less (mp.size + 1 - mp.maxSize.toInt).toNat mp.feeHeap

theorem makeSpace_eq (mp : Mempool) : mp.makeSpace C = evictLoop C (mp.size + 1 - mp.maxSize.toInt).toNat mp := by
  unfold Mempool.makeSpace evictToMakeSpace
  split
  · dsimp only
    rw [if_neg (by omega)]
  · rename_i hroom
    rw [Int.toNat_of_nonpos (by omega), evictLoop]

structure Evicts (C : Crypto) (gone : List MempoolEntry) (mp mp' : Mempool) : Prop where
  rooted : Rooted C mp'
  lookup : ∀ txid e, mp'.byHash.lookup txid = some e ↔ mp.byHash.lookup txid = some e ∧ ∀ v ∈ gone, txid ≠ v.txid
  bySender : ∀ a, mp'.bySender.get a = (mp.bySender.get a).filter fun e => e ∉ gone
  minFeeRate : mp'.minFeeRate = mp.minFeeRate
  spamFilter : mp'.spamFilter = mp.spamFilter

theorem Evicts.refl (h : Rooted C mp) : Evicts C [] mp mp := ⟨h, by simp, by simp, rfl, rfl⟩

theorem Evicts.step (h : Rooted C mp) {entry : MempoolEntry}
    (hpop : Heap.pop FeeHeap.less mp.feeHeap = some (entry, rest)) {gone : List MempoolEntry}
    (hrest : Evicts C gone ({ mp with feeHeap := rest }.removeEntry C entry) mp') : Evicts C (entry :: gone) mp mp' where
  rooted := hrest.rooted
  lookup txid e := by
    have hfirst : ({ mp with feeHeap := rest }.removeEntry C entry).byHash.lookup txid = some e ↔
        mp.byHash.lookup txid = some e ∧ txid ≠ entry.txid := lookup_removeEntry
    rw [hrest.lookup, hfirst, forall_mem_cons, and_assoc]
  bySender a := by
    rw [hrest.bySender, get_bySender_removeEntry]
    have hboth : ((mp.bySender.get a).filter fun e => e ≠ entry).filter (fun e => e ∉ gone) =
        (mp.bySender.get a).filter fun e => e ∉ entry :: gone := by
      rw [filter_filter]
      refine filter_congr fun e _ => ?_
      simp [not_or, Bool.and_comm]
    split
    · exact hboth
    · rename_i hne
      -- the entry is in the list of its sender only
      rw [← hboth]
      congr 1
      refine (filter_eq_self.mpr fun e he => ?_).symm
      have hsent := h.sent a e he
      simp only [ne_eq, decide_eq_true_eq]
      rintro rfl
      exact hne hsent.symm
  minFeeRate := hrest.minFeeRate
  spamFilter := hrest.spamFilter

theorem evictLoop_evicts (h : Rooted C mp) (target : Nat) :
    Evicts C (Heap.drain FeeHeap.less target mp.feeHeap) mp (evictLoop C target mp) := by
  induction target generalizing mp with
  | zero => exact .refl h
  | succ target ih =>
    cases hpop : Heap.pop FeeHeap.less mp.feeHeap with
    | none =>
      simp only [evictLoop, Heap.drain, hpop]
      exact .refl h
    | some popped =>
      simp only [evictLoop, Heap.drain, hpop]
      exact .step h hpop (ih (h.pop hpop))

theorem makeSpace_evicts (h : Rooted C mp) : Evicts C mp.victims mp (mp.makeSpace C) := by
  rw [makeSpace_eq]
  exact evictLoop_evicts h _

/-! ## The loops over the pool -/

/-- A list of entries visits the pool: no id twice, and every one with what the pool has under it. -/
structure Visits (range : List (Bytes × MempoolEntry)) (mp : Mempool) : Prop where
  nodup : (range.map Prod.fst).Nodup
  entry : ∀ v ∈ range, ∀ e, mp.byHash.lookup v.1 = some e → e = v.2

/-- The entries with a property leave the pool when they are visited. -/
structure Removes (C : Crypto) (gone : MempoolEntry → Prop) (range : List (Bytes × MempoolEntry)) (mp mp' : Mempool) : Prop where
  rooted : Rooted C mp'
  lookup : ∀ txid e, mp'.byHash.lookup txid = some e ↔ mp.byHash.lookup txid = some e ∧ ¬((txid, e) ∈ range ∧ gone e)
  minFeeRate : mp'.minFeeRate = mp.minFeeRate

variable {gone : MempoolEntry → Prop} {range : List (Bytes × MempoolEntry)} {txid : Bytes} {entry : MempoolEntry}

theorem Removes.nil (h : Rooted C mp) : Removes C gone [] mp mp := ⟨h, by simp, rfl⟩

theorem Removes.skip (hskip : ¬(txid ∈ mp.byHash ∧ gone entry)) (h : Removes C gone range mp mp') :
    Removes C gone ((txid, entry) :: range) mp mp' where
  rooted := h.rooted
  lookup t e := by
    rw [h.lookup, mem_cons, Prod.mk.injEq]
    refine and_congr_right fun hlookup => not_congr (and_congr_left fun hgone => ?_)
    refine (or_iff_right ?_).symm
    rintro ⟨rfl, rfl⟩
    exact hskip ⟨Finmap.mem_of_lookup_eq_some hlookup, hgone⟩
  minFeeRate := h.minFeeRate

/-- The entry that is visited leaves the pool. -/
theorem Removes.step (hvisits : Visits ((txid, entry) :: range) mp) (hgone : gone entry)
    (hfirst : ∀ t e, mp₁.byHash.lookup t = some e ↔ mp.byHash.lookup t = some e ∧ t ≠ txid) (hrate : mp₁.minFeeRate = mp.minFeeRate)
    (h : Removes C gone range mp₁ mp') : Removes C gone ((txid, entry) :: range) mp mp' where
  rooted := h.rooted
  lookup t e := by
    rw [h.lookup, hfirst, and_assoc, mem_cons, Prod.mk.injEq]
    refine and_congr_right fun hlookup => ?_
    by_cases heq : t = txid
    · subst heq
      have he : e = entry := hvisits.entry (t, entry) mem_cons_self e hlookup
      simp [he, hgone]
    · simp [heq]
  minFeeRate := h.minFeeRate.trans hrate

theorem Visits.tail (hvisits : Visits ((txid, entry) :: range) mp)
    (hfirst : ∀ t e, mp₁.byHash.lookup t = some e → mp.byHash.lookup t = some e) : Visits range mp₁ where
  nodup := (nodup_cons.mp hvisits.nodup).2
  entry v hv e he := hvisits.entry v (.tail _ hv) e (hfirst v.1 e he)

theorem Rooted.txid_eq (h : Rooted C mp) (hvisits : Visits ((txid, entry) :: range) mp) (hmem : txid ∈ mp.byHash) : entry.txid = txid := by
  obtain ⟨e, hlookup⟩ := Finmap.mem_iff.mp hmem
  have he : e = entry := hvisits.entry (txid, entry) mem_cons_self e hlookup
  exact he ▸ h.keyed txid e hlookup

theorem removeSenderEntries_removes (sender : Bytes) (maxNonce : UInt64) (h : Rooted C mp) (hvisits : Visits range mp) :
    Removes C (fun e => fromAddressSafe C e.tx = sender ∧ e.tx.nonce ≤ maxNonce) range mp
      (removeSenderEntries C sender maxNonce range mp) := by
  induction range generalizing mp with
  | nil => exact .nil h
  | cons v range ih =>
    obtain ⟨txid, entry⟩ := v
    simp only [removeSenderEntries]
    split
    · rename_i hgone
      have htxid := h.txid_eq hvisits hgone.1
      set mp₁ : Mempool := { mp.removeEntry C entry with byHash := (mp.removeEntry C entry).byHash.delete txid } with hmp₁
      have hfirst : ∀ t e, mp₁.byHash.lookup t = some e ↔ mp.byHash.lookup t = some e ∧ t ≠ txid := by
        intro t e
        rw [hmp₁, GoMap.lookup_delete_eq_some_iff, lookup_removeEntry, htxid, and_assoc, and_self]
      have hrooted : Rooted C mp₁ := by
        refine h.removeEntry entry ?_ (fun _ he _ => he) h.heap
        intro t e he
        refine h.lookup_removed (lookup_removeEntry.mpr ?_)
        rw [htxid]
        exact (hfirst t e).mp he
      exact .step hvisits hgone.2 hfirst rfl (ih hrooted (hvisits.tail fun t e he => ((hfirst t e).mp he).1))
    · rename_i hskip
      exact .skip hskip (ih h (hvisits.tail fun _ _ he => he))

theorem removeLater_removes (sender : Bytes) (nonce : UInt64) (h : Rooted C mp) (hvisits : Visits range mp) :
    Removes C (fun e => fromAddressSafe C e.tx = sender ∧ nonce < e.tx.nonce) range mp (removeLater C sender nonce range mp).2 := by
  induction range generalizing mp with
  | nil => exact .nil h
  | cons v range ih =>
    obtain ⟨txid, entry⟩ := v
    simp only [removeLater]
    split
    · rename_i hgone
      have hfirst : ∀ t e, (mp.removeEntry C entry).byHash.lookup t = some e ↔ mp.byHash.lookup t = some e ∧ t ≠ txid := by
        intro t e
        rw [lookup_removeEntry, h.txid_eq hvisits hgone.1]
      exact .step hvisits hgone.2 hfirst rfl (ih (h.remove entry) (hvisits.tail fun t e he => ((hfirst t e).mp he).1))
    · rename_i hskip
      exact .skip hskip (ih h (hvisits.tail fun _ _ he => he))

theorem visits_of_range (hrange : GoMap.IsRange mp₀.byHash range)
    (hsub : ∀ t e, mp.byHash.lookup t = some e → mp₀.byHash.lookup t = some e) : Visits range mp where
  nodup := GoMap.nodup_keys_range hrange
  entry v hv e he := by
    have hlookup : mp₀.byHash.lookup v.1 = some v.2 := (GoMap.mem_range_iff hrange).mp hv
    rw [hsub v.1 e he] at hlookup
    exact Option.some_inj.mp hlookup

theorem Removes.all (h : Removes C gone range mp mp') (hrange : GoMap.IsRange mp₀.byHash range)
    (hsub : ∀ t e, mp.byHash.lookup t = some e → mp₀.byHash.lookup t = some e) (txid : Bytes) (e : MempoolEntry) :
    mp'.byHash.lookup txid = some e ↔ mp.byHash.lookup txid = some e ∧ ¬gone e := by
  rw [h.lookup]
  refine and_congr_right fun hlookup => not_congr (and_iff_right ?_)
  exact (GoMap.mem_range_iff hrange).mpr (hsub txid e hlookup)

end NeoCoin.Internal.Mempool
