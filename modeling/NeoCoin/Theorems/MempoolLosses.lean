import NeoCoin.Theorems.MempoolEffects

/-!
# What a call may cost the pool

`Add` makes space in a full pool before it has made its checks, and takes out what the heap gives first, which is what pays most.
`ReplaceByFeeWithTxID` takes out the transaction that is to be replaced, and all later ones of the sender, before its last checks.
-/

namespace NeoCoin.Internal.Mempool

open GoLib List

variable {tx : Transaction} {a : Bytes} {range : List (Bytes × MempoolEntry)} {now : Int} {e : MempoolEntry} {C : Crypto} {mp mp' : Mempool}

/-! ## Every pool -/

theorem Rooted.new (maxSize minFeeRate : Int64) (spamFilter : SpamFilter) : Rooted C (newMempool maxSize minFeeRate spamFilter) where
  keyed txid e he := by cases he
  listed txid e he := by cases he
  sent a e he := by
    rw [newMempool, GoMap.get_empty] at he
    cases he
  heaped txid e he := by cases he
  heap k hk := rfl

theorem Rooted.insert (h : Rooted C mp) (hfrom : fromAddress C tx = .ok a) (txid : Bytes) (now : Int) :
    Rooted C (mp.insert tx txid a now) := by
  set entry : MempoolEntry :=
    { ref := mp.next, tx := tx, txid := txid, feePerKB := feeRate tx, weight := estimateSize tx, expiry := now + mp.ttl } with hentry
  have hsafe : fromAddressSafe C entry.tx = a := fromAddressSafe_of_ok hfrom
  have hlookup : ∀ t e, (mp.insert tx txid a now).byHash.lookup t = some e → t = txid ∧ e = entry ∨ mp.byHash.lookup t = some e := by
    intro t e he
    replace he : (mp.byHash.set txid entry).lookup t = some e := he
    rw [GoMap.lookup_set] at he
    split at he
    · rename_i heq
      exact .inl ⟨heq, (Option.some_inj.mp he).symm⟩
    · exact .inr he
  have hget : ∀ b, (mp.insert tx txid a now).bySender.get b = if b = a then mp.bySender.get a ++ [entry] else mp.bySender.get b :=
    fun b => GoMap.get_set _ _ _ _
  have hheap : ∀ e, e ∈ (mp.insert tx txid a now).feeHeap ↔ e = entry ∨ e ∈ mp.feeHeap := by
    intro e
    rw [← mem_cons]
    exact (Heap.push_perm mp.feeHeap entry).mem_iff
  refine ⟨?_, ?_, ?_, ?_, Heap.push_isHeap feeOrder h.heap entry⟩
  · intro t e he
    rcases hlookup t e he with ⟨rfl, rfl⟩ | he
    · rfl
    · exact h.keyed t e he
  · intro t e he
    rw [hget]
    rcases hlookup t e he with ⟨rfl, rfl⟩ | he
    · rw [if_pos hsafe]
      exact mem_append_right _ (mem_singleton.mpr rfl)
    · have hmem := h.listed t e he
      split
      · rename_i heq
        exact mem_append_left _ (heq ▸ hmem)
      · exact hmem
  · intro b e he
    rw [hget] at he
    split at he
    · rename_i heq
      subst heq
      rcases mem_append.mp he with he | he
      · exact h.sent b e he
      · rw [mem_singleton.mp he]
        exact hsafe
    · exact h.sent b e he
  · intro t e he
    rw [hheap]
    rcases hlookup t e he with ⟨-, rfl⟩ | he
    · exact .inl rfl
    · exact .inr (h.heaped t e he)

theorem Evicts.sub {gone : List MempoolEntry} (h : Evicts C gone mp mp') (t : Bytes) (e : MempoolEntry)
    (he : mp'.byHash.lookup t = some e) : mp.byHash.lookup t = some e :=
  ((h.lookup t e).mp he).1

theorem Rooted.add (h : Rooted C mp) (tx : Transaction) (now : Int) (hrange : GoMap.IsRange mp.byHash range) :
    Rooted C (mp.add C tx now range).2 := by
  have hspace := makeSpace_evicts h
  unfold Mempool.add
  split
  · exact h
  · split
    · exact h
    · unfold accept
      split
      · exact hspace.rooted
      · split
        · exact hspace.rooted
        · rename_i a hfrom
          split
          · exact { hspace.rooted with }
          · split
            · exact hspace.rooted.insert hfrom _ now
            · split
              · exact hspace.rooted
              · exact (removeSenderEntries_removes a _ hspace.rooted (visits_of_range hrange hspace.sub)).rooted.insert hfrom _ now

theorem Rooted.replace (h : Rooted C mp) (hfrom : fromAddress C tx = .ok a) (existingTxid txid : Bytes)
    (existing : MempoolEntry) (now : Int) (hrange : GoMap.IsRange mp.byHash range) :
    Rooted C (mp.replace C existingTxid existing tx txid a now range).2.2 := by
  have hremoved := removeLater_removes a tx.nonce (h.remove existing) (visits_of_range hrange fun t e he => (h.lookup_removed he).1)
  rcases hloop : (mp.removeEntry C existing).removeLater C a tx.nonce range with ⟨later, mp₂⟩
  rw [hloop] at hremoved
  simp only [Mempool.replace, hloop]
  split
  · exact hremoved.rooted
  · split
    · exact (makeSpace_evicts hremoved.rooted).rooted
    · exact (makeSpace_evicts hremoved.rooted).rooted.insert hfrom _ now

theorem Rooted.foldl {α : Type*} {f : Mempool → α → Mempool} (hf : ∀ mp x, Rooted C mp → Rooted C (f mp x)) (h : Rooted C mp) (l : List α) :
    Rooted C (l.foldl f mp) := by
  induction l generalizing mp with
  | nil => exact h
  | cons x l ih => exact ih (hf mp x h)

theorem Rooted.removeID (h : Rooted C mp) (txid : Bytes) : Rooted C (mp.remove C txid) := by
  unfold Mempool.remove
  split
  · exact h.remove _
  · exact h

theorem Rooted.exec (h : Rooted C mp) {call : Call} (hranges : call.Ranges mp) (hexec : call.exec C mp = some mp') : Rooted C mp' := by
  cases call with
  | add tx now range =>
    rw [← Option.some_inj.mp hexec]
    exact h.add tx now hranges
  | replace tx txid now range =>
    obtain ⟨r, hr, rfl⟩ := Option.map_eq_some_iff.mp hexec
    unfold replaceByFeeWithTxID at hr
    split at hr
    · rw [← Option.some_inj.mp hr]
      exact h
    · rename_i a hfrom
      split at hr
      · rw [← Option.some_inj.mp hr]
        exact h
      · split at hr
        · cases hr
        · split at hr
          · rw [← Option.some_inj.mp hr]
            exact h
          · rw [← Option.some_inj.mp hr]
            exact h.replace hfrom _ _ _ now hranges
  | remove txid =>
    rw [← Option.some_inj.mp hexec]
    exact h.removeID txid
  | removeMany txids =>
    rw [← Option.some_inj.mp hexec]
    exact Rooted.foldl (fun mp txid h => h.removeID txid) h txids
  | cleanup now =>
    rw [← Option.some_inj.mp hexec]
    refine Rooted.foldl (fun mp entry h => ?_) h mp.ttlQueue
    unfold cleanupEntry
    split
    · exact { h.remove entry with }
    · exact h

theorem Reached.rooted {condition : Mempool → Call → Prop} (h : Reached C condition mp) : Rooted C mp := by
  induction h with
  | new maxSize minFeeRate spamFilter => exact .new maxSize minFeeRate spamFilter
  | call hmp call hranges hcondition hexec ih => exact ih.exec hranges hexec

/-! ## Rejected transactions -/

/-- The checks of `Add` that come after the eviction, with what is left of the entries of a sender. -/
def Admits (C : Crypto) (mp : Mempool) (left : Bytes → List MempoolEntry) (tx : Transaction) : Prop :=
  mp.minFeeRate ≤ feeRate tx ∧ ∃ a, fromAddress C tx = .ok a ∧
    mp.spamFilter a tx.amount.toInt64 tx.fee.toInt64 tx.data tx.nonce = none ∧
    ∀ highest, (left a).getLast? = some highest → highest.tx.nonce < tx.nonce

theorem accept_ok_iff (tx : Transaction) (txid : Bytes) (now : Int) (range : List (Bytes × MempoolEntry)) :
    (mp.accept C tx txid now range).1 = .ok () ↔ Admits C mp mp.bySender.get tx := by
  unfold accept Admits
  split
  · rename_i hrate
    exact iff_of_false (by simp) fun h => absurd h.1 (Int64.not_le.mpr hrate)
  · rename_i hrate
    rw [Int64.not_lt] at hrate
    simp only [hrate, true_and]
    split
    · rename_i err hfrom
      simp [hfrom]
    · rename_i a hfrom
      simp only [hfrom, Except.ok.injEq, exists_eq_left']
      split
      · rename_i reason hspam
        simp [hspam]
      · rename_i hspam
        simp only [hspam, true_and]
        split
        · rename_i hlast
          simp [hlast]
        · rename_i highest hlast
          simp only [hlast, Option.some_inj, forall_eq']
          split
          · rename_i hle
            exact iff_of_false (by simp) (UInt64.not_lt.mpr hle)
          · rename_i hlt
            exact iff_of_true rfl (UInt64.not_le.mp hlt)

theorem accept_error_byHash {txid : Bytes} {err : String}
    (h : mp.accept C tx txid now range = (.error err, mp')) : mp'.byHash = mp.byHash := by
  unfold accept at h
  split at h
  · rw [← (Prod.mk.inj h).2]
  · split at h
    · rw [← (Prod.mk.inj h).2]
    · split at h
      · rw [← (Prod.mk.inj h).2]
      · split at h
        · cases (Prod.mk.inj h).1
        · split at h
          · rw [← (Prod.mk.inj h).2]
          · cases (Prod.mk.inj h).1

/-- What is left of the entries of a sender after the eviction. -/
def left (mp : Mempool) (a : Bytes) : List MempoolEntry := (mp.bySender.get a).filter fun e => e ∉ mp.victims

theorem admits_makeSpace_iff (h : Rooted C mp) : Admits C (mp.makeSpace C) (mp.makeSpace C).bySender.get tx ↔ Admits C mp mp.left tx := by
  have hspace := makeSpace_evicts h
  unfold Admits left
  simp only [hspace.minFeeRate, hspace.spamFilter, hspace.bySender]

/-- If the eviction takes a transaction out of the pool, then a new one passes the checks. -/
def AddSafe (C : Crypto) (mp : Mempool) (tx : Transaction) : Prop :=
  (∃ v ∈ mp.victims, v.txid ∈ mp.byHash) → ∀ txid, txIDHex C tx = .ok txid → txid ∉ mp.byHash → Admits C mp mp.left tx

theorem makeSpace_byHash_iff (h : Rooted C mp) : (mp.makeSpace C).byHash = mp.byHash ↔ ∀ v ∈ mp.victims, v.txid ∉ mp.byHash := by
  have hspace := makeSpace_evicts h
  constructor
  · intro heq v hv hmem
    rw [← heq] at hmem
    obtain ⟨e, he⟩ := Finmap.mem_iff.mp hmem
    exact ((hspace.lookup _ e).mp he).2 v hv rfl
  · intro hnone
    refine Finmap.ext_lookup fun txid => Option.ext fun e => ?_
    refine (hspace.lookup txid e).trans (and_iff_left_of_imp fun he v hv heq => ?_)
    exact hnone v hv (heq ▸ Finmap.mem_of_lookup_eq_some he)

theorem add_unchanged_iff (h : Rooted C mp) (tx : Transaction) (now : Int) (range : List (Bytes × MempoolEntry)) :
    (∀ err mp', mp.add C tx now range = (.error err, mp') → mp'.byHash = mp.byHash) ↔ mp.AddSafe C tx := by
  unfold Mempool.add AddSafe
  cases hid : txIDHex C tx with
  | error err =>
    refine iff_of_true ?_ fun _ _ hid => by cases hid
    intro err mp' heq
    rw [← (Prod.mk.inj heq).2]
  | ok txid =>
    dsimp only
    by_cases hmem : txid ∈ mp.byHash
    · rw [if_pos hmem]
      refine iff_of_true ?_ ?_
      · intro err mp' heq
        rw [← (Prod.mk.inj heq).2]
      · rintro - _ ⟨⟩ hnew
        exact absurd hmem hnew
    · rw [if_neg hmem]
      constructor
      · intro hunchanged hvictim t ht _
        cases ht
        rw [← admits_makeSpace_iff h, ← accept_ok_iff tx txid now range]
        rcases haccept : (mp.makeSpace C).accept C tx txid now range with ⟨_ | ⟨⟩, mp'⟩
        · have hspace := (accept_error_byHash haccept).symm.trans (hunchanged _ _ haccept)
          obtain ⟨v, hv, hpooled⟩ := hvictim
          exact absurd hpooled ((makeSpace_byHash_iff h).mp hspace v hv)
        · rfl
      · intro hsafe err mp' haccept
        rw [accept_error_byHash haccept, makeSpace_byHash_iff h]
        intro v hv hpooled
        have hadmits := hsafe ⟨v, hv, hpooled⟩ txid rfl hmem
        rw [← admits_makeSpace_iff h, ← accept_ok_iff tx txid now range, haccept] at hadmits
        cases hadmits

/-- If the transaction to be replaced is found and pays less, then the new one pays enough, and its id is not one that stays in the pool. -/
def ReplaceSafe (C : Crypto) (mp : Mempool) (tx : Transaction) (txid : Bytes) : Prop :=
  ∀ a existing, fromAddress C tx = .ok a → (mp.getTxidBySenderNonce a tx.nonce).bind mp.byHash.lookup = some existing →
    existing.tx.fee < tx.fee → mp.minFeeRate ≤ feeRate tx ∧
      ∀ e, mp.byHash.lookup txid = some e → e = existing ∨ fromAddressSafe C e.tx = a ∧ tx.nonce < e.tx.nonce

theorem replace_error_iff (h : Rooted C mp) {txid existingTxid : Bytes} {existing : MempoolEntry}
    (hexisting : mp.byHash.lookup existingTxid = some existing) (hrange : GoMap.IsRange mp.byHash range) :
    (∀ err evicted mp', mp.replace C existingTxid existing tx txid a now range = (.error err, evicted, mp') → mp'.byHash = mp.byHash) ↔
      mp.minFeeRate ≤ feeRate tx ∧
        ∀ e, mp.byHash.lookup txid = some e → e = existing ∨ fromAddressSafe C e.tx = a ∧ tx.nonce < e.tx.nonce := by
  have hsub : ∀ t e, (mp.removeEntry C existing).byHash.lookup t = some e → mp.byHash.lookup t = some e := fun t e he =>
    (h.lookup_removed he).1
  have hremoved := removeLater_removes a tx.nonce (h.remove existing) (visits_of_range hrange hsub)
  rcases hloop : (mp.removeEntry C existing).removeLater C a tx.nonce range with ⟨later, mp₂⟩
  rw [hloop] at hremoved
  have hlookup : ∀ t e, mp₂.byHash.lookup t = some e ↔ (mp.byHash.lookup t = some e ∧ t ≠ existing.txid) ∧
      ¬(fromAddressSafe C e.tx = a ∧ tx.nonce < e.tx.nonce) := by
    intro t e
    rw [hremoved.all hrange hsub, lookup_removeEntry]
  have hspace := makeSpace_evicts hremoved.rooted
  have hrate : (mp₂.makeSpace C).minFeeRate = mp.minFeeRate := hspace.minFeeRate.trans hremoved.minFeeRate
  have hkeyed := h.keyed existingTxid existing hexisting
  have hgone : existing.txid ∉ mp₂.byHash := by
    intro hmem
    obtain ⟨e, he⟩ := Finmap.mem_iff.mp hmem
    exact ((hlookup _ e).mp he).1.2 rfl
  have hgone' : existing.txid ∉ (mp₂.makeSpace C).byHash := by
    intro hmem
    obtain ⟨e, he⟩ := Finmap.mem_iff.mp hmem
    exact hgone (Finmap.mem_of_lookup_eq_some (hspace.sub _ e he))
  have hpooled : existing.txid ∈ mp.byHash := by
    rw [hkeyed]
    exact Finmap.mem_of_lookup_eq_some hexisting
  have hfree : txid ∉ mp₂.byHash ↔
      ∀ e, mp.byHash.lookup txid = some e → e = existing ∨ fromAddressSafe C e.tx = a ∧ tx.nonce < e.tx.nonce := by
    constructor
    · intro hfree e he
      by_contra hstays
      rw [not_or] at hstays
      refine hfree (Finmap.mem_of_lookup_eq_some ((hlookup txid e).mpr ⟨⟨he, ?_⟩, hstays.2⟩))
      rintro rfl
      rw [hkeyed, hexisting] at he
      exact hstays.1 (Option.some_inj.mp he).symm
    · intro hleaves hmem
      obtain ⟨e, he⟩ := Finmap.mem_iff.mp hmem
      obtain ⟨⟨hin, hne⟩, hearlier⟩ := (hlookup txid e).mp he
      rcases hleaves e hin with rfl | hlater
      · exact hne (h.keyed txid e hin).symm
      · exact hearlier hlater
  simp only [Mempool.replace, hloop, hrate, ← hfree]
  by_cases hmem : txid ∈ mp₂.byHash
  · refine iff_of_false (fun hunchanged => ?_) fun hfree => hfree.2 hmem
    rw [if_pos hmem] at hunchanged
    exact hgone (hunchanged _ _ _ rfl ▸ hpooled)
  · rw [if_neg hmem]
    by_cases hlow : feeRate tx < mp.minFeeRate
    · refine iff_of_false (fun hunchanged => ?_) fun hsafe => absurd hsafe.1 (Int64.not_le.mpr hlow)
      rw [if_pos hlow] at hunchanged
      exact hgone' (hunchanged _ _ _ rfl ▸ hpooled)
    · rw [if_neg hlow]
      refine iff_of_true (fun err evicted mp' heq => ?_) ⟨Int64.not_lt.mp hlow, hmem⟩
      cases (Prod.mk.inj heq).1

theorem replace_unchanged_iff (h : Rooted C mp) (tx : Transaction) (txid : Bytes) (now : Int) (hrange : GoMap.IsRange mp.byHash range) :
    (∀ err evicted mp', mp.replaceByFeeWithTxID C tx txid now range = some (.error err, evicted, mp') → mp'.byHash = mp.byHash) ↔
      mp.ReplaceSafe C tx txid := by
  have hsame : ∀ (err : String) (r : List Bytes × Mempool), r.2 = mp → ∀ err' evicted mp',
      some ((Except.error err : Result Bytes), r) = some (.error err', evicted, mp') → mp'.byHash = mp.byHash := by
    rintro err ⟨_, _⟩ rfl err' evicted mp' heq
    cases heq
    rfl
  unfold replaceByFeeWithTxID ReplaceSafe
  cases hfrom : fromAddress C tx with
  | error err => exact iff_of_true (hsame err ([], mp) rfl) fun _ _ hfrom => by cases hfrom
  | ok a =>
    simp only [Except.ok.injEq]
    cases hid : mp.getTxidBySenderNonce a tx.nonce with
    | none =>
      refine iff_of_true (hsame _ ([], mp) rfl) ?_
      rintro _ existing rfl hexisting
      simp [hid] at hexisting
    | some existingTxid =>
      dsimp only
      cases hexisting : mp.byHash.lookup existingTxid with
      | none =>
        refine iff_of_true (fun _ _ _ heq => by cases heq) ?_
        rintro _ existing rfl hbind
        simp [hid, hexisting] at hbind
      | some existing =>
        dsimp only
        by_cases hfee : tx.fee ≤ existing.tx.fee
        · rw [if_pos hfee]
          refine iff_of_true (hsame _ ([], mp) rfl) ?_
          rintro _ existing' rfl hbind hlt
          rw [hid, Option.bind_some, hexisting, Option.some_inj] at hbind
          subst hbind
          exact absurd hfee (UInt64.not_le.mpr hlt)
        · rw [if_neg hfee]
          simp only [Option.some_inj]
          rw [replace_error_iff h hexisting hrange]
          constructor
          · rintro hsafe _ existing' rfl hbind _
            rw [hid, Option.bind_some, hexisting, Option.some_inj] at hbind
            subst hbind
            exact hsafe
          · intro hsafe
            refine hsafe a existing rfl ?_ (UInt64.not_le.mp hfee)
            rw [hid, Option.bind_some, hexisting]

/-- An error leaves the pool as it was if and only if the call has not taken anything out of it before the check that fails. -/
theorem rejected_unchanged_iff (C : Crypto) (mp : Mempool) (h : Reachable C mp) (tx : Transaction) (txid : Bytes) (now : Int)
    (range : List (Bytes × MempoolEntry)) (hrange : GoMap.IsRange mp.byHash range) :
    ((∀ err mp', mp.add C tx now range = (.error err, mp') → mp'.byHash = mp.byHash) ↔ mp.AddSafe C tx) ∧
      ((∀ err evicted mp', mp.replaceByFeeWithTxID C tx txid now range = some (.error err, evicted, mp') → mp'.byHash = mp.byHash) ↔
        mp.ReplaceSafe C tx txid) :=
  ⟨add_unchanged_iff h.rooted tx now range, replace_unchanged_iff h.rooted tx txid now hrange⟩

namespace Sample

theorem pooled_reachable : Reachable (goCrypto []) pooled := pooled_reached.imp fun _ _ _ => trivial

theorem pooled_victims : pooled.victims = [] := by decide

def full : Mempool := ((newMempool 1 1 fun _ _ _ _ _ => none).add (goCrypto []) (transfer 1 100) 0 []).2

end Sample

open Mempool.Sample

/-- A transaction that pays nothing, in a pool with space. -/
theorem rejected_unchanged_free : (pooled.add (goCrypto []) (transfer 2 0) 0 (visits pooled)).1 ≠ .ok () ∧
    (pooled.add (goCrypto []) (transfer 2 0) 0 (visits pooled)).2.byHash = pooled.byHash := by
  have hiff := rejected_unchanged_iff (goCrypto []) pooled pooled_reachable (transfer 2 0) [] 0
    (visits pooled) pooled_range
  have hsafe : pooled.AddSafe (goCrypto []) (transfer 2 0) := by
    rintro ⟨v, hv, -⟩
    rw [pooled_victims] at hv
    cases hv
  have herror : (pooled.add (goCrypto []) (transfer 2 0) 0 (visits pooled)).1 ≠ .ok () := by
    rw [goCrypto_eq]
    decide +kernel
  refine ⟨herror, ?_⟩
  rcases hadd : pooled.add (goCrypto []) (transfer 2 0) 0 (visits pooled) with ⟨err | ⟨⟩, mp'⟩
  · exact hiff.1.mpr hsafe err mp' hadd
  · rw [hadd] at herror
    exact absurd rfl herror

/-- The same in a full pool: the transaction is refused, and the pool is empty. -/
theorem rejected_loses : Reachable (goCrypto []) Sample.full ∧ GoMap.IsRange Sample.full.byHash (visits Sample.full) ∧
    Sample.full.size = 1 ∧
    (Sample.full.add (goCrypto []) (transfer 2 0) 0 (visits Sample.full)).1 ≠ .ok () ∧
    (Sample.full.add (goCrypto []) (transfer 2 0) 0 (visits Sample.full)).2.size = 0 := by
  refine ⟨?_, by rw [goCrypto_eq]; decide +kernel⟩
  exact .call (.new 1 1 fun _ _ _ _ _ => none) (.add (transfer 1 100) 0 []) rfl trivial rfl

/-! ## Accepted transactions -/

def Evictable (mp : Mempool) (e : MempoolEntry) : Prop := ∃ v ∈ mp.victims, v.txid = e.txid

/-- What is lost from one pool to another has been evicted from a full pool, and paid no more than anything that is left. -/
def LosesCheapest (mp mp' : Mempool) : Prop :=
  ∀ e, mp.Pooled e → e.txid ∉ mp'.byHash → (mp.maxSize.toInt ≤ mp.size ∧ mp.Evictable e) ∧
    ∀ e', mp.Pooled e' → e'.txid ∈ mp'.byHash → e.feePerKB ≤ e'.feePerKB

/-- Nothing that the eviction takes out pays more than what it leaves, and it takes out all that the sender has with lower nonces. -/
def TakesCheapest (C : Crypto) (mp : Mempool) (tx : Transaction) : Prop :=
  (∀ e e', mp.Pooled e → mp.Pooled e' → mp.Evictable e → ¬mp.Evictable e' → e.feePerKB ≤ e'.feePerKB) ∧
    ∀ e, mp.Pooled e → fromAddress C tx = .ok (fromAddressSafe C e.tx) → e.tx.nonce < tx.nonce → mp.Evictable e

theorem Rooted.pooled_iff (h : Rooted C mp) : mp.Pooled e ↔ mp.byHash.lookup e.txid = some e := by
  constructor
  · rintro ⟨txid, he⟩
    rwa [h.keyed txid e he]
  · intro he
    exact ⟨e.txid, he⟩

theorem le_sub_one_iff {n m k : UInt64} (h : k < n) : m ≤ n - 1 ↔ m < n := by
  have hk := UInt64.lt_iff_toNat_lt.mp h
  have hone : (1 : UInt64).toNat = 1 := rfl
  have hsub : (n - 1).toNat = n.toNat - 1 := by
    rw [UInt64.toNat_sub_of_le _ _ (UInt64.le_iff_toNat_le.mpr (by omega)), hone]
  rw [UInt64.le_iff_toNat_le, UInt64.lt_iff_toNat_lt, hsub]
  omega

theorem mem_add_iff (h : Rooted C mp) (hrange : GoMap.IsRange mp.byHash range) (hadd : mp.add C tx now range = (.ok (), mp')) :
    ∃ txid a, txid ∉ mp.byHash ∧ fromAddress C tx = .ok a ∧ ∀ t, t ∈ mp'.byHash ↔ t = txid ∨
      ∃ e, mp.byHash.lookup t = some e ∧ ¬mp.Evictable e ∧ ¬(fromAddressSafe C e.tx = a ∧ e.tx.nonce < tx.nonce) := by
  have hspace := makeSpace_evicts h
  have hleft : ∀ t e, (mp.makeSpace C).byHash.lookup t = some e ↔ mp.byHash.lookup t = some e ∧ ¬mp.Evictable e := by
    intro t e
    rw [hspace.lookup]
    refine and_congr_right fun he => ?_
    rw [← h.keyed t e he, Evictable, not_exists]
    simp only [not_and, ne_eq, eq_comm]
  unfold Mempool.add at hadd
  split at hadd
  · cases hadd
  · rename_i txid hid
    split at hadd
    · cases hadd
    · rename_i hnew
      unfold accept at hadd
      split at hadd
      · cases hadd
      · split at hadd
        · cases hadd
        · rename_i a hfrom
          refine ⟨txid, a, hnew, hfrom, fun t => ?_⟩
          split at hadd
          · cases hadd
          · split at hadd
            · rename_i hnone
              obtain rfl := (Prod.mk.inj hadd).2
              have hnil := List.getLast?_eq_none_iff.mp hnone
              refine GoMap.mem_set.trans (or_congr_right (Finmap.mem_iff.trans (exists_congr fun e => ?_)))
              rw [hleft]
              refine and_congr_right fun he => (and_iff_left_of_imp fun hevict => ?_).symm
              rintro ⟨rfl, -⟩
              have hlisted := hspace.rooted.listed t e ((hleft t e).mpr ⟨he, hevict⟩)
              rw [hnil] at hlisted
              cases hlisted
            · rename_i highest hlast
              split at hadd
              · cases hadd
              · rename_i hhigher
                obtain rfl := (Prod.mk.inj hadd).2
                have hremoved := removeSenderEntries_removes a (tx.nonce - 1) hspace.rooted (visits_of_range hrange hspace.sub)
                refine GoMap.mem_set.trans (or_congr_right (Finmap.mem_iff.trans (exists_congr fun e => ?_)))
                rw [hremoved.all hrange hspace.sub, hleft, and_assoc, le_sub_one_iff (UInt64.not_le.mp hhigher)]

theorem full_of_evictable (h : mp.Evictable e) : mp.maxSize.toInt ≤ mp.size := by
  obtain ⟨v, hv, -⟩ := h
  by_contra hroom
  rw [victims, Int.toNat_of_nonpos (by omega)] at hv
  cases hv

theorem losesCheapest_iff (h : Rooted C mp) (hrange : GoMap.IsRange mp.byHash range) (hadd : mp.add C tx now range = (.ok (), mp')) :
    LosesCheapest mp mp' ↔ TakesCheapest C mp tx := by
  obtain ⟨txid, a, hnew, hfrom, hmem⟩ := mem_add_iff h hrange hadd
  have hkept : ∀ e, mp.Pooled e →
      (e.txid ∈ mp'.byHash ↔ ¬mp.Evictable e ∧ ¬(fromAddress C tx = .ok (fromAddressSafe C e.tx) ∧ e.tx.nonce < tx.nonce)) := by
    intro e he
    have hlookup := h.pooled_iff.mp he
    have hne : e.txid ≠ txid := by
      rintro rfl
      exact hnew (Finmap.mem_of_lookup_eq_some hlookup)
    simp only [hmem, hne, false_or, hlookup, Option.some_inj, exists_eq_left', hfrom, Except.ok.injEq, eq_comm]
  constructor
  · intro hloses
    have hsender : ∀ e, mp.Pooled e → fromAddress C tx = .ok (fromAddressSafe C e.tx) → e.tx.nonce < tx.nonce → mp.Evictable e := by
      intro e he hsent hnonce
      exact (hloses e he fun hin => ((hkept e he).mp hin).2 ⟨hsent, hnonce⟩).1.2
    refine ⟨?_, hsender⟩
    intro e e' he he' hevict hstays
    refine (hloses e he fun hin => ((hkept e he).mp hin).1 hevict).2 e' he' ((hkept e' he').mpr ⟨hstays, ?_⟩)
    rintro ⟨hsent, hnonce⟩
    exact hstays (hsender e' he' hsent hnonce)
  · rintro ⟨hrate, hsender⟩ e he hlost
    have hevict : mp.Evictable e := by
      by_contra hstays
      refine hlost ((hkept e he).mpr ⟨hstays, ?_⟩)
      rintro ⟨hsent, hnonce⟩
      exact hstays (hsender e he hsent hnonce)
    refine ⟨⟨full_of_evictable hevict, hevict⟩, ?_⟩
    intro e' he' hin
    exact hrate e e' he he' hevict ((hkept e' he').mp hin).1

/-! ## Where the structures agree -/

theorem Agrees.victims_eq (h : Agrees C mp) : mp.victims = if mp.maxSize.toInt ≤ mp.size then mp.feeHeap.head?.toList else [] := by
  have hbounded := h.bounded
  have hsize := h.size_eq
  unfold victims
  split
  · have htarget : ((mp.size : Int) + 1 - mp.maxSize.toInt).toNat = 1 := by omega
    rw [htarget, Heap.drain]
    split
    · rename_i hpop
      rw [Heap.pop_eq_none_iff.mp hpop]
      rfl
    · rename_i x rest hpop
      rw [Heap.head?_of_pop hpop]
      rfl
  · rename_i hroom
    rw [Int.toNat_of_nonpos (by omega), Heap.drain]

theorem Agrees.evictable_iff (h : Agrees C mp) (he : mp.Pooled e) :
    mp.Evictable e ↔ mp.maxSize.toInt ≤ mp.size ∧ mp.feeHeap.head? = some e := by
  unfold Evictable
  rw [h.victims_eq]
  split
  · rename_i hfull
    simp only [Option.mem_toList, hfull, true_and]
    constructor
    · rintro ⟨v, hv, heq⟩
      have hin : v ∈ mp.ttlQueue := h.feeHeap.mem_iff.mp (mem_of_mem_head? hv)
      rwa [← h.entry_inj hin (h.pooled_iff.mp he) heq]
    · intro hhead
      exact ⟨e, hhead, rfl⟩
  · rename_i hroom
    simp [hroom]

theorem takesCheapest_iff (h : Rooted C mp) (hagrees : Agrees C mp) (tx : Transaction) :
    TakesCheapest C mp tx ↔ (mp.maxSize.toInt ≤ mp.size → ∀ e e', mp.Pooled e → mp.Pooled e' → e.feePerKB = e'.feePerKB) ∧
      ∀ e, mp.Pooled e → fromAddress C tx = .ok (fromAddressSafe C e.tx) → e.tx.nonce < tx.nonce →
        mp.maxSize.toInt ≤ mp.size ∧ mp.feeHeap.head? = some e := by
  unfold TakesCheapest
  refine and_congr ?_ (forall_congr' fun e => forall_congr' fun he => by rw [hagrees.evictable_iff he])
  constructor
  · intro hrate hfull
    -- the entry at the front of the heap pays most, and by assumption no more than any other
    have hfirst : ∀ first, mp.feeHeap.head? = some first → ∀ e, mp.Pooled e → e.feePerKB = first.feePerKB := by
      intro first hhead e he
      have hpooled : mp.Pooled first := hagrees.pooled_iff.mpr (hagrees.feeHeap.mem_iff.mp (mem_of_mem_head? hhead))
      by_cases heq : e = first
      · rw [heq]
      · have hstays : ¬mp.Evictable e := by
          rw [hagrees.evictable_iff he, hhead, Option.some_inj]
          exact fun hboth => heq hboth.2.symm
        have hle := hrate first e hpooled he ((hagrees.evictable_iff hpooled).mpr ⟨hfull, hhead⟩) hstays
        have hmost := Heap.head?_least feeOrder h.heap hhead (hagrees.feeHeap.mem_iff.mpr (hagrees.pooled_iff.mp he))
        simp only [FeeHeap.less, decide_eq_false_iff_not, Int64.not_lt] at hmost
        exact Int64.le_antisymm hmost hle
    intro e e' he he'
    obtain ⟨first, hhead⟩ : ∃ first, mp.feeHeap.head? = some first := by
      have hin := hagrees.feeHeap.mem_iff.mpr (hagrees.pooled_iff.mp he)
      exact Option.isSome_iff_exists.mp (isSome_head?.mpr (ne_nil_of_mem hin))
    rw [hfirst first hhead e he, hfirst first hhead e' he']
  · intro hsame e e' he he' hevict _
    rw [hsame (full_of_evictable hevict) e e' he he']
    exact Int64.le_refl _

/-- What `Add` costs the pool is the cheapest of a full pool if and only if that is what the eviction takes, and the sender has nothing
else with a lower nonce. -/
theorem accepted_loses_cheapest_iff (C : Crypto) (mp mp' : Mempool) (h : Reachable C mp) (tx : Transaction) (now : Int)
    (range : List (Bytes × MempoolEntry)) (hrange : GoMap.IsRange mp.byHash range) (hadd : mp.add C tx now range = (.ok (), mp')) :
    (LosesCheapest mp mp' ↔ TakesCheapest C mp tx) ∧
      (Agrees C mp → (TakesCheapest C mp tx ↔
        (mp.maxSize.toInt ≤ mp.size → ∀ e e', mp.Pooled e → mp.Pooled e' → e.feePerKB = e'.feePerKB) ∧
          ∀ e, mp.Pooled e → fromAddress C tx = .ok (fromAddressSafe C e.tx) → e.tx.nonce < tx.nonce →
            mp.maxSize.toInt ≤ mp.size ∧ mp.feeHeap.head? = some e)) :=
  ⟨losesCheapest_iff h.rooted hrange hadd, fun hagrees => takesCheapest_iff h.rooted hagrees tx⟩

/-- A third sender, in a pool that is full: one of two entries with the same rate goes. -/
theorem accepted_loses_one : (pair.add (goCrypto []) (sentBy 3) 0 (visits pair)).1 = .ok () ∧
      (pair.add (goCrypto []) (sentBy 3) 0 (visits pair)).2.size = 2 ∧
      LosesCheapest pair (pair.add (goCrypto []) (sentBy 3) 0 (visits pair)).2 := by
  have hok : (pair.add (goCrypto []) (sentBy 3) 0 (visits pair)).1 = .ok () ∧
      (pair.add (goCrypto []) (sentBy 3) 0 (visits pair)).2.size = 2 := by
    rw [goCrypto_eq]
    decide +kernel
  have hagrees := pair_reached.kept.toAgrees
  have hentries : ∀ e ∈ pair.ttlQueue, fromAddress (goCrypto []) (sentBy 3) ≠ .ok (fromAddressSafe (goCrypto []) e.tx) ∧
      ∀ e' ∈ pair.ttlQueue, e.feePerKB = e'.feePerKB := by
    rw [goCrypto_eq]
    decide +kernel
  rcases hadd : pair.add (goCrypto []) (sentBy 3) 0 (visits pair) with ⟨r, mp'⟩
  rw [hadd] at hok
  obtain ⟨rfl, hsize⟩ := hok
  obtain ⟨hiff, hsame⟩ := accepted_loses_cheapest_iff (goCrypto []) pair mp' (pair_reached.imp fun _ _ _ => trivial) (sentBy 3) 0
    (visits pair) (by decide +kernel) hadd
  refine ⟨rfl, hsize, hiff.mpr ((hsame hagrees).mpr ⟨fun _ e e' he he' => ?_, fun e he hsent => ?_⟩)⟩
  · exact (hentries e (hagrees.pooled_iff.mp he)).2 e' (hagrees.pooled_iff.mp he')
  · exact absurd hsent (hentries e (hagrees.pooled_iff.mp he)).1

/-- The next nonce of the sender takes the earlier one out of a pool with space. -/
theorem next_nonce_loses : Reachable (goCrypto []) pooled ∧ GoMap.IsRange pooled.byHash (visits pooled) ∧
    pooled.size < pooled.maxSize.toInt ∧ pooled.get transferID = some (transfer 1 100) ∧
    (pooled.add (goCrypto []) (transfer 2 100) 0 (visits pooled)).1 = .ok () ∧
    (pooled.add (goCrypto []) (transfer 2 100) 0 (visits pooled)).2.get transferID = none :=
  ⟨pooled_reachable, pooled_range, by rw [goCrypto_eq]; decide +kernel⟩

end NeoCoin.Internal.Mempool
