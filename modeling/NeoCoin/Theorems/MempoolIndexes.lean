import NeoCoin.Internal.Mempool

/-!
# The five structures of the pool

The five structures of `internal/mempool/mempool.go` hold the same entries as long as an entry leaves the pool only where it leaves the
heap too, which is the eviction from a full pool: `removeEntry` does not take the entry out of the heap.
-/

namespace NeoCoin.Internal.Mempool

open GoLib List

variable {l : List MempoolEntry} {x : Int64} {n : Nat} {a : Bytes} {now maxWeight : Int} {range : List (Bytes × MempoolEntry)}
  {clock : Nat → Int} {e : MempoolEntry} {tx : Transaction} {txid : Bytes} {C : Crypto} {mp : Mempool}

theorem feeOrder : Heap.Order FeeHeap.less where
  asymm := by
    intro a b h
    simp only [FeeHeap.less, decide_eq_true_eq, decide_eq_false_iff_not, Int64.not_lt] at h ⊢
    exact Int64.le_of_lt h
  trans := by
    intro a b c h h'
    simp only [FeeHeap.less, decide_eq_false_iff_not, Int64.not_lt] at h h' ⊢
    exact Int64.le_trans h h'

theorem get_takeOut (m : GoMap Bytes (List MempoolEntry)) (key a : Bytes) (entry : MempoolEntry) :
    (takeOut m key entry).get a = if a = key then (m.get a).filter (fun e => e ≠ entry) else m.get a := by
  unfold takeOut
  split
  · rename_i hnone
    split
    · rename_i heq
      subst heq
      simp only [GoMap.get, hnone, Option.getD_none]
      rfl
    · rfl
  · rename_i entries hsome
    dsimp only
    by_cases heq : a = key
    · subst heq
      rw [if_pos rfl]
      split
      · rename_i hnil
        simp only [GoMap.get, GoMap.delete, Finmap.lookup_erase, hsome, Option.getD_some, hnil]
        rfl
      · rw [GoMap.get_set_self]
        simp [GoMap.get, hsome]
    · rw [if_neg heq]
      split
      · simp only [GoMap.get, GoMap.delete, Finmap.lookup_erase_ne heq]
      · rw [GoMap.get_set_of_ne _ _ heq]

/-- The five structures hold the same entries, each once, and there is space for them. -/
structure Agrees (C : Crypto) (mp : Mempool) : Prop where
  once : mp.ttlQueue.Nodup
  byHash : ∀ txid e, mp.byHash.lookup txid = some e ↔ e ∈ mp.ttlQueue ∧ e.txid = txid
  bySender : ∀ a, mp.bySender.get a = mp.ttlQueue.filter fun e => fromAddressSafe C e.tx = a
  byRecipient : ∀ a, mp.byRecipient.get a = mp.ttlQueue.filter fun e => e.tx.toAddress = a
  feeHeap : mp.feeHeap.Perm mp.ttlQueue
  currentSize : mp.stats.currentSize.toInt = mp.ttlQueue.length
  bounded : mp.ttlQueue.length ≤ mp.maxSize.toInt

structure Kept (C : Crypto) (mp : Mempool) : Prop extends Agrees C mp where
  positive : 0 < mp.maxSize.toInt
  fresh : ∀ e ∈ mp.ttlQueue, e.ref < mp.next
  own : ∀ e ∈ mp.ttlQueue, txIDHex C e.tx = .ok e.txid

theorem kept_new (maxSize minFeeRate : Int64) (spamFilter : SpamFilter) : Kept C (newMempool maxSize minFeeRate spamFilter) := by
  have hpositive : 0 < (newMempool maxSize minFeeRate spamFilter).maxSize.toInt := by
    simp only [newMempool]
    split
    · decide
    · rename_i h
      rw [Int64.not_le, Int64.lt_iff_toInt_lt] at h
      exact h
  exact {
    once := nodup_nil
    byHash := by simp [newMempool, Finmap.lookup_empty]
    bySender := fun a => GoMap.get_empty a
    byRecipient := fun a => GoMap.get_empty a
    feeHeap := .refl []
    currentSize := rfl
    bounded := Int.le_of_lt hpositive
    positive := hpositive
    fresh := by simp [newMempool]
    own := by simp [newMempool] }

theorem Agrees.entry_inj (h : Agrees C mp) {e' : MempoolEntry} (he : e ∈ mp.ttlQueue) (he' : e' ∈ mp.ttlQueue) (heq : e.txid = e'.txid) :
    e = e' := by
  have hlookup := (h.byHash e.txid e).mpr ⟨he, rfl⟩
  rw [(h.byHash e.txid e').mpr ⟨he', heq.symm⟩] at hlookup
  exact (Option.some_inj.mp hlookup).symm

theorem Agrees.size_eq (h : Agrees C mp) : mp.size = mp.ttlQueue.length := by
  have hkeys : mp.byHash.keys = (mp.ttlQueue.map MempoolEntry.txid).toFinset := by
    ext txid
    rw [Finmap.mem_keys, mem_toFinset, mem_map]
    constructor
    · intro hmem
      obtain ⟨e, he⟩ := Finmap.mem_iff.mp hmem
      exact ⟨e, (h.byHash txid e).mp he⟩
    · rintro ⟨e, he⟩
      exact Finmap.mem_of_lookup_eq_some ((h.byHash txid e).mpr he)
  have hnodup : (mp.ttlQueue.map MempoolEntry.txid).Nodup :=
    List.Nodup.map_on (fun e he e' he' heq => h.entry_inj he he' heq) h.once
  rw [size, hkeys, toFinset_card_of_nodup hnodup, length_map]

/-! ## Eviction -/

theorem length_filter_ne (h : l.Nodup) (he : e ∈ l) : (l.filter fun e' => e' ≠ e).length + 1 = l.length := by
  have hfilter : (l.filter fun e' => e' ≠ e) = l.erase e := by
    rw [h.erase_eq_filter]
    refine filter_congr fun x _ => ?_
    by_cases hx : x = e <;> simp [hx]
  rw [hfilter, length_erase_of_mem he]
  have := length_pos_of_mem he
  omega

theorem toInt_sub_one (h : x.toInt = n) (hpos : 0 < n) : (x - 1).toInt = (n - 1 : Nat) := by
  have hlt := x.toInt_lt
  rw [Int64.toInt_sub, h]
  have hone : (1 : Int64).toInt = 1 := rfl
  rw [hone, Int.bmod_eq_of_le (by omega) (by omega)]
  omega

theorem toInt_add_one {y : Int64} (h : x.toInt = n) (hlt : (n : Int) < y.toInt) : (x + 1).toInt = (n + 1 : Nat) := by
  have hy := y.toInt_lt
  rw [Int64.toInt_add, h]
  have hone : (1 : Int64).toInt = 1 := rfl
  rw [hone, Int.bmod_eq_of_le (by omega) (by omega)]
  omega

/-- They agree after an eviction, which takes one entry. -/
theorem Kept.evict (h : Kept C mp) {entry : MempoolEntry} {rest : List MempoolEntry} (hheap : mp.feeHeap.Perm (entry :: rest)) :
    Kept C ({ mp with feeHeap := rest }.removeEntry C entry) ∧
      ({ mp with feeHeap := rest }.removeEntry C entry).ttlQueue.length + 1 = mp.ttlQueue.length := by
  have hentry : entry ∈ mp.ttlQueue := h.feeHeap.mem_iff.mp (hheap.mem_iff.mpr (.head _))
  have hlength := length_filter_ne h.once hentry
  refine ⟨?_, hlength⟩
  have hfilter : ∀ p : MempoolEntry → Bool, (mp.ttlQueue.filter p).filter (fun e => e ≠ entry) =
      (mp.ttlQueue.filter fun e => e ≠ entry).filter p := by
    intro p
    rw [filter_filter, filter_filter]
    exact filter_congr fun e _ => Bool.and_comm _ _
  have hother : ∀ p : MempoolEntry → Bool, p entry = false → mp.ttlQueue.filter p = (mp.ttlQueue.filter fun e => e ≠ entry).filter p := by
    intro p hp
    rw [filter_filter]
    refine filter_congr fun e _ => ?_
    by_cases heq : e = entry
    · simp [heq, hp]
    · simp [heq]
  refine {
    once := h.once.filter _
    byHash := ?_
    bySender := ?_
    byRecipient := ?_
    feeHeap := ?_
    currentSize := ?_
    bounded := ?_
    positive := h.positive
    fresh := fun e he => h.fresh e (mem_of_mem_filter he)
    own := fun e he => h.own e (mem_of_mem_filter he) }
  · intro txid e
    simp only [removeEntry, GoMap.delete, mem_filter, decide_eq_true_eq]
    by_cases htxid : txid = entry.txid
    · subst htxid
      rw [Finmap.lookup_erase]
      refine iff_of_false (by simp) ?_
      rintro ⟨⟨he, hne⟩, heq⟩
      exact hne (h.entry_inj he hentry heq)
    · rw [Finmap.lookup_erase_ne htxid, h.byHash]
      constructor
      · rintro ⟨he, rfl⟩
        exact ⟨⟨he, fun heq => htxid (congrArg MempoolEntry.txid heq)⟩, rfl⟩
      · rintro ⟨⟨he, -⟩, heq⟩
        exact ⟨he, heq⟩
  · intro a
    simp only [removeEntry, get_takeOut, h.bySender]
    split
    · exact hfilter _
    · rename_i hne
      exact hother _ (by simpa using Ne.symm hne)
  · intro a
    simp only [removeEntry, get_takeOut, h.byRecipient]
    split
    · exact hfilter _
    · rename_i hne
      exact hother _ (by simpa using Ne.symm hne)
  · have hperm : (entry :: rest).Perm mp.ttlQueue := hheap.symm.trans h.feeHeap
    have hnodup : (entry :: rest).Nodup := hperm.nodup_iff.mpr h.once
    have hrest : (entry :: rest).filter (fun e => e ≠ entry) = rest := by
      rw [filter_cons_of_neg (by simp)]
      refine filter_eq_self.mpr fun e he => ?_
      simp only [ne_eq, decide_eq_true_eq]
      rintro rfl
      exact (nodup_cons.mp hnodup).1 he
    have := hperm.filter fun e => e ≠ entry
    rwa [hrest] at this
  · have hcurrent := toInt_sub_one h.currentSize (by omega)
    simp only [removeEntry]
    omega
  · have := h.bounded
    simp only [removeEntry]
    omega

theorem Kept.makeSpace (h : Kept C mp) : Kept C (mp.makeSpace C) ∧ (mp.makeSpace C).ttlQueue.length < (mp.makeSpace C).maxSize.toInt ∧
    ∀ e ∈ (mp.makeSpace C).ttlQueue, e ∈ mp.ttlQueue := by
  have hpositive := h.positive
  have hbounded := h.bounded
  have hsize := h.size_eq
  unfold Mempool.makeSpace
  split
  · rename_i hfull
    have htarget : (mp.size : Int) + 1 - mp.maxSize.toInt = 1 := by omega
    simp only [evictToMakeSpace, htarget]
    have hne : mp.feeHeap ≠ [] := by
      intro hnil
      have := h.feeHeap.length_eq
      rw [hnil, length_nil] at this
      omega
    obtain ⟨entry, rest, hpop⟩ := Heap.exists_pop FeeHeap.less hne
    obtain ⟨hkept, hlength⟩ := h.evict (Heap.pop_perm hpop)
    have hloop : evictLoop C (1 : Int).toNat mp = { mp with feeHeap := rest }.removeEntry C entry := by
      simp only [evictLoop, hpop, Int.toNat_one]
    rw [if_neg (by omega), hloop]
    refine ⟨hkept, ?_, fun e he => mem_of_mem_filter he⟩
    have hsame : ({ mp with feeHeap := rest }.removeEntry C entry).maxSize = mp.maxSize := rfl
    rw [hsame]
    omega
  · rename_i hroom
    exact ⟨h, by omega, fun e he => he⟩

/-! ## Insertion -/

theorem fromAddressSafe_of_ok (h : fromAddress C tx = .ok a) : fromAddressSafe C tx = a := by
  rw [fromAddressSafe, h]

/-- The indexes agree after an insertion into a pool with room. -/
theorem Kept.insert (h : Kept C mp) (hroom : mp.ttlQueue.length < mp.maxSize.toInt)
    (htxid : txIDHex C tx = .ok txid) (hfrom : fromAddress C tx = .ok a) (hnew : txid ∉ mp.byHash) (now : Int) :
    Kept C (mp.insert tx txid a now) := by
  set entry : MempoolEntry :=
    { ref := mp.next, tx := tx, txid := txid, feePerKB := feeRate tx, weight := estimateSize tx, expiry := now + mp.ttl } with hentry
  have hqueue : (mp.insert tx txid a now).ttlQueue = mp.ttlQueue ++ [entry] := rfl
  have hnotMem : entry ∉ mp.ttlQueue := fun hmem => Nat.lt_irrefl _ (h.fresh entry hmem)
  refine {
    once := ?_
    byHash := ?_
    bySender := ?_
    byRecipient := ?_
    feeHeap := ?_
    currentSize := ?_
    bounded := ?_
    positive := h.positive
    fresh := ?_
    own := ?_ }
  · rw [hqueue]
    refine nodup_append.mpr ⟨h.once, nodup_singleton _, ?_⟩
    intro e he e' he' heq
    rw [heq, mem_singleton.mp he'] at he
    exact hnotMem he
  · intro t e
    simp only [hqueue, mem_append, mem_singleton]
    rw [show (mp.insert tx txid a now).byHash = mp.byHash.set txid entry from rfl, GoMap.lookup_set]
    by_cases ht : t = txid
    · subst ht
      rw [if_pos rfl, Option.some_inj]
      constructor
      · rintro rfl
        exact ⟨.inr rfl, rfl⟩
      · rintro ⟨hmem | rfl, heq⟩
        · exact absurd (Finmap.mem_of_lookup_eq_some ((h.byHash t e).mpr ⟨hmem, heq⟩)) hnew
        · rfl
    · rw [if_neg ht, h.byHash]
      constructor
      · rintro ⟨hmem, heq⟩
        exact ⟨.inl hmem, heq⟩
      · rintro ⟨hmem | rfl, heq⟩
        · exact ⟨hmem, heq⟩
        · exact absurd heq.symm ht
  · intro b
    have hsafe := fromAddressSafe_of_ok hfrom
    rw [show (mp.insert tx txid a now).bySender = mp.bySender.set a (mp.bySender.get a ++ [entry]) from rfl, hqueue, GoMap.get_set,
      filter_append]
    split
    · rename_i heq
      subst heq
      rw [h.bySender]
      simp [hentry, hsafe]
    · rename_i hne
      rw [h.bySender]
      simp [hentry, hsafe, Ne.symm hne]
  · intro b
    rw [show (mp.insert tx txid a now).byRecipient = mp.byRecipient.set tx.toAddress (mp.byRecipient.get tx.toAddress ++ [entry]) from rfl,
      hqueue, GoMap.get_set, filter_append]
    split
    · rename_i heq
      subst heq
      rw [h.byRecipient]
      simp [hentry]
    · rename_i hne
      rw [h.byRecipient]
      simp [hentry, Ne.symm hne]
  · rw [hqueue]
    exact (Heap.push_perm mp.feeHeap entry).trans ((h.feeHeap.cons entry).trans (perm_append_singleton entry _).symm)
  · have hcurrent := toInt_add_one h.currentSize hroom
    rw [hqueue, length_append, length_singleton]
    exact hcurrent
  · rw [hqueue, length_append, length_singleton]
    have hsame : (mp.insert tx txid a now).maxSize = mp.maxSize := rfl
    rw [hsame]
    omega
  · intro e he
    have hnext : (mp.insert tx txid a now).next = mp.next + 1 := rfl
    rcases mem_append.mp (hqueue ▸ he) with he | he
    · have := h.fresh e he
      omega
    · rw [mem_singleton.mp he, hnext]
      exact Nat.lt_succ_self _
  · rw [hqueue]
    exact forall_mem_concat.mpr ⟨h.own, htxid⟩

/-! ## Calls -/

def Pooled (mp : Mempool) (e : MempoolEntry) : Prop := ∃ txid, mp.byHash.lookup txid = some e

/-- The call takes no entry out of the pool, other than by eviction. -/
def Call.Keeps (C : Crypto) (mp : Mempool) : Call → Prop
  | add tx _ _ => ∀ e, mp.Pooled e → fromAddress C tx = .ok (fromAddressSafe C e.tx) → tx.nonce ≤ e.tx.nonce
  | replace tx _ _ _ => ∀ e, mp.Pooled e → fromAddress C tx = .ok (fromAddressSafe C e.tx) → e.tx.nonce = tx.nonce → tx.fee ≤ e.tx.fee
  | remove txid => txid ∉ mp.byHash
  | removeMany txids => ∀ txid ∈ txids, txid ∉ mp.byHash
  | cleanup now => ∀ e, mp.Pooled e → now ≤ e.expiry ∧ e.failCount ≤ 3

theorem Agrees.pooled_iff (h : Agrees C mp) : mp.Pooled e ↔ e ∈ mp.ttlQueue := by
  constructor
  · rintro ⟨txid, htxid⟩
    exact ((h.byHash txid e).mp htxid).1
  · intro he
    exact ⟨e.txid, (h.byHash e.txid e).mpr ⟨he, rfl⟩⟩

theorem Kept.add (h : Kept C mp) (hkeeps : (Call.add tx now range).Keeps C mp) : Kept C (mp.add C tx now range).2 := by
  obtain ⟨hspace, hroom, hold⟩ := h.makeSpace
  unfold Mempool.add
  cases htxid : txIDHex C tx with
  | error err => exact h
  | ok txid =>
    dsimp only
    split
    · exact h
    · rename_i hnew
      have hnew' : txid ∉ (mp.makeSpace C).byHash := by
        intro hmem
        obtain ⟨e, he⟩ := Finmap.mem_iff.mp hmem
        obtain ⟨hqueue, heq⟩ := (hspace.byHash txid e).mp he
        exact hnew (Finmap.mem_of_lookup_eq_some ((h.byHash txid e).mpr ⟨hold e hqueue, heq⟩))
      unfold accept
      split
      · exact hspace
      · cases hfrom : fromAddress C tx with
        | error err => exact hspace
        | ok a =>
          dsimp only
          split
          · exact { hspace with }
          · split
            · exact hspace.insert hroom htxid hfrom hnew' now
            · rename_i highest hlast
              -- the sender has no lower nonce, and so the transaction is refused
              have hmem := mem_of_getLast? hlast
              rw [hspace.bySender, mem_filter, decide_eq_true_eq] at hmem
              have hle := hkeeps highest (h.pooled_iff.mpr (hold highest hmem.1)) (by rw [hfrom, hmem.2])
              rw [if_pos hle]
              exact hspace

theorem Kept.replace (h : Kept C mp) (hkeeps : (Call.replace tx txid now range).Keeps C mp) {r : Result Bytes × List Bytes × Mempool}
    (hr : mp.replaceByFeeWithTxID C tx txid now range = some r) : r.2.2 = mp := by
  unfold replaceByFeeWithTxID at hr
  cases hfrom : fromAddress C tx with
  | error err =>
    rw [hfrom] at hr
    rw [← Option.some_inj.mp hr]
  | ok a =>
    simp only [hfrom] at hr
    split at hr
    · rw [← Option.some_inj.mp hr]
    · rename_i existingTxid hexisting
      obtain ⟨e, hfind, rfl⟩ := Option.map_eq_some_iff.mp hexisting
      have hnonce : e.tx.nonce = tx.nonce := by simpa using List.find?_some hfind
      have hmem := mem_of_find?_eq_some hfind
      rw [h.bySender, mem_filter, decide_eq_true_eq] at hmem
      have hlookup := (h.byHash e.txid e).mpr ⟨hmem.1, rfl⟩
      have hfee := hkeeps e (h.pooled_iff.mpr hmem.1) (by rw [hfrom, hmem.2]) hnonce
      simp only [hlookup, if_pos hfee, Option.some_inj] at hr
      rw [← hr]

theorem remove_of_notMem (h : txid ∉ mp.byHash) : mp.remove C txid = mp := by
  rw [Mempool.remove, Finmap.lookup_eq_none.mpr h]

theorem foldl_eq_self {α β : Type*} {f : α → β → α} {a : α} {l : List β} (h : ∀ b ∈ l, f a b = a) : l.foldl f a = a := by
  induction l with
  | nil => rfl
  | cons b l ih =>
    rw [foldl_cons, h b mem_cons_self]
    exact ih fun c hc => h c (.tail b hc)

theorem Kept.exec (h : Kept C mp) {call : Call} (hkeeps : call.Keeps C mp) {mp' : Mempool} (hexec : call.exec C mp = some mp') :
    Kept C mp' := by
  cases call with
  | add tx now range =>
    rw [← Option.some_inj.mp hexec]
    exact h.add hkeeps
  | replace tx txid now range =>
    obtain ⟨r, hr, rfl⟩ := Option.map_eq_some_iff.mp hexec
    rw [h.replace hkeeps hr]
    exact h
  | remove txid =>
    rw [← Option.some_inj.mp hexec, remove_of_notMem hkeeps]
    exact h
  | removeMany txids =>
    rw [← Option.some_inj.mp hexec, removeMany, foldl_eq_self fun txid htxid => remove_of_notMem (hkeeps txid htxid)]
    exact h
  | cleanup now =>
    rw [← Option.some_inj.mp hexec, Mempool.cleanup, foldl_eq_self]
    · exact h
    · intro e he
      obtain ⟨hexpiry, hfail⟩ := hkeeps e (h.pooled_iff.mpr he)
      rw [cleanupEntry, if_neg]
      rw [not_or, not_lt, Int64.not_lt]
      exact ⟨hexpiry, hfail⟩

theorem Reached.kept (h : Reached C (fun mp call => call.Keeps C mp) mp) : Kept C mp := by
  induction h with
  | new maxSize minFeeRate spamFilter => exact kept_new maxSize minFeeRate spamFilter
  | call hmp call hranges hkeeps hexec ih => exact ih.exec hkeeps hexec

theorem Reached.imp {condition condition' : Mempool → Call → Prop} (himp : ∀ mp call, condition mp call → condition' mp call)
    (h : Reached C condition mp) : Reached C condition' mp := by
  induction h with
  | new maxSize minFeeRate spamFilter => exact .new maxSize minFeeRate spamFilter
  | call hmp call hranges hcondition hexec ih => exact .call ih call hranges (himp _ call hcondition) hexec

theorem exists_of_mem_selectLoop {round : Nat} {totalWeight : Int}
    (h : tx ∈ selectLoop maxWeight clock round totalWeight l) : ∃ e ∈ l, e.tx = tx := by
  induction l generalizing round totalWeight with
  | nil => simp [selectLoop] at h
  | cons e l ih =>
    simp only [selectLoop] at h
    split at h
    · simp at h
    · split at h
      · obtain ⟨e', he', htx⟩ := ih h
        exact ⟨e', mem_cons_of_mem e he', htx⟩
      · rcases mem_cons.mp h with rfl | h
        · exact ⟨e, (.head _), rfl⟩
        · obtain ⟨e', he', htx⟩ := ih h
          exact ⟨e', mem_cons_of_mem e he', htx⟩

theorem exists_of_mem_selectTxs (h : tx ∈ mp.selectTxs maxWeight clock) : ∃ e ∈ mp.feeHeap, e.tx = tx := by
  obtain ⟨e, he, rfl⟩ := exists_of_mem_selectLoop h
  exact ⟨e, (Heap.init_perm mp.feeHeap).mem_iff.mp (Heap.mem_of_mem_drain _ he), rfl⟩

/-- After any calls that take no entry out other than by eviction, the five structures agree, and `Get` finds everything that `SelectTxs`
returns. -/
theorem indexes_agree (C : Crypto) (mp : Mempool) (h : Reached C (fun mp call => call.Keeps C mp) mp) :
    Agrees C mp ∧ mp.size = mp.ttlQueue.length ∧
      ∀ maxWeight clock, ∀ tx ∈ mp.selectTxs maxWeight clock, ∃ txid, txIDHex C tx = .ok txid ∧ mp.get txid = some tx := by
  have hkept := h.kept
  refine ⟨hkept.toAgrees, hkept.size_eq, ?_⟩
  intro maxWeight clock tx htx
  obtain ⟨e, he, rfl⟩ := exists_of_mem_selectTxs htx
  have hqueue := hkept.feeHeap.mem_iff.mp he
  refine ⟨e.txid, hkept.own e hqueue, ?_⟩
  rw [Mempool.get, (hkept.byHash e.txid e).mpr ⟨hqueue, rfl⟩, Option.map_some]

namespace Sample

def transfer (nonce fee : UInt64) : Transaction :=
  { type := .transfer, chainID := 1, fromPubKey := some (List.replicate 32 1), toAddress := str "00", amount := 5, fee := fee
    nonce := nonce }

def pool : Mempool := newMempool 2 1 fun _ _ _ _ _ => none

def pooled : Mempool := (pool.add (goCrypto []) (transfer 1 100) 0 []).2

theorem pooled_reached : Reached (goCrypto []) (fun mp call => call.Keeps (goCrypto []) mp) pooled := by
  refine .call (.new 2 1 fun _ _ _ _ _ => none) (.add (transfer 1 100) 0 []) rfl ?_ rfl
  rintro e ⟨txid, htxid⟩
  cases htxid

/-- The order of the heap, as one of the map. -/
def visits (mp : Mempool) : List (Bytes × MempoolEntry) := mp.feeHeap.map fun e => (e.txid, e)

theorem pooled_range : GoMap.IsRange pooled.byHash (visits pooled) := by decide +kernel

/-- The first transfer of another sender. -/
def sentBy (sender : UInt8) : Transaction := { transfer 1 100 with fromPubKey := some (List.replicate 32 sender) }

/-- The pool with the transfers of two senders. -/
def pair : Mempool := (pooled.add (goCrypto []) (sentBy 2) 0 (visits pooled)).2

theorem pair_reached : Reached (goCrypto []) (fun mp call => call.Keeps (goCrypto []) mp) pair := by
  refine .call pooled_reached (.add (sentBy 2) 0 (visits pooled)) pooled_range ?_ rfl
  intro e he _
  have hnonce : ∀ e ∈ pooled.ttlQueue, (sentBy 2).nonce ≤ e.tx.nonce := by decide
  exact hnonce e (pooled_reached.kept.toAgrees.pooled_iff.mp he)

def transferID : Bytes :=
  match txIDHex (goCrypto []) (transfer 1 100) with
  | .ok txid => txid
  | .error _ => []

end Sample

open Mempool.Sample

/-- A pool with two entries. -/
theorem indexes_agree_two : Agrees (goCrypto []) pair ∧ pair.size = 2 ∧
    pair.selectTxs 1000 (fun _ => 0) = [transfer 1 100, sentBy 2] :=
  ⟨(indexes_agree _ _ pair_reached).1, by decide +kernel, by decide +kernel⟩

/-- A transaction that has been removed is still selected. -/
theorem removed_selected : ∃ mp, Reachable (goCrypto []) mp ∧ mp.get transferID = none ∧ mp.size = 0 ∧
    transfer 1 100 ∈ mp.selectTxs 1000 (fun _ => 0) := by
  refine ⟨pooled.remove (goCrypto []) transferID, ?_, by rw [goCrypto_eq]; decide +kernel, by rw [goCrypto_eq]; decide +kernel,
    by rw [goCrypto_eq]; decide +kernel⟩
  exact .call (pooled_reached.imp fun _ _ _ => trivial) (.remove transferID) trivial trivial rfl

end NeoCoin.Internal.Mempool
