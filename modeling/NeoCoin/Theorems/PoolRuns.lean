import NeoCoin.Theorems.Pool

/-!
# The pool over any calls

A pool is used through four calls, in any order and on any transactions (`PoolCall`), and its two maps describe one set after all of them
(`Coherent`). A full pool evicts the cheapest entry and all later ones of its sender, who may be the sender of the new transaction.
-/

namespace NeoCoin

open GoLib List

variable {ids : List Bytes} {id txid a : Bytes} {tx : Transaction} {p : ConsensusParams}
  {height fee nonce : UInt64} {range : List (Bytes × MempoolEntry)} {e : MempoolEntry}

/-- A call on a pool. A `range` loop visits the entries of the map as it is then, in any order. -/
inductive PoolCall (C : Crypto) (m : Mempool) : Mempool → Prop where
  | add (ai : Option (Result (Int × String))) (range : List (Bytes × MempoolEntry)) (now : Int64) (tx : Transaction) (txid : Bytes)
      (p : ConsensusParams) (height : UInt64) (hrange : GoMap.IsRange m.entries range) :
      PoolCall C m (m.addWithTxID C ai range now tx txid p height).2
  | replace (range : List (UInt64 × Bytes)) (now : Int64) (tx : Transaction) (txid : Bytes) (p : ConsensusParams) (height : UInt64)
      (hrange : ∀ a, tx.fromAddress C = .ok a → GoMap.IsRange ((m.bySenderNonce.lookup a).getD ∅) range) :
      PoolCall C m (m.replaceByFeeWithTxID C range now tx txid p height).pool
  | remove (txid : Bytes) : PoolCall C m (m.remove C txid)
  | removeMany (txids : List Bytes) : PoolCall C m (m.removeMany C txids)

def Pooled (C : Crypto) (maxSize : Int64) (m : Mempool) : Prop := Relation.ReflTransGen (PoolCall C) (newMempool maxSize) m

/-- The two maps describe one set, which is within the limit. -/
structure Coherent (C : Crypto) (maxSize : Int64) (m : Mempool) : Prop extends Indexed C m where
  inner : ∀ a byNonce, m.bySenderNonce.lookup a = some byNonce → byNonce ≠ ∅
  size : (m.entries.keys.card : Int) ≤ maxSize.toInt

namespace PoolAux

variable {C : Crypto} {m : Mempool}

/-! ## The inner maps -/

def InnerNonempty (m : Mempool) : Prop := ∀ a byNonce, m.bySenderNonce.lookup a = some byNonce → byNonce ≠ ∅

theorem innerNonempty_set (h : InnerNonempty m) (a : Bytes) {byNonce : GoMap UInt64 Bytes} (hne : byNonce ≠ ∅) :
    InnerNonempty { m with bySenderNonce := m.bySenderNonce.set a byNonce } := by
  intro a' byNonce' hlookup
  simp only [GoMap.lookup_set] at hlookup
  split at hlookup
  · rw [← Option.some.inj hlookup]
    exact hne
  · exact h a' byNonce' hlookup

theorem innerNonempty_delete (h : InnerNonempty m) (a : Bytes) : InnerNonempty { m with bySenderNonce := m.bySenderNonce.delete a } := by
  intro a' byNonce hlookup
  by_cases ha : a' = a
  · rw [ha, GoMap.lookup_delete_self] at hlookup
    cases hlookup
  · rw [GoMap.lookup_delete_of_ne _ ha] at hlookup
    exact h a' byNonce hlookup

theorem innerNonempty_unindex (h : InnerNonempty m) (a : Bytes) (n : UInt64) (id : Bytes) : InnerNonempty (m.unindex a n id) := by
  -- what is put back has an id, or the sender is taken out
  have hputBack : ∀ left : GoMap UInt64 Bytes,
      InnerNonempty (if left.keys.card = 0 then { m with bySenderNonce := m.bySenderNonce.delete a }
        else { m with bySenderNonce := m.bySenderNonce.set a left }) := by
    intro left
    split
    · exact innerNonempty_delete h a
    · rename_i hcard
      refine innerNonempty_set h a ?_
      intro hempty
      rw [hempty] at hcard
      exact hcard rfl
  unfold Mempool.unindex
  split
  · exact h
  · exact hputBack _

theorem innerNonempty_remove (h : InnerNonempty m) (id : Bytes) : InnerNonempty (m.remove C id) := by
  unfold Mempool.remove
  split
  · exact h
  · rename_i e he
    have hentries : InnerNonempty { m with entries := m.entries.delete id } := h
    simp only
    split
    · exact hentries
    · exact innerNonempty_unindex hentries _ _ _

theorem innerNonempty_removeMany (h : InnerNonempty m) (ids : List Bytes) : InnerNonempty (m.removeMany C ids) := by
  induction ids generalizing m with
  | nil => exact h
  | cons id ids ih => exact ih (innerNonempty_remove h id)

theorem innerNonempty_insert (h : InnerNonempty m) (tx : Transaction) (id a : Bytes) (now : Int64) :
    InnerNonempty (m.insert tx id a now) := by
  refine innerNonempty_set (m := { m with entries := _ }) h a ?_
  intro hempty
  have hlookup := congrArg (Finmap.lookup tx.nonce) hempty
  rw [GoMap.lookup_set_self] at hlookup
  exact absurd hlookup (by simp)

/-! ## The number of entries -/

theorem keys_removeMany_subset (C : Crypto) (m : Mempool) (ids : List Bytes) : (m.removeMany C ids).entries.keys ⊆ m.entries.keys := by
  intro id hid
  by_contra hnot
  exact notMem_removeMany (fun h => hnot (Finmap.mem_keys.mpr h)) ids (Finmap.mem_keys.mp hid)

theorem card_removeMany_lt (hids : id ∈ ids) (hid : id ∈ m.entries) : (m.removeMany C ids).entries.keys.card < m.entries.keys.card := by
  refine Finset.card_lt_card ((Finset.ssubset_iff_of_subset (keys_removeMany_subset C m ids)).mpr ⟨id, Finmap.mem_keys.mpr hid, ?_⟩)
  intro hleft
  have hlookup := Finmap.lookup_isSome.mpr (Finmap.mem_keys.mp hleft)
  rw [lookup_removeMany, if_pos hids] at hlookup
  cases hlookup

theorem card_insert_le (m : Mempool) (tx : Transaction) (id a : Bytes) (now : Int64) :
    (m.insert tx id a now).entries.keys.card ≤ m.entries.keys.card + 1 := by
  have hkeys : (m.insert tx id a now).entries.keys ⊆ insert id m.entries.keys := by
    intro id' hid'
    rcases GoMap.mem_set.mp (Finmap.mem_keys.mp hid') with rfl | hin
    · exact Finset.mem_insert_self _ _
    · exact Finset.mem_insert_of_mem (Finmap.mem_keys.mpr hin)
  exact (Finset.card_le_card hkeys).trans (Finset.card_insert_le _ _)

/-! ## The limit and the ids -/

theorem unindex_maxSize (m : Mempool) (a : Bytes) (n : UInt64) (id : Bytes) : (m.unindex a n id).maxSize = m.maxSize := by
  have hputBack : ∀ left : GoMap UInt64 Bytes,
      Mempool.maxSize (if left.keys.card = 0 then { m with bySenderNonce := m.bySenderNonce.delete a }
        else { m with bySenderNonce := m.bySenderNonce.set a left }) = m.maxSize := by
    intro left
    split
    · rfl
    · rfl
  unfold Mempool.unindex
  split
  · rfl
  · exact hputBack _

theorem remove_maxSize (C : Crypto) (m : Mempool) (id : Bytes) : (m.remove C id).maxSize = m.maxSize := by
  unfold Mempool.remove
  split
  · rfl
  · simp only
    split
    · rfl
    · exact unindex_maxSize _ _ _ _

theorem removeMany_maxSize (C : Crypto) (m : Mempool) (ids : List Bytes) : (m.removeMany C ids).maxSize = m.maxSize := by
  induction ids generalizing m with
  | nil => rfl
  | cons id ids ih => exact (ih (m.remove C id)).trans (remove_maxSize C m id)

theorem resolveTxID_ne_nil (h : resolveTxID C tx txid p height = .ok id) : id ≠ [] := by
  intro hnil
  subst hnil
  unfold resolveTxID at h
  split at h
  · rename_i hblank
    rw [Except.ok.inj h] at hblank
    exact absurd hblank (by decide)
  · split at h
    · obtain ⟨pre, -, h⟩ := bind_eq_ok.mp h
      exact hexEncode_ne_nil (by rw [C.sha256_length]; decide) (Except.ok.inj h)
    · obtain ⟨hash, -, h⟩ := bind_eq_ok.mp h
      obtain ⟨_, hlen, h⟩ := bind_eq_ok.mp h
      rw [failIf_eq_ok, not_not] at hlen
      exact hexEncode_ne_nil (by rw [hlen]; decide) (Except.ok.inj h)

/-! ## The cheapest entry -/

/-- The entry a loop for the lowest fee ends with: the first of those with the lowest fee, which is below the greatest fee there is. -/
structure Cheapest (range : List (Bytes × MempoolEntry)) (id : Bytes) (e : MempoolEntry) : Prop where
  below : e.tx.fee < 0xffffffffffffffff
  first : ∃ before after, range = before ++ (id, e) :: after ∧ (∀ x ∈ before, e.tx.fee < x.2.tx.fee) ∧
    ∀ x ∈ after, e.tx.fee ≤ x.2.tx.fee

theorem lowestFeeLoop_of_le (id : Bytes) (h : ∀ x ∈ range, fee ≤ x.2.tx.fee) : lowestFeeLoop range fee id = id := by
  induction range with
  | nil => rfl
  | cons x rest ih =>
    obtain ⟨id', e⟩ := x
    have hx : fee ≤ e.tx.fee := h (id', e) (.head _)
    rw [lowestFeeLoop, if_neg (UInt64.not_lt.mpr hx)]
    exact ih fun y hy => h y (.tail _ hy)

/-- The loop ends with the first of the lowest fees. By induction on the entries before that one. -/
theorem lowestFeeLoop_of_first {before after : List (Bytes × MempoolEntry)}
    (id' : Bytes) (hfee : e.tx.fee < fee) (hbefore : ∀ x ∈ before, e.tx.fee < x.2.tx.fee)
    (hafter : ∀ x ∈ after, e.tx.fee ≤ x.2.tx.fee) : lowestFeeLoop (before ++ (id, e) :: after) fee id' = id := by
  induction before generalizing fee id' with
  | nil =>
    rw [nil_append, lowestFeeLoop, if_pos hfee]
    exact lowestFeeLoop_of_le id hafter
  | cons x before ih =>
    obtain ⟨id1, e1⟩ := x
    have htail : ∀ x ∈ before, e.tx.fee < x.2.tx.fee := fun y hy => hbefore y (.tail _ hy)
    rw [cons_append, lowestFeeLoop]
    split
    · exact ih id1 (hbefore (id1, e1) (.head _)) htail
    · exact ih id' hfee htail

theorem exists_first_lowest (h : range ≠ []) :
    ∃ id e before after, range = before ++ (id, e) :: after ∧ (∀ x ∈ before, e.tx.fee < x.2.tx.fee) ∧
      ∀ x ∈ after, e.tx.fee ≤ x.2.tx.fee := by
  induction range with
  | nil => exact absurd rfl h
  | cons x rest ih =>
    obtain ⟨id, e⟩ := x
    cases rest with
    | nil => exact ⟨id, e, [], [], rfl, by simp, by simp⟩
    | cons y rest =>
      obtain ⟨id', e', before, after, hrest, hbefore, hafter⟩ := ih (cons_ne_nil y rest)
      rw [hrest]
      by_cases hlower : e'.tx.fee < e.tx.fee
      · refine ⟨id', e', (id, e) :: before, after, rfl, ?_, hafter⟩
        intro z hz
        rcases mem_cons.mp hz with rfl | hz
        · exact hlower
        · exact hbefore z hz
      · have hle : e.tx.fee ≤ e'.tx.fee := UInt64.not_lt.mp hlower
        refine ⟨id, e, [], _, rfl, by simp, ?_⟩
        intro z hz
        rcases mem_append.mp hz with hz | hz
        · exact UInt64.le_trans hle (UInt64.le_of_lt (hbefore z hz))
        · rcases mem_cons.mp hz with rfl | hz
          · exact hle
          · exact UInt64.le_trans hle (hafter z hz)

theorem lowestFee_of_cheapest (h : Cheapest range id e) : lowestFee range = id := by
  obtain ⟨before, after, rfl, hbefore, hafter⟩ := h.first
  exact lowestFeeLoop_of_first [] h.below hbefore hafter

theorem cheapest_of_lowestFee (h : lowestFee range ≠ []) : ∃ e, Cheapest range (lowestFee range) e := by
  have hne : range ≠ [] := by
    intro hnil
    rw [hnil] at h
    exact h rfl
  obtain ⟨id, e, before, after, hrange, hbefore, hafter⟩ := exists_first_lowest hne
  by_cases hbelow : e.tx.fee < 0xffffffffffffffff
  · have hcheapest : Cheapest range id e := ⟨hbelow, before, after, hrange, hbefore, hafter⟩
    refine ⟨e, ?_⟩
    rw [lowestFee_of_cheapest hcheapest]
    exact hcheapest
  · -- every fee is the greatest there is, and the loop finds none below it
    refine absurd (lowestFeeLoop_of_le [] ?_) h
    have hgreatest := UInt64.not_lt.mp hbelow
    intro x hx
    rw [hrange] at hx
    rcases mem_append.mp hx with hx | hx
    · exact UInt64.le_trans hgreatest (UInt64.le_of_lt (hbefore x hx))
    · rcases mem_cons.mp hx with rfl | hx
      · exact hgreatest
      · exact UInt64.le_trans hgreatest (hafter x hx)

theorem Cheapest.mem (h : Cheapest range id e) : (id, e) ∈ range := by
  obtain ⟨before, after, rfl, -, -⟩ := h.first
  exact mem_append_right _ (.head _)

/-! ## What a call keeps -/

/-- What every call keeps: besides the coherence of the maps, the limit itself, and that no id is empty. -/
structure CallInv (C : Crypto) (maxSize : Int64) (m : Mempool) : Prop extends Coherent C maxSize m where
  limit : m.maxSize = maxSize
  named : [] ∉ m.entries

variable {maxSize : Int64}

theorem callInv_newMempool (C : Crypto) (hsize : 1 ≤ maxSize) : CallInv C maxSize (newMempool maxSize) := by
  have hpos : ¬maxSize ≤ 0 := by
    rw [Int64.le_iff_toInt_le] at hsize ⊢
    have h1 : (1 : Int64).toInt = 1 := rfl
    have h0 : (0 : Int64).toInt = 0 := rfl
    omega
  have hlimit : (newMempool maxSize).maxSize = maxSize := if_neg hpos
  refine ⟨⟨indexed_newMempool C maxSize, ?_, ?_⟩, hlimit, Finmap.notMem_empty⟩
  · intro a byNonce hlookup
    exact absurd hlookup (by simp [newMempool])
  · rw [Int64.le_iff_toInt_le] at hsize
    have h1 : (1 : Int64).toInt = 1 := rfl
    have hcard : (newMempool maxSize).entries.keys.card = 0 := rfl
    omega

theorem callInv_removeMany (h : CallInv C maxSize m) (ids : List Bytes) : CallInv C maxSize (m.removeMany C ids) := by
  refine ⟨⟨indexed_removeMany h.toIndexed ids, innerNonempty_removeMany h.inner ids, ?_⟩, ?_, notMem_removeMany h.named ids⟩
  · have hcard := Finset.card_le_card (keys_removeMany_subset C m ids)
    have hsize := h.size
    omega
  · rw [removeMany_maxSize, h.limit]

/-- A new id goes into a free slot of a pool with room. -/
theorem callInv_insert (h : CallInv C maxSize m) (now : Int64) (hfresh : id ∉ m.entries)
    (hfree : m.idAt a tx.nonce = none) (ha : tx.fromAddress C = .ok a) (hid : id ≠ [])
    (hroom : (m.entries.keys.card : Int) < maxSize.toInt) : CallInv C maxSize (m.insert tx id a now) := by
  refine ⟨⟨indexed_insert h.toIndexed now hfresh hfree ha, innerNonempty_insert h.inner tx id a now, ?_⟩, h.limit, ?_⟩
  · have hcard := card_insert_le m tx id a now
    omega
  · intro hnil
    rcases GoMap.mem_set.mp hnil with hnil | hnil
    · exact hid hnil.symm
    · exact h.named hnil

theorem evict_lowestFee (h : Indexed C m) (hrange : GoMap.IsRange m.entries range)
    {victim : MempoolEntry} (hcheapest : Cheapest range id victim) :
    ∃ a ids, victim.tx.fromAddress C = .ok a ∧ m.idAt a victim.tx.nonce = some id ∧
      m.evictWithDependents C range (lowestFee range) = m.removeMany C ids ∧
      ∀ id, id ∈ ids ↔ ∃ n, victim.tx.nonce ≤ n ∧ m.idAt a n = some id := by
  have hvictim := (GoMap.mem_range_iff hrange).mp hcheapest.mem
  obtain ⟨a, ha, hid⟩ := h.entry id victim hvictim
  obtain ⟨ids, heq, hids⟩ := evictWithDependents_from h hrange hvictim ha
  exact ⟨a, ids, ha, hid, by rw [lowestFee_of_cheapest hcheapest, heq], hids⟩

theorem room_of_evict (h : CallInv C maxSize m) {n : UInt64} (hid : m.idAt a n = some id)
    (hids : id ∈ ids) : ((m.removeMany C ids).entries.keys.card : Int) < maxSize.toInt := by
  obtain ⟨e, he, -, -⟩ := h.slot a n id hid
  have hlt := card_removeMany_lt (C := C) hids (Finmap.mem_of_lookup_eq_some he)
  have hsize := h.size
  omega

/-- `AddWithTxID` keeps the invariant, also where it evicts. -/
theorem callInv_addWithTxID (h : CallInv C maxSize m) (ai : Option (Result (Int × String)))
    (hrange : GoMap.IsRange m.entries range) (now : Int64) (tx : Transaction) (txid : Bytes) (p : ConsensusParams)
    (height : UInt64) : CallInv C maxSize (m.addWithTxID C ai range now tx txid p height).2 := by
  rcases addWithTxID_eq_or_takes C ai range now m tx txid p height with hnone | ⟨id, a, htakes⟩
  · rw [hnone]
    exact h
  · have hid := resolveTxID_ne_nil htakes.resolved
    rw [addWithTxID_of_takes htakes]
    by_cases hroom : m.HasRoom
    · rw [if_pos hroom]
      refine callInv_insert h now htakes.fresh htakes.free htakes.sender hid ?_
      rw [← h.limit]
      exact hroom
    · rw [if_neg hroom]
      obtain ⟨victim, hcheapest⟩ := cheapest_of_lowestFee (htakes.victim.resolve_left hroom)
      obtain ⟨a', ids, -, hslot, heq, hids⟩ := evict_lowestFee h.toIndexed hrange hcheapest
      rw [heq]
      refine callInv_insert (callInv_removeMany h ids) now (notMem_removeMany htakes.fresh ids) ?_ htakes.sender hid ?_
      · rw [idAt_removeMany h.toIndexed, htakes.free, ite_self]
      · exact room_of_evict h hslot ((hids _).mpr ⟨_, UInt64.le_refl _, hslot⟩)

/-- So does a replacement, which takes the slot of the old transaction. -/
theorem callInv_replaceByFee (h : CallInv C maxSize m) (range : List (UInt64 × Bytes)) (now : Int64) (tx : Transaction)
    (txid : Bytes) (p : ConsensusParams) (height : UInt64)
    (hrange : ∀ a, tx.fromAddress C = .ok a → GoMap.IsRange ((m.bySenderNonce.lookup a).getD ∅) range) :
    CallInv C maxSize (m.replaceByFeeWithTxID C range now tx txid p height).pool := by
  rcases replaceByFee_cases h.toIndexed range now tx txid p height hrange with
    hnone | ⟨a, ids, ha, ⟨old, hold⟩, hids, hevicted | ⟨id, hid, hfresh, hinserted⟩⟩
  · rw [hnone]
    exact h
  · rw [hevicted]
    exact callInv_removeMany h ids
  · rw [hinserted]
    obtain ⟨oldID, hslot, -⟩ := Option.bind_eq_some_iff.mp hold
    exact callInv_insert (callInv_removeMany h ids) now hfresh (idAt_evict_self h.toIndexed hids) ha (resolveTxID_ne_nil hid)
      (room_of_evict h hslot ((hids _).mpr ⟨_, UInt64.le_refl _, hslot⟩))

theorem callInv_call {m' : Mempool} (h : CallInv C maxSize m) (hcall : PoolCall C m m') : CallInv C maxSize m' := by
  cases hcall with
  | add ai range now tx txid p height hrange => exact callInv_addWithTxID h ai hrange now tx txid p height
  | replace range now tx txid p height hrange => exact callInv_replaceByFee h range now tx txid p height hrange
  | remove txid => exact callInv_removeMany h [txid]
  | removeMany txids => exact callInv_removeMany h txids

theorem callInv_of_pooled (hsize : 1 ≤ maxSize) (h : Pooled C maxSize m) : CallInv C maxSize m := by
  unfold Pooled at h
  induction h with
  | refl => exact callInv_newMempool C hsize
  | tail _ hcall ih => exact callInv_call ih hcall

/-- A pool without a positive limit gets the default one. -/
theorem exists_callInv_of_pooled (h : Pooled C maxSize m) : ∃ size, CallInv C size m := by
  by_cases hpos : maxSize ≤ 0
  · have hdefault : newMempool maxSize = newMempool 10000 := by
      unfold newMempool
      rw [if_pos hpos, if_neg (by decide)]
    unfold Pooled at h
    rw [hdefault] at h
    exact ⟨10000, callInv_of_pooled (by decide) h⟩
  · refine ⟨maxSize, callInv_of_pooled ?_ h⟩
    rw [Int64.le_iff_toInt_le] at hpos ⊢
    have h1 : (1 : Int64).toInt = 1 := rfl
    have h0 : (0 : Int64).toInt = 0 := rfl
    omega

end PoolAux

/-! ## Gaps -/

def Mempool.Pending (m : Mempool) (a : Bytes) (n : UInt64) : Prop := (m.idAt a n).isSome

/-- The pending nonces of a sender have no gap, for any sender. -/
def GapFree (m : Mempool) : Prop := ∀ a first last n, m.Pending a first → m.Pending a last → first ≤ n → n ≤ last → m.Pending a n

/-- A nonce is the one after the highest that is pending for the sender, if there is one. -/
def NextNonce (m : Mempool) (a : Bytes) (nonce : UInt64) : Prop :=
  (∀ n, ¬m.Pending a n) ∨ ∃ top, m.Pending a top ∧ (∀ n, m.Pending a n → n ≤ top) ∧ nonce.toNat = top.toNat + 1

/-- Adding a transaction strands it: it is taken into a pool without room whose cheapest entry is of its own sender, who has earlier
nonces pending. -/
def Strands (C : Crypto) (ai : Option (Result (Int × String))) (range : List (Bytes × MempoolEntry)) (m : Mempool) (tx : Transaction)
    (txid : Bytes) (p : ConsensusParams) (height : UInt64) : Prop :=
  ¬m.HasRoom ∧ ∃ id a victimID victim, resolveTxID C tx txid p height = .ok id ∧ tx.fromAddress C = .ok a ∧
    checkSpam C ai tx = .ok () ∧ id ∉ m.entries ∧ PoolAux.Cheapest range victimID victim ∧ victim.tx.fromAddress C = .ok a ∧
    ∃ n, m.Pending a n ∧ n < victim.tx.nonce

namespace PoolAux

variable {C : Crypto} {m : Mempool} {maxSize : Int64}

theorem pending_insert (m : Mempool) (tx : Transaction) (id a a' : Bytes) (now : Int64) (n : UInt64) :
    (m.insert tx id a now).Pending a' n ↔ a' = a ∧ n = tx.nonce ∨ m.Pending a' n := by
  unfold Mempool.Pending
  rw [idAt_insert]
  split
  · rename_i heq
    simp [heq]
  · rename_i hne
    simp [hne]

theorem pending_evict (h : Indexed C m) (hids : ∀ id, id ∈ ids ↔ ∃ n, nonce ≤ n ∧ m.idAt a n = some id) (a' : Bytes) (n : UInt64) :
    (m.removeMany C ids).Pending a' n ↔ m.Pending a' n ∧ ¬(a' = a ∧ nonce ≤ n) := by
  unfold Mempool.Pending
  rw [idAt_evict h hids]
  split
  · rename_i heq
    simp [heq]
  · rename_i hne
    simp [hne]

theorem gapFree_evict (h : Indexed C m) (hgap : GapFree m)
    (hids : ∀ id, id ∈ ids ↔ ∃ n, nonce ≤ n ∧ m.idAt a n = some id) : GapFree (m.removeMany C ids) := by
  intro a' first last n hfirst hlast hle hle'
  rw [pending_evict h hids] at hfirst hlast ⊢
  refine ⟨hgap a' first last n hfirst.1 hlast.1 hle hle', ?_⟩
  intro hout
  exact hlast.2 ⟨hout.1, UInt64.le_trans hout.2 hle'⟩

theorem gapFree_insert (hgap : GapFree m) (hnext : NextNonce m a tx.nonce) (id : Bytes) (now : Int64) : GapFree (m.insert tx id a now) := by
  intro a' first last n hfirst hlast hle hle'
  rw [pending_insert] at hfirst hlast ⊢
  rcases hfirst with ⟨rfl, rfl⟩ | hfirst
  · -- the new nonce is the highest: what is between it and another one is the new one
    rcases hlast with ⟨-, rfl⟩ | hlast
    · exact Or.inl ⟨rfl, UInt64.le_antisymm hle' hle⟩
    · rcases hnext with hnone | ⟨top, -, htop, hsucc⟩
      · exact absurd hlast (hnone last)
      · have hlast := UInt64.le_iff_toNat_le.mp (htop last hlast)
        rw [UInt64.le_iff_toNat_le] at hle hle'
        omega
  · rcases hlast with ⟨rfl, rfl⟩ | hlast
    · rcases hnext with hnone | ⟨top, hpending, -, hsucc⟩
      · exact absurd hfirst (hnone first)
      · by_cases heq : n = tx.nonce
        · exact Or.inl ⟨rfl, heq⟩
        · refine Or.inr (hgap a' first top n hfirst hpending hle ?_)
          have hne : n.toNat ≠ tx.nonce.toNat := fun h => heq (UInt64.toNat_inj.mp h)
          rw [UInt64.le_iff_toNat_le] at hle' ⊢
          omega
    · exact Or.inr (hgap a' first last n hfirst hlast hle hle')

theorem nextNonce_evict (h : Indexed C m) {a' : Bytes} {nonce' : UInt64}
    (hids : ∀ id, id ∈ ids ↔ ∃ n, nonce ≤ n ∧ m.idAt a n = some id) (hnext : NextNonce m a' nonce')
    (hother : a' = a → ∀ n, m.Pending a n → nonce ≤ n) : NextNonce (m.removeMany C ids) a' nonce' := by
  by_cases ha : a' = a
  · left
    intro n hn
    rw [pending_evict h hids] at hn
    exact hn.2 ⟨ha, hother ha n (by rw [← ha]; exact hn.1)⟩
  · rcases hnext with hnone | ⟨top, hpending, htop, hsucc⟩
    · left
      intro n hn
      exact hnone n ((pending_evict h hids a' n).mp hn).1
    · right
      refine ⟨top, (pending_evict h hids a' top).mpr ⟨hpending, fun heq => ha heq.1⟩, ?_, hsucc⟩
      intro n hn
      exact htop n ((pending_evict h hids a' n).mp hn).1

theorem not_gapFree_of_strands (h : CallInv C maxSize m) {ai : Option (Result (Int × String))}
    (hrange : GoMap.IsRange m.entries range) (now : Int64) (hnext : ∀ a, tx.fromAddress C = .ok a → NextNonce m a tx.nonce)
    (hstrands : Strands C ai range m tx txid p height) : ¬GapFree (m.addWithTxID C ai range now tx txid p height).2 := by
  obtain ⟨hfull, id, a, victimID, victim, hid, ha, hspam, hfresh, hcheapest, hvictim, n, hn, hlt⟩ := hstrands
  obtain ⟨a', ids, ha', hslot, heq, hids⟩ := evict_lowestFee h.toIndexed hrange hcheapest
  cases hvictim.symm.trans ha'
  have hpending : m.Pending a victim.tx.nonce := by rw [Mempool.Pending, hslot]; rfl
  rcases hnext a ha with hnone | ⟨top, -, htop, hsucc⟩
  · exact absurd hn (hnone n)
  · have hle := UInt64.le_iff_toNat_le.mp (htop _ hpending)
    have hbelow : victim.tx.nonce < tx.nonce := UInt64.lt_iff_toNat_lt.mpr (by omega)
    have htakes : Takes C ai range m tx txid p height id a := by
      refine ⟨hid, ha, hspam, hfresh, ?_, Or.inr ?_⟩
      · cases hfree : m.idAt a tx.nonce with
        | none => rfl
        | some other =>
          have hle' := UInt64.le_iff_toNat_le.mp (htop tx.nonce (by rw [Mempool.Pending, hfree]; rfl))
          omega
      · rw [lowestFee_of_cheapest hcheapest]
        intro hnil
        rw [hnil] at hcheapest
        exact h.named (Finmap.mem_of_lookup_eq_some ((GoMap.mem_range_iff hrange).mp hcheapest.mem))
    rw [addWithTxID_of_takes htakes, if_neg hfull, heq]
    intro hgap
    have hleft : (m.removeMany C ids).Pending a n :=
      (pending_evict h.toIndexed hids a n).mpr ⟨hn, fun hout => UInt64.not_le.mpr hlt hout.2⟩
    have hbetween := hgap a n tx.nonce victim.tx.nonce ((pending_insert _ tx id a a now n).mpr (Or.inr hleft))
      ((pending_insert _ tx id a a now tx.nonce).mpr (Or.inl ⟨rfl, rfl⟩)) (UInt64.le_of_lt hlt) (UInt64.le_of_lt hbelow)
    rcases (pending_insert _ tx id a a now victim.tx.nonce).mp hbetween with ⟨-, hnew⟩ | hold
    · rw [hnew] at hbelow
      exact UInt64.lt_irrefl _ hbelow
    · exact ((pending_evict h.toIndexed hids a _).mp hold).2 ⟨rfl, UInt64.le_refl _⟩

theorem gapFree_of_not_strands (h : CallInv C maxSize m) {ai : Option (Result (Int × String))}
    (hrange : GoMap.IsRange m.entries range) (now : Int64)
    (hgap : GapFree m) (hnext : ∀ a, tx.fromAddress C = .ok a → NextNonce m a tx.nonce)
    (hnot : ¬Strands C ai range m tx txid p height) : GapFree (m.addWithTxID C ai range now tx txid p height).2 := by
  rcases addWithTxID_eq_or_takes C ai range now m tx txid p height with hnone | ⟨id, a, htakes⟩
  · rw [hnone]
    exact hgap
  · rw [addWithTxID_of_takes htakes]
    by_cases hroom : m.HasRoom
    · rw [if_pos hroom]
      exact gapFree_insert hgap (hnext a htakes.sender) id now
    · rw [if_neg hroom]
      obtain ⟨victim, hcheapest⟩ := cheapest_of_lowestFee (htakes.victim.resolve_left hroom)
      obtain ⟨a', ids, ha', -, heq, hids⟩ := evict_lowestFee h.toIndexed hrange hcheapest
      rw [heq]
      refine gapFree_insert (gapFree_evict h.toIndexed hgap hids) ?_ id now
      refine nextNonce_evict h.toIndexed hids (hnext a htakes.sender) ?_
      intro hsame n hn
      by_contra hlater
      refine hnot ⟨hroom, id, a, _, victim, htakes.resolved, htakes.sender, htakes.spam, htakes.fresh, hcheapest, ?_, n, ?_, ?_⟩
      · rw [ha', hsame]
      · rw [hsame]
        exact hn
      · exact UInt64.not_le.mp hlater

end PoolAux

namespace Sample

open PoolAux

/-- A transfer of one sender, without signature: the pool does not look at it. -/
def queuedTx (nonce fee : UInt64) : Transaction :=
  { type := .transfer, chainID := 1, fromPubKey := some (List.replicate 32 7), amount := 1, fee := fee, nonce := nonce }

def queueAddress (C : Crypto) : Bytes := generateAddress C (List.replicate 32 7)

def queuedEntry (nonce fee : UInt64) (id : Bytes) : MempoolEntry := { tx := queuedTx nonce fee, txIDHex := id, received := 5 }

def queueOne (C : Crypto) : Mempool := (newMempool 3).insert (queuedTx 1 5) [0x61] (queueAddress C) 5
def queueTwo (C : Crypto) : Mempool := (queueOne C).insert (queuedTx 2 1) [0x62] (queueAddress C) 5
def queueThree (C : Crypto) : Mempool := (queueTwo C).insert (queuedTx 3 5) [0x63] (queueAddress C) 5

def visitsOne : List (Bytes × MempoolEntry) := [([0x61], queuedEntry 1 5 [0x61])]
def visitsTwo : List (Bytes × MempoolEntry) := visitsOne ++ [([0x62], queuedEntry 2 1 [0x62])]
def visitsThree : List (Bytes × MempoolEntry) := visitsTwo ++ [([0x63], queuedEntry 3 5 [0x63])]

theorem fromAddress_queued (C : Crypto) (nonce fee : UInt64) : (queuedTx nonce fee).fromAddress C = .ok (queueAddress C) :=
  (fromAddress_ok_iff C).mpr ⟨rfl, rfl, rfl⟩

theorem checkSpam_queued (C : Crypto) (nonce fee : UInt64) : checkSpam C none (queuedTx nonce fee) = .ok () := rfl

theorem nextNonce_insert {m : Mempool} (h : NextNonce m a tx.nonce) (id : Bytes)
    (now : Int64) (hsucc : nonce.toNat = tx.nonce.toNat + 1) : NextNonce (m.insert tx id a now) a nonce := by
  refine Or.inr ⟨tx.nonce, (pending_insert m tx id a a now _).mpr (Or.inl ⟨rfl, rfl⟩), ?_, hsucc⟩
  intro n hn
  rcases (pending_insert m tx id a a now n).mp hn with ⟨-, rfl⟩ | hn
  · exact UInt64.le_refl _
  · rcases h with hnone | ⟨top, -, htop, hnext⟩
    · exact absurd hn (hnone n)
    · have hle := UInt64.le_iff_toNat_le.mp (htop n hn)
      exact UInt64.le_iff_toNat_le.mpr (by omega)

theorem idAt_of_nextNonce {m : Mempool} (h : NextNonce m a nonce) : m.idAt a nonce = none := by
  cases hid : m.idAt a nonce with
  | none => rfl
  | some id =>
    have hpending : m.Pending a nonce := by rw [Mempool.Pending, hid]; rfl
    rcases h with hnone | ⟨top, -, htop, hsucc⟩
    · exact absurd hpending (hnone nonce)
    · have hle := UInt64.le_iff_toNat_le.mp (htop nonce hpending)
      omega

theorem pooled_queued {C : Crypto} {m : Mempool} (h : Pooled C 3 m)
    (hrange : GoMap.IsRange m.entries range) (hid : isBlank id = false) (hfresh : id ∉ m.entries)
    (hnext : NextNonce m (queueAddress C) nonce) (hroom : m.HasRoom) :
    Pooled C 3 (m.insert (queuedTx nonce fee) id (queueAddress C) 5) := by
  have htakes : Takes C none range m (queuedTx nonce fee) id {} 0 id (queueAddress C) :=
    ⟨if_pos hid, fromAddress_queued C nonce fee, checkSpam_queued C nonce fee, hfresh, idAt_of_nextNonce hnext, Or.inl hroom⟩
  have hcall := PoolCall.add (C := C) none range 5 (queuedTx nonce fee) id {} 0 hrange
  rw [addWithTxID_of_takes htakes, if_pos hroom] at hcall
  exact h.tail hcall

theorem gapFree_newMempool (maxSize : Int64) : GapFree (newMempool maxSize) := by
  intro a first last n hfirst
  exact absurd hfirst (by simp [Mempool.Pending, newMempool, Mempool.idAt])

theorem nextNonce_newMempool (maxSize : Int64) (a : Bytes) (nonce : UInt64) : NextNonce (newMempool maxSize) a nonce :=
  Or.inl fun n => by simp [Mempool.Pending, newMempool, Mempool.idAt]

variable (C : Crypto)

theorem nextNonce_queueOne : NextNonce (queueOne C) (queueAddress C) 2 :=
  nextNonce_insert (nextNonce_newMempool 3 _ _) [0x61] 5 rfl

theorem nextNonce_queueTwo : NextNonce (queueTwo C) (queueAddress C) 3 := nextNonce_insert (nextNonce_queueOne C) [0x62] 5 rfl

theorem nextNonce_queueThree : NextNonce (queueThree C) (queueAddress C) 4 := nextNonce_insert (nextNonce_queueTwo C) [0x63] 5 rfl

theorem gapFree_queueThree : GapFree (queueThree C) := by
  have h1 : GapFree (queueOne C) := gapFree_insert (gapFree_newMempool 3) (nextNonce_newMempool 3 _ _) [0x61] 5
  have h2 : GapFree (queueTwo C) := gapFree_insert h1 (nextNonce_queueOne C) [0x62] 5
  exact gapFree_insert h2 (nextNonce_queueTwo C) [0x63] 5

theorem isRange_queue : GoMap.IsRange (queueOne C).entries visitsOne ∧ GoMap.IsRange (queueTwo C).entries visitsTwo ∧
    GoMap.IsRange (queueThree C).entries visitsThree := by
  have h1 : (queueOne C).entries = (∅ : GoMap Bytes MempoolEntry).set [0x61] (queuedEntry 1 5 [0x61]) := rfl
  have h2 : (queueTwo C).entries = (queueOne C).entries.set [0x62] (queuedEntry 2 1 [0x62]) := rfl
  have h3 : (queueThree C).entries = (queueTwo C).entries.set [0x63] (queuedEntry 3 5 [0x63]) := rfl
  rw [h3, h2, h1]
  decide

theorem pooled_queueThree : Pooled C 3 (queueThree C) := by
  obtain ⟨hone, htwo, -⟩ := isRange_queue C
  have h0 : Pooled C 3 (newMempool 3) := Relation.ReflTransGen.refl
  have hempty : GoMap.IsRange (newMempool 3).entries [] := rfl
  have h1 : Pooled C 3 (queueOne C) :=
    pooled_queued h0 hempty (by decide) Finmap.notMem_empty (nextNonce_newMempool 3 _ _) (by decide)
  have hroom1 : (queueOne C).HasRoom := by
    have hcard : (queueOne C).entries.keys.card = 1 := rfl
    rw [Mempool.HasRoom, hcard]
    exact show (1 : Int) < 3 by decide
  have hroom2 : (queueTwo C).HasRoom := by
    have hcard : (queueTwo C).entries.keys.card = 2 := rfl
    rw [Mempool.HasRoom, hcard]
    exact show (2 : Int) < 3 by decide
  have hfresh1 : [0x62] ∉ (queueOne C).entries := by
    intro hmem
    obtain ⟨e, he⟩ := Option.isSome_iff_exists.mp (Finmap.lookup_isSome.mpr hmem)
    exact absurd ((GoMap.mem_range_iff hone).mpr he) (by simp [visitsOne])
  have hfresh2 : [0x63] ∉ (queueTwo C).entries := by
    intro hmem
    obtain ⟨e, he⟩ := Option.isSome_iff_exists.mp (Finmap.lookup_isSome.mpr hmem)
    exact absurd ((GoMap.mem_range_iff htwo).mpr he) (by simp [visitsTwo, visitsOne])
  have h2 : Pooled C 3 (queueTwo C) := pooled_queued h1 hone (by decide) hfresh1 (nextNonce_queueOne C) hroom1
  exact pooled_queued h2 htwo (by decide) hfresh2 (nextNonce_queueTwo C) hroom2

end Sample

open Sample

/-- The two maps of a pool describe one set within the limit, after any calls. -/
theorem coherent_of_calls (C : Crypto) (maxSize : Int64) (m : Mempool) (hsize : 1 ≤ maxSize) (h : Pooled C maxSize m) :
    Coherent C maxSize m := (PoolAux.callInv_of_pooled hsize h).toCoherent

/-- Three transfers of one sender in a pool for three. -/
theorem coherent_of_calls_queue : Pooled (goCrypto []) 3 (queueThree (goCrypto [])) ∧ Coherent (goCrypto []) 3 (queueThree (goCrypto [])) :=
  ⟨pooled_queueThree _, coherent_of_calls _ 3 _ (by decide) (pooled_queueThree _)⟩

/-- Adding the next nonce of a sender to a pool without gaps leaves it without gaps, unless it strands the transaction. -/
theorem gapFree_addWithTxID_iff (C : Crypto) (maxSize : Int64) (m : Mempool) (ai : Option (Result (Int × String)))
    (range : List (Bytes × MempoolEntry)) (now : Int64) (tx : Transaction) (txid : Bytes) (p : ConsensusParams) (height : UInt64)
    (hpooled : Pooled C maxSize m) (hrange : GoMap.IsRange m.entries range) (hgap : GapFree m)
    (hnext : ∀ a, tx.fromAddress C = .ok a → NextNonce m a tx.nonce) :
    GapFree (m.addWithTxID C ai range now tx txid p height).2 ↔ ¬Strands C ai range m tx txid p height := by
  obtain ⟨size, hinv⟩ := PoolAux.exists_callInv_of_pooled hpooled
  constructor
  · intro hafter hstrands
    exact PoolAux.not_gapFree_of_strands hinv hrange now hnext hstrands hafter
  · exact PoolAux.gapFree_of_not_strands hinv hrange now hgap hnext

/-- A full pool whose cheapest entry is the second of the sender of a fourth. -/
theorem gapFree_addWithTxID_iff_queue : Pooled (goCrypto []) 3 (queueThree (goCrypto [])) ∧ GapFree (queueThree (goCrypto [])) ∧
      (GapFree ((queueThree (goCrypto [])).addWithTxID (goCrypto []) none visitsThree 5 (queuedTx 4 5) [0x64] {} 0).2 ↔
        ¬Strands (goCrypto []) none visitsThree (queueThree (goCrypto [])) (queuedTx 4 5) [0x64] {} 0) := by
  have hpooled := pooled_queueThree (goCrypto [])
  have hgap := gapFree_queueThree (goCrypto [])
  refine ⟨hpooled, hgap, ?_⟩
  refine gapFree_addWithTxID_iff (goCrypto []) 3 _ none visitsThree 5 (queuedTx 4 5) [0x64] {} 0 hpooled
    (isRange_queue _).2.2 hgap ?_
  intro a ha
  cases (fromAddress_queued _ 4 5).symm.trans ha
  exact nextNonce_queueThree _

namespace Sample

open PoolAux

variable (C : Crypto)

theorem strands_queued : Strands C none visitsThree (queueThree C) (queuedTx 4 5) [0x64] {} 0 := by
  have hfull : ¬(queueThree C).HasRoom := by
    have hcard : (queueThree C).entries.keys.card = 3 := rfl
    rw [Mempool.HasRoom, hcard]
    exact show ¬(3 : Int) < 3 by decide
  have hfresh : [0x64] ∉ (queueThree C).entries := by
    intro hmem
    obtain ⟨e, he⟩ := Option.isSome_iff_exists.mp (Finmap.lookup_isSome.mpr hmem)
    exact absurd ((GoMap.mem_range_iff (isRange_queue C).2.2).mpr he) (by simp [visitsThree, visitsTwo, visitsOne])
  have hcheapest : Cheapest visitsThree [0x62] (queuedEntry 2 1 [0x62]) := by
    refine ⟨by decide, visitsOne, [([0x63], queuedEntry 3 5 [0x63])], rfl, ?_, ?_⟩
    · intro x hx
      obtain rfl := mem_singleton.mp hx
      decide
    · intro x hx
      obtain rfl := mem_singleton.mp hx
      decide
  have hfirst : (queueThree C).Pending (queueAddress C) 1 := by
    unfold queueThree queueTwo queueOne
    simp [pending_insert, queuedTx]
  exact ⟨hfull, [0x64], queueAddress C, [0x62], _, if_pos (by decide), fromAddress_queued C 4 5, checkSpam_queued C 4 5, hfresh,
    hcheapest, fromAddress_queued C 2 1, 1, hfirst, by decide⟩

end Sample

/-- Nonces 1, 2 and 3 fill a pool and the second pays least. Adding nonce 4 leaves 1 and 4. -/
theorem queue_strands : Pooled (goCrypto []) 3 (queueThree (goCrypto [])) ∧
      GoMap.IsRange (queueThree (goCrypto [])).entries visitsThree ∧ GapFree (queueThree (goCrypto [])) ∧
      (queuedTx 4 5).fromAddress (goCrypto []) = .ok (queueAddress (goCrypto [])) ∧
      NextNonce (queueThree (goCrypto [])) (queueAddress (goCrypto [])) (queuedTx 4 5).nonce ∧
      ¬GapFree ((queueThree (goCrypto [])).addWithTxID (goCrypto []) none visitsThree 5 (queuedTx 4 5) [0x64] {}
        0).2 := by
  have hpooled := pooled_queueThree (goCrypto [])
  have hrange := (isRange_queue (goCrypto [])).2.2
  have hnext := nextNonce_queueThree (goCrypto [])
  obtain ⟨size, hinv⟩ := PoolAux.exists_callInv_of_pooled hpooled
  refine ⟨hpooled, hrange, gapFree_queueThree _, fromAddress_queued _ 4 5, hnext, ?_⟩
  refine PoolAux.not_gapFree_of_strands hinv hrange 5 ?_ (strands_queued _)
  intro a ha
  cases (fromAddress_queued _ 4 5).symm.trans ha
  exact hnext

end NeoCoin
