import NeoCoin.Server

/-!
# The pool as slots

The pool keeps its entries by id, and the ids by sender and nonce. The two maps fit together (`Indexed`), so that the pool can be read as
slots (`Mempool.slot`), or as the pending transactions of each sender (`Mempool.pendingOf`).
-/

namespace NeoCoin

open GoLib List

variable {id a : Bytes} {tx : Transaction} {n nonce : UInt64} {ids : List Bytes}

/-- The two maps fit together: each entry stands under its own sender and nonce, and each id there is that of such an entry. -/
structure Indexed (C : Crypto) (m : Mempool) : Prop where
  entry : ∀ id e, m.entries.lookup id = some e → ∃ a, e.tx.fromAddress C = .ok a ∧ m.idAt a e.tx.nonce = some id
  slot : ∀ a n id, m.idAt a n = some id → ∃ e, m.entries.lookup id = some e ∧ e.tx.fromAddress C = .ok a ∧ e.tx.nonce = n

def Mempool.slot (m : Mempool) (a : Bytes) (n : UInt64) : Option Transaction :=
  (m.idAt a n).bind fun id => (m.entries.lookup id).map fun e => e.tx

def Mempool.pendingOf (C : Crypto) (m : Mempool) (a : Bytes) : Multiset Transaction :=
  (m.entries.entries.filter fun e => e.2.tx.fromAddress C = .ok a).map fun e => e.2.tx

def Mempool.HasRoom (m : Mempool) : Prop := (m.entries.keys.card : Int) < m.maxSize.toInt

instance (m : Mempool) : Decidable m.HasRoom := inferInstanceAs (Decidable (_ < _))

theorem indexed_newMempool (C : Crypto) (maxSize : Int64) : Indexed C (newMempool maxSize) := by
  refine ⟨?_, ?_⟩
  · intro id e he
    exact absurd he (by simp [newMempool])
  · intro a n id hid
    exact absurd hid (by simp [newMempool, Mempool.idAt])

namespace PoolAux

variable {C : Crypto} {m : Mempool}

/-! ## The index -/

theorem idAt_index (m : Mempool) (a a' : Bytes) (n n' : UInt64) (id : Bytes) :
    (m.index a n id).idAt a' n' = if a' = a ∧ n' = n then some id else m.idAt a' n' := by
  unfold Mempool.index Mempool.idAt
  rw [GoMap.lookup_set]
  by_cases ha : a' = a
  · subst ha
    rw [if_pos rfl, Option.bind_some, GoMap.lookup_set]
    by_cases hn : n' = n
    · rw [if_pos hn, if_pos ⟨rfl, hn⟩]
    · rw [if_neg hn, if_neg fun h => hn h.2]
      cases m.bySenderNonce.lookup a' with
      | none => simp
      | some byNonce => rfl
  · rw [if_neg ha, if_neg fun h => ha h.1]

theorem idAt_putBack (m : Mempool) (left : GoMap UInt64 Bytes) (a a' : Bytes) (n : UInt64) :
    Mempool.idAt (if left.keys.card = 0 then { m with bySenderNonce := m.bySenderNonce.delete a }
      else { m with bySenderNonce := m.bySenderNonce.set a left }) a' n = if a' = a then left.lookup n else m.idAt a' n := by
  split
  · rename_i hcard
    have hempty : left.lookup n = none := by
      rw [Finmap.lookup_eq_none, ← Finmap.mem_keys, Finset.card_eq_zero.mp hcard]
      exact Finset.notMem_empty n
    unfold Mempool.idAt
    by_cases ha : a' = a
    · rw [if_pos ha, ha, GoMap.lookup_delete_self, hempty]
      rfl
    · rw [if_neg ha, GoMap.lookup_delete_of_ne _ ha]
  · unfold Mempool.idAt
    by_cases ha : a' = a
    · rw [if_pos ha, ha, GoMap.lookup_set_self]
      rfl
    · rw [if_neg ha, GoMap.lookup_set_of_ne _ _ ha]

theorem idAt_unindex (m : Mempool) (a a' : Bytes) (n n' : UInt64) (id : Bytes) :
    (m.unindex a n id).idAt a' n' = if a' = a ∧ n' = n ∧ m.idAt a n = some id then none else m.idAt a' n' := by
  have hidAt : ∀ n, m.idAt a n = (m.bySenderNonce.lookup a).bind fun byNonce => byNonce.lookup n := fun _ => rfl
  unfold Mempool.unindex
  cases hbyNonce : m.bySenderNonce.lookup a with
  | none =>
    have hid : m.idAt a n = none := by
      rw [hidAt, hbyNonce]
      rfl
    rw [if_neg (by simp [hid])]
  | some byNonce =>
    have hid : ∀ n, m.idAt a n = byNonce.lookup n := by
      intro n
      rw [hidAt, hbyNonce]
      rfl
    refine (idAt_putBack m _ a a' n').trans ?_
    by_cases ha : a' = a
    · subst ha
      rw [if_pos rfl, hid, hid]
      simp only [true_and]
      by_cases hthere : byNonce.lookup n = some id
      · rw [if_pos hthere]
        by_cases hn : n' = n
        · rw [hn, GoMap.lookup_delete_self, if_pos ⟨rfl, hthere⟩]
        · rw [GoMap.lookup_delete_of_ne _ hn, if_neg fun h => hn h.1]
      · rw [if_neg hthere, if_neg fun h => hthere h.2]
    · rw [if_neg ha, if_neg fun h => ha h.1]

@[simp] theorem unindex_entries (m : Mempool) (a : Bytes) (n : UInt64) (id : Bytes) : (m.unindex a n id).entries = m.entries := by
  have hputBack : ∀ left : GoMap UInt64 Bytes,
      Mempool.entries (if left.keys.card = 0 then { m with bySenderNonce := m.bySenderNonce.delete a }
        else { m with bySenderNonce := m.bySenderNonce.set a left }) = m.entries := by
    intro left
    split
    · rfl
    · rfl
  unfold Mempool.unindex
  split
  · rfl
  · exact hputBack _

/-! ## Removing -/

theorem lookup_remove (C : Crypto) (m : Mempool) (id id' : Bytes) :
    (m.remove C id).entries.lookup id' = if id' = id then none else m.entries.lookup id' := by
  unfold Mempool.remove
  cases he : m.entries.lookup id with
  | none =>
    by_cases heq : id' = id
    · rw [if_pos heq, heq]
      exact he
    · rw [if_neg heq]
  | some e =>
    have hdelete : (m.entries.delete id).lookup id' = if id' = id then none else m.entries.lookup id' := by
      by_cases heq : id' = id
      · rw [if_pos heq, heq, GoMap.lookup_delete_self]
      · rw [if_neg heq, GoMap.lookup_delete_of_ne _ heq]
    simp only
    split
    · exact hdelete
    · rw [unindex_entries]
      exact hdelete

theorem mem_remove {id' : Bytes} : id' ∈ (m.remove C id).entries ↔ id' ≠ id ∧ id' ∈ m.entries := by
  rw [← Finmap.lookup_isSome, ← Finmap.lookup_isSome, lookup_remove]
  by_cases heq : id' = id
  · simp [heq]
  · simp [heq]

theorem idAt_remove (h : Indexed C m) (id a : Bytes) (n : UInt64) :
    (m.remove C id).idAt a n = if m.idAt a n = some id then none else m.idAt a n := by
  unfold Mempool.remove
  cases he : m.entries.lookup id with
  | none =>
    rw [if_neg]
    intro hid
    obtain ⟨e, he', -⟩ := h.slot a n id hid
    exact absurd (he.symm.trans he') (by simp)
  | some e =>
    obtain ⟨a0, ha0, hid0⟩ := h.entry id e he
    simp only [ha0]
    rw [idAt_unindex]
    have hidAt : ∀ a n, Mempool.idAt { m with entries := m.entries.delete id } a n = m.idAt a n := fun _ _ => rfl
    simp only [hidAt, hid0, and_true]
    have hiff : a = a0 ∧ n = e.tx.nonce ↔ m.idAt a n = some id := by
      constructor
      · intro heq
        rw [heq.1, heq.2]
        exact hid0
      · intro hid
        obtain ⟨e', he', ha, hn⟩ := h.slot a n id hid
        cases he.symm.trans he'
        exact ⟨Except.ok.inj (ha.symm.trans ha0), hn.symm⟩
    simp only [hiff]

theorem idAt_remove_eq_some (h : Indexed C m) {a id id' : Bytes} {n : UInt64} :
    (m.remove C id).idAt a n = some id' ↔ id' ≠ id ∧ m.idAt a n = some id' := by
  rw [idAt_remove h]
  split
  · rename_i hid
    simp [hid, eq_comm]
  · rename_i hid
    refine ⟨fun hid' => ⟨?_, hid'⟩, And.right⟩
    rintro rfl
    exact hid hid'

theorem indexed_remove (h : Indexed C m) (id : Bytes) : Indexed C (m.remove C id) := by
  refine ⟨?_, ?_⟩
  · intro id' e he
    rw [lookup_remove] at he
    split at he
    · cases he
    · rename_i hne
      obtain ⟨a, ha, hid⟩ := h.entry id' e he
      refine ⟨a, ha, ?_⟩
      rw [idAt_remove h, if_neg, hid]
      rw [hid]
      exact fun heq => hne (Option.some.inj heq)
  · intro a n id' hid
    rw [idAt_remove h] at hid
    split at hid
    · cases hid
    · rename_i hne
      obtain ⟨e, he, ha, hn⟩ := h.slot a n id' hid
      refine ⟨e, ?_, ha, hn⟩
      rw [lookup_remove, if_neg, he]
      intro heq
      rw [heq] at hid
      exact hne hid

theorem removeMany_cons (C : Crypto) (m : Mempool) (id : Bytes) (ids : List Bytes) :
    m.removeMany C (id :: ids) = (m.remove C id).removeMany C ids := rfl

theorem indexed_removeMany (h : Indexed C m) (ids : List Bytes) : Indexed C (m.removeMany C ids) := by
  induction ids generalizing m with
  | nil => exact h
  | cons id ids ih => exact ih (indexed_remove h id)

theorem lookup_removeMany (C : Crypto) (m : Mempool) (ids : List Bytes) (id : Bytes) :
    (m.removeMany C ids).entries.lookup id = if id ∈ ids then none else m.entries.lookup id := by
  induction ids generalizing m with
  | nil => simp [Mempool.removeMany]
  | cons id' ids ih =>
    rw [removeMany_cons, ih, lookup_remove]
    by_cases hmem : id ∈ ids
    · simp [hmem]
    · simp [hmem]

theorem idAt_removeMany (h : Indexed C m) (ids : List Bytes) (a : Bytes) (n : UInt64) :
    (m.removeMany C ids).idAt a n = if ∃ id ∈ ids, m.idAt a n = some id then none else m.idAt a n := by
  induction ids generalizing m with
  | nil => simp [Mempool.removeMany]
  | cons id ids ih =>
    rw [removeMany_cons, ih (indexed_remove h id), idAt_remove h]
    by_cases hid : m.idAt a n = some id
    · simp [hid]
    · simp [hid]

theorem notMem_removeMany (h : id ∉ m.entries) (ids : List Bytes) : id ∉ (m.removeMany C ids).entries := by
  rw [← Finmap.lookup_eq_none] at h ⊢
  rw [lookup_removeMany, h, ite_self]

/-! ## Inserting -/

theorem idAt_insert (m : Mempool) (tx : Transaction) (id a a' : Bytes) (now : Int64) (n : UInt64) :
    (m.insert tx id a now).idAt a' n = if a' = a ∧ n = tx.nonce then some id else m.idAt a' n :=
  idAt_index _ a a' tx.nonce n id

theorem lookup_insert (m : Mempool) (tx : Transaction) (id a id' : Bytes) (now : Int64) : (m.insert tx id a now).entries.lookup id' =
      if id' = id then some { tx := tx, txIDHex := id, received := now } else m.entries.lookup id' :=
  GoMap.lookup_set m.entries id id' _

theorem indexed_insert (h : Indexed C m) (now : Int64) (hfresh : id ∉ m.entries)
    (hfree : m.idAt a tx.nonce = none) (ha : tx.fromAddress C = .ok a) : Indexed C (m.insert tx id a now) := by
  refine ⟨?_, ?_⟩
  · intro id' e he
    rw [lookup_insert] at he
    split at he
    · rename_i heq
      cases he
      refine ⟨a, ha, ?_⟩
      rw [idAt_insert, if_pos ⟨rfl, rfl⟩, heq]
    · obtain ⟨a', ha', hid⟩ := h.entry id' e he
      refine ⟨a', ha', ?_⟩
      rw [idAt_insert, if_neg, hid]
      intro heq
      rw [heq.1, heq.2, hfree] at hid
      cases hid
  · intro a' n id' hid
    rw [idAt_insert] at hid
    split at hid
    · rename_i heq
      cases hid
      exact ⟨_, by rw [lookup_insert, if_pos rfl], by rw [heq.1]; exact ha, heq.2.symm⟩
    · obtain ⟨e, he, ha', hn⟩ := h.slot a' n id' hid
      refine ⟨e, ?_, ha', hn⟩
      rw [lookup_insert, if_neg, he]
      intro heq
      rw [heq] at he
      exact hfresh (Finmap.mem_of_lookup_eq_some he)

/-! ## Slots -/

theorem slot_insert (h : Indexed C m) (now : Int64) (hfresh : id ∉ m.entries) (a' : Bytes)
    (n : UInt64) : (m.insert tx id a now).slot a' n = if a' = a ∧ n = tx.nonce then some tx else m.slot a' n := by
  unfold Mempool.slot
  rw [idAt_insert]
  split
  · rw [Option.bind_some, lookup_insert, if_pos rfl]
    rfl
  · cases hid : m.idAt a' n with
    | none => rfl
    | some id' =>
      obtain ⟨e, he, -, -⟩ := h.slot a' n id' hid
      rw [Option.bind_some, Option.bind_some, lookup_insert, if_neg]
      intro heq
      rw [heq] at he
      exact hfresh (Finmap.mem_of_lookup_eq_some he)

theorem slot_removeMany (h : Indexed C m) (ids : List Bytes) (a : Bytes) (n : UInt64) :
    (m.removeMany C ids).slot a n = if ∃ id ∈ ids, m.idAt a n = some id then none else m.slot a n := by
  unfold Mempool.slot
  rw [idAt_removeMany h]
  split
  · rfl
  · rename_i hout
    cases hid : m.idAt a n with
    | none => rfl
    | some id =>
      rw [Option.bind_some, Option.bind_some, lookup_removeMany, if_neg]
      exact fun hmem => hout ⟨id, hmem, hid⟩

theorem mem_pendingOf : tx ∈ m.pendingOf C a ↔ ∃ id e, m.entries.lookup id = some e ∧ e.tx.fromAddress C = .ok a ∧ e.tx = tx := by
  unfold Mempool.pendingOf
  rw [Multiset.mem_map]
  constructor
  · intro h
    obtain ⟨⟨id, e⟩, hmem, heq⟩ := h
    obtain ⟨hin, ha⟩ := Multiset.mem_filter.mp hmem
    exact ⟨id, e, Finmap.lookup_eq_some_iff.mpr hin, ha, heq⟩
  · intro h
    obtain ⟨id, e, he, ha, heq⟩ := h
    exact ⟨⟨id, e⟩, Multiset.mem_filter.mpr ⟨Finmap.lookup_eq_some_iff.mp he, ha⟩, heq⟩

theorem slot_eq_some_iff (h : Indexed C m) : m.slot a n = some tx ↔ tx ∈ m.pendingOf C a ∧ tx.nonce = n := by
  rw [mem_pendingOf]
  constructor
  · intro hslot
    obtain ⟨id, hid, hslot⟩ := Option.bind_eq_some_iff.mp hslot
    obtain ⟨e, he, rfl⟩ := Option.map_eq_some_iff.mp hslot
    obtain ⟨e', he', ha, hn⟩ := h.slot a n id hid
    cases he.symm.trans he'
    exact ⟨⟨id, e, he, ha, rfl⟩, hn⟩
  · intro hpending
    obtain ⟨⟨id, e, he, ha, rfl⟩, hn⟩ := hpending
    obtain ⟨a', ha', hid⟩ := h.entry id e he
    cases ha.symm.trans ha'
    unfold Mempool.slot
    rw [← hn, hid, Option.bind_some, he]
    rfl

theorem nodup_pendingOf (h : Indexed C m) (a : Bytes) : (m.pendingOf C a).Nodup := by
  refine Multiset.Nodup.map_on ?_ (m.entries.nodup_entries.filter _)
  intro x hx y hy heq
  obtain ⟨hx, hxa⟩ := Multiset.mem_filter.mp hx
  obtain ⟨hy, hya⟩ := Multiset.mem_filter.mp hy
  obtain ⟨id, e⟩ := x
  obtain ⟨id', e'⟩ := y
  have he := Finmap.lookup_eq_some_iff.mpr hx
  have he' := Finmap.lookup_eq_some_iff.mpr hy
  obtain ⟨b, hb, hid⟩ := h.entry id e he
  obtain ⟨b', hb', hid'⟩ := h.entry id' e' he'
  simp only at heq hxa hya
  rw [← heq] at hb' hid'
  cases hb.symm.trans hb'
  cases hid.symm.trans hid'
  cases he.symm.trans he'
  rfl

/-! ## Evicting -/

/-- One round of the loop, with its three tests as one. -/
theorem evictDependents_cons (C : Crypto) (sender : Bytes) (nonce : UInt64) (id : Bytes) (e : MempoolEntry)
    (range : List (Bytes × MempoolEntry)) (m : Mempool) :
    evictDependents C sender nonce ((id, e) :: range) m = evictDependents C sender nonce range
      (if id ∈ m.entries ∧ e.tx.fromAddress C = .ok sender ∧ nonce < e.tx.nonce then m.remove C id else m) := by
  by_cases hin : id ∈ m.entries
  · cases haddr : e.tx.fromAddress C <;> simp [evictDependents, hin, haddr]
  · simp [evictDependents, hin]

theorem evictDependents_eq (C : Crypto) (sender : Bytes) (nonce : UInt64) (range : List (Bytes × MempoolEntry)) (m : Mempool) :
    ∃ ids, evictDependents C sender nonce range m = m.removeMany C ids ∧
      ∀ id, id ∈ ids ↔ id ∈ m.entries ∧ ∃ e, (id, e) ∈ range ∧ e.tx.fromAddress C = .ok sender ∧ nonce < e.tx.nonce := by
  induction range generalizing m with
  | nil => exact ⟨[], rfl, by simp⟩
  | cons x rest ih =>
    obtain ⟨id, e⟩ := x
    rw [evictDependents_cons]
    split
    · rename_i hlater
      obtain ⟨ids, heq, hmem⟩ := ih (m.remove C id)
      refine ⟨id :: ids, heq, fun id' => ?_⟩
      rw [mem_cons, hmem, mem_remove]
      by_cases hsame : id' = id
      · simp [hsame, hlater]
      · simp [hsame]
    · rename_i hnot
      obtain ⟨ids, heq, hmem⟩ := ih m
      refine ⟨ids, heq, fun id' => ?_⟩
      rw [hmem]
      refine and_congr_right fun hin => ?_
      by_cases hsame : id' = id
      · subst hsame
        simp [or_and_right, exists_or, not_and.mp hnot hin]
      · simp [hsame]

theorem evictWithDependents_eq (C : Crypto) (m : Mempool) (range : List (Bytes × MempoolEntry)) (txid : Bytes) :
    ∃ ids, m.evictWithDependents C range txid = m.removeMany C ids := by
  unfold Mempool.evictWithDependents
  split
  · exact ⟨[], rfl⟩
  · simp only
    split
    · exact ⟨[txid], rfl⟩
    · rename_i sender _
      obtain ⟨ids, heq, -⟩ := evictDependents_eq C sender _ range (m.remove C txid)
      exact ⟨txid :: ids, heq⟩

theorem evictWithDependents_from (h : Indexed C m) {range : List (Bytes × MempoolEntry)} (hrange : GoMap.IsRange m.entries range)
    {txid : Bytes} {victim : MempoolEntry} (hvictim : m.entries.lookup txid = some victim) (ha : victim.tx.fromAddress C = .ok a) :
    ∃ ids, m.evictWithDependents C range txid = m.removeMany C ids ∧
      ∀ id, id ∈ ids ↔ ∃ n, victim.tx.nonce ≤ n ∧ m.idAt a n = some id := by
  obtain ⟨ids, heq, hmem⟩ := evictDependents_eq C a victim.tx.nonce range (m.remove C txid)
  refine ⟨txid :: ids, ?_, ?_⟩
  · unfold Mempool.evictWithDependents
    simp only [hvictim, ha]
    exact heq
  · intro id
    rw [mem_cons, hmem, mem_remove]
    constructor
    · intro hid
      rcases hid with rfl | ⟨-, e, hin, he, hlt⟩
      · obtain ⟨a', ha', hid⟩ := h.entry id victim hvictim
        cases ha.symm.trans ha'
        exact ⟨victim.tx.nonce, UInt64.le_refl _, hid⟩
      · obtain ⟨a', ha', hid⟩ := h.entry id e ((GoMap.mem_range_iff hrange).mp hin)
        cases he.symm.trans ha'
        exact ⟨e.tx.nonce, UInt64.le_of_lt hlt, hid⟩
    · intro hid
      obtain ⟨n, hle, hid⟩ := hid
      obtain ⟨e, he, ha', rfl⟩ := h.slot a n id hid
      by_cases hsame : id = txid
      · exact Or.inl hsame
      · refine Or.inr ⟨⟨hsame, Finmap.mem_of_lookup_eq_some he⟩, e, (GoMap.mem_range_iff hrange).mpr he, ha', ?_⟩
        refine UInt64.lt_of_le_of_ne hle ?_
        intro hnonce
        -- two entries of one sender with one nonce are one entry
        obtain ⟨a', ha'', hid'⟩ := h.entry txid victim hvictim
        cases ha.symm.trans ha''
        rw [hnonce, hid] at hid'
        exact hsame (Option.some.inj hid')

theorem evictLater_eq (h : Indexed C m) (a : Bytes) (nonce : UInt64) (range : List (UInt64 × Bytes)) (evicted : List Bytes) :
    ∃ ids, evictLater C a nonce range m evicted = (evicted ++ ids, m.removeMany C ids) ∧
      ∀ id, id ∈ ids ↔ ∃ n, (n, id) ∈ range ∧ m.idAt a n = some id ∧ nonce < n := by
  induction range generalizing m evicted with
  | nil => exact ⟨[], by simp [evictLater, Mempool.removeMany], by simp⟩
  | cons x rest ih =>
    obtain ⟨n, txid⟩ := x
    unfold evictLater
    split
    · rename_i hthere
      obtain ⟨ids, heq, hmem⟩ := ih (indexed_remove h txid) (evicted ++ [txid])
      refine ⟨txid :: ids, by rw [heq, append_assoc]; rfl, fun id => ?_⟩
      simp only [mem_cons, hmem, idAt_remove_eq_some h]
      by_cases hsame : id = txid
      · simp only [hsame, true_or, true_iff]
        exact ⟨n, .inl rfl, hthere⟩
      · simp [hsame]
    · rename_i hnot
      obtain ⟨ids, heq, hmem⟩ := ih h evicted
      refine ⟨ids, heq, fun id => ?_⟩
      simp only [hmem, mem_cons, or_and_right, exists_or]
      refine (or_iff_right ?_).symm
      rintro ⟨n', heq', hid⟩
      cases heq'
      exact hnot hid

theorem mem_range_idAt {range : List (UInt64 × Bytes)} (h : GoMap.IsRange ((m.bySenderNonce.lookup a).getD ∅) range)
    : (n, id) ∈ range ↔ m.idAt a n = some id := by
  rw [GoMap.mem_range_iff h]
  unfold Mempool.idAt
  cases m.bySenderNonce.lookup a with
  | none => simp
  | some byNonce => rfl

theorem evictBySenderNonce_eq (h : Indexed C m) {range : List (UInt64 × Bytes)}
    (hrange : GoMap.IsRange ((m.bySenderNonce.lookup a).getD ∅) range) (nonce : UInt64) :
    ∃ ids, m.evictBySenderNonce C range a nonce = (ids, m.removeMany C ids) ∧
      ∀ id, id ∈ ids ↔ ∃ n, nonce ≤ n ∧ m.idAt a n = some id := by
  unfold Mempool.evictBySenderNonce
  cases hid : m.idAt a nonce with
  | none =>
    obtain ⟨ids, heq, hmem⟩ := evictLater_eq h a nonce range []
    refine ⟨ids, heq, ?_⟩
    intro id
    rw [hmem]
    constructor
    · intro hin
      obtain ⟨n, -, hidn, hlt⟩ := hin
      exact ⟨n, UInt64.le_of_lt hlt, hidn⟩
    · intro hin
      obtain ⟨n, hle, hidn⟩ := hin
      refine ⟨n, (mem_range_idAt hrange).mpr hidn, hidn, UInt64.lt_of_le_of_ne hle ?_⟩
      intro heq'
      rw [← heq', hid] at hidn
      cases hidn
  | some txid =>
    obtain ⟨ids, heq, hmem⟩ := evictLater_eq (indexed_remove h txid) a nonce range [txid]
    refine ⟨txid :: ids, heq, fun id => ?_⟩
    simp only [mem_cons, hmem, mem_range_idAt hrange, idAt_remove_eq_some h]
    constructor
    · intro hin
      rcases hin with rfl | ⟨n, hidn, -, hlt⟩
      · exact ⟨nonce, UInt64.le_refl _, hid⟩
      · exact ⟨n, UInt64.le_of_lt hlt, hidn⟩
    · intro hin
      obtain ⟨n, hle, hidn⟩ := hin
      by_cases hsame : id = txid
      · exact Or.inl hsame
      · refine Or.inr ⟨n, hidn, ⟨hsame, hidn⟩, UInt64.lt_of_le_of_ne hle ?_⟩
        rintro rfl
        exact hsame (Option.some.inj (hidn.symm.trans hid))

theorem evicted_iff (h : Indexed C m)
    (hids : ∀ id, id ∈ ids ↔ ∃ n, nonce ≤ n ∧ m.idAt a n = some id) {a' : Bytes} (hid : m.idAt a' n = some id) :
    (∃ id' ∈ ids, m.idAt a' n = some id') ↔ a' = a ∧ nonce ≤ n := by
  rw [hid]
  constructor
  · intro hex
    obtain ⟨id', hmem, heq⟩ := hex
    cases heq
    obtain ⟨n', hle, hid'⟩ := (hids id).mp hmem
    obtain ⟨e, he, ha, hn⟩ := h.slot a' n id hid
    obtain ⟨e', he', ha', hn'⟩ := h.slot a n' id hid'
    cases he.symm.trans he'
    rw [← hn, hn']
    exact ⟨Except.ok.inj (ha.symm.trans ha'), hle⟩
  · intro heq
    exact ⟨id, (hids id).mpr ⟨n, heq.2, by rw [← heq.1]; exact hid⟩, rfl⟩

theorem idAt_evict (h : Indexed C m) (hids : ∀ id, id ∈ ids ↔ ∃ n, nonce ≤ n ∧ m.idAt a n = some id) (a' : Bytes) (n : UInt64) :
    (m.removeMany C ids).idAt a' n = if a' = a ∧ nonce ≤ n then none else m.idAt a' n := by
  rw [idAt_removeMany h]
  cases hid : m.idAt a' n with
  | none => simp
  | some id =>
    have hiff := evicted_iff h hids hid
    rw [hid] at hiff
    simp only [hiff]

theorem slot_evict (h : Indexed C m) (hids : ∀ id, id ∈ ids ↔ ∃ n, nonce ≤ n ∧ m.idAt a n = some id) (a' : Bytes) (n : UInt64) :
    (m.removeMany C ids).slot a' n = if a' = a ∧ nonce ≤ n then none else m.slot a' n := by
  rw [slot_removeMany h]
  cases hid : m.idAt a' n with
  | none =>
    have hslot : m.slot a' n = none := by
      unfold Mempool.slot
      rw [hid]
      rfl
    simp [hslot]
  | some id =>
    have hiff := evicted_iff h hids hid
    rw [hid] at hiff
    simp only [hiff]

theorem idAt_evict_self (h : Indexed C m)
    (hids : ∀ id, id ∈ ids ↔ ∃ n, nonce ≤ n ∧ m.idAt a n = some id) : (m.removeMany C ids).idAt a nonce = none := by
  rw [idAt_evict h hids, if_pos ⟨rfl, UInt64.le_refl _⟩]

/-! ## Adding and replacing -/

/-- `AddWithTxID` takes a transaction in: it is no spam, its id is new and its slot free, and a pool without room has an entry to evict. -/
structure Takes (C : Crypto) (ai : Option (Result (Int × String))) (range : List (Bytes × MempoolEntry)) (m : Mempool)
    (tx : Transaction) (txid : Bytes) (p : ConsensusParams) (height : UInt64) (id a : Bytes) : Prop where
  resolved : resolveTxID C tx txid p height = .ok id
  sender : tx.fromAddress C = .ok a
  spam : checkSpam C ai tx = .ok ()
  fresh : id ∉ m.entries
  free : m.idAt a tx.nonce = none
  victim : m.HasRoom ∨ lowestFee range ≠ []

theorem addWithTxID_of_takes {ai : Option (Result (Int × String))} {range : List (Bytes × MempoolEntry)}
    {txid : Bytes} {p : ConsensusParams} {height : UInt64} (h : Takes C ai range m tx txid p height id a) (now : Int64) :
    (m.addWithTxID C ai range now tx txid p height).2 =
      (if m.HasRoom then m else m.evictWithDependents C range (lowestFee range)).insert tx id a now := by
  have hbefore : (do
      let txid ← resolveTxID C tx txid p height
      let fromAddr ← tx.fromAddress C
      checkSpam C ai tx
      .ok (txid, fromAddr) : Result (Bytes × Bytes)) = .ok (id, a) := by
    rw [h.resolved, h.sender, h.spam]
    rfl
  unfold Mempool.addWithTxID
  simp only [hbefore, if_neg h.fresh, h.free]
  by_cases hroom : m.HasRoom
  · rw [if_pos hroom, if_neg (Int.not_le.mpr hroom)]
  · rw [if_neg hroom, if_pos (Int.not_lt.mp hroom), if_neg (h.victim.resolve_left hroom)]

section

variable (C : Crypto) (ai : Option (Result (Int × String))) (range : List (Bytes × MempoolEntry)) (now : Int64) (m : Mempool)
  (tx : Transaction) (txid : Bytes) (p : ConsensusParams) (height : UInt64)

theorem addWithTxID_eq_or_takes :
    (m.addWithTxID C ai range now tx txid p height).2 = m ∨ ∃ id a, Takes C ai range m tx txid p height id a := by
  unfold Mempool.addWithTxID
  simp only
  split
  · exact Or.inl rfl
  · rename_i id a hbefore
    obtain ⟨id', hid, hbefore⟩ := bind_eq_ok.mp hbefore
    obtain ⟨a', ha, hbefore⟩ := bind_eq_ok.mp hbefore
    obtain ⟨_, hspam, hbefore⟩ := bind_eq_ok.mp hbefore
    obtain ⟨rfl, rfl⟩ := Prod.mk.inj (Except.ok.inj hbefore)
    split
    · exact Or.inl rfl
    · rename_i hfresh
      split
      · exact Or.inl rfl
      · rename_i hfree
        split
        · split
          · exact Or.inl rfl
          · rename_i hlowest
            exact Or.inr ⟨id', a', hid, ha, hspam, hfresh, hfree, Or.inr hlowest⟩
        · rename_i hroom
          exact Or.inr ⟨id', a', hid, ha, hspam, hfresh, hfree, Or.inl (Int.not_le.mp hroom)⟩

theorem addWithTxID_cases :
    (m.addWithTxID C ai range now tx txid p height).2 = m ∨
    ∃ a id ids, tx.fromAddress C = .ok a ∧ id ∉ m.entries ∧ m.idAt a tx.nonce = none ∧
      (m.HasRoom → ids = []) ∧
      (m.addWithTxID C ai range now tx txid p height).2 = (m.removeMany C ids).insert tx id a now := by
  rcases addWithTxID_eq_or_takes C ai range now m tx txid p height with hnone | ⟨id, a, htakes⟩
  · exact Or.inl hnone
  · rw [addWithTxID_of_takes htakes]
    by_cases hroom : m.HasRoom
    · exact Or.inr ⟨a, id, [], htakes.sender, htakes.fresh, htakes.free, fun _ => rfl, by rw [if_pos hroom]; rfl⟩
    · obtain ⟨ids, heq⟩ := evictWithDependents_eq C m range (lowestFee range)
      exact Or.inr ⟨a, id, ids, htakes.sender, htakes.fresh, htakes.free, fun h => absurd h hroom, by rw [if_neg hroom, heq]⟩

end

theorem replaceByFee_cases (h : Indexed C m) (range : List (UInt64 × Bytes)) (now : Int64) (tx : Transaction) (txid : Bytes)
    (p : ConsensusParams) (height : UInt64)
    (hrange : ∀ a, tx.fromAddress C = .ok a → GoMap.IsRange ((m.bySenderNonce.lookup a).getD ∅) range) :
    (m.replaceByFeeWithTxID C range now tx txid p height).pool = m ∨
    ∃ a ids, tx.fromAddress C = .ok a ∧ (∃ old, m.slot a tx.nonce = some old) ∧
      (∀ id, id ∈ ids ↔ ∃ n, tx.nonce ≤ n ∧ m.idAt a n = some id) ∧
      ((m.replaceByFeeWithTxID C range now tx txid p height).pool = m.removeMany C ids ∨
        ∃ id, resolveTxID C tx txid p height = .ok id ∧ id ∉ (m.removeMany C ids).entries ∧
          (m.replaceByFeeWithTxID C range now tx txid p height).pool = (m.removeMany C ids).insert tx id a now) := by
  unfold Mempool.replaceByFeeWithTxID
  simp only
  split
  · exact Or.inl rfl
  · rename_i id a hbefore
    obtain ⟨id', hid', hbefore⟩ := bind_eq_ok.mp hbefore
    obtain ⟨a', ha, hbefore⟩ := bind_eq_ok.mp hbefore
    obtain ⟨rfl, rfl⟩ := Prod.mk.inj (Except.ok.inj hbefore)
    split
    · exact Or.inl rfl
    · rename_i existingID hid
      split
      · exact Or.inl rfl
      · obtain ⟨ids, heq, hids⟩ := evictBySenderNonce_eq h (hrange a' ha) tx.nonce
        have hold : ∃ old, m.slot a' tx.nonce = some old := by
          obtain ⟨e, he, -, -⟩ := h.slot a' tx.nonce existingID hid
          refine ⟨e.tx, ?_⟩
          unfold Mempool.slot
          rw [hid, Option.bind_some, he]
          rfl
        refine Or.inr ⟨a', ids, ha, hold, hids, ?_⟩
        rw [heq]
        split
        · exact Or.inl rfl
        · rename_i hfresh
          exact Or.inr ⟨id', hid', hfresh, rfl⟩

end PoolAux

end NeoCoin
