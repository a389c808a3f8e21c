import NeoCoin.Internal.Cache
import NeoCoin.Lib.Lru

/-!
# The caches against what they are for

The elements of the list with their entries, in order, represent a cache (`LRU.Rep`), and each operation is specified by what it does to
them. One call at a time, the cache is the reference of `Lib/Lru` (`lru_refines`).
-/

namespace NeoCoin.Internal

open GoLib List

variable {K V : Type*} [DecidableEq K]

namespace LRU

variable {c : LRU K V} {cells as bs : List (Nat × K × V)} {x : Nat × K × V} {e : Nat} {k : K} {v old : V}

/-! ## The elements and their entries -/

/-- The elements of the list with their entries, in order. -/
structure Rep (c : LRU K V) (cells : List (Nat × K × V)) : Prop where
  ring : c.lruList.Ring (cells.map Prod.fst)
  len : c.lruList.len = cells.length
  value : ∀ x ∈ cells, c.lruList.value x.1 = some x.2
  owned : ∀ x ∈ cells, c.lruList.owned x.1 = true
  items : ∀ k e, c.items.lookup k = some e ↔ ∃ v, (e, k, v) ∈ cells
  /-- Every element that points to the list, also one that `Clear` dropped. -/
  whole : ∀ e, c.lruList.owned e = true → e ≠ 0 ∧ e ≤ c.lruList.made ∧ c.lruList.next e ≠ none ∧ c.lruList.prev e ≠ none

theorem rep_new (maxItems : Int64) : Rep (newLRU maxItems : LRU K V) [] where
  ring := LinkedList.ring_new
  len := rfl
  value := nofun
  owned := nofun
  items k e := by simp [newLRU]
  whole e h := absurd h nofun

omit [DecidableEq K] in
theorem maxItems_new_pos (maxItems : Int64) : 0 < (newLRU maxItems : LRU K V).maxItems := by
  unfold newLRU
  split
  · simp only
    omega
  · rename_i h
    exact Int64.lt_iff_toInt_lt.mp (Int64.not_le.mp h)

theorem Rep.nodup_elements (h : Rep c cells) : (cells.map Prod.fst).Nodup := (nodup_cons.mp h.ring.nodup).2

theorem Rep.nodup_keys (h : Rep c cells) : ((cells.map Prod.snd).map Prod.fst).Nodup := by
  rw [map_map]
  refine h.nodup_elements.of_map.map_on ?_
  rintro ⟨e, k, v⟩ hx ⟨e', k', v'⟩ hy (rfl : k = k')
  have he : e = e' := Option.some.inj (((h.items k e).mpr ⟨v, hx⟩).symm.trans ((h.items k e').mpr ⟨v', hy⟩))
  exact inj_on_of_nodup_map h.nodup_elements hx hy he

theorem Rep.le_made (h : Rep c cells) : ∀ e ∈ cells.map Prod.fst, e ≤ c.lruList.made := by
  intro e he
  obtain ⟨x, hx, rfl⟩ := mem_map.mp he
  exact (h.whole x.1 (h.owned x hx)).2.1

theorem Rep.exists_split (h : Rep c cells) (hitem : c.items.lookup k = some e) : ∃ v as bs, cells = as ++ (e, k, v) :: bs := by
  obtain ⟨v, hv⟩ := (h.items k e).mp hitem
  obtain ⟨as, bs, hsplit⟩ := append_of_mem hv
  exact ⟨v, as, bs, hsplit⟩

theorem Rep.ne_of_mem (h : Rep c (as ++ x :: bs)) {y : Nat × K × V} (hy : y ∈ as ++ bs) : y.1 ≠ x.1 := by
  have hnodup := h.nodup_elements
  rw [map_append, map_cons, nodup_middle, nodup_cons, ← map_append] at hnodup
  exact fun heq => hnodup.1 (mem_map.mpr ⟨y, hy, heq⟩)

theorem Rep.key_ne_of_mem (h : Rep c (as ++ x :: bs)) {y : Nat × K × V} (hy : y ∈ as ++ bs) : y.2.1 ≠ x.2.1 := by
  have hnodup := h.nodup_keys
  rw [map_map, map_append, map_cons, nodup_middle, nodup_cons, ← map_append] at hnodup
  exact fun heq => hnodup.1 (mem_map.mpr ⟨y, hy, heq⟩)

def Stored (c : LRU K V) (e : Nat) : Prop := ∃ k, c.items.lookup k = some e

theorem Rep.mem_elements_iff (h : Rep c cells) : e ∈ cells.map Prod.fst ↔ c.Stored e := by
  rw [mem_map]
  constructor
  · rintro ⟨⟨e, k, v⟩, hx, rfl⟩
    exact ⟨k, (h.items k e).mpr ⟨v, hx⟩⟩
  · rintro ⟨k, hk⟩
    obtain ⟨v, hv⟩ := (h.items k e).mp hk
    exact ⟨_, hv, rfl⟩

/-- What every operation but `Clear` does to the elements there were: one that leaves the map does not point to the list any more, and
one that points to the list without being in the map stays as it is. -/
structure Keeps (c c' : LRU K V) : Prop where
  made : c.lruList.made ≤ c'.lruList.made
  released : ∀ e ≤ c.lruList.made, c.Stored e → c'.Stored e ∨ c'.lruList.owned e = false
  owned : ∀ e ≤ c.lruList.made, c'.lruList.owned e = true → c.lruList.owned e = true
  dropped : ∀ e ≤ c.lruList.made, c.lruList.owned e = true → ¬c.Stored e → c'.lruList.owned e = true ∧ ¬c'.Stored e

theorem Keeps.trans {c₁ c₂ : LRU K V} (h : c.Keeps c₁) (h' : c₁.Keeps c₂) : c.Keeps c₂ where
  made := h.made.trans h'.made
  released e he hstored := by
    rcases h.released e he hstored with hstored | howned
    · exact h'.released e (he.trans h.made) hstored
    · refine Or.inr (Bool.eq_false_of_not_eq_true fun howned' => ?_)
      exact absurd (howned.symm.trans (h'.owned e (he.trans h.made) howned')) nofun
  owned e he howned := h.owned e he (h'.owned e (he.trans h.made) howned)
  dropped e he howned hstored := by
    obtain ⟨howned, hstored⟩ := h.dropped e he howned hstored
    exact h'.dropped e (he.trans h.made) howned hstored

theorem keeps_of_eq {c' : LRU K V} (hitems : c'.items = c.items) (howned : c'.lruList.owned = c.lruList.owned)
    (hmade : c'.lruList.made = c.lruList.made) : c.Keeps c' where
  made := hmade.ge
  released e _ hstored := Or.inl (by rwa [Stored, hitems])
  owned e _ he := by rwa [howned] at he
  dropped e _ he hstored := ⟨by rwa [howned], by rwa [Stored, hitems]⟩

/-! ## What the list operations do to the cells -/

/-- `MoveToFront` puts the cell of a cached key in front of the others. -/
theorem Rep.move (h : Rep c (as ++ x :: bs)) : ∃ list, c.lruList.moveToFront x.1 = some list ∧
    Rep { c with lruList := list } (x :: (as ++ bs)) ∧ c.Keeps { c with lruList := list } := by
  have hring := h.ring
  rw [map_append, map_cons] at hring
  obtain ⟨list, hmove, hring', hsame⟩ := hring.moveToFront (h.owned x (mem_append_right _ (.head _)))
  have hperm : (x :: (as ++ bs)).Perm (as ++ x :: bs) := perm_middle.symm
  refine ⟨list, hmove, ⟨?_, ?_, ?_, ?_, ?_, ?_⟩, keeps_of_eq rfl hsame.owned hsame.made⟩
  · rw [map_cons, map_append]
    exact hring'
  · rw [hperm.length_eq]
    exact hsame.len.trans h.len
  · intro y hy
    exact (congrFun hsame.value y.1).trans (h.value y (hperm.mem_iff.mp hy))
  · intro y hy
    exact (congrFun hsame.owned y.1).trans (h.owned y (hperm.mem_iff.mp hy))
  · intro k e
    rw [h.items k e]
    exact exists_congr fun v => hperm.mem_iff.symm
  · intro e he
    obtain ⟨h0, hmade, hnext, hprev⟩ := h.whole e ((congrFun hsame.owned e).symm.trans he)
    exact ⟨h0, hmade.trans_eq hsame.made.symm, hsame.next e hnext, hsame.prev e hprev⟩

theorem Rep.setValue (h : Rep c ((e, k, old) :: cells)) (v : V) :
    Rep { c with lruList := c.lruList.setValue e (k, v) } ((e, k, v) :: cells) := by
  have hne : ∀ y ∈ cells, y.1 ≠ e := fun y hy => @Rep.ne_of_mem _ _ _ c [] cells (e, k, old) h y hy
  refine ⟨h.ring.congr (fun _ _ => rfl) (fun _ _ => rfl), h.len, ?_, ?_, ?_, h.whole⟩
  · intro y hy
    rcases mem_cons.mp hy with rfl | hy
    · simp [LinkedList.setValue]
    · simp only [LinkedList.setValue]
      rw [Function.update_of_ne (hne y hy)]
      exact h.value y (.tail _ hy)
  · intro y hy
    rcases mem_cons.mp hy with rfl | hy
    · exact h.owned (e, k, old) (.head _)
    · exact h.owned y (.tail _ hy)
  · intro k' e'
    rw [h.items k' e']
    simp only [mem_cons, Prod.mk.injEq, exists_or, exists_and_left, exists_eq, and_true]

/-- `Remove` and `delete` take the cell of a cached key out. -/
theorem Rep.remove (h : Rep c (as ++ x :: bs)) : ∃ list, c.lruList.remove x.1 = some list ∧
    Rep { c with lruList := list, items := c.items.delete x.2.1 } (as ++ bs) ∧
    c.Keeps { c with lruList := list, items := c.items.delete x.2.1 } := by
  have hring := h.ring
  rw [map_append, map_cons] at hring
  obtain ⟨list, hremove, hring', howned, hvalue, hlen, hmade, hkeeps⟩ :=
    hring.remove (h.owned x (mem_append_right _ (.head _)))
  have hold : ∀ {y}, y ∈ as ++ bs → y ∈ as ++ x :: bs := fun hy =>
    perm_middle.mem_iff.mpr (.tail _ hy)
  have hitem : c.items.lookup x.2.1 = some x.1 := (h.items _ _).mpr ⟨x.2.2, mem_append_right _ (.head _)⟩
  have hkept : ∀ e, e ≠ x.1 → list.owned e = c.lruList.owned e := fun e he => by rw [howned, Function.update_of_ne he]
  have hgone : list.owned x.1 = false := by rw [howned, Function.update_self]
  refine ⟨list, hremove, ⟨?_, ?_, ?_, ?_, ?_, ?_⟩, ⟨hmade.ge, ?_, ?_, ?_⟩⟩
  · rw [map_append]
    exact hring'
  · simp only
    rw [hlen, h.len, length_append, length_append, length_cons]
    omega
  · intro y hy
    exact (congrFun hvalue y.1).trans (h.value y (hold hy))
  · exact fun y hy => (hkept y.1 (h.ne_of_mem hy)).trans (h.owned y (hold hy))
  · intro k e
    rw [GoMap.lookup_delete_eq_some_iff, h.items k e]
    constructor
    · rintro ⟨⟨v, hv⟩, hne⟩
      rcases mem_cons.mp (perm_middle.mem_iff.mp hv) with rfl | hv
      · exact absurd rfl hne
      · exact ⟨v, hv⟩
    · rintro ⟨v, hv⟩
      exact ⟨⟨v, hold hv⟩, h.key_ne_of_mem hv⟩
  · intro e he
    have hne : e ≠ x.1 := by
      rintro rfl
      exact absurd (hgone.symm.trans he) nofun
    obtain ⟨h0, hle, hnext, hprev⟩ := h.whole e ((hkept e hne).symm.trans he)
    exact ⟨h0, hle.trans_eq hmade.symm, (hkeeps e hne).1 hnext, (hkeeps e hne).2 hprev⟩
  · rintro e - ⟨k, hk⟩
    by_cases hkey : k = x.2.1
    · subst hkey
      cases hk.symm.trans hitem
      exact Or.inr hgone
    · exact Or.inl ⟨k, (GoMap.lookup_delete_of_ne _ hkey).trans hk⟩
  · intro e _ he
    have hne : e ≠ x.1 := by
      rintro rfl
      exact absurd (hgone.symm.trans he) nofun
    exact (hkept e hne).symm.trans he
  · intro e _ he hstored
    have hne : e ≠ x.1 := fun heq => hstored (heq ▸ ⟨_, hitem⟩)
    refine ⟨(hkept e hne).trans he, ?_⟩
    rintro ⟨k, hk⟩
    exact hstored ⟨k, (GoMap.lookup_delete_eq_some_iff.mp hk).1⟩

/-- `PushFront` of a new key. -/
theorem Rep.push (h : Rep c cells) (hk : c.items.lookup k = none) (v : V) : ∃ el list, c.lruList.pushFront (k, v) = some (el, list) ∧
    Rep { c with lruList := list, items := c.items.set k el } ((el, k, v) :: cells) ∧
    c.Keeps { c with lruList := list, items := c.items.set k el } := by
  obtain ⟨list, hpush, hring, howned, hvalue, hlen, hmade, hkeeps, hnext, hprev⟩ := h.ring.pushFront h.le_made (k, v)
  have hne : ∀ y ∈ cells, y.1 ≠ c.lruList.made + 1 := by
    intro y hy
    have := h.le_made y.1 (mem_map_of_mem hy)
    omega
  have hother : ∀ {k' e}, c.items.lookup k' = some e → k' ≠ k := by
    rintro k' e he rfl
    exact absurd (hk.symm.trans he) nofun
  have hkept : ∀ e ≤ c.lruList.made, list.owned e = c.lruList.owned e := fun e he => by rw [howned, Function.update_of_ne (by omega)]
  refine ⟨_, list, hpush, ⟨hring, ?_, ?_, ?_, ?_, ?_⟩, ⟨hmade.ge.trans' (Nat.le_succ _), ?_, ?_, ?_⟩⟩
  · simp only
    rw [hlen, h.len, length_cons]
    omega
  · intro y hy
    rcases mem_cons.mp hy with rfl | hy
    · simp [hvalue]
    · rw [hvalue, Function.update_of_ne (hne y hy)]
      exact h.value y hy
  · intro y hy
    rcases mem_cons.mp hy with rfl | hy
    · simp [howned]
    · rw [howned, Function.update_of_ne (hne y hy)]
      exact h.owned y hy
  · intro k' e
    rw [GoMap.lookup_set]
    by_cases hk' : k' = k
    · subst hk'
      have hnone : ∀ e v, (e, k', v) ∉ cells := fun e v hv => absurd (hk.symm.trans ((h.items k' e).mpr ⟨v, hv⟩)) nofun
      rw [if_pos rfl]
      simp [hnone, eq_comm]
    · rw [if_neg hk', h.items k' e]
      simp [hk']
  · intro e he
    by_cases hnew : e = c.lruList.made + 1
    · subst hnew
      exact ⟨Nat.succ_ne_zero _, hmade.ge, hnext, hprev⟩
    · rw [howned, Function.update_of_ne hnew] at he
      obtain ⟨h0, hle, hnext', hprev'⟩ := h.whole e he
      exact ⟨h0, hle.trans (hmade.ge.trans' (Nat.le_succ _)), (hkeeps e trivial).1 hnext', (hkeeps e trivial).2 hprev'⟩
  · rintro e - ⟨k', hk'⟩
    exact Or.inl ⟨k', (GoMap.lookup_set_of_ne _ _ (hother hk')).trans hk'⟩
  · exact fun e hle he => (hkept e hle).symm.trans he
  · intro e hle he hstored
    refine ⟨(hkept e hle).trans he, ?_⟩
    rintro ⟨k', hk'⟩
    simp only [GoMap.lookup_set] at hk'
    split at hk'
    · have := Option.some.inj hk'
      omega
    · exact hstored ⟨k', hk'⟩

/-! ## What the operations do to the cells -/

def room (c : LRU K V) (cells : List (Nat × K × V)) : List (Nat × K × V) :=
  if c.maxItems ≤ cells.length then cells.dropLast else cells

def evicts (c : LRU K V) (cells : List (Nat × K × V)) : List (K × V) :=
  if c.maxItems ≤ cells.length then (cells.getLast?.map Prod.snd).toList else []

theorem Rep.evictOldest (h : Rep c (cells ++ [x])) : ∃ c', c.evictOldest = some ([x.2], c') ∧ Rep c' cells ∧ c'.maxItems = c.maxItems ∧
    c'.items = c.items.delete x.2.1 ∧ c.Keeps c' := by
  have hback : c.lruList.back = some x.1 := by
    rw [h.ring.back (by rw [h.len, length_map]), map_append, map_singleton, List.getLast?_concat]
  have hvalue := h.value x (mem_append_right _ (mem_singleton_self x))
  obtain ⟨list, hremove, hrep, hkeeps⟩ := h.remove
  rw [append_nil] at hrep
  refine ⟨_, ?_, hrep, rfl, rfl, hkeeps⟩
  simp only [LRU.evictOldest, hback, hremove, hvalue]

theorem Rep.set_stored (h : Rep c (as ++ (e, k, old) :: bs)) (v : V) : ∃ c', c.set k v = some ([], c') ∧
    Rep c' ((e, k, v) :: (as ++ bs)) ∧ c'.maxItems = c.maxItems ∧ c.Keeps c' := by
  have hmem : (e, k, old) ∈ as ++ (e, k, old) :: bs := mem_append_right _ (.head _)
  have hitem := (h.items k e).mpr ⟨old, hmem⟩
  have hvalue := h.value _ hmem
  obtain ⟨list, hmove, hrep, hkeeps⟩ := h.move
  refine ⟨_, ?_, hrep.setValue v, rfl, hkeeps.trans (keeps_of_eq rfl rfl rfl)⟩
  simp only [LRU.set, hitem, hmove, hvalue]

theorem Rep.set_new (h : Rep c cells) (hk : c.items.lookup k = none) (hpos : 0 < c.maxItems) (v : V) :
    ∃ el c', c.set k v = some (c.evicts cells, c') ∧ Rep c' ((el, k, v) :: c.room cells) ∧ c'.maxItems = c.maxItems ∧ c.Keeps c' := by
  by_cases hfull : c.maxItems ≤ cells.length
  · -- there is a last cell, since there is room for one
    have hne : cells ≠ [] := by
      rintro rfl
      rw [length_nil] at hfull
      omega
    obtain ⟨init, x, rfl⟩ : ∃ init x, cells = init ++ [x] := ⟨_, _, (dropLast_append_getLast hne).symm⟩
    obtain ⟨c₁, hevict, hrep₁, hmax, hitems, hkeeps₁⟩ := h.evictOldest
    have hk₁ : c₁.items.lookup k = none := by
      rw [hitems, Option.eq_none_iff_forall_ne_some]
      intro e he
      exact absurd (hk.symm.trans (GoMap.lookup_delete_eq_some_iff.mp he).1) nofun
    obtain ⟨el, list, hpush, hrep, hkeeps⟩ := hrep₁.push hk₁ v
    refine ⟨el, { c₁ with lruList := list, items := c₁.items.set k el }, ?_, ?_, hmax, hkeeps₁.trans hkeeps⟩
    · have hge : c.lruList.len ≥ c.maxItems := by rw [h.len]; exact hfull
      simp only [LRU.set, hk, if_pos hge, hevict, hpush, evicts, if_pos hfull, List.getLast?_concat, Option.map_some, Option.toList_some]
    · rw [room, if_pos hfull, dropLast_concat]
      exact hrep
  · obtain ⟨el, list, hpush, hrep, hkeeps⟩ := h.push hk v
    refine ⟨el, { c with lruList := list, items := c.items.set k el }, ?_, ?_, rfl, hkeeps⟩
    · have hlt : ¬c.lruList.len ≥ c.maxItems := by rw [h.len]; exact hfull
      simp only [LRU.set, hk, if_neg hlt, hpush, evicts, if_neg hfull]
    · rw [room, if_neg hfull]
      exact hrep

theorem Rep.get_stored (h : Rep c (as ++ (e, k, v) :: bs)) : ∃ c', c.get k = some (some v, c') ∧ Rep c' ((e, k, v) :: (as ++ bs)) ∧
    c'.maxItems = c.maxItems := by
  have hitem := (h.items k e).mpr ⟨v, mem_append_right _ (.head _)⟩
  obtain ⟨list, hmove, hrep, -⟩ := h.move
  have hvalue : list.value e = some (k, v) := hrep.value _ (.head _)
  refine ⟨_, ?_, hrep, rfl⟩
  simp only [LRU.get, LRU.getLookup, hitem, LRU.getMove, hmove, Option.map_some, hvalue]

theorem get_missing (h : c.items.lookup k = none) : c.get k = some (none, c) := by
  simp only [LRU.get, LRU.getLookup, h]

theorem Rep.delete_stored (h : Rep c (as ++ (e, k, v) :: bs)) : ∃ c', c.delete k = some c' ∧ Rep c' (as ++ bs) ∧
    c'.maxItems = c.maxItems ∧ c.Keeps c' := by
  have hitem := (h.items k e).mpr ⟨v, mem_append_right _ (.head _)⟩
  obtain ⟨list, hremove, hrep, hkeeps⟩ := h.remove
  refine ⟨_, ?_, hrep, rfl, hkeeps⟩
  simp only [LRU.delete, hitem, hremove, Option.map_some]

theorem delete_missing (h : c.items.lookup k = none) : c.delete k = some c := by
  simp only [LRU.delete, h]

theorem Rep.clear (h : Rep c cells) : c.clear = some (cells.map Prod.snd, { c with items := ∅, lruList := c.lruList.init }) ∧
    Rep { c with items := ∅, lruList := c.lruList.init } [] := by
  have hlen : c.lruList.len = (cells.map Prod.fst).length := by rw [h.len, length_map]
  have howned : ∀ e ∈ cells.map Prod.fst, c.lruList.owned e = true := by
    intro e he
    obtain ⟨x, hx, rfl⟩ := mem_map.mp he
    exact h.owned x hx
  -- the elements of the ring are distinct numbers up to the last one made
  have hbound : (cells.map Prod.fst).length ≤ c.lruList.made := by
    have hsub : (0 :: cells.map Prod.fst) ⊆ List.range (c.lruList.made + 1) := by
      intro e he
      rw [mem_range]
      rcases mem_cons.mp he with rfl | he
      · omega
      · exact Nat.lt_succ_of_le (h.le_made e he)
    have hle := (h.ring.nodup.subperm hsub).length_le
    rw [length_cons, length_range] at hle
    omega
  have hvalues : (cells.map Prod.fst).mapM c.lruList.value = some (cells.map Prod.snd) := by
    have hall := h.value
    clear * - hall
    induction cells with
    | nil => rfl
    | cons x cells ih =>
      rw [map_cons, mapM_cons, hall x (.head _), ih fun y hy => hall y (.tail _ hy)]
      rfl
  refine ⟨?_, ⟨c.lruList.ring_init, rfl, nofun, nofun, ?_, ?_⟩⟩
  · simp only [LRU.clear, h.ring.elements howned hlen hbound, Option.bind_some, hvalues]
  · intro k e
    simp
  · intro e he
    obtain ⟨h0, hmade, hnext, hprev⟩ := h.whole e he
    exact ⟨h0, hmade, LinkedList.update_ne_none hnext, LinkedList.update_ne_none hprev⟩

/-! ## The reference -/

def stored (c : LRU K V) (k : K) : Option V := (c.items.lookup k).bind fun el => (c.lruList.value el).map Prod.snd

def Represents (c : LRU K V) (a : Lru K V) : Prop := (a.maxItems : Int) = c.maxItems ∧ ∃ cells, Rep c cells ∧ a.entries = cells.map Prod.snd

variable {a : Lru K V}

theorem Rep.stored_eq (h : Rep c cells) (ha : a.entries = cells.map Prod.snd) : c.stored = a.peek := by
  funext k
  refine Option.ext fun v => ?_
  rw [Lru.peek_eq_some_iff, ha, stored, Option.bind_eq_some_iff]
  constructor
  · rintro ⟨e, he, hv⟩
    obtain ⟨w, hw⟩ := (h.items k e).mp he
    rw [h.value _ hw, Option.map_some, Option.some.injEq] at hv
    exact mem_map.mpr ⟨_, hw, by rw [← hv]⟩
  · intro hv
    obtain ⟨⟨e, k', v'⟩, hx, heq⟩ := mem_map.mp hv
    cases heq
    exact ⟨e, (h.items _ e).mpr ⟨_, hx⟩, by rw [h.value _ hx, Option.map_some]⟩

theorem Rep.lookup_eq_none (h : Rep c cells) (ha : a.entries = cells.map Prod.snd) (hk : a.peek k = none) : c.items.lookup k = none := by
  rw [Option.eq_none_iff_forall_ne_some]
  intro e he
  obtain ⟨v, hv⟩ := (h.items k e).mp he
  refine Lru.peek_eq_none_iff.mp hk (mem_map.mpr ⟨(k, v), ?_, rfl⟩)
  rw [ha]
  exact mem_map.mpr ⟨_, hv, rfl⟩

theorem exists_cells (ha : a.entries = cells.map Prod.snd) (hk : a.peek k = some v) :
    ∃ e as bs, cells = as ++ (e, k, v) :: bs ∧ a.others k = (as ++ bs).map Prod.snd := by
  have hmem := Lru.peek_eq_some_iff.mp hk
  rw [ha] at hmem
  obtain ⟨⟨e, k', v'⟩, hx, heq⟩ := mem_map.mp hmem
  cases heq
  obtain ⟨as, bs, rfl⟩ := append_of_mem hx
  refine ⟨e, as, bs, rfl, ?_⟩
  rw [map_append, map_cons] at ha
  rw [Lru.others_eq ha, map_append]

def reference (a : Lru K V) : CacheCall K V → Option V × Lru K V
  | .set key val => (none, a.set key val)
  | .get key => a.get key
  | .delete key => (none, a.delete key)
  | .clear => (none, a.clear)

def referenceRun : List (CacheCall K V) → Lru K V → List (Option V) × Lru K V
  | [], a => ([], a)
  | call :: rest, a => ((reference a call).1 :: (referenceRun rest (reference a call).2).1, (referenceRun rest (reference a call).2).2)

theorem maxItems_reference (a : Lru K V) (call : CacheCall K V) : (reference a call).2.maxItems = a.maxItems := by
  cases call with
  | set k v => exact a.maxItems_set k v
  | get k => exact a.maxItems_get k
  | delete k => rfl
  | clear => rfl

theorem maxItems_referenceRun (a : Lru K V) (calls : List (CacheCall K V)) : (referenceRun calls a).2.maxItems = a.maxItems := by
  induction calls generalizing a with
  | nil => rfl
  | cons call rest ih => exact (ih _).trans (maxItems_reference a call)

/-- Each call does what the reference does. -/
theorem call_refines (h : c.Represents a) (call : CacheCall K V) :
    ∃ c', c.call call = some ((reference a call).1, c') ∧ c'.Represents (reference a call).2 := by
  obtain ⟨hmax, cells, hrep, ha⟩ := h
  have hpos : 0 < c.maxItems := by
    have := a.pos
    omega
  cases call with
  | set k v =>
    cases hk : a.peek k with
    | some old =>
      obtain ⟨e, as, bs, rfl, hothers⟩ := exists_cells ha hk
      obtain ⟨c', hset, hrep', hmax', -⟩ := hrep.set_stored v
      refine ⟨c', by simp only [LRU.call, hset, Option.map_some, reference], ?_, _, hrep', ?_⟩
      · rw [hmax', ← hmax, reference, Lru.maxItems_set]
      · rw [reference, Lru.entries_set_of_some v hk, hothers, map_cons]
    | none =>
      obtain ⟨el, c', hset, hrep', hmax', -⟩ := hrep.set_new (hrep.lookup_eq_none ha hk) hpos v
      refine ⟨c', by simp only [LRU.call, hset, Option.map_some, reference], ?_, _, hrep', ?_⟩
      · rw [hmax', ← hmax, reference, Lru.maxItems_set]
      · have hlen : a.entries.length = cells.length := by rw [ha, length_map]
        rw [reference, Lru.entries_set_of_none v hk, map_cons, Lru.evicted, LRU.room, hlen]
        by_cases hfull : a.maxItems ≤ cells.length
        · rw [if_pos hfull, if_pos (by omega), ha, map_dropLast]
        · rw [if_neg hfull, if_neg (by omega), ha]
  | get k =>
    cases hk : a.peek k with
    | some v =>
      obtain ⟨e, as, bs, rfl, hothers⟩ := exists_cells ha hk
      obtain ⟨c', hget, hrep', hmax'⟩ := hrep.get_stored
      refine ⟨c', ?_, ?_, _, hrep', ?_⟩
      · rw [LRU.call, hget, reference, Lru.get_fst, hk]
      · rw [hmax', ← hmax, reference, Lru.maxItems_get]
      · rw [reference, Lru.get_of_some hk, hothers, map_cons]
    | none =>
      refine ⟨c, ?_, ?_⟩
      · rw [LRU.call, get_missing (hrep.lookup_eq_none ha hk), reference, Lru.get_fst, hk]
      · rw [reference, Lru.get_of_none hk]
        exact ⟨hmax, cells, hrep, ha⟩
  | delete k =>
    cases hk : a.peek k with
    | some v =>
      obtain ⟨e, as, bs, rfl, hothers⟩ := exists_cells ha hk
      obtain ⟨c', hdelete, hrep', hmax', -⟩ := hrep.delete_stored
      exact ⟨c', by simp only [LRU.call, hdelete, Option.map_some, reference], hmax.trans hmax'.symm, _, hrep', hothers⟩
    | none =>
      have hothers : a.others k = a.entries := by
        refine filter_eq_self.mpr fun x hx => decide_eq_true ?_
        rintro rfl
        exact Lru.peek_eq_none_iff.mp hk (mem_map.mpr ⟨x, hx, rfl⟩)
      refine ⟨c, ?_, hmax, cells, hrep, hothers.trans ha⟩
      simp only [LRU.call, delete_missing (hrep.lookup_eq_none ha hk), Option.map_some, reference]
  | clear =>
    obtain ⟨hclear, hrep'⟩ := hrep.clear
    refine ⟨{ c with items := ∅, lruList := c.lruList.init }, ?_, hmax, [], hrep', rfl⟩
    simp only [LRU.call, hclear, Option.map_some, reference]

/-- A run does what the reference does. By induction on the calls. -/
theorem run_refines (h : c.Represents a) (calls : List (CacheCall K V)) :
    ∃ c', LRU.run calls c = some ((referenceRun calls a).1, c') ∧ c'.Represents (referenceRun calls a).2 := by
  induction calls generalizing c a with
  | nil => exact ⟨c, rfl, h⟩
  | cons call rest ih =>
    obtain ⟨c₁, hcall, hrep₁⟩ := call_refines h call
    obtain ⟨c', hrun, hrep⟩ := ih hrep₁
    exact ⟨c', by simp only [LRU.run, hcall, hrun, Option.map_some, referenceRun], hrep⟩

theorem Represents.stored_eq (h : c.Represents a) : c.stored = a.peek := by
  obtain ⟨-, cells, hrep, ha⟩ := h
  exact hrep.stored_eq ha

theorem Represents.len_eq (h : c.Represents a) : c.len = a.entries.length := by
  obtain ⟨-, cells, hrep, ha⟩ := h
  rw [ha, length_map]
  exact hrep.len

theorem Rep.keys_eq (h : Rep c cells) : c.items.keys = ((cells.map Prod.snd).map Prod.fst).toFinset := by
  ext k
  rw [Finmap.mem_keys, ← Finmap.lookup_isSome, Option.isSome_iff_exists, mem_toFinset]
  simp [h.items k]

theorem Represents.len_eq_card (h : c.Represents a) : c.len = c.items.keys.card := by
  obtain ⟨-, cells, hrep, -⟩ := h
  rw [hrep.keys_eq, toFinset_card_of_nodup hrep.nodup_keys, length_map, length_map]
  exact hrep.len

/-! ### The order of the uses -/

/-- The keys that a call uses: a `Set` uses its key, and a `Get` does if it finds it. -/
def used : CacheCall K V → Option V → List K
  | .set key _, _ => [key]
  | .get key, some _ => [key]
  | _, _ => []

def uses : List (CacheCall K V) → List (Option V) → List K
  | call :: calls, answer :: answers => uses calls answers ++ used call answer
  | _, _ => []

variable {us : List K}

theorem orderedBy_reference (h : a.OrderedBy us) (call : CacheCall K V) :
    (reference a call).2.OrderedBy (used call (reference a call).1 ++ us) := by
  cases call with
  | set k v =>
    cases hk : a.peek k with
    | some old => exact h.cons (Lru.entries_set_of_some v hk) filter_sublist
    | none => exact h.cons (Lru.entries_set_of_none v hk) a.evicted_sublist
  | get k =>
    cases hk : a.peek k with
    | some v =>
      rw [reference, Lru.get_fst, hk]
      exact h.cons (Lru.get_of_some hk) filter_sublist
    | none =>
      rw [reference, Lru.get_of_none hk]
      exact h
  | delete k => exact h.sublist filter_sublist
  | clear => exact Lru.orderedBy_empty _ _

theorem orderedBy_referenceRun (h : a.OrderedBy us) (calls : List (CacheCall K V)) :
    (referenceRun calls a).2.OrderedBy (uses calls (referenceRun calls a).1 ++ us) := by
  induction calls generalizing a us with
  | nil => exact h
  | cons call rest ih =>
    have hrest := ih (orderedBy_reference h call)
    rw [← append_assoc] at hrest
    exact hrest

/-- Of the keys that are stored, this one was used least recently. -/
structure Oldest (c : LRU K V) (us : List K) (oldest : K) : Prop where
  stored : c.stored oldest ≠ none
  used : oldest ∈ us
  later : ∀ k, c.stored k ≠ none → k ≠ oldest → us.idxOf k < us.idxOf oldest

/-- What a call on a cache for `n` keys has to answer and to store, after some uses. -/
def Follows (n : Int) (us : List K) (c : LRU K V) (call : CacheCall K V) (answer : Option V) (c' : LRU K V) : Prop :=
  match call with
  | .get key => answer = c.stored key ∧ c'.stored = c.stored
  | .delete key => c'.stored = Function.update c.stored key none
  | .clear => c'.stored = fun _ => none
  | .set key val =>
    (c.stored key ≠ none ∨ c.len < n) ∧ c'.stored = Function.update c.stored key (some val) ∨
    (c.stored key = none ∧ c.len = n) ∧ ∃ oldest, c.Oldest us oldest ∧
      c'.stored = Function.update (Function.update c.stored oldest none) key (some val)

/-- A call that answers as the reference does meets its demands. -/
theorem follows_call {c' : LRU K V} (h : c.Represents a) (hus : a.OrderedBy us) (call : CacheCall K V)
    (h' : c'.Represents (reference a call).2) : Follows a.maxItems us c call (reference a call).1 c' := by
  have hstored := h.stored_eq
  have hstored' := h'.stored_eq
  cases call with
  | get k => exact ⟨by rw [hstored, reference, Lru.get_fst], by rw [hstored, hstored']; exact funext (a.peek_get k)⟩
  | delete k => exact hstored'.trans (by rw [reference, Lru.peek_delete, hstored])
  | clear => exact hstored'.trans rfl
  | set k v =>
    have hlen := h.len_eq
    have hbounded := a.bounded
    unfold Follows
    simp only
    rw [hstored, hstored', reference]
    cases hk : a.peek k with
    | some old => exact Or.inl ⟨Or.inl nofun, Lru.peek_set_of_some v hk⟩
    | none =>
      by_cases hfull : a.maxItems ≤ a.entries.length
      · have hne : a.entries ≠ [] := by
          have hpos := a.pos
          intro hnil
          rw [hnil, length_nil] at hfull
          omega
        obtain ⟨init, ⟨oldest, w⟩, hentries⟩ : ∃ init x, a.entries = init ++ [x] := ⟨_, _, (dropLast_append_getLast hne).symm⟩
        have hmem : (oldest, w) ∈ a.entries := by simp [hentries]
        have hpeek : a.peek oldest = some w := Lru.peek_eq_some_iff.mpr hmem
        refine Or.inr ⟨⟨rfl, by omega⟩, oldest, ⟨?_, ?_, ?_⟩, Lru.peek_set_of_full v hk hfull hentries⟩
        · rw [hstored, hpeek]
          exact nofun
        · exact hus.used oldest (mem_map_of_mem hmem)
        · intro k' hk' hne'
          rw [hstored] at hk'
          obtain ⟨w', hw'⟩ := Option.ne_none_iff_exists'.mp hk'
          exact hus.last hentries hw' hne'
      · exact Or.inl ⟨Or.inr (by omega), Lru.peek_set_of_room v hk (Nat.lt_of_not_le hfull)⟩

end LRU

def newReference (n : Int64) (hn : 1 ≤ n) : Lru K V :=
  .empty n.toInt.toNat (by have := Int64.le_iff_toInt_le.mp hn; change 1 ≤ n.toInt at this; omega)

/-- Every run of a cache for `n` keys answers as the reference does and stores what it stores, the length is the number of the keys and at
most `n`, and a further call answers and stores what it has to. -/
theorem lru_refines (n : Int64) (hn : 1 ≤ n) (calls : List (CacheCall K V)) :
    ∃ answers c, LRU.run calls (newLRU n : LRU K V) = some (answers, c) ∧
      answers = (LRU.referenceRun calls (newReference n hn)).1 ∧ c.stored = (LRU.referenceRun calls (newReference n hn)).2.peek ∧
      c.len = c.items.keys.card ∧ c.len ≤ n.toInt ∧
      ∀ call, ∃ answer c', c.call call = some (answer, c') ∧ LRU.Follows n.toInt (LRU.uses calls answers) c call answer c' := by
  have hn' : 1 ≤ n.toInt := Int64.le_iff_toInt_le.mp hn
  have hnot : ¬n ≤ 0 := by
    rw [Int64.le_iff_toInt_le]
    exact not_le.mpr hn'
  have hcapacity : ((newReference n hn : Lru K V).maxItems : Int) = n.toInt := Int.toNat_of_nonneg (by omega)
  have hstart : (newLRU n : LRU K V).Represents (newReference n hn) := by
    refine ⟨?_, [], LRU.rep_new n, rfl⟩
    rw [hcapacity, newLRU, if_neg hnot]
  obtain ⟨c, hrun, hrep⟩ := LRU.run_refines hstart calls
  have horder := LRU.orderedBy_referenceRun (Lru.orderedBy_empty (newReference n hn : Lru K V).pos []) calls
  rw [append_nil] at horder
  have hmax : ((LRU.referenceRun calls (newReference n hn : Lru K V)).2.maxItems : Int) = n.toInt := by
    rw [LRU.maxItems_referenceRun, hcapacity]
  refine ⟨_, c, hrun, rfl, hrep.stored_eq, hrep.len_eq_card, ?_, ?_⟩
  · rw [hrep.len_eq, ← hmax]
    exact Int.ofNat_le.mpr (LRU.referenceRun calls (newReference n hn : Lru K V)).2.bounded
  · intro call
    obtain ⟨c', hcall, hrep'⟩ := LRU.call_refines hrep call
    rw [← hmax]
    exact ⟨_, c', hcall, LRU.follows_call hrep horder call hrep'⟩

/-- Two keys in a cache for one of them. -/
theorem lru_refines_two : (1 : Int64) ≤ 1 ∧ ∃ answers c,
    LRU.run [.set 1 10, .set 2 20, .get 1, .get 2] (newLRU 1 : LRU Nat Nat) = some (answers, c) ∧
      answers = [none, none, none, some 20] ∧ c.len ≤ (1 : Int64).toInt := by
  obtain ⟨answers, c, hrun, hanswers, -, -, hlen, -⟩ := lru_refines 1 (by decide) [.set 1 10, .set 2 20, .get 1, .get (2 : Nat)]
  exact ⟨by decide, answers, c, hrun, hanswers.trans (by decide), hlen⟩

end NeoCoin.Internal
