import Mathlib.Data.List.Nodup
import Mathlib.Logic.Function.Basic

/-!
# A cache that forgets what was used least recently

The entries of the cache in the order of their last use, the latest first. Each key has one entry, and there is room for at least one.
What such a cache knows is `peek`: a `get` changes nothing about it, and a `set` at most forgets another key.
-/

namespace GoLib

open List

variable {K V : Type*}

structure Lru (K V : Type*) where
  maxItems : Nat
  entries : List (K × V)
  pos : 0 < maxItems
  nodup : (entries.map Prod.fst).Nodup
  bounded : entries.length ≤ maxItems
  deriving DecidableEq

namespace Lru

def empty (maxItems : Nat) (h : 0 < maxItems) : Lru K V := ⟨maxItems, [], h, nodup_nil, Nat.zero_le _⟩

variable [DecidableEq K]

def peek (c : Lru K V) (k : K) : Option V := (c.entries.find? fun e => e.1 = k).map Prod.snd

variable {c : Lru K V} {k : K} {v : V}

theorem peek_eq_some_iff : c.peek k = some v ↔ (k, v) ∈ c.entries := by
  unfold peek
  rw [Option.map_eq_some_iff]
  constructor
  · intro h
    obtain ⟨e, he, rfl⟩ := h
    have hkey := List.find?_some he
    rw [decide_eq_true_eq] at hkey
    rw [← hkey]
    exact mem_of_find?_eq_some he
  · intro h
    cases hfind : c.entries.find? fun e => e.1 = k with
    | none => exact absurd (List.find?_eq_none.mp hfind _ h) (by simp)
    | some e =>
      refine ⟨e, rfl, ?_⟩
      have hkey := List.find?_some hfind
      rw [decide_eq_true_eq] at hkey
      rw [inj_on_of_nodup_map c.nodup (mem_of_find?_eq_some hfind) h hkey]

theorem peek_eq_none_iff : c.peek k = none ↔ k ∉ c.entries.map Prod.fst := by
  rw [Option.eq_none_iff_forall_ne_some, mem_map]
  constructor
  · intro h hk
    obtain ⟨⟨k', v⟩, hmem, rfl⟩ := hk
    exact h v (peek_eq_some_iff.mpr hmem)
  · intro h v hv
    exact h ⟨(k, v), peek_eq_some_iff.mp hv, rfl⟩

def others (c : Lru K V) (k : K) : List (K × V) := c.entries.filter fun e => e.1 ≠ k

theorem nodup_others (c : Lru K V) (k : K) : ((c.others k).map Prod.fst).Nodup :=
  c.nodup.sublist (filter_sublist.map Prod.fst)

theorem notMem_others (c : Lru K V) (k : K) : k ∉ (c.others k).map Prod.fst := by
  simp [others]

theorem length_others_lt (h : c.peek k = some v) : (c.others k).length < c.entries.length := by
  refine Nat.lt_of_le_of_ne (length_filter_le _ _) fun heq => ?_
  have hall := length_filter_eq_length_iff.mp heq (k, v) (peek_eq_some_iff.mp h)
  simp at hall

/-- The entry of a key that is there goes to the front, with a value. -/
def moveToFront (c : Lru K V) (k : K) (v : V) {old : V} (h : c.peek k = some old) : Lru K V where
  maxItems := c.maxItems
  entries := (k, v) :: c.others k
  pos := c.pos
  nodup := nodup_cons.mpr ⟨c.notMem_others k, c.nodup_others k⟩
  bounded := Nat.le_trans (length_others_lt h) c.bounded

def evicted (c : Lru K V) : List (K × V) := if c.maxItems ≤ c.entries.length then c.entries.dropLast else c.entries

omit [DecidableEq K] in
theorem evicted_sublist (c : Lru K V) : c.evicted.Sublist c.entries := by
  unfold evicted
  split
  · exact dropLast_sublist _
  · exact List.Sublist.refl _

def pushFront (c : Lru K V) (k : K) (v : V) (h : c.peek k = none) : Lru K V where
  maxItems := c.maxItems
  entries := (k, v) :: c.evicted
  pos := c.pos
  nodup := by
    refine nodup_cons.mpr ⟨?_, c.nodup.sublist (c.evicted_sublist.map Prod.fst)⟩
    intro hk
    exact peek_eq_none_iff.mp h ((c.evicted_sublist.map Prod.fst).subset hk)
  bounded := by
    have hpos := c.pos
    have hbounded := c.bounded
    unfold evicted
    split
    · rw [length_cons, length_dropLast]
      omega
    · rw [length_cons]
      omega

def set (c : Lru K V) (k : K) (v : V) : Lru K V :=
  match h : c.peek k with
  | some _ => c.moveToFront k v h
  | none => c.pushFront k v h

def get (c : Lru K V) (k : K) : Option V × Lru K V :=
  match h : c.peek k with
  | some v => (some v, c.moveToFront k v h)
  | none => (none, c)

def delete (c : Lru K V) (k : K) : Lru K V where
  maxItems := c.maxItems
  entries := c.others k
  pos := c.pos
  nodup := c.nodup_others k
  bounded := Nat.le_trans (length_filter_le _ _) c.bounded

omit [DecidableEq K] in
def clear (c : Lru K V) : Lru K V := empty c.maxItems c.pos

/-! ## What the cache knows -/

theorem get_fst (c : Lru K V) (k : K) : (c.get k).1 = c.peek k := by
  unfold get
  split
  · rename_i v hv
    exact hv.symm
  · rename_i hnone
    exact hnone.symm

theorem mem_set {k' : K} {w : V} (h : (k', w) ∈ (c.set k v).entries) : k' = k ∧ w = v ∨ k' ≠ k ∧ (k', w) ∈ c.entries := by
  unfold set at h
  split at h
  · rcases mem_cons.mp h with heq | hmem
    · exact Or.inl (Prod.mk.inj heq)
    · obtain ⟨hmem, hne⟩ := mem_filter.mp hmem
      exact Or.inr ⟨of_decide_eq_true hne, hmem⟩
  · rename_i hnone
    rcases mem_cons.mp h with heq | hmem
    · exact Or.inl (Prod.mk.inj heq)
    · have hold := c.evicted_sublist.subset hmem
      refine Or.inr ⟨?_, hold⟩
      rintro rfl
      exact peek_eq_none_iff.mp hnone (mem_map_of_mem hold)

theorem peek_set {k' : K} {w : V} (h : (c.set k v).peek k' = some w) : k' = k ∧ w = v ∨ k' ≠ k ∧ c.peek k' = some w := by
  rcases mem_set (peek_eq_some_iff.mp h) with hself | ⟨hne, hold⟩
  · exact Or.inl hself
  · exact Or.inr ⟨hne, peek_eq_some_iff.mpr hold⟩

theorem peek_get (c : Lru K V) (k k' : K) : (c.get k).2.peek k' = c.peek k' := by
  unfold get
  split
  · rename_i v hv
    by_cases hk : k' = k
    · subst hk
      exact (peek_eq_some_iff.mpr (.head _)).trans hv.symm
    · refine Option.ext fun w => ?_
      rw [peek_eq_some_iff, peek_eq_some_iff]
      simp [moveToFront, others, hk]
  · rfl

theorem peek_delete (c : Lru K V) (k : K) : (c.delete k).peek = Function.update c.peek k none := by
  funext k'
  by_cases hk : k' = k
  · rw [hk, Function.update_self, peek_eq_none_iff]
    exact c.notMem_others k
  · refine Option.ext fun w => ?_
    rw [Function.update_of_ne hk, peek_eq_some_iff, peek_eq_some_iff]
    simp [delete, others, hk]

variable {c' : Lru K V}

theorem peek_cons (h : c'.entries = (k, v) :: c.entries) : c'.peek = Function.update c.peek k (some v) := by
  funext k'
  unfold peek
  by_cases hk : k' = k
  · rw [hk, Function.update_self, h, List.find?_cons_of_pos (by simp)]
    rfl
  · rw [Function.update_of_ne hk, h, List.find?_cons_of_neg (by simpa using Ne.symm hk)]

/-! ## The parts of a cache around an entry -/

variable {as : List (K × V)}

theorem others_eq {bs : List (K × V)} (h : c.entries = as ++ (k, v) :: bs) : c.others k = as ++ bs := by
  have hnodup := c.nodup
  rw [h, map_append, map_cons, nodup_middle, nodup_cons, ← map_append] at hnodup
  have hkeep : (as ++ bs).filter (fun e => e.1 ≠ k) = as ++ bs := by
    refine filter_eq_self.mpr fun e he => decide_eq_true ?_
    rintro rfl
    exact hnodup.1 (mem_map.mpr ⟨e, he, rfl⟩)
  rw [others, h, filter_append, filter_cons_of_neg (by simp), ← filter_append, hkeep]

theorem entries_set_of_some {old : V} (v : V) (h : c.peek k = some old) : (c.set k v).entries = (k, v) :: c.others k := by
  unfold set
  split
  · rfl
  · rename_i hnone
    exact absurd (h.symm.trans hnone) nofun

theorem entries_set_of_none (v : V) (h : c.peek k = none) : (c.set k v).entries = (k, v) :: c.evicted := by
  unfold set
  split
  · rename_i w hw
    exact absurd (h.symm.trans hw) nofun
  · rfl

theorem get_of_some (h : c.peek k = some v) : (c.get k).2.entries = (k, v) :: c.others k := by
  unfold get
  split
  · rename_i w hw
    cases h.symm.trans hw
    rfl
  · rename_i hnone
    exact absurd (h.symm.trans hnone) nofun

theorem get_of_none (h : c.peek k = none) : c.get k = (none, c) := by
  unfold get
  split
  · rename_i w hw
    exact absurd (h.symm.trans hw) nofun
  · rfl

@[simp] theorem maxItems_set (c : Lru K V) (k : K) (v : V) : (c.set k v).maxItems = c.maxItems := by
  unfold set
  split
  · rfl
  · rfl

@[simp] theorem maxItems_get (c : Lru K V) (k : K) : (c.get k).2.maxItems = c.maxItems := by
  unfold get
  split
  · rfl
  · rfl

theorem peek_set_of_some {old : V} (v : V) (h : c.peek k = some old) : (c.set k v).peek = Function.update c.peek k (some v) := by
  rw [@peek_cons _ _ _ (c.delete k) _ _ _ (entries_set_of_some v h), peek_delete, Function.update_idem]

theorem peek_set_of_room (v : V) (h : c.peek k = none) (hroom : c.entries.length < c.maxItems) :
    (c.set k v).peek = Function.update c.peek k (some v) := by
  have hentries := entries_set_of_none v h
  rw [evicted, if_neg (Nat.not_le.mpr hroom)] at hentries
  exact peek_cons hentries

theorem peek_set_of_full {oldest : K} {w : V} (v : V) (h : c.peek k = none)
    (hfull : c.maxItems ≤ c.entries.length) (hentries : c.entries = as ++ [(oldest, w)]) :
    (c.set k v).peek = Function.update (Function.update c.peek oldest none) k (some v) := by
  have hothers : (c.delete oldest).entries = as := (others_eq hentries).trans (append_nil as)
  have hset := entries_set_of_none v h
  rw [evicted, if_pos hfull, hentries, dropLast_concat, ← hothers] at hset
  rw [peek_cons hset, peek_delete]

/-! ## The order of the last uses -/

/-- Every key was used, and the keys are in the order of their last use. The uses are given with the latest first. -/
structure OrderedBy (c : Lru K V) (uses : List K) : Prop where
  used : ∀ k ∈ c.entries.map Prod.fst, k ∈ uses
  order : (c.entries.map Prod.fst).Pairwise fun a b => uses.idxOf a < uses.idxOf b

theorem orderedBy_empty {maxItems : Nat} (h : 0 < maxItems) (uses : List K) : (empty maxItems h : Lru K V).OrderedBy uses :=
  ⟨nofun, List.Pairwise.nil⟩

variable {uses : List K}

theorem OrderedBy.sublist (h : c.OrderedBy uses) (hsub : c'.entries.Sublist c.entries) : c'.OrderedBy uses :=
  ⟨fun k hk => h.used k ((hsub.map Prod.fst).subset hk), h.order.sublist (hsub.map Prod.fst)⟩

theorem OrderedBy.cons {rest : List (K × V)} (h : c.OrderedBy uses)
    (hentries : c'.entries = (k, v) :: rest) (hsub : rest.Sublist c.entries) : c'.OrderedBy (k :: uses) := by
  have hnodup := c'.nodup
  rw [hentries, map_cons, nodup_cons] at hnodup
  have hne : ∀ b ∈ rest.map Prod.fst, (k :: uses).idxOf b = uses.idxOf b + 1 := fun b hb =>
    idxOf_cons_ne uses (ne_of_mem_of_not_mem hb hnodup.1).symm
  refine ⟨?_, ?_⟩
  · intro b hb
    rw [hentries, map_cons] at hb
    rcases mem_cons.mp hb with rfl | hb
    · exact .head _
    · exact mem_cons_of_mem _ (h.used b ((hsub.map Prod.fst).subset hb))
  · rw [hentries, map_cons, pairwise_cons]
    constructor
    · intro b hb
      rw [idxOf_cons_self, hne b hb]
      exact Nat.succ_pos _
    · refine (h.order.sublist (hsub.map Prod.fst)).imp_of_mem fun {a b} ha hb hlt => ?_
      rw [hne a ha, hne b hb]
      exact Nat.succ_lt_succ hlt

theorem OrderedBy.last {k' : K} {v' : V} (h : c.OrderedBy uses)
    (hentries : c.entries = as ++ [(k, v)]) (hk' : c.peek k' = some v') (hne : k' ≠ k) : uses.idxOf k' < uses.idxOf k := by
  have hmem := peek_eq_some_iff.mp hk'
  rw [hentries, mem_append, mem_singleton] at hmem
  have horder := h.order
  rw [hentries, map_append, pairwise_append] at horder
  rcases hmem with hmem | heq
  · exact horder.2.2 k' (mem_map_of_mem hmem) k (mem_singleton_self k)
  · exact absurd (Prod.mk.inj heq).1 hne

end Lru

end GoLib
