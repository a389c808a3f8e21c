import Mathlib.Data.List.Perm.Basic
import Mathlib.Logic.Equiv.Basic

/-!
# `container/heap`

A heap is a list in which no element is less than the one at half its position. `less` is the order of the elements; the least is at the
front. The loops of the source take the number of rounds they may need as a further argument.
-/

namespace GoLib

open List

namespace Heap

variable {α : Type*}

/-- `h.Swap(i, j)`, for positions in range. -/
def swap (l : List α) (i j : Nat) : List α :=
  match l[i]?, l[j]? with
  | some a, some b => (l.set i b).set j a
  | _, _ => l

section

variable (less : α → α → Bool)

/-- `h.Less(i, j)`; false out of range. -/
def lessAt (l : List α) (i j : Nat) : Bool :=
  match l[i]?, l[j]? with
  | some a, some b => less a b
  | _, _ => false

def up : Nat → List α → Nat → List α
  | 0, l, _ => l
  | rounds + 1, l, j =>
    let i := (j - 1) / 2
    if i = j ∨ lessAt less l j i = false then l else up rounds (swap l i j) i

def child (l : List α) (i n : Nat) : Nat :=
  if 2 * i + 2 < n ∧ lessAt less l (2 * i + 2) (2 * i + 1) = true then 2 * i + 2 else 2 * i + 1

/-- `down`, of the first `n` elements. -/
def down : Nat → List α → Nat → Nat → List α
  | 0, l, _, _ => l
  | rounds + 1, l, i, n =>
    if n ≤ 2 * i + 1 then l
    else
      let j := child less l i n
      if lessAt less l j i = false then l else down rounds (swap l i j) j n

def init (l : List α) : List α :=
  (List.range (l.length / 2)).reverse.foldl (fun l i => down less l.length l i l.length) l

def push (l : List α) (x : α) : List α := up less (l.length + 1) (l ++ [x]) l.length

/-- `heap.Pop`; `none` for an empty heap. -/
def pop (l : List α) : Option (α × List α) :=
  let n := l.length - 1
  let l := down less n (swap l 0 n) 0 n
  l.getLast?.map fun x => (x, l.dropLast)

def drain : Nat → List α → List α
  | 0, _ => []
  | k + 1, l =>
    match pop less l with
    | none => []
    | some (x, rest) => x :: drain k rest

end

/-! ## The elements stay the same -/

variable {less : α → α → Bool} {l : List α} {i j : Nat}

theorem getElem?_swap (hi : i < l.length) (hj : j < l.length) (k : Nat) : (swap l i j)[k]? = l[Equiv.swap i j k]? := by
  have hi' := List.getElem?_eq_getElem hi
  have hj' := List.getElem?_eq_getElem hj
  simp only [swap, hi', hj', List.getElem?_set, length_set]
  by_cases hkj : j = k
  · subst hkj
    rw [if_pos rfl, if_pos hj, Equiv.swap_apply_right, hi']
  · rw [if_neg hkj]
    by_cases hki : i = k
    · subst hki
      rw [if_pos rfl, if_pos hi, Equiv.swap_apply_left, hj']
    · rw [if_neg hki, Equiv.swap_apply_of_ne_of_ne (Ne.symm hki) (Ne.symm hkj)]

@[simp] theorem length_swap (l : List α) (i j : Nat) : (swap l i j).length = l.length := by
  unfold swap
  split <;> simp

theorem swap_perm (l : List α) (i j : Nat) : (swap l i j).Perm l := by
  unfold swap
  split
  · rename_i a b ha hb
    obtain ⟨hi, rfl⟩ := List.getElem?_eq_some_iff.mp ha
    obtain ⟨hj, rfl⟩ := List.getElem?_eq_some_iff.mp hb
    exact set_set_perm hi hj
  · exact .refl l

theorem up_perm (rounds : Nat) (l : List α) (j : Nat) : (up less rounds l j).Perm l := by
  induction rounds generalizing l j with
  | zero => exact .refl l
  | succ rounds ih =>
    simp only [up]
    split
    · exact .refl l
    · exact (ih _ _).trans (swap_perm l _ j)

theorem down_perm (rounds : Nat) (l : List α) (i n : Nat) : (down less rounds l i n).Perm l := by
  induction rounds generalizing l i with
  | zero => exact .refl l
  | succ rounds ih =>
    simp only [down]
    split
    · exact .refl l
    · split
      · exact .refl l
      · exact (ih _ _).trans (swap_perm l i _)

theorem init_perm (l : List α) : (init less l).Perm l := by
  unfold init
  generalize (List.range (l.length / 2)).reverse = positions
  induction positions generalizing l with
  | nil => exact .refl l
  | cons i positions ih => exact (ih _).trans (down_perm _ l i _)

theorem push_perm (l : List α) (x : α) : (push less l x).Perm (x :: l) := (up_perm _ _ _).trans (perm_append_singleton x l)

theorem pop_perm {x : α} {rest : List α} (h : pop less l = some (x, rest)) : l.Perm (x :: rest) := by
  obtain ⟨y, hy, heq⟩ := Option.map_eq_some_iff.mp h
  obtain ⟨rfl, rfl⟩ := Prod.mk.inj heq
  set l' := down less (l.length - 1) (swap l 0 (l.length - 1)) 0 (l.length - 1)
  have hperm : l'.Perm l := (down_perm _ _ _ _).trans (swap_perm l 0 _)
  rw [← dropLast_append_getLast? y hy] at hperm
  exact hperm.symm.trans (perm_append_singleton y _)

theorem pop_eq_none_iff : pop less l = none ↔ l = [] := by
  have hperm : (down less (l.length - 1) (swap l 0 (l.length - 1)) 0 (l.length - 1)).Perm l := (down_perm _ _ _ _).trans (swap_perm l 0 _)
  simp only [pop, Option.map_eq_none_iff, List.getLast?_eq_none_iff]
  constructor
  · intro h
    rw [h] at hperm
    exact hperm.symm.eq_nil
  · intro h
    rw [h] at hperm ⊢
    exact hperm.eq_nil

theorem exists_pop (less : α → α → Bool) (h : l ≠ []) : ∃ x rest, pop less l = some (x, rest) := by
  cases hpop : pop less l with
  | none => exact absurd (pop_eq_none_iff.mp hpop) h
  | some p => exact ⟨p.1, p.2, rfl⟩

theorem mem_of_mem_drain {x : α} (k : Nat) (h : x ∈ drain less k l) : x ∈ l := by
  induction k generalizing l with
  | zero => simp [drain] at h
  | succ k ih =>
    simp only [drain] at h
    split at h
    · simp at h
    · rename_i y rest hpop
      rcases mem_cons.mp h with rfl | h
      · exact (pop_perm hpop).mem_iff.mpr (.head _)
      · exact (pop_perm hpop).mem_iff.mpr (mem_cons_of_mem y (ih h))

/-! ## The order -/

/-- `less` is the order of a key. -/
structure Order (less : α → α → Bool) : Prop where
  asymm : ∀ {a b}, less a b = true → less b a = false
  trans : ∀ {a b c}, less a b = false → less b c = false → less a c = false

def IsHeap (less : α → α → Bool) (l : List α) : Prop := ∀ k, 0 < k → lessAt less l k ((k - 1) / 2) = false

theorem lessAt_asymm (order : Order less) (h : lessAt less l i j = true) : lessAt less l j i = false := by
  unfold lessAt at h ⊢
  split at h
  · rename_i a b ha hb
    simp only [ha, hb]
    exact order.asymm h
  · cases h

theorem lessAt_trans (order : Order less) {k : Nat} (hj : j < l.length) (h : lessAt less l i j = false) (h' : lessAt less l j k = false) :
    lessAt less l i k = false := by
  have hb := List.getElem?_eq_getElem hj
  unfold lessAt at h h' ⊢
  rw [hb] at h h'
  split
  · rename_i a c ha hc
    simp only [ha, hc] at h h'
    exact order.trans h h'
  · rfl

theorem lt_length_of_lessAt (h : lessAt less l i j = true) : i < l.length ∧ j < l.length := by
  unfold lessAt at h
  split at h
  · rename_i a b ha hb
    exact ⟨(List.getElem?_eq_some_iff.mp ha).1, (List.getElem?_eq_some_iff.mp hb).1⟩
  · cases h

theorem lessAt_swap (hi : i < l.length) (hj : j < l.length) (a b : Nat) :
    lessAt less (swap l i j) a b = lessAt less l (Equiv.swap i j a) (Equiv.swap i j b) := by
  unfold lessAt
  rw [getElem?_swap hi hj, getElem?_swap hi hj]

theorem lessAt_swap_of_ne (hi : i < l.length) (hj : j < l.length) {a b : Nat} (hai : a ≠ i) (haj : a ≠ j) (hbi : b ≠ i) (hbj : b ≠ j) :
    lessAt less (swap l i j) a b = lessAt less l a b := by
  rw [lessAt_swap hi hj, Equiv.swap_apply_of_ne_of_ne hai haj, Equiv.swap_apply_of_ne_of_ne hbi hbj]

/-- The order around the position `j` of an element that `up` has still to move. -/
structure UpOrder (less : α → α → Bool) (l : List α) (j : Nat) : Prop where
  others : ∀ k, 0 < k → k ≠ j → lessAt less l k ((k - 1) / 2) = false
  grand : 0 < j → ∀ k, 0 < k → (k - 1) / 2 = j → lessAt less l k ((j - 1) / 2) = false

theorem UpOrder.swap (order : Order less) (h : UpOrder less l j) (hless : lessAt less l j ((j - 1) / 2) = true) (hne : (j - 1) / 2 ≠ j) :
    UpOrder less (swap l ((j - 1) / 2) j) ((j - 1) / 2) := by
  obtain ⟨hj, hi⟩ := lt_length_of_lessAt hless
  have hflip := lessAt_asymm order hless
  set i := (j - 1) / 2 with hidef
  have hij : i < j := by omega
  have hsibling : ∀ k, 0 < k → k ≠ j → (k - 1) / 2 = i → lessAt less l k i = false := by
    intro k hk hkj hki
    have := h.others k hk hkj
    rwa [hki] at this
  constructor
  · intro k hk hki
    by_cases hkj : k = j
    · subst hkj
      rw [lessAt_swap hi hj, Equiv.swap_apply_right, ← hidef, Equiv.swap_apply_left]
      exact hflip
    · by_cases hparent : (k - 1) / 2 = i
      · rw [lessAt_swap hi hj, Equiv.swap_apply_of_ne_of_ne hki hkj, hparent, Equiv.swap_apply_left]
        exact lessAt_trans order hi (hsibling k hk hkj hparent) hflip
      · by_cases hparent' : (k - 1) / 2 = j
        · rw [lessAt_swap hi hj, Equiv.swap_apply_of_ne_of_ne hki hkj, hparent', Equiv.swap_apply_right]
          exact h.grand (by omega) k hk hparent'
        · rw [lessAt_swap_of_ne hi hj hki hkj hparent hparent']
          exact h.others k hk hkj
  · intro hpos k hk hki
    have hgrand : lessAt less l i ((i - 1) / 2) = false := h.others i hpos (by omega)
    have hgi : (i - 1) / 2 ≠ i := by omega
    have hgj : (i - 1) / 2 ≠ j := by omega
    by_cases hkj : k = j
    · rw [lessAt_swap hi hj, hkj, Equiv.swap_apply_right, Equiv.swap_apply_of_ne_of_ne hgi hgj]
      exact hgrand
    · rw [lessAt_swap_of_ne hi hj (by omega) hkj hgi hgj]
      exact lessAt_trans order hi (hsibling k hk hkj hki) hgrand

theorem up_isHeap (order : Order less) (rounds : Nat) (h : UpOrder less l j) (hrounds : j < rounds) : IsHeap less (up less rounds l j) := by
  induction rounds generalizing l j with
  | zero => omega
  | succ rounds ih =>
    simp only [up]
    split
    · rename_i hstop
      intro k hk
      by_cases hkj : k = j
      · subst hkj
        exact hstop.resolve_left (by omega)
      · exact h.others k hk hkj
    · rename_i hstop
      simp only [not_or, Bool.not_eq_false] at hstop
      exact ih (h.swap order hstop.2 hstop.1) (by omega)

theorem lessAt_append_of_lt {x : α} (hi : i < l.length) (hj : j < l.length) : lessAt less (l ++ [x]) i j = lessAt less l i j := by
  simp only [lessAt, List.getElem?_append_left hi, List.getElem?_append_left hj]

theorem lessAt_of_length_le (h : l.length ≤ i) : lessAt less l i j = false := by
  simp [lessAt, List.getElem?_eq_none h]

theorem push_isHeap (order : Order less) (h : IsHeap less l) (x : α) : IsHeap less (push less l x) := by
  refine up_isHeap order _ ⟨?_, ?_⟩ (Nat.lt_succ_self _)
  · intro k hk hne
    by_cases hlt : k < l.length
    · rw [lessAt_append_of_lt hlt (by omega)]
      exact h k hk
    · exact lessAt_of_length_le (by rw [length_append, length_singleton]; omega)
  · intro _ k hk hparent
    exact lessAt_of_length_le (by rw [length_append, length_singleton]; omega)

/-- The order around the position `i` of an element that `down` has still to move, among the first `n`. -/
structure DownOrder (less : α → α → Bool) (l : List α) (i n : Nat) : Prop where
  others : ∀ k, 0 < k → k < n → (k - 1) / 2 ≠ i → lessAt less l k ((k - 1) / 2) = false
  grand : 0 < i → ∀ k, 0 < k → k < n → (k - 1) / 2 = i → lessAt less l k ((i - 1) / 2) = false

theorem child_lt {n : Nat} (h : 2 * i + 1 < n) : child less l i n < n := by
  unfold child
  split
  · rename_i hright
    exact hright.1
  · exact h

theorem parent_child (n : Nat) : 0 < child less l i n ∧ (child less l i n - 1) / 2 = i := by
  unfold child
  split <;> omega

theorem lessAt_child (order : Order less) {n k : Nat} (hk : 0 < k) (hkn : k < n) (hparent : (k - 1) / 2 = i) :
    lessAt less l k (child less l i n) = false ∨ k = child less l i n := by
  unfold child
  split
  · rename_i hright
    rcases Nat.lt_or_ge k (2 * i + 2) with hlt | hge
    · left
      have hk : k = 2 * i + 1 := by omega
      rw [hk]
      exact lessAt_asymm order hright.2
    · right
      omega
  · rename_i hright
    rcases Nat.lt_or_ge k (2 * i + 2) with hlt | hge
    · right
      omega
    · left
      have hk : k = 2 * i + 2 := by omega
      subst hk
      simpa using fun h => hright ⟨hkn, h⟩

theorem DownOrder.swap (order : Order less) {n : Nat} (h : DownOrder less l i n) (hlast : 2 * i + 1 < n)
    (hless : lessAt less l (child less l i n) i = true) : DownOrder less (swap l i (child less l i n)) (child less l i n) n := by
  obtain ⟨hj, hi⟩ := lt_length_of_lessAt hless
  obtain ⟨hpos, hparent⟩ : 0 < child less l i n ∧ (child less l i n - 1) / 2 = i := parent_child n
  have hjn : child less l i n < n := child_lt hlast
  have hflip := lessAt_asymm order hless
  have hother : ∀ {k}, 0 < k → k < n → (k - 1) / 2 = i → lessAt less l k (child less l i n) = false ∨ k = child less l i n :=
    fun hk hkn => lessAt_child order hk hkn
  set j := child less l i n with hjdef
  have hij : i < j := by omega
  constructor
  · intro k hk hkn hkj
    by_cases hki : k = i
    · subst hki
      have hp : (k - 1) / 2 ≠ k := by omega
      have hp' : (k - 1) / 2 ≠ j := by omega
      rw [lessAt_swap hi hj, Equiv.swap_apply_left, Equiv.swap_apply_of_ne_of_ne hp hp']
      exact h.grand hk j hpos hjn hparent
    · by_cases hchild : (k - 1) / 2 = i
      · by_cases hkj' : k = j
        · rw [lessAt_swap hi hj, hkj', Equiv.swap_apply_right, hparent, Equiv.swap_apply_left]
          exact hflip
        · rw [lessAt_swap hi hj, Equiv.swap_apply_of_ne_of_ne hki hkj', hchild, Equiv.swap_apply_left]
          exact (hother hk hkn hchild).resolve_right hkj'
      · have hkj' : k ≠ j := by
          rintro rfl
          exact hchild hparent
        rw [lessAt_swap_of_ne hi hj hki hkj' hchild hkj]
        exact h.others k hk hkn hchild
  · intro _ k hk hkn hkj
    rw [hparent, lessAt_swap hi hj, Equiv.swap_apply_left, Equiv.swap_apply_of_ne_of_ne (by omega) (by omega), ← hkj]
    exact h.others k hk hkn (by omega)

def HeapUpTo (less : α → α → Bool) (l : List α) (n : Nat) : Prop := ∀ k, 0 < k → k < n → lessAt less l k ((k - 1) / 2) = false

theorem down_heapUpTo (order : Order less) {n : Nat} (rounds : Nat) (h : DownOrder less l i n) (hn : n ≤ l.length)
    (hrounds : n ≤ i + rounds) : HeapUpTo less (down less rounds l i n) n := by
  induction rounds generalizing l i with
  | zero =>
    intro k hk hkn
    exact h.others k hk hkn (by omega)
  | succ rounds ih =>
    simp only [down]
    split
    · intro k hk hkn
      exact h.others k hk hkn (by omega)
    · rename_i hlast
      rw [Nat.not_le] at hlast
      split
      · rename_i hstop
        intro k hk hkn
        by_cases hparent : (k - 1) / 2 = i
        · rw [hparent]
          rcases lessAt_child (l := l) order hk hkn hparent with hother | rfl
          · exact lessAt_trans order (Nat.lt_of_lt_of_le (child_lt hlast) hn) hother hstop
          · exact hstop
        · exact h.others k hk hkn hparent
      · rename_i hless
        rw [Bool.not_eq_false] at hless
        have hpos : 0 < child less l i n ∧ (child less l i n - 1) / 2 = i := parent_child n
        exact ih (h.swap order hlast hless) (by rwa [length_swap]) (by omega)

theorem getElem?_down {n k : Nat} (rounds : Nat) (hn : n ≤ l.length) (hk : n ≤ k) : (down less rounds l i n)[k]? = l[k]? := by
  induction rounds generalizing l i with
  | zero => rfl
  | succ rounds ih =>
    simp only [down]
    split
    · rfl
    · rename_i hlast
      rw [Nat.not_le] at hlast
      split
      · rfl
      · have hj : child less l i n < n := child_lt hlast
        rw [ih (by rwa [length_swap]), getElem?_swap (by omega) (by omega), Equiv.swap_apply_of_ne_of_ne (by omega) (by omega)]

theorem root_le (order : Order less) (h : IsHeap less l) (k : Nat) (hk : k < l.length) : lessAt less l k 0 = false := by
  induction k using Nat.strongRecOn with
  | ind k ih =>
    rcases Nat.eq_zero_or_pos k with rfl | hpos
    · cases hzero : lessAt less l 0 0 with
      | false => rfl
      | true => rw [lessAt_asymm order hzero] at hzero; cases hzero
    · exact lessAt_trans order (by omega) (h k hpos) (ih ((k - 1) / 2) (by omega) (by omega))

theorem head?_least (order : Order less) (h : IsHeap less l) {x y : α} (hx : l.head? = some x) (hy : y ∈ l) : less y x = false := by
  obtain ⟨k, hk, rfl⟩ := getElem_of_mem hy
  have hle := root_le order h k hk
  rw [List.head?_eq_getElem?] at hx
  simpa only [lessAt, List.getElem?_eq_getElem hk, hx] using hle

section

variable (order : Order less) (hheap : IsHeap less l) {x : α} {rest : List α} (hpop : pop less l = some (x, rest))

include hpop in
theorem head?_of_pop : l.head? = some x := by
  have hne : l ≠ [] := fun hnil => by simp [pop_eq_none_iff.mpr hnil] at hpop
  have hlen : 0 < l.length := length_pos_of_ne_nil hne
  obtain ⟨y, hy, heq⟩ := Option.map_eq_some_iff.mp hpop
  cases heq
  rw [List.getLast?_eq_getElem?, (down_perm _ _ _ _).length_eq, length_swap, getElem?_down _ (by rw [length_swap]; omega) (by omega),
    getElem?_swap hlen (by omega), Equiv.swap_apply_right] at hy
  rw [List.head?_eq_getElem?, hy]

include order hheap hpop

theorem pop_isHeap : IsHeap less rest := by
  have hne : l ≠ [] := fun hnil => by simp [pop_eq_none_iff.mpr hnil] at hpop
  have hlen : 0 < l.length := length_pos_of_ne_nil hne
  obtain ⟨y, hy, heq⟩ := Option.map_eq_some_iff.mp hpop
  cases heq
  have hdown : DownOrder less (swap l 0 (l.length - 1)) 0 (l.length - 1) := by
    refine ⟨?_, fun h => absurd h (Nat.lt_irrefl 0)⟩
    intro k hk hkn hparent
    rw [lessAt_swap_of_ne hlen (by omega) (by omega) (by omega) hparent (by omega)]
    exact hheap k hk
  have hupto := down_heapUpTo order (l.length - 1) hdown (by rw [length_swap]; omega) (by omega)
  intro k hk
  by_cases hkn : k < l.length - 1
  · have := hupto k hk hkn
    have hlen' : (down less (l.length - 1) (swap l 0 (l.length - 1)) 0 (l.length - 1)).length = l.length := by
      rw [(down_perm _ _ _ _).length_eq, length_swap]
    unfold lessAt at this ⊢
    rwa [List.getElem?_dropLast, List.getElem?_dropLast, hlen', if_pos hkn, if_pos (by omega)]
  · refine lessAt_of_length_le ?_
    rw [length_dropLast, (down_perm _ _ _ _).length_eq, length_swap]
    omega

end

end Heap

end GoLib
