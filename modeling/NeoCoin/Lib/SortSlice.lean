import Mathlib.Data.List.Sort

/-!
# Sorting with a comparison (`sort.Slice`)

`sort.Slice` leaves open the order of elements that are equal under the comparison, so a call is described by the results it may have
(`SortSlice`). Whatever may stand before an element does so in one of the results (`exists_sortSlice_around`), and an element may stand at
an index exactly if it lies between the number of those before it and the number of those not after it (`exists_sortSlice_getElem_iff`).
-/

namespace GoLib

variable {α : Type*}

/-- `sorted` is a result of `sort.Slice` on `l`: no element stands after one that it is less than. -/
structure SortSlice (less : α → α → Prop) (l sorted : List α) : Prop where
  perm : sorted.Perm l
  sorted : sorted.Pairwise fun a b => ¬less b a

/-- What a comparison by a value promises: `less a b` means that the value of `a` is before that of `b`. -/
structure WeakOrder (less : α → α → Prop) : Prop where
  asymm : ∀ a b, ¬less a b ∨ ¬less b a
  trans : ∀ a b c, ¬less b a → ¬less c b → ¬less c a

variable {less : α → α → Prop}

theorem exists_sortSlice (h : WeakOrder less) (l : List α) : ∃ sorted, SortSlice less l sorted := by
  classical
  have : Std.Total fun a b => ¬less b a := ⟨fun a b => (h.asymm b a)⟩
  have : IsTrans α fun a b => ¬less b a := ⟨h.trans⟩
  exact ⟨l.insertionSort fun a b => ¬less b a, List.perm_insertionSort _ l, List.pairwise_insertionSort _ l⟩

theorem exists_sortSlice_around (h : WeakOrder less) {l before after : List α} {x : α} (hperm : (before ++ x :: after).Perm l)
    (hbefore : ∀ b ∈ before, ¬less x b) (hafter : ∀ a ∈ after, ¬less a x) :
    ∃ before' after', before'.Perm before ∧ SortSlice less l (before' ++ x :: after') := by
  obtain ⟨before', hb⟩ := exists_sortSlice h before
  obtain ⟨after', ha⟩ := exists_sortSlice h after
  refine ⟨before', after', hb.perm, ?_, ?_⟩
  · exact (hb.perm.append (ha.perm.cons x)).trans hperm
  · refine List.pairwise_append.mpr ⟨hb.sorted, List.pairwise_cons.mpr ⟨?_, ha.sorted⟩, ?_⟩
    · exact fun a ha' => hafter a (ha.perm.subset ha')
    · intro b hb' a ha'
      have hxb := hbefore b (hb.perm.subset hb')
      rcases List.mem_cons.mp ha' with rfl | ha'
      · exact hxb
      · exact h.trans b x a hxb (hafter a (ha.perm.subset ha'))

theorem WeakOrder.irrefl (h : WeakOrder less) (a : α) : ¬less a a := (h.asymm a a).elim id id

theorem SortSlice.around {l before after : List α} {x : α} (h : SortSlice less l (before ++ x :: after)) :
    (∀ b ∈ before, ¬less x b) ∧ ∀ a ∈ after, ¬less a x := by
  obtain ⟨-, htail, hacross⟩ := List.pairwise_append.mp h.sorted
  exact ⟨fun b hb => hacross b hb x List.mem_cons_self, (List.pairwise_cons.mp htail).1⟩

section

variable [DecidableRel less] {l sorted : List α} {x : α} {i : Nat}

/-- At least those before an element stand before it, and at most those not after it. -/
theorem SortSlice.count_getElem (horder : WeakOrder less) (h : SortSlice less l sorted) (hi : sorted[i]? = some x) :
    l.countP (fun b => less b x) ≤ i ∧ i < l.countP fun b => ¬less x b := by
  obtain ⟨hlt, rfl⟩ := List.getElem?_eq_some_iff.mp hi
  have hsplit : sorted = sorted.take i ++ sorted[i] :: sorted.drop (i + 1) := by simp
  have hlen : (sorted.take i).length = i := by simp [Nat.le_of_lt hlt]
  generalize sorted[i] = x at hsplit ⊢
  generalize sorted.take i = before at hsplit hlen
  generalize sorted.drop (i + 1) = after at hsplit
  subst hsplit
  obtain ⟨hbefore, hafter⟩ := h.around
  have hnone : after.countP (fun b => less b x) = 0 := List.countP_eq_zero.mpr fun a ha => by simpa using hafter a ha
  have hall : before.countP (fun b => ¬less x b) = before.length := List.countP_eq_length.mpr fun b hb => by simpa using hbefore b hb
  have hle : before.countP (fun b => less b x) ≤ before.length := List.countP_le_length
  rw [← h.perm.countP_eq, ← h.perm.countP_eq, List.countP_append, List.countP_append, List.countP_cons, List.countP_cons, hnone, hall]
  simp only [horder.irrefl x, decide_false, Bool.false_eq_true, if_false, not_false_eq_true, decide_true, if_true]
  omega

/-- Those before an element, as many of its equals as are wanted, the element, and the others. -/
theorem exists_around (horder : WeakOrder less) (hx : x ∈ l) (hlow : l.countP (fun b => less b x) ≤ i)
    (hhigh : i < l.countP fun b => ¬less x b) : ∃ before after, (before ++ x :: after).Perm l ∧ before.length = i ∧
      (∀ b ∈ before, ¬less x b) ∧ ∀ a ∈ after, ¬less a x := by
  obtain ⟨s, t, rfl⟩ := List.append_of_mem hx
  have hperm : (s ++ x :: t).Perm (x :: (s ++ t)) := List.perm_middle
  rw [hperm.countP_eq, List.countP_cons] at hlow hhigh
  simp only [horder.irrefl x, decide_false, Bool.false_eq_true, if_false, not_false_eq_true, decide_true, if_true] at hlow hhigh
  set rest := s ++ t
  set first := rest.filter fun b => less b x with hfirst
  set others := rest.filter fun b => !decide (less b x) with hothers
  set equals := others.filter fun b => !decide (less x b) with hequals
  set last := others.filter fun b => !(!decide (less x b)) with hlast
  have hrest : (first ++ (equals ++ last)).Perm rest :=
    ((List.filter_append_perm _ others).append_left first).trans (List.filter_append_perm _ rest)
  have hfirstLen : first.length = rest.countP fun b => less b x := List.countP_eq_length_filter.symm
  have hcount : rest.countP (fun b => ¬less x b) = first.length + equals.length := by
    have hnone : last.countP (fun b => ¬less x b) = 0 := List.countP_eq_zero.mpr fun b hb => by
      simpa using (List.mem_filter.mp hb).2
    have hequalsAll : equals.countP (fun b => ¬less x b) = equals.length := List.countP_eq_length.mpr fun b hb => by
      simpa using (List.mem_filter.mp hb).2
    have hfirstAll : first.countP (fun b => ¬less x b) = first.length := List.countP_eq_length.mpr fun b hb => by
      have hless := (List.mem_filter.mp hb).2
      simpa using (horder.asymm b x).resolve_left (not_not.mpr (of_decide_eq_true hless))
    rw [← hrest.countP_eq, List.countP_append, List.countP_append, hnone, hequalsAll, hfirstAll, Nat.add_zero]
  refine ⟨first ++ equals.take (i - first.length), equals.drop (i - first.length) ++ last, ?_, ?_, ?_, ?_⟩
  · refine List.Perm.trans ?_ hperm.symm
    refine List.perm_middle.trans (List.Perm.cons x ?_)
    rw [List.append_assoc, ← List.append_assoc (equals.take _), List.take_append_drop]
    exact hrest
  · rw [List.length_append, List.length_take]
    omega
  · intro b hb
    rcases List.mem_append.mp hb with hb | hb
    · exact (horder.asymm b x).resolve_left (not_not.mpr (of_decide_eq_true (List.mem_filter.mp hb).2))
    · simpa using (List.mem_filter.mp (List.mem_of_mem_take hb)).2
  · intro a ha
    have hother : a ∈ others := by
      rcases List.mem_append.mp ha with ha | ha
      · exact List.mem_of_mem_filter (List.mem_of_mem_drop ha)
      · exact List.mem_of_mem_filter ha
    simpa using (List.mem_filter.mp hother).2

theorem exists_sortSlice_getElem_iff (horder : WeakOrder less) : (∃ sorted, SortSlice less l sorted ∧ sorted[i]? = some x) ↔
      x ∈ l ∧ l.countP (fun b => less b x) ≤ i ∧ i < l.countP fun b => ¬less x b := by
  constructor
  · rintro ⟨sorted, h, hi⟩
    exact ⟨h.perm.subset (List.mem_of_getElem? hi), h.count_getElem horder hi⟩
  · rintro ⟨hx, hlow, hhigh⟩
    obtain ⟨before, after, hperm, hlen, hbefore, hafter⟩ := exists_around horder hx hlow hhigh
    obtain ⟨before', after', hperm', hsorted⟩ := exists_sortSlice_around horder hperm hbefore hafter
    refine ⟨_, hsorted, ?_⟩
    rw [← hlen, ← hperm'.length_eq]
    simp

end

end GoLib
