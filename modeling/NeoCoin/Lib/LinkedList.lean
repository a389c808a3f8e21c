import Mathlib.Data.List.Chain
import Mathlib.Data.List.Nodup
import Mathlib.Logic.Function.Basic

/-!
# Doubly linked lists of pointers

`container/list` of Go. Elements are numbered in the order in which they were made, and the root of the list has the number 0. Removing an
element makes its pointers nil; `Init` leaves the elements as they are. `Ring` says which elements are linked, in order.
-/

namespace GoLib

open List

/-- A list, with all the elements that were ever made for it. -/
structure LinkedList (V : Type*) where
  next : Nat → Option Nat
  prev : Nat → Option Nat
  /-- The element's pointer to a list is one to this list. -/
  owned : Nat → Bool
  value : Nat → Option V
  len : Int
  made : Nat

namespace LinkedList

variable {V : Type*}

def new : LinkedList V where
  next e := if e = 0 then some 0 else none
  prev e := if e = 0 then some 0 else none
  owned _ := false
  value _ := none
  len := 0
  made := 0

section

variable (l : LinkedList V)

/-- `p.next = n`. -/
def writeNext (p n : Option Nat) : Option (LinkedList V) :=
  p.map fun e => { l with next := Function.update l.next e n }

/-- `p.prev = n`. -/
def writePrev (p n : Option Nat) : Option (LinkedList V) :=
  p.map fun e => { l with prev := Function.update l.prev e n }

/-- `e.prev.next = e.next; e.next.prev = e.prev`, as `remove` and `move` start. -/
def unlink (e : Nat) : Option (LinkedList V) :=
  (l.writeNext (l.prev e) (l.next e)).bind fun l => l.writePrev (l.next e) (l.prev e)

/-- `e.prev = at; e.next = at.next; e.prev.next = e; e.next.prev = e`, as `insert` and `move` do. -/
def link (e place : Nat) : Option (LinkedList V) :=
  let l := { l with prev := Function.update l.prev e (some place) }
  let l := { l with next := Function.update l.next e (l.next place) }
  (l.writeNext (l.prev e) (some e)).bind fun l => l.writePrev (l.next e) (some e)

def init : LinkedList V :=
  { l with next := Function.update l.next 0 (some 0), prev := Function.update l.prev 0 (some 0), len := 0 }

def front : Option Nat := if l.len = 0 then none else l.next 0

def back : Option Nat := if l.len = 0 then none else l.prev 0

/-- `Element.Next`. -/
def nextOf (e : Nat) : Option Nat := if l.owned e ∧ l.next e ≠ some 0 then l.next e else none

def remove (e : Nat) : Option (LinkedList V) :=
  if l.owned e then
    (l.unlink e).map fun l =>
      { l with next := Function.update l.next e none, prev := Function.update l.prev e none
               owned := Function.update l.owned e false, len := l.len - 1 }
  else some l

/-- `PushFront`, with the element it makes. -/
def pushFront (v : V) : Option (Nat × LinkedList V) :=
  let e := l.made + 1
  let l := { l with value := Function.update l.value e (some v), made := e }
  (l.link e 0).map fun l => (e, { l with owned := Function.update l.owned e true, len := l.len + 1 })

def moveToFront (e : Nat) : Option (LinkedList V) :=
  if l.owned e = false ∨ l.next 0 = some e then some l else (l.unlink e).bind fun l => l.link e 0

/-- `e.Value = v`. -/
def setValue (e : Nat) (v : V) : LinkedList V := { l with value := Function.update l.value e (some v) }

/-- The elements that the loop `for e := l.Front(); e != nil; e = e.Next()` visits, for at most `n` of them. -/
def visit (l : LinkedList V) : Nat → Option Nat → Option (List Nat)
  | _, none => some []
  | 0, some _ => none
  | n + 1, some e => (l.visit n (l.nextOf e)).map fun rest => e :: rest

/-- All of them. There are no more than were made, unless the loop does not end. -/
def elements : Option (List Nat) := l.visit l.made l.front

/-! ## Rings -/

def Links (a b : Nat) : Prop := l.next a = some b ∧ l.prev b = some a

structure Ring (es : List Nat) : Prop where
  chain : (0 :: (es ++ [0])).IsChain l.Links
  nodup : (0 :: es).Nodup

end

variable {l l' : LinkedList V} {es as bs : List Nat} {e : Nat}

theorem ring_new : (new : LinkedList V).Ring [] :=
  ⟨isChain_pair.mpr ⟨rfl, rfl⟩, nodup_singleton 0⟩

theorem isChain_strict {R : Nat → Nat → Prop} {xs : List Nat} (h : xs.IsChain R) (hnodup : xs.Nodup) :
    xs.IsChain fun x y => R x y ∧ x ∈ xs ∧ y ∈ xs ∧ some x ≠ xs.getLast? ∧ some y ≠ xs.head? := by
  rw [isChain_iff_getElem] at h ⊢
  intro i hi
  refine ⟨h i hi, getElem_mem _, getElem_mem _, ?_, ?_⟩
  · rw [List.getLast?_eq_getElem?, List.getElem?_eq_getElem (by omega), ne_eq, Option.some.injEq, hnodup.getElem_inj_iff]
    omega
  · rw [List.head?_eq_getElem?, List.getElem?_eq_getElem (by omega), ne_eq, Option.some.injEq, hnodup.getElem_inj_iff]
    omega

/-- What the operations on links leave as it is, and that they make no pointer nil. -/
structure SameElements (l l' : LinkedList V) : Prop where
  owned : l'.owned = l.owned
  value : l'.value = l.value
  len : l'.len = l.len
  made : l'.made = l.made
  next : ∀ x, l.next x ≠ none → l'.next x ≠ none
  prev : ∀ x, l.prev x ≠ none → l'.prev x ≠ none

theorem SameElements.refl (l : LinkedList V) : SameElements l l := ⟨rfl, rfl, rfl, rfl, fun _ h => h, fun _ h => h⟩

theorem SameElements.trans {l'' : LinkedList V} (h : SameElements l l') (h' : SameElements l' l'') : SameElements l l'' :=
  ⟨h'.owned.trans h.owned, h'.value.trans h.value, h'.len.trans h.len, h'.made.trans h.made, fun x hx => h'.next x (h.next x hx),
    fun x hx => h'.prev x (h.prev x hx)⟩

/-! ## Linking and unlinking -/

theorem unlink_eq {p n : Nat} (hp : l.prev e = some p) (hn : l.next e = some n) : l.unlink e =
    some { l with next := Function.update l.next p (some n), prev := Function.update l.prev n (some p) } := by
  have hsame : Function.update l.next p (some n) e = some n := by
    by_cases h : e = p
    · rw [h, Function.update_self]
    · rw [Function.update_of_ne h, hn]
  simp only [unlink, writeNext, writePrev, hp, hn, Option.map_some, Option.bind_some, hsame]

theorem link_eq {n : Nat} (he : e ≠ 0) (hn : l.next 0 = some n) : l.link e 0 =
    some { l with next := Function.update (Function.update l.next e (some n)) 0 (some e)
                  prev := Function.update (Function.update l.prev e (some 0)) n (some e) } := by
  simp only [link, writeNext, writePrev, hn, Function.update_self, Function.update_of_ne he, Option.map_some, Option.bind_some]

theorem update_ne_none {f : Nat → Option Nat} {a b x : Nat} (h : f x ≠ none) : Function.update f a (some b) x ≠ none := by
  by_cases hx : x = a
  · rw [hx, Function.update_self]
    exact nofun
  · rw [Function.update_of_ne hx]
    exact h

theorem ring_split_iff : (0 :: ((as ++ e :: bs) ++ [0])).IsChain l.Links ↔
    (0 :: as).IsChain l.Links ∧ (bs ++ [0]).IsChain l.Links ∧ (∀ p, (0 :: as).getLast? = some p → l.Links p e) ∧
      ∀ n, (bs ++ [0]).head? = some n → l.Links e n := by
  have hshape : 0 :: ((as ++ e :: bs) ++ [0]) = (0 :: as) ++ ([e] ++ (bs ++ [0])) := by simp
  rw [hshape, isChain_append, isChain_append]
  simp [and_assoc, and_comm]

theorem exists_last (as : List Nat) : ∃ p, (0 :: as).getLast? = some p ∧ p ∈ 0 :: as :=
  ⟨(0 :: as).getLast (cons_ne_nil _ _), List.getLast?_eq_getLast_of_ne_nil (cons_ne_nil _ _), getLast_mem _⟩

theorem exists_head (bs : List Nat) : ∃ n, (bs ++ [0]).head? = some n ∧ n ∈ bs ++ [0] := by
  cases bs with
  | nil => exact ⟨0, rfl, mem_singleton_self 0⟩
  | cons b bs => exact ⟨b, rfl, (.head _)⟩

theorem Ring.neighbours (h : l.Ring (as ++ e :: bs)) : ∃ p n, l.prev e = some p ∧ l.next e = some n ∧
    (0 :: as).getLast? = some p ∧ (bs ++ [0]).head? = some n := by
  obtain ⟨-, -, hleft, hright⟩ := ring_split_iff.mp h.chain
  obtain ⟨p, hp, -⟩ := exists_last as
  obtain ⟨n, hn, -⟩ := exists_head bs
  exact ⟨p, n, (hleft p hp).2, (hright n hn).1, hp, hn⟩

/-- Unlinking an element of the ring. -/
theorem Ring.unlink (h : l.Ring (as ++ e :: bs)) : ∃ l', l.unlink e = some l' ∧ l'.Ring (as ++ bs) ∧ SameElements l l' := by
  obtain ⟨p, n, hprev, hnext, hp, hn⟩ := h.neighbours
  obtain ⟨hleft, hright, -, -⟩ := ring_split_iff.mp h.chain
  have hnodup := h.nodup
  rw [nodup_cons, nodup_append] at hnodup
  obtain ⟨hzero, has, hbs, hdisjoint⟩ := hnodup
  have hmem : ∀ {x}, x ∈ as → x ≠ 0 := fun hx h0 => hzero (mem_append_left _ (h0 ▸ hx))
  have hmem' : ∀ {x}, x ∈ bs → x ≠ 0 := fun hx h0 => hzero (mem_append_right _ (mem_cons_of_mem _ (h0 ▸ hx)))
  have hapart : ∀ {x y}, x ∈ as → y ∈ bs → x ≠ y := fun hx hy => hdisjoint _ hx _ (.tail _ hy)
  have hpmem : p = 0 ∨ p ∈ as := mem_cons.mp (mem_of_getLast? hp)
  have hnmem : n ∈ bs ∨ n = 0 := by simpa using mem_of_head? hn
  refine ⟨_, unlink_eq hprev hnext, ⟨?_, ?_⟩, ⟨rfl, rfl, rfl, rfl, fun x hx => update_ne_none hx, fun x hx => update_ne_none hx⟩⟩
  · have hshape : 0 :: ((as ++ bs) ++ [0]) = (0 :: as) ++ (bs ++ [0]) := by simp
    rw [hshape, isChain_append]
    refine ⟨?_, ?_, ?_⟩
    · refine (isChain_strict hleft (nodup_cons.mpr ⟨fun h0 => hmem h0 rfl, has⟩)).imp ?_
      rintro x y ⟨hlinks, -, hy, hxp, hy0⟩
      have hxp : x ≠ p := fun h => hxp (by rw [hp, h])
      have hyn : y ≠ n := by
        rcases mem_cons.mp hy with rfl | hy
        · exact absurd rfl hy0
        · rcases hnmem with hn | rfl
          · exact hapart hy hn
          · exact hmem hy
      exact ⟨(Function.update_of_ne hxp _ _).trans hlinks.1, (Function.update_of_ne hyn _ _).trans hlinks.2⟩
    · have hnodup : (bs ++ [0]).Nodup := by
        rw [nodup_append]
        exact ⟨(nodup_cons.mp hbs).2, nodup_singleton 0, fun x hx y hy => by rw [mem_singleton.mp hy]; exact hmem' hx⟩
      refine (isChain_strict hright hnodup).imp ?_
      rintro x y ⟨hlinks, hx, -, hx0, hyn⟩
      have hyn : y ≠ n := fun h => hyn (by rw [hn, h])
      have hxp : x ≠ p := by
        rcases mem_append.mp hx with hx | hx
        · rcases hpmem with rfl | hp
          · exact hmem' hx
          · exact (hapart hp hx).symm
        · rw [mem_singleton.mp hx] at hx0
          exact absurd List.getLast?_concat.symm hx0
      exact ⟨(Function.update_of_ne hxp _ _).trans hlinks.1, (Function.update_of_ne hyn _ _).trans hlinks.2⟩
    · intro x hx y hy
      cases hp.symm.trans hx
      cases hn.symm.trans hy
      exact ⟨Function.update_self _ _ _, Function.update_self _ _ _⟩
  · rw [nodup_cons, nodup_append]
    refine ⟨?_, has, (nodup_cons.mp hbs).2, fun x hx y hy => hapart hx hy⟩
    intro h0
    rcases mem_append.mp h0 with h0 | h0
    · exact hmem h0 rfl
    · exact hmem' h0 rfl

theorem Ring.link (h : l.Ring es) (he : e ∉ 0 :: es) : ∃ l', l.link e 0 = some l' ∧ l'.Ring (e :: es) ∧ SameElements l l' ∧
    l'.next e ≠ none ∧ l'.prev e ≠ none := by
  obtain ⟨he0, hes⟩ := not_or.mp (fun hor => he (mem_cons.mpr hor))
  obtain ⟨h0, hnodup⟩ := nodup_cons.mp h.nodup
  obtain ⟨n, hn, hnmem⟩ := exists_head es
  obtain ⟨hzero, hchain⟩ := isChain_cons.mp h.chain
  have hnext : l.next 0 = some n := (hzero n hn).1
  have hne : n ≠ e := by
    rintro rfl
    rcases mem_append.mp hnmem with hmem | hmem
    · exact hes hmem
    · exact he0 (mem_singleton.mp hmem)
  refine ⟨_, link_eq he0 hnext, ⟨?_, ?_⟩, ⟨rfl, rfl, rfl, rfl, ?_, ?_⟩, ?_, ?_⟩
  · rw [cons_append, isChain_cons_cons, isChain_cons]
    refine ⟨⟨?_, ?_⟩, ?_, ?_⟩
    · simp only
      rw [Function.update_self]
    · simp only
      rw [Function.update_of_ne hne.symm, Function.update_self]
    · intro y hy
      cases hn.symm.trans hy
      refine ⟨?_, Function.update_self _ _ _⟩
      simp only
      rw [Function.update_of_ne he0, Function.update_self]
    · have hnodup' : (es ++ [0]).Nodup := by
        rw [nodup_append]
        exact ⟨hnodup, nodup_singleton 0, fun x hx y hy hxy => h0 (mem_singleton.mp hy ▸ hxy ▸ hx)⟩
      refine (isChain_strict hchain hnodup').imp ?_
      rintro x y ⟨hlinks, hx, hy, hx0, hyn⟩
      have hyn : y ≠ n := fun h => hyn (by rw [hn, h])
      have hx : x ∈ es := by
        rcases mem_append.mp hx with hx | hx
        · exact hx
        · rw [mem_singleton.mp hx] at hx0
          exact absurd List.getLast?_concat.symm hx0
      have hye : y ≠ e := by
        rintro rfl
        rcases mem_append.mp hy with hy | hy
        · exact hes hy
        · exact he0 (mem_singleton.mp hy)
      constructor
      · simp only
        rw [Function.update_of_ne (ne_of_mem_of_not_mem hx h0), Function.update_of_ne (ne_of_mem_of_not_mem hx hes)]
        exact hlinks.1
      · simp only
        rw [Function.update_of_ne hyn, Function.update_of_ne hye]
        exact hlinks.2
  · rw [nodup_cons, nodup_cons]
    exact ⟨fun hmem => (mem_cons.mp hmem).elim (fun h => he0 h.symm) h0, hes, hnodup⟩
  · exact fun x hx => update_ne_none (update_ne_none hx)
  · exact fun x hx => update_ne_none (update_ne_none hx)
  · simp only
    rw [Function.update_of_ne he0, Function.update_self]
    exact nofun
  · simp only
    rw [Function.update_of_ne hne.symm, Function.update_self]
    exact nofun

/-! ## The operations -/

theorem Ring.congr (h : l.Ring es) (hnext : ∀ x ∈ 0 :: es, l'.next x = l.next x) (hprev : ∀ x ∈ 0 :: es, l'.prev x = l.prev x) :
    l'.Ring es := by
  have hmem : ∀ x ∈ 0 :: (es ++ [0]), x ∈ 0 :: es := by
    intro x hx
    rcases mem_cons.mp hx with rfl | hx
    · exact .head _
    · rcases mem_append.mp hx with hx | hx
      · exact mem_cons_of_mem _ hx
      · rw [mem_singleton.mp hx]
        exact .head _
  refine ⟨h.chain.imp_of_mem_imp ?_, h.nodup⟩
  intro a b ha hb hlinks
  exact ⟨(hnext a (hmem a ha)).trans hlinks.1, (hprev b (hmem b hb)).trans hlinks.2⟩

theorem ring_init (l : LinkedList V) : l.init.Ring [] :=
  ⟨isChain_pair.mpr ⟨by simp [init], by simp [init]⟩, nodup_singleton 0⟩

/-- The pointers of some elements are not nil afterwards if they were not before. -/
def KeepsPointers (l l' : LinkedList V) (P : Nat → Prop) : Prop :=
  ∀ x, P x → (l.next x ≠ none → l'.next x ≠ none) ∧ (l.prev x ≠ none → l'.prev x ≠ none)

/-- `Remove` of a linked element. -/
theorem Ring.remove (h : l.Ring (as ++ e :: bs)) (howned : l.owned e = true) : ∃ l', l.remove e = some l' ∧ l'.Ring (as ++ bs) ∧
    l'.owned = Function.update l.owned e false ∧ l'.value = l.value ∧ l'.len = l.len - 1 ∧ l'.made = l.made ∧
    KeepsPointers l l' fun x => x ≠ e := by
  obtain ⟨l₁, hunlink, hring, hsame⟩ := h.unlink
  have hout : ∀ x ∈ 0 :: (as ++ bs), x ≠ e := by
    have hperm := (@perm_middle _ e as bs).cons 0
    have hnodup := (hperm.trans (List.Perm.swap _ _ _)).nodup_iff.mp h.nodup
    intro x hx hxe
    exact (nodup_cons.mp hnodup).1 (hxe ▸ hx)
  have hremove : l.remove e = some
      { l₁ with next := Function.update l₁.next e none, prev := Function.update l₁.prev e none
                owned := Function.update l₁.owned e false, len := l₁.len - 1 } := by
    rw [LinkedList.remove, if_pos howned, hunlink, Option.map_some]
  refine ⟨_, hremove, ?_, ?_, hsame.value, ?_, hsame.made, ?_⟩
  · refine hring.congr (fun x hx => ?_) (fun x hx => ?_)
    · simp only
      rw [Function.update_of_ne (hout x hx)]
    · simp only
      rw [Function.update_of_ne (hout x hx)]
  · exact congrArg (Function.update · e false) hsame.owned
  · exact congrArg (· - 1) hsame.len
  · intro x hx
    constructor
    · intro hnext
      simp only
      rw [Function.update_of_ne hx]
      exact hsame.next x hnext
    · intro hprev
      simp only
      rw [Function.update_of_ne hx]
      exact hsame.prev x hprev

theorem moveToFront_of_not_owned (h : l.owned e = false) : l.moveToFront e = some l := if_pos (Or.inl h)

/-- `MoveToFront` of a linked element. -/
theorem Ring.moveToFront (h : l.Ring (as ++ e :: bs)) (howned : l.owned e = true) :
    ∃ l', l.moveToFront e = some l' ∧ l'.Ring (e :: (as ++ bs)) ∧ SameElements l l' := by
  by_cases hfirst : l.next 0 = some e
  · -- the element is the first one already
    refine ⟨l, if_pos (Or.inr hfirst), ?_, .refl l⟩
    cases as with
    | nil => exact h
    | cons a as =>
      have hnext : l.next 0 = some a := ((isChain_cons.mp h.chain).1 a rfl).1
      cases hnext.symm.trans hfirst
      have hnodup := (nodup_cons.mp h.nodup).2
      exact absurd (mem_append_right as (.head _)) (nodup_cons.mp hnodup).1
  · obtain ⟨l₁, hunlink, hring, hsame⟩ := h.unlink
    have hperm := (@perm_middle _ e as bs).cons 0
    have hnodup := (hperm.trans (List.Perm.swap _ _ _)).nodup_iff.mp h.nodup
    obtain ⟨l₂, hlink, hring', hsame', -, -⟩ := hring.link (nodup_cons.mp hnodup).1
    refine ⟨l₂, ?_, hring', hsame.trans hsame'⟩
    have hnot : ¬(l.owned e = false ∨ l.next 0 = some e) := by simp [howned, hfirst]
    rw [LinkedList.moveToFront, if_neg hnot, hunlink]
    exact hlink

/-- `MoveToFront` of an element that is not linked any more but still points to the list puts it in front. -/
theorem Ring.moveToFront_stale (h : l.Ring es) (howned : l.owned e = true) (he : e ∉ 0 :: es) (hnext : l.next e ≠ none)
    (hprev : l.prev e ≠ none) : ∃ l', l.moveToFront e = some l' ∧ l'.next 0 = some e := by
  obtain ⟨n, hn⟩ := Option.ne_none_iff_exists'.mp hnext
  obtain ⟨p, hp⟩ := Option.ne_none_iff_exists'.mp hprev
  obtain ⟨m, hm, hmmem⟩ := exists_head es
  have hroot : l.next 0 = some m := ((isChain_cons.mp h.chain).1 m hm).1
  have hme : m ≠ e := by
    rintro rfl
    rcases mem_append.mp hmmem with hmem | hmem
    · exact he (.tail _ hmem)
    · exact he (mem_cons.mpr (Or.inl (mem_singleton.mp hmem)))
  have hnot : ¬(l.owned e = false ∨ l.next 0 = some e) := by simp [howned, hroot, hme]
  have he0 : e ≠ 0 := fun h0 => he (mem_cons.mpr (Or.inl h0))
  obtain ⟨k, hk⟩ := Option.ne_none_iff_exists'.mp (update_ne_none (a := p) (b := n) (show l.next 0 ≠ none by rw [hroot]; exact nofun))
  rw [LinkedList.moveToFront, if_neg hnot, unlink_eq hp hn]
  exact ⟨_, link_eq he0 hk, by simp⟩

theorem Ring.pushFront (h : l.Ring es) (hmade : ∀ x ∈ es, x ≤ l.made) (v : V) : ∃ l', l.pushFront v = some (l.made + 1, l') ∧
    l'.Ring ((l.made + 1) :: es) ∧ l'.owned = Function.update l.owned (l.made + 1) true ∧
    l'.value = Function.update l.value (l.made + 1) (some v) ∧ l'.len = l.len + 1 ∧ l'.made = l.made + 1 ∧
    (KeepsPointers l l' fun _ => True) ∧ l'.next (l.made + 1) ≠ none ∧ l'.prev (l.made + 1) ≠ none := by
  have hring : LinkedList.Ring { l with value := Function.update l.value (l.made + 1) (some v), made := l.made + 1 } es :=
    h.congr (fun _ _ => rfl) (fun _ _ => rfl)
  have hnew : l.made + 1 ∉ 0 :: es := by
    intro hmem
    rcases mem_cons.mp hmem with h0 | hmem
    · omega
    · have := hmade _ hmem
      omega
  obtain ⟨l₁, hlink, hring', hsame, hnext, hprev⟩ := hring.link hnew
  have hpush : l.pushFront v = some (l.made + 1, { l₁ with owned := Function.update l₁.owned (l.made + 1) true, len := l₁.len + 1 }) := by
    simp only [LinkedList.pushFront, hlink, Option.map_some]
  refine ⟨_, hpush, ?_, ?_, hsame.value, ?_, hsame.made, ?_, hnext, hprev⟩
  · exact hring'.congr (fun _ _ => rfl) (fun _ _ => rfl)
  · exact congrArg (Function.update · (l.made + 1) true) hsame.owned
  · exact congrArg (· + 1) hsame.len
  · exact fun x _ => ⟨hsame.next x, hsame.prev x⟩

theorem Ring.next_root (h : l.Ring es) : l.next 0 = (es ++ [0]).head? := by
  obtain ⟨n, hn, -⟩ := exists_head es
  rw [hn]
  exact ((isChain_cons.mp h.chain).1 n hn).1

theorem Ring.prev_root (h : l.Ring es) : l.prev 0 = (0 :: es).getLast? := by
  obtain ⟨p, hp, -⟩ := exists_last es
  have hchain := h.chain
  rw [show 0 :: (es ++ [0]) = (0 :: es) ++ [0] by simp, isChain_append] at hchain
  rw [hp]
  exact (hchain.2.2 p hp 0 rfl).2

theorem Ring.front (h : l.Ring es) (hlen : l.len = es.length) : l.front = es.head? := by
  unfold LinkedList.front
  cases es with
  | nil => exact if_pos hlen
  | cons e es =>
    have hne : l.len ≠ 0 := by
      rw [hlen, length_cons]
      omega
    rw [if_neg hne, h.next_root]
    rfl

theorem Ring.back (h : l.Ring es) (hlen : l.len = es.length) : l.back = es.getLast? := by
  unfold LinkedList.back
  cases es with
  | nil => exact if_pos hlen
  | cons e es =>
    have hne : l.len ≠ 0 := by
      rw [hlen, length_cons]
      omega
    rw [if_neg hne, h.prev_root, List.getLast?_cons_cons]

theorem Ring.nextOf (h : l.Ring (as ++ e :: bs)) (howned : l.owned e = true) : l.nextOf e = bs.head? := by
  obtain ⟨-, n, -, hnext, -, hn⟩ := h.neighbours
  unfold LinkedList.nextOf
  rw [hnext]
  cases bs with
  | nil =>
    obtain rfl := Option.some.inj hn
    simp
  | cons b bs =>
    obtain rfl := Option.some.inj hn
    have hb : b ≠ 0 := by
      rintro rfl
      exact (nodup_cons.mp h.nodup).1 (mem_append_right _ (.tail _ (.head _)))
    simp [howned, hb]

/-- The loop over the elements visits the ring. By induction on the elements that are left. -/
theorem Ring.visit (h : l.Ring (as ++ bs)) (howned : ∀ x ∈ as ++ bs, l.owned x = true) {n : Nat} (hn : bs.length ≤ n) :
    l.visit n bs.head? = some bs := by
  induction bs generalizing as n with
  | nil =>
    cases n with
    | zero => rfl
    | succ n => rfl
  | cons b bs ih =>
    obtain ⟨n, rfl⟩ : ∃ k, n = k + 1 := ⟨n - 1, by rw [length_cons] at hn; omega⟩
    have hnext := h.nextOf (howned b (mem_append_right _ (.head _)))
    have hshape : as ++ b :: bs = (as ++ [b]) ++ bs := by simp
    rw [hshape] at h howned
    rw [List.head?_cons, LinkedList.visit, hnext, ih h howned (by rw [length_cons] at hn; omega), Option.map_some]

theorem Ring.elements (h : l.Ring es) (howned : ∀ x ∈ es, l.owned x = true) (hlen : l.len = es.length) (hmade : es.length ≤ l.made) :
    l.elements = some es := by
  rw [LinkedList.elements, h.front hlen]
  exact @Ring.visit _ _ [] es h howned _ hmade

end LinkedList

end GoLib
