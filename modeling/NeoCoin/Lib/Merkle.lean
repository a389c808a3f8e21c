import Mathlib.Algebra.GroupWithZero.Nat
import Mathlib.Data.List.Nodup
import Mathlib.Data.List.Basic
import Mathlib.Data.List.Induction

/-!
# Binary hash trees that duplicate the last node of an odd level

A level is paired up from the left; a node left over is paired with itself. A list and the list with its trailing nodes repeated have one
root. The root is injective on lists without repetition (`root_inj`) and on lists where nothing is left over on any level (`full_inj`), as
far as `node` is and the leaves are kept apart from the inner nodes.
-/

namespace GoLib

open List
namespace Merkle

variable {α : Type*}

/-- A level paired up from the left, a left-over node with itself. -/
def pairs : List α → List (α × α)
  | [] => []
  | [x] => [(x, x)]
  | x :: y :: rest => (x, y) :: pairs rest

@[simp] theorem pairs_nil : pairs ([] : List α) = [] := rfl

@[simp] theorem pairs_singleton (x : α) : pairs [x] = [(x, x)] := rfl

@[simp] theorem pairs_cons_cons (x y : α) (rest : List α) : pairs (x :: y :: rest) = (x, y) :: pairs rest := rfl

variable {l m : List α} {d : Nat} {r : α}

section

variable (node : α → α → α)

def up (l : List α) : List α := (pairs l).map fun q => node q.1 q.2

/-- `for len(level) > 1 { level = next }`, for at most `n` rounds. -/
def loop : Nat → List α → List α
  | 0, l => l
  | n + 1, l => if l.length ≤ 1 then l else loop n (up node l)

/-- The root of a tree over the leaves. A tree over nothing has none. -/
def root (l : List α) : Option α := (loop node l.length l).head?

def hashedPairs : Nat → List α → List (α × α)
  | 0, _ => []
  | n + 1, l => if l.length ≤ 1 then [] else pairs l ++ hashedPairs n (up node l)

/-! ## Levels -/

theorem map_inj_on {β : Type*} {f : α → β} (hinj : ∀ x ∈ l, ∀ y ∈ m, f x = f y → x = y) (h : l.map f = m.map f) : l = m := by
  induction l generalizing m with
  | nil =>
    cases m with
    | nil => rfl
    | cons _ _ => simp at h
  | cons x l ih =>
    cases m with
    | nil => simp at h
    | cons y m =>
      simp only [map_cons, List.cons.injEq] at h
      rw [hinj x mem_cons_self y mem_cons_self h.1,
        ih (fun x hx y hy => hinj x (.tail _ hx) y (.tail _ hy)) h.2]

theorem pairs_length (l : List α) : (pairs l).length = (l.length + 1) / 2 := by
  induction l using List.twoStepInduction with
  | nil => simp
  | singleton x => simp
  | cons_cons x y rest ih =>
    simp only [pairs_cons_cons, length_cons, ih]
    omega

theorem up_length (l : List α) : (up node l).length = (l.length + 1) / 2 := by
  rw [up, length_map, pairs_length]

/-- Both members of a pair stand in the level. -/
theorem mem_of_mem_pairs : ∀ q ∈ pairs l, q.1 ∈ l ∧ q.2 ∈ l := by
  induction l using List.twoStepInduction with
  | nil => simp
  | singleton x => simp
  | cons_cons x y rest ih =>
    intro q hq
    rcases mem_cons.mp hq with rfl | hq
    · simp
    · exact (ih q hq).imp (fun h => .tail _ (.tail _ h)) fun h => .tail _ (.tail _ h)

theorem pairs_nodup (h : l.Nodup) : (pairs l).Nodup := by
  induction l using List.twoStepInduction with
  | nil => exact nodup_nil
  | singleton x => exact nodup_singleton (x, x)
  | cons_cons x y rest ih =>
    simp only [nodup_cons, mem_cons, not_or] at h
    refine nodup_cons.mpr ⟨?_, ih h.2.2⟩
    intro hq
    exact h.1.2 (mem_of_mem_pairs _ hq).1

theorem pairs_inj (hl : l.Nodup) (hm : m.Nodup) (h : pairs l = pairs m) : l = m := by
  induction l using List.twoStepInduction generalizing m with
  | nil =>
    match m with
    | [] => rfl
    | [_] => simp at h
    | _ :: _ :: _ => simp at h
  | singleton x =>
    match m with
    | [] => simp at h
    | [y] => simpa using h
    | y :: z :: rest =>
      simp only [pairs_singleton, pairs_cons_cons, List.cons.injEq, Prod.mk.injEq] at h
      exact absurd (h.1.1.symm.trans h.1.2) (by simp only [nodup_cons, mem_cons, not_or] at hm; exact hm.1.1)
  | cons_cons x y rest ih =>
    match m with
    | [] => simp at h
    | [z] =>
      simp only [pairs_singleton, pairs_cons_cons, List.cons.injEq, Prod.mk.injEq] at h
      exact absurd (h.1.1.trans h.1.2.symm) (by simp only [nodup_cons, mem_cons, not_or] at hl; exact hl.1.1)
    | z :: w :: rest' =>
      simp only [pairs_cons_cons, List.cons.injEq, Prod.mk.injEq] at h
      simp only [nodup_cons] at hl hm
      rw [h.1.1, h.1.2, ih hl.2.2 hm.2.2 h.2]

/-! ## From the leaves to the root -/

theorem pairs_inj_of_even (hl : 2 ∣ l.length) (hm : 2 ∣ m.length) (h : pairs l = pairs m) : l = m := by
  induction l using List.twoStepInduction generalizing m with
  | nil =>
    match m with
    | [] => rfl
    | [_] | _ :: _ :: _ => simp at h
  | singleton x => exact absurd hl (by simp)
  | cons_cons x y rest ih =>
    match m with
    | [] => simp at h
    | [_] => exact absurd hm (by simp)
    | x' :: y' :: rest' =>
      simp only [pairs_cons_cons, List.cons.injEq, Prod.mk.injEq] at h
      simp only [length_cons] at hl hm
      rw [h.1.1, h.1.2, ih (by omega) (by omega) h.2]

/-- `r` is the root over `l`, `d` levels up, and every pair on the way is in `S`. -/
inductive Rooted (node : α → α → α) (S : α × α → Prop) : Nat → List α → α → Prop where
  | leaf (x : α) : Rooted node S 0 [x] x
  | level {d : Nat} {l : List α} {r : α} : 2 ≤ l.length → (∀ q ∈ pairs l, S q) → Rooted node S d (up node l) r →
      Rooted node S (d + 1) l r

theorem Rooted.forall {node : α → α → α} {S : α × α → Prop} {P : α → Prop} (hnode : ∀ x y, P (node x y))
    (h : Rooted node S d l r) (hl : ∀ x ∈ l, P x) : P r := by
  induction h with
  | leaf x => exact hl x (by simp)
  | level _ _ _ ih =>
    refine ih fun x hx => ?_
    obtain ⟨q, -, rfl⟩ := mem_map.mp hx
    exact hnode q.1 q.2

/-- The loop reaches a root. -/
theorem rooted_loop (S : α × α → Prop) {n : Nat} (hne : l ≠ []) (hn : l.length ≤ n)
    (hS : ∀ q ∈ hashedPairs node n l, S q) : ∃ d r, Rooted node S d l r ∧ loop node n l = [r] := by
  induction n generalizing l with
  | zero =>
    have := length_pos_iff.mpr hne
    omega
  | succ n ih =>
    by_cases h1 : l.length ≤ 1
    · have hl : l.length = 1 := by
        have := length_pos_iff.mpr hne
        omega
      obtain ⟨x, rfl⟩ := length_eq_one_iff.mp hl
      exact ⟨0, x, Rooted.leaf x, by simp [loop]⟩
    · simp only [hashedPairs, h1, if_false, mem_append] at hS
      have hlen := up_length node l
      obtain ⟨d, r, hr, hloop⟩ := ih (l := up node l) (by rw [← length_pos_iff]; omega) (by omega)
        (fun q hq => hS q (Or.inr hq))
      refine ⟨d + 1, r, Rooted.level (by omega) (fun q hq => hS q (Or.inl hq)) hr, ?_⟩
      simp only [loop, h1, if_false, hloop]

theorem root_isSome (h : l ≠ []) : ∃ r, root node l = some r := by
  obtain ⟨_, r, _, hr⟩ := rooted_loop node (fun _ => True) h (Nat.le_refl _) (fun _ _ => trivial)
  exact ⟨r, by rw [root, hr]; rfl⟩

end

theorem hashedPairs_forall {node : α → α → α} {P : α → Prop} (hnode : ∀ x y, P (node x y)) {n : Nat}
    (hl : ∀ x ∈ l, P x) : ∀ q ∈ hashedPairs node n l, P q.1 ∧ P q.2 := by
  induction n generalizing l with
  | zero =>
    intro q hq
    exact absurd hq not_mem_nil
  | succ n ih =>
    intro q hq
    unfold hashedPairs at hq
    split at hq
    · exact absurd hq not_mem_nil
    · rcases mem_append.mp hq with hq | hq
      · exact ⟨hl _ (mem_of_mem_pairs q hq).1, hl _ (mem_of_mem_pairs q hq).2⟩
      · refine ih (fun x hx => ?_) q hq
        obtain ⟨q', -, rfl⟩ := mem_map.mp hx
        exact hnode q'.1 q'.2

/-! ## The root determines a list of different leaves -/

section Injective

variable {node : α → α → α} {S : α × α → Prop} {Leaf : α → Prop}

/-- `x` is the digest of a full tree of `k` levels, over leaves, with every pair in `S`. -/
inductive AtLevel (node : α → α → α) (S : α × α → Prop) (Leaf : α → Prop) : Nat → α → Prop where
  | leaf {x : α} : Leaf x → AtLevel node S Leaf 0 x
  | node {k : Nat} {x y : α} : S (x, y) → AtLevel node S Leaf k x → AtLevel node S Leaf k y →
      AtLevel node S Leaf (k + 1) (node x y)

theorem atLevel_up {k : Nat} (hl : ∀ x ∈ l, AtLevel node S Leaf k x) (hS : ∀ q ∈ pairs l, S q) :
    ∀ x ∈ up node l, AtLevel node S Leaf (k + 1) x := by
  intro x hx
  obtain ⟨q, hq, rfl⟩ := mem_map.mp hx
  exact AtLevel.node (hS q hq) (hl _ (mem_of_mem_pairs q hq).1) (hl _ (mem_of_mem_pairs q hq).2)

theorem Rooted.atLevel {k : Nat} (h : Rooted node S d l r) (hl : ∀ x ∈ l, AtLevel node S Leaf k x) : AtLevel node S Leaf (k + d) r := by
  induction h generalizing k with
  | leaf x => exact hl x (by simp)
  | @level d l r _ hS _ ih =>
    have := ih (atLevel_up hl hS)
    rwa [Nat.add_assoc, Nat.add_comm 1 d] at this

variable (hinj : ∀ x y x' y', S (x, y) → S (x', y') → node x y = node x' y' → x = x' ∧ y = y')

include hinj

theorem up_nodup (h : l.Nodup) (hS : ∀ q ∈ pairs l, S q) : (up node l).Nodup := by
  refine (nodup_map_iff_inj_on (pairs_nodup h)).mpr ?_
  intro q hq q' hq' heq
  obtain ⟨h1, h2⟩ := hinj _ _ _ _ (hS q hq) (hS q' hq') heq
  exact Prod.ext h1 h2

theorem Rooted.inj (h : Rooted node S d l r) (h' : Rooted node S d m r) (hl : l.Nodup) (hm : m.Nodup) : l = m := by
  induction h generalizing m with
  | leaf x =>
    cases h'
    rfl
  | level _ hS _ ih =>
    cases h' with
    | level _ hS' hr' =>
      have hup := ih hr' (up_nodup hinj hl hS) (up_nodup hinj hm hS')
      refine pairs_inj hl hm (map_inj_on (fun q hq q' hq' heq => ?_) hup)
      obtain ⟨h1, h2⟩ := hinj _ _ _ _ (hS q hq) (hS' q' hq') heq
      exact Prod.ext h1 h2

theorem Rooted.inj_of_full (h : Rooted node S d l r) (h' : Rooted node S d m r) (hl : l.length = 2 ^ d)
    (hm : m.length = 2 ^ d) : l = m := by
  induction h generalizing m with
  | leaf x =>
    cases h'
    rfl
  | level _ hS _ ih =>
    cases h' with
    | level _ hS' hr' =>
      rw [Nat.pow_succ] at hl hm
      have hup := ih hr' (by rw [up_length]; omega) (by rw [up_length]; omega)
      refine pairs_inj_of_even ⟨_, hl.trans (Nat.mul_comm _ _)⟩ ⟨_, hm.trans (Nat.mul_comm _ _)⟩
        (map_inj_on (fun q hq q' hq' heq => ?_) hup)
      obtain ⟨h1, h2⟩ := hinj _ _ _ _ (hS q hq) (hS' q' hq') heq
      exact Prod.ext h1 h2

variable (hsep : ∀ x y, S (x, y) → ¬Leaf (node x y))

include hsep

theorem AtLevel.unique {j k : Nat} {x : α} (h : AtLevel node S Leaf j x) (h' : AtLevel node S Leaf k x) : j = k := by
  induction h generalizing k with
  | leaf hx =>
    cases h' with
    | leaf _ => rfl
    | node hS _ _ => exact absurd hx (hsep _ _ hS)
  | @node j x y hS _ _ ihx _ =>
    generalize hz : node x y = z at h'
    cases h' with
    | leaf hx => exact absurd (hz ▸ hx) (hsep _ _ hS)
    | node hS' hx' _ =>
      obtain ⟨rfl, rfl⟩ := hinj _ _ _ _ hS hS' hz
      rw [ihx hx']

theorem root_inj (hl : l.Nodup) (hm : m.Nodup) (hll : ∀ x ∈ l, Leaf x) (hml : ∀ x ∈ m, Leaf x)
    (hSl : ∀ q ∈ hashedPairs node l.length l, S q) (hSm : ∀ q ∈ hashedPairs node m.length m, S q) (hne : l ≠ [])
    (hne' : m ≠ []) (h : root node l = root node m) : l = m := by
  obtain ⟨d, r, hr, hloop⟩ := rooted_loop node S hne (Nat.le_refl _) hSl
  obtain ⟨d', r', hr', hloop'⟩ := rooted_loop node S hne' (Nat.le_refl _) hSm
  rw [root, root, hloop, hloop'] at h
  simp only [List.head?_cons, Option.some.injEq] at h
  subst h
  have h1 := hr.atLevel (k := 0) fun x hx => AtLevel.leaf (hll x hx)
  have h2 := hr'.atLevel (k := 0) fun x hx => AtLevel.leaf (hml x hx)
  have hd : d = d' := by
    have := AtLevel.unique hinj hsep h1 h2
    omega
  subst hd
  exact hr.inj hinj hr' hl hm

theorem full_inj {d' : Nat} (h : Rooted node S d l r) (h' : Rooted node S d' m r) (hl : l.length = 2 ^ d)
    (hm : m.length = 2 ^ d') (hll : ∀ x ∈ l, Leaf x) (hml : ∀ x ∈ m, Leaf x) : l = m := by
  have h1 := h.atLevel (k := 0) fun x hx => AtLevel.leaf (hll x hx)
  have h2 := h'.atLevel (k := 0) fun x hx => AtLevel.leaf (hml x hx)
  have hd : d = d' := by
    have := AtLevel.unique hinj hsep h1 h2
    omega
  subst hd
  exact h.inj_of_full hinj h' hl hm

end Injective

end Merkle
end GoLib
