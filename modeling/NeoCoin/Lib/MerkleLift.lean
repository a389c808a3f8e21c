import Mathlib.Algebra.GroupWithZero.Nat
import Mathlib.Data.List.Induction
import Mathlib.Data.List.Nodup

/-!
# Hash trees whose odd node moves up

A node that is left over on a level moves up as it is, and the branch of a leaf has nothing for that level. Whoever climbs a branch halves
the number of the leaf for each sibling, and so falls out of step with the tree there. Climbing ends in the root exactly when every node
on the way has a sibling (`climb_branch_eq_iff`), as far as the joined pairs and the leaves can be told apart.
-/

namespace GoLib

open List

namespace MerkleLift

variable {α : Type*}

def pairs : List α → List (α × α)
  | x :: y :: rest => (x, y) :: pairs rest
  | _ => []

def up (node : α → α → α) : List α → List α
  | [] => []
  | [x] => [x]
  | x :: y :: rest => node x y :: up node rest

def loop (node : α → α → α) : Nat → List α → List α
  | 0, l => l
  | n + 1, l => if 1 < l.length then loop node n (up node l) else l

def sibling (l : List α) (i : Nat) : Option α := if i % 2 = 0 then l[i + 1]? else l[i - 1]?

def branch (node : α → α → α) : Nat → List α → Nat → List α
  | 0, _, _ => []
  | n + 1, l, i => if 1 < l.length then (sibling l i).toList ++ branch node n (up node l) (i / 2) else []

/-- A node and its sibling in the order in which they are joined. -/
def beside (i : Nat) (x s : α) : α × α := if i % 2 = 0 then (x, s) else (s, x)

def climb (node : α → α → α) : List α → α → Nat → α
  | [], x, _ => x
  | s :: rest, x, i => climb node rest (node (beside i x s).1 (beside i x s).2) (i / 2)

def treePairs (node : α → α → α) : Nat → List α → List (α × α)
  | 0, _ => []
  | n + 1, l => if 1 < l.length then pairs l ++ treePairs node n (up node l) else []

def climbPairs (node : α → α → α) : List α → α → Nat → List (α × α)
  | [], _, _ => []
  | s :: rest, x, i => beside i x s :: climbPairs node rest (node (beside i x s).1 (beside i x s).2) (i / 2)

/-- Each node on the way up from number `i` of a level has a sibling. -/
def Paired : Nat → Nat → Nat → Prop
  | 0, _, _ => True
  | n + 1, len, i => 1 < len → (i % 2 = 0 → i + 1 < len) ∧ Paired n ((len + 1) / 2) (i / 2)

instance decidablePaired : ∀ n len i, Decidable (Paired n len i)
  | 0, _, _ => inferInstanceAs (Decidable True)
  | n + 1, len, i =>
    have := decidablePaired n ((len + 1) / 2) (i / 2)
    inferInstanceAs (Decidable (_ → _ ∧ _))

variable {node : α → α → α} {l : List α} {i n v : Nat} {x y s r : α}

/-! ## One level -/

theorem length_up (node : α → α → α) (l : List α) : (up node l).length = (l.length + 1) / 2 := by
  induction l using List.twoStepInduction with
  | nil => simp [up]
  | singleton x => simp [up]
  | cons_cons x y rest ih _ =>
    rw [up, length_cons, ih, length_cons, length_cons]
    omega

theorem sibling_cons_cons (x y : α) (rest : List α) (i : Nat) : sibling (x :: y :: rest) (i + 2) = sibling rest i := by
  unfold sibling
  rw [Nat.add_mod_right]
  split
  · rfl
  · obtain ⟨j, rfl⟩ : ∃ j, i = j + 1 := ⟨i - 1, by omega⟩
    rfl

/-- What a node and its sibling become; a node without one stays as it is. -/
def lift (node : α → α → α) (i : Nat) (x : α) : Option α → α
  | some s => node (beside i x s).1 (beside i x s).2
  | none => x

theorem up_getElem? (node : α → α → α) (hx : l[i]? = some x) : (up node l)[i / 2]? = some (lift node i x (sibling l i)) := by
  induction l using List.twoStepInduction generalizing i with
  | nil => cases hx
  | singleton x' =>
    obtain ⟨hi, rfl⟩ := List.getElem?_eq_some_iff.mp hx
    obtain rfl : i = 0 := Nat.lt_one_iff.mp hi
    rfl
  | cons_cons x' y' rest ih _ =>
    match i with
    | 0 =>
      cases hx
      rfl
    | 1 =>
      cases hx
      rfl
    | i + 2 =>
      have hhalf : (i + 2) / 2 = i / 2 + 1 := Nat.add_div_right i (by decide)
      have hsame : lift node (i + 2) x (sibling rest i) = lift node i x (sibling rest i) := by
        cases sibling rest i <;> simp [lift, beside]
      rw [hhalf, up, List.getElem?_cons_succ, ih hx, sibling_cons_cons, hsame]

theorem beside_mem_pairs (hx : l[i]? = some x) (hs : sibling l i = some s) : beside i x s ∈ pairs l := by
  induction l using List.twoStepInduction generalizing i with
  | nil => cases hx
  | singleton x' =>
    obtain ⟨hi, rfl⟩ := List.getElem?_eq_some_iff.mp hx
    obtain rfl : i = 0 := Nat.lt_one_iff.mp hi
    cases hs
  | cons_cons x' y' rest ih _ =>
    match i with
    | 0 =>
      cases hx
      cases hs
      exact .head _
    | 1 =>
      cases hx
      cases hs
      exact .head _
    | i + 2 =>
      rw [sibling_cons_cons] at hs
      have hrest := ih hx hs
      have hsame : beside (i + 2) x s = beside i x s := by simp [beside]
      rw [hsame]
      exact mem_cons_of_mem _ hrest

theorem sibling_eq_none_iff (hi : i < l.length) : sibling l i = none ↔ i % 2 = 0 ∧ i + 1 = l.length := by
  unfold sibling
  split
  · rename_i heven
    rw [List.getElem?_eq_none_iff]
    omega
  · rename_i hodd
    rw [List.getElem?_eq_none_iff]
    omega

theorem lt_of_getElem? (hx : l[i]? = some x) : i < l.length := (List.getElem?_eq_some_iff.mp hx).1

/-! ## With a sibling on every level -/

theorem eq_of_loop_short (hx : l[i]? = some x) (hshort : ¬1 < l.length) (h : loop node n l = [r]) : x = r := by
  have hi := lt_of_getElem? hx
  obtain rfl : i = 0 := by omega
  have hl : l = [r] := by
    cases n with
    | zero => exact h
    | succ n =>
      rw [loop, if_neg hshort] at h
      exact h
  rw [hl] at hx
  exact (Option.some.inj hx).symm

/-- The branch of a node leads to the root. By induction on the levels. -/
theorem climb_branch (hx : l[i]? = some x) (h : loop node n l = [r]) (hpaired : Paired n l.length i) :
    climb node (branch node n l i) x i = r := by
  induction n generalizing l i x with
  | zero => exact eq_of_loop_short hx (by rw [show l = [r] from h]; simp) h
  | succ n ih =>
    by_cases hlong : 1 < l.length
    · obtain ⟨hsib, hpaired⟩ := hpaired hlong
      rw [loop, if_pos hlong] at h
      rw [branch, if_pos hlong]
      have hup := up_getElem? node hx
      have hi := lt_of_getElem? hx
      cases hs : sibling l i with
      | none =>
        obtain ⟨heven, hlast⟩ := (sibling_eq_none_iff hi).mp hs
        have := hsib heven
        omega
      | some s =>
        rw [hs] at hup
        exact ih hup h (by rw [length_up]; exact hpaired)
    · rw [branch, if_neg hlong]
      exact eq_of_loop_short hx hlong h

/-! ## Out of step -/

section OutOfStep

variable {S : List (α × α)}

def JoinsInj (node : α → α → α) (S : List (α × α)) : Prop := ∀ p ∈ S, ∀ q ∈ S, node p.1 p.2 = node q.1 q.2 → p = q

/-- The tree from a level on joins pairs of `S`, each of two different nodes. -/
structure Proper (node : α → α → α) (S : List (α × α)) (n : Nat) (l : List α) : Prop where
  mem : ∀ p ∈ treePairs node n l, p ∈ S
  ne : ∀ p ∈ treePairs node n l, p.1 ≠ p.2

theorem Proper.up (h : Proper node S (n + 1) l) (hlong : 1 < l.length) : Proper node S n (up node l) := by
  have hmem : ∀ p ∈ treePairs node n (MerkleLift.up node l), p ∈ treePairs node (n + 1) l := by
    intro p hp
    rw [treePairs, if_pos hlong]
    exact mem_append_right _ hp
  exact ⟨fun p hp => h.mem p (hmem p hp), fun p hp => h.ne p (hmem p hp)⟩

theorem Proper.beside (h : Proper node S (n + 1) l) (hlong : 1 < l.length) (hx : l[i]? = some x) (hs : sibling l i = some s) :
    beside i x s ∈ S ∧ x ≠ s := by
  have hmem : MerkleLift.beside i x s ∈ treePairs node (n + 1) l := by
    rw [treePairs, if_pos hlong]
    exact mem_append_left _ (beside_mem_pairs hx hs)
  refine ⟨h.mem _ hmem, fun heq => h.ne _ hmem ?_⟩
  unfold MerkleLift.beside
  split
  · exact heq
  · exact heq.symm

theorem join_ne (hinj : JoinsInj node S) (hp : beside i x s ∈ S) (hq : beside v y s ∈ S) (hxs : x ≠ s) (hne : y ≠ x ∨ i % 2 ≠ v % 2) :
    node (beside v y s).1 (beside v y s).2 ≠ node (beside i x s).1 (beside i x s).2 := by
  intro heq
  have hpair := hinj _ hq _ hp heq
  unfold beside at hpair
  by_cases hi : i % 2 = 0
  · by_cases hv : v % 2 = 0
    · rw [if_pos hi, if_pos hv] at hpair
      rcases hne with hne | hside
      · exact hne (Prod.mk.inj hpair).1
      · exact hside (hi.trans hv.symm)
    · rw [if_pos hi, if_neg hv] at hpair
      exact hxs (Prod.mk.inj hpair).1.symm
  · by_cases hv : v % 2 = 0
    · rw [if_neg hi, if_pos hv] at hpair
      exact hxs (Prod.mk.inj hpair).2.symm
    · rw [if_neg hi, if_neg hv] at hpair
      rcases hne with hne | hside
      · exact hne (Prod.mk.inj hpair).2
      · omega

/-- Where a climb has lost the node `x` of number `i`: it is at another node; or it is at that node, the last of its level, with a
multiple of its number by a power of two. At the next level with a sibling they differ in the side. -/
def Astray (l : List α) (i : Nat) (x : α) (v : Nat) (y : α) : Prop :=
  y ≠ x ∨ 1 < l.length ∧ i + 1 = l.length ∧ ∃ k, v = 2 ^ (k + 1) * i

theorem Astray.up (node : α → α → α) (h : Astray l i x v y) (hi : i < l.length) (hs : sibling l i = none) :
    Astray (up node l) (i / 2) x v y := by
  obtain ⟨heven, -⟩ := (sibling_eq_none_iff hi).mp hs
  rcases h with hne | ⟨hlong, hlast, k, rfl⟩
  · exact Or.inl hne
  · rw [Astray, length_up]
    refine Or.inr ⟨by omega, by omega, k + 1, ?_⟩
    have hhalf : i = 2 * (i / 2) := by omega
    conv_lhs => rw [hhalf, ← Nat.mul_assoc, ← Nat.pow_succ]

theorem Astray.join_ne (h : Astray l i x v y) (hi : i < l.length) (hs : sibling l i = some s) (hinj : JoinsInj node S)
    (hp : beside i x s ∈ S) (hq : beside v y s ∈ S) (hxs : x ≠ s) :
    node (beside v y s).1 (beside v y s).2 ≠ node (beside i x s).1 (beside i x s).2 := by
  refine MerkleLift.join_ne hinj hp hq hxs (h.imp_right ?_)
  rintro ⟨-, hlast, k, rfl⟩
  have hodd : i % 2 ≠ 0 := by
    intro heven
    rw [(sibling_eq_none_iff hi).mpr ⟨heven, hlast⟩] at hs
    cases hs
  rw [Nat.pow_succ', Nat.mul_assoc, Nat.mul_mod_right]
  exact hodd

/-- A climb that went astray does not come back to the tree. By induction on the levels. -/
theorem climb_ne_of_astray (hinj : JoinsInj node S) (hx : l[i]? = some x) (h : loop node n l = [r]) (htree : Proper node S n l)
    (hclimb : ∀ p ∈ climbPairs node (branch node n l i) y v, p ∈ S) (hastray : Astray l i x v y) :
    climb node (branch node n l i) y v ≠ r := by
  have hshort : ¬1 < l.length → y ≠ x := fun hshort => hastray.resolve_right fun hlast => hshort hlast.1
  induction n generalizing l i x y v with
  | zero =>
    have hone : ¬1 < l.length := by rw [show l = [r] from h]; simp
    rw [← eq_of_loop_short hx hone h]
    exact hshort hone
  | succ n ih =>
    by_cases hlong : 1 < l.length
    · rw [loop, if_pos hlong] at h
      rw [branch, if_pos hlong] at hclimb ⊢
      have hup := up_getElem? node hx
      have hi := lt_of_getElem? hx
      cases hs : sibling l i with
      | none =>
        rw [hs] at hup hclimb
        have hnext := hastray.up node hi hs
        exact ih hup h (htree.up hlong) hclimb hnext fun hshort => hnext.resolve_right fun hlast => hshort hlast.1
      | some s =>
        rw [hs] at hup hclimb
        obtain ⟨hp, hxs⟩ := htree.beside hlong hx hs
        have hne := hastray.join_ne hi hs hinj hp (hclimb _ (.head _)) hxs
        exact ih hup h (htree.up hlong) (fun p hp => hclimb p (.tail _ hp)) (Or.inl hne) fun _ => hne
    · rw [branch, if_neg hlong, ← eq_of_loop_short hx hlong h]
      exact hshort hlong

theorem climb_ne_of_not_paired (hinj : JoinsInj node S) (hx : l[i]? = some x) (h : loop node n l = [r]) (htree : Proper node S n l)
    (hclimb : ∀ p ∈ climbPairs node (branch node n l i) x i, p ∈ S) (hnot : ¬Paired n l.length i) :
    climb node (branch node n l i) x i ≠ r := by
  induction n generalizing l i x with
  | zero => exact absurd trivial hnot
  | succ n ih =>
    by_cases hlong : 1 < l.length
    · rw [loop, if_pos hlong] at h
      rw [branch, if_pos hlong] at hclimb ⊢
      have hi := lt_of_getElem? hx
      have hup := up_getElem? node hx
      cases hs : sibling l i with
      | none =>
        obtain ⟨heven, hlast⟩ := (sibling_eq_none_iff hi).mp hs
        rw [hs] at hup hclimb
        refine climb_ne_of_astray hinj hup h (htree.up hlong) hclimb (Or.inr ?_)
        rw [length_up]
        exact ⟨by omega, by omega, 0, by omega⟩
      | some s =>
        rw [hs] at hup hclimb
        refine ih hup h (htree.up hlong) (fun p hp => hclimb p (.tail _ hp)) ?_
        rw [length_up]
        intro hpaired
        refine hnot fun _ => ⟨fun heven => ?_, hpaired⟩
        by_contra hend
        have hnone := (sibling_eq_none_iff hi).mpr ⟨heven, by omega⟩
        rw [hnone] at hs
        cases hs
    · exact absurd (fun hlong' => absurd hlong' hlong) hnot

end OutOfStep

/-! ## Siblings differ

A tree of leaves is told from another one by its value, as far as the leaves and the joined pairs are: no leaf is the value of a pair, and
different leaves and different pairs have different values. Trees with different leaves are different, and so are siblings.
-/

section Trees

inductive Tree (M : Type*) where
  | leaf (m : M)
  | node (left right : Tree M)

variable {M : Type*}

namespace Tree

def leaves : Tree M → List M
  | .leaf m => [m]
  | .node left right => left.leaves ++ right.leaves

variable (leaf : M → α) (node : α → α → α)

def val : Tree M → α
  | .leaf m => leaf m
  | .node left right => node left.val right.val

def joined : Tree M → List (α × α)
  | .leaf _ => []
  | .node left right => (left.val leaf node, right.val leaf node) :: (left.joined ++ right.joined)

end Tree

variable {leaf : M → α} {ms : List M} {S : List (α × α)}

/-- The leaves and the pairs can be told apart by their hashes. -/
structure Apart (leaf : M → α) (node : α → α → α) (ms : List M) (S : List (α × α)) : Prop where
  leaf_inj : ∀ m ∈ ms, ∀ m' ∈ ms, leaf m = leaf m' → m = m'
  join_inj : JoinsInj node S
  leaf_ne : ∀ m ∈ ms, ∀ p ∈ S, leaf m ≠ node p.1 p.2

/-- The trees over messages and pairs that can be told apart. -/
structure Tree.Over (leaf : M → α) (node : α → α → α) (ms : List M) (S : List (α × α)) (t : Tree M) : Prop where
  leaves : ∀ m ∈ t.leaves, m ∈ ms
  joined : ∀ p ∈ t.joined leaf node, p ∈ S

theorem Tree.Over.left {t u : Tree M} (h : (Tree.node t u).Over leaf node ms S) : t.Over leaf node ms S :=
  ⟨fun m hm => h.leaves m (mem_append_left _ hm), fun p hp => h.joined p (mem_cons_of_mem _ (mem_append_left _ hp))⟩

theorem Tree.Over.right {t u : Tree M} (h : (Tree.node t u).Over leaf node ms S) : u.Over leaf node ms S :=
  ⟨fun m hm => h.leaves m (mem_append_right _ hm), fun p hp => h.joined p (mem_cons_of_mem _ (mem_append_right _ hp))⟩

theorem Tree.val_inj (hapart : Apart leaf node ms S) {t u : Tree M} (ht : t.Over leaf node ms S) (hu : u.Over leaf node ms S)
    (h : t.val leaf node = u.val leaf node) : t = u := by
  induction t generalizing u with
  | leaf m =>
    cases u with
    | leaf m' => rw [hapart.leaf_inj m (ht.leaves m (.head _)) m' (hu.leaves m' (.head _)) h]
    | node u₁ u₂ => exact absurd h (hapart.leaf_ne m (ht.leaves m (.head _)) _ (hu.joined _ (.head _)))
  | node t₁ t₂ ih₁ ih₂ =>
    cases u with
    | leaf m => exact absurd h.symm (hapart.leaf_ne m (hu.leaves m (.head _)) _ (ht.joined _ (.head _)))
    | node u₁ u₂ =>
      have hpair := hapart.join_inj _ (ht.joined _ (.head _)) _ (hu.joined _ (.head _)) h
      obtain ⟨h₁, h₂⟩ := Prod.mk.inj hpair
      rw [ih₁ ht.left hu.left h₁, ih₂ ht.right hu.right h₂]

theorem Tree.leaves_ne_nil (t : Tree M) : t.leaves ≠ [] := by
  induction t with
  | leaf m => exact cons_ne_nil m []
  | node t u iht _ => exact append_ne_nil_of_left_ne_nil iht _

theorem up_map (ts : List (Tree M)) : up node (ts.map (Tree.val leaf node)) = (up Tree.node ts).map (Tree.val leaf node) := by
  induction ts using List.twoStepInduction with
  | nil => rfl
  | singleton t => rfl
  | cons_cons t u rest ih _ =>
    rw [map_cons, map_cons, up, ih, up, map_cons]
    rfl

theorem leaves_up (ts : List (Tree M)) : (up Tree.node ts).flatMap Tree.leaves = ts.flatMap Tree.leaves := by
  induction ts using List.twoStepInduction with
  | nil => rfl
  | singleton t => rfl
  | cons_cons t u rest ih _ =>
    rw [up, flatMap_cons, ih, flatMap_cons, flatMap_cons, Tree.leaves, append_assoc]

theorem pairs_map {β : Type*} (f : β → α) (ts : List β) : pairs (ts.map f) = (pairs ts).map fun p => (f p.1, f p.2) := by
  induction ts using List.twoStepInduction with
  | nil => rfl
  | singleton t => rfl
  | cons_cons t u rest ih _ => rw [map_cons, map_cons, pairs, ih, pairs, map_cons]

theorem mem_of_mem_up {t : Tree M} {ts : List (Tree M)} (h : t ∈ up Tree.node ts) :
    t ∈ ts ∨ ∃ p ∈ pairs ts, p.1 ∈ ts ∧ p.2 ∈ ts ∧ t = .node p.1 p.2 := by
  induction ts using List.twoStepInduction with
  | nil => cases h
  | singleton u => exact Or.inl h
  | cons_cons u w rest ih _ =>
    rcases mem_cons.mp h with rfl | h
    · exact Or.inr ⟨(u, w), (.head _), (.head _), mem_cons_of_mem _ (.head _), rfl⟩
    · rcases ih h with h | ⟨p, hp, h₁, h₂, rfl⟩
      · exact Or.inl (mem_cons_of_mem _ (.tail _ h))
      · exact Or.inr ⟨p, mem_cons_of_mem _ hp, mem_cons_of_mem _ (.tail _ h₁),
          mem_cons_of_mem _ (.tail _ h₂), rfl⟩

theorem ne_of_mem_pairs {ts : List (Tree M)} (hnodup : (ts.flatMap Tree.leaves).Nodup) {p : Tree M × Tree M} (hp : p ∈ pairs ts) :
    p.1 ≠ p.2 ∧ p.1 ∈ ts ∧ p.2 ∈ ts := by
  induction ts using List.twoStepInduction with
  | nil => cases hp
  | singleton t => cases hp
  | cons_cons t u rest ih _ =>
    rw [flatMap_cons, flatMap_cons] at hnodup
    rcases mem_cons.mp hp with rfl | hp
    · refine ⟨?_, (.head _), mem_cons_of_mem _ (.head _)⟩
      intro (heq : t = u)
      subst heq
      obtain ⟨m, hm⟩ := exists_mem_of_ne_nil _ t.leaves_ne_nil
      exact (disjoint_of_nodup_append hnodup) hm (mem_append_left _ hm)
    · obtain ⟨hne, h₁, h₂⟩ := ih hnodup.of_append_right.of_append_right hp
      exact ⟨hne, mem_cons_of_mem _ (.tail _ h₁), mem_cons_of_mem _ (.tail _ h₂)⟩

/-- Siblings differ on every level over trees with different leaves. By induction on the levels. -/
theorem proper_of_trees (hapart : Apart leaf node ms S) {ts : List (Tree M)} (hnodup : (ts.flatMap Tree.leaves).Nodup)
    (hover : ∀ t ∈ ts, t.Over leaf node ms S) (htree : ∀ p ∈ treePairs node n (ts.map (Tree.val leaf node)), p ∈ S) :
    Proper node S n (ts.map (Tree.val leaf node)) := by
  refine ⟨htree, ?_⟩
  induction n generalizing ts with
  | zero => exact fun p hp => absurd hp not_mem_nil
  | succ n ih =>
    intro p hp
    rw [treePairs] at hp htree
    split at hp
    · rename_i hlong
      rw [if_pos hlong] at htree
      rw [up_map, pairs_map] at hp htree
      rcases mem_append.mp hp with hp | hp
      · obtain ⟨q, hq, rfl⟩ := mem_map.mp hp
        obtain ⟨hne, h₁, h₂⟩ := ne_of_mem_pairs hnodup hq
        exact fun heq => hne (Tree.val_inj hapart (hover _ h₁) (hover _ h₂) heq)
      · refine ih (by rw [leaves_up]; exact hnodup) ?_ (fun q hq => htree q (mem_append_right _ hq)) p hp
        intro t ht
        rcases mem_of_mem_up ht with ht | ⟨q, hq, h₁, h₂, rfl⟩
        · exact hover t ht
        · have hpair := htree _ (mem_append_left _ (mem_map_of_mem hq))
          refine ⟨fun m hm => ?_, fun w hw => ?_⟩
          · rcases mem_append.mp hm with hm | hm
            · exact (hover _ h₁).leaves m hm
            · exact (hover _ h₂).leaves m hm
          · rcases mem_cons.mp hw with rfl | hw
            · exact hpair
            · rcases mem_append.mp hw with hw | hw
              · exact (hover _ h₁).joined w hw
              · exact (hover _ h₂).joined w hw
    · cases hp

theorem climb_branch_eq_iff {m : M} (hnodup : ms.Nodup) (hapart : Apart leaf node ms S)
    (htree : ∀ p ∈ treePairs node n (ms.map leaf), p ∈ S)
    (hclimb : ∀ p ∈ climbPairs node (branch node n (ms.map leaf) i) (leaf m) i, p ∈ S) (hm : ms[i]? = some m)
    (h : loop node n (ms.map leaf) = [r]) : climb node (branch node n (ms.map leaf) i) (leaf m) i = r ↔ Paired n ms.length i := by
  have hx : (ms.map leaf)[i]? = some (leaf m) := by
    rw [List.getElem?_map, hm]
    rfl
  have hleaves : ms.map leaf = (ms.map Tree.leaf).map (Tree.val leaf node) := by
    rw [map_map]
    rfl
  have hproper : Proper node S n (ms.map leaf) := by
    rw [hleaves] at htree ⊢
    refine proper_of_trees hapart ?_ ?_ htree
    · rw [flatMap_map]
      simpa [Tree.leaves] using hnodup
    · intro t ht
      obtain ⟨m', hm', rfl⟩ := mem_map.mp ht
      refine ⟨fun a ha => ?_, fun p hp => absurd hp not_mem_nil⟩
      rw [mem_singleton.mp ha]
      exact hm'
  have hlength : (ms.map leaf).length = ms.length := length_map _
  constructor
  · intro heq
    by_contra hnot
    rw [← hlength] at hnot
    exact climb_ne_of_not_paired hapart.join_inj hx h hproper hclimb hnot heq
  · intro hpaired
    exact climb_branch hx h (by rw [hlength]; exact hpaired)

end Trees

/-! ## The level that is left -/

theorem loop_singleton (hl : l ≠ []) (hn : l.length ≤ n + 1) : ∃ r, loop node n l = [r] := by
  induction n generalizing l with
  | zero =>
    obtain ⟨r, rfl⟩ := length_eq_one_iff.mp (show l.length = 1 by have := length_pos_iff.mpr hl; omega)
    exact ⟨r, rfl⟩
  | succ n ih =>
    have hpos := length_pos_iff.mpr hl
    by_cases hlong : 1 < l.length
    · rw [loop, if_pos hlong]
      refine ih ?_ ?_
      · rw [← length_pos_iff, length_up]
        omega
      · rw [length_up]
        omega
    · rw [loop, if_neg hlong]
      exact length_eq_one_iff.mp (by omega)

section Forall

variable {P : α → Prop}

theorem forall_pairs (hl : ∀ x ∈ l, P x) : ∀ p ∈ pairs l, P p.1 ∧ P p.2 := by
  intro p hp
  induction l using List.twoStepInduction with
  | nil => cases hp
  | singleton x => cases hp
  | cons_cons x y rest ih _ =>
    rcases mem_cons.mp hp with rfl | hp
    · exact ⟨hl _ (.head _), hl _ (.tail _ (.head _))⟩
    · exact ih (fun z hz => hl z (mem_cons_of_mem _ (.tail _ hz))) hp

theorem forall_up (hnode : ∀ x y, P (node x y)) (hl : ∀ x ∈ l, P x) : ∀ x ∈ up node l, P x := by
  intro z hz
  induction l using List.twoStepInduction with
  | nil => cases hz
  | singleton x => exact hl z hz
  | cons_cons x y rest ih _ =>
    rcases mem_cons.mp hz with rfl | hz
    · exact hnode _ _
    · exact ih (fun z hz => hl z (mem_cons_of_mem _ (.tail _ hz))) hz

theorem forall_treePairs (hnode : ∀ x y, P (node x y)) (hl : ∀ x ∈ l, P x) : ∀ p ∈ treePairs node n l, P p.1 ∧ P p.2 := by
  induction n generalizing l with
  | zero => exact fun p hp => absurd hp not_mem_nil
  | succ n ih =>
    intro p hp
    rw [treePairs] at hp
    split at hp
    · rcases mem_append.mp hp with hp | hp
      · exact forall_pairs hl p hp
      · exact ih (forall_up hnode hl) p hp
    · cases hp

theorem mem_of_sibling (hs : sibling l i = some s) : s ∈ l := by
  unfold sibling at hs
  split at hs
  · exact mem_of_getElem? hs
  · exact mem_of_getElem? hs

theorem forall_branch (hnode : ∀ x y, P (node x y)) (hl : ∀ x ∈ l, P x) : ∀ x ∈ branch node n l i, P x := by
  induction n generalizing l i with
  | zero => exact fun x hx => absurd hx not_mem_nil
  | succ n ih =>
    intro x hx
    rw [branch] at hx
    split at hx
    · rcases mem_append.mp hx with hx | hx
      · exact hl x (mem_of_sibling (Option.mem_toList.mp hx))
      · exact ih (forall_up hnode hl) x hx
    · cases hx

theorem forall_climbPairs (hnode : ∀ x y, P (node x y)) {sibs : List α} (hsibs : ∀ s ∈ sibs, P s) (hx : P x) :
    ∀ p ∈ climbPairs node sibs x i, P p.1 ∧ P p.2 := by
  induction sibs generalizing x i with
  | nil => exact fun p hp => absurd hp not_mem_nil
  | cons s rest ih =>
    intro p hp
    rcases mem_cons.mp hp with rfl | hp
    · unfold beside
      split
      · exact ⟨hx, hsibs s (.head _)⟩
      · exact ⟨hsibs s (.head _), hx⟩
    · exact ih (fun t ht => hsibs t (.tail _ ht)) (hnode _ _) p hp

end Forall

end MerkleLift
end GoLib
