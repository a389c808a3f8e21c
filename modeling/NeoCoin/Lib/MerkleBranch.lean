import NeoCoin.Lib.Merkle
import Mathlib.Data.List.GetD

/-!
# Branches of a hash tree

A branch is the list of siblings on the way from a leaf to the root. Climbing the branch of a leaf gives the root (`climb_branch`), and
whoever climbs to the root, by siblings of any number, started at a leaf (`Rooted.mem_of_climb`).
-/

namespace GoLib

open List
variable {i n d : Nat}

namespace Merkle

variable {α : Type*}

/-- A node and its sibling in the order in which they are hashed. The flag says that the sibling stands on the left. -/
def beside (s : α × Bool) (x : α) : α × α := if s.2 then (s.1, x) else (x, s.1)

theorem eq_fst_or_snd_beside (s : α × Bool) (x : α) : x = (beside s x).1 ∨ x = (beside s x).2 := by
  unfold beside
  split
  · exact Or.inr rfl
  · exact Or.inl rfl

def climb (node : α → α → α) : α → List (α × Bool) → α
  | x, [] => x
  | x, s :: rest => climb node (node (beside s x).1 (beside s x).2) rest

def climbPairs (node : α → α → α) : α → List (α × Bool) → List (α × α)
  | _, [] => []
  | x, s :: rest => beside s x :: climbPairs node (node (beside s x).1 (beside s x).2) rest

/-- The sibling of a node of a level: its neighbour, or itself if it is left over. -/
def sibling [Inhabited α] (l : List α) (i : Nat) : α × Bool :=
  if i % 2 = 0 then (if i + 1 < l.length then l.getD (i + 1) default else l.getD i default, false)
  else (l.getD (i - 1) default, true)

/-- The siblings on the way to the root, for at most `n` levels. -/
def branch [Inhabited α] (node : α → α → α) : Nat → List α → Nat → List (α × Bool)
  | 0, _, _ => []
  | n + 1, l, i => if l.length ≤ 1 then [] else sibling l i :: branch node n (up node l) (i / 2)

/-! ## The branch of a leaf leads to the root -/

variable {l : List α} {r : α}

section Complete

variable [Inhabited α]

theorem sibling_cons_cons (x y : α) (rest : List α) (i : Nat) : sibling (x :: y :: rest) (i + 2) = sibling rest i := by
  unfold sibling
  rw [Nat.add_mod_right]
  split
  · simp only [length_cons, getD_cons_succ]
    split
    · rw [if_pos (by omega)]
    · rw [if_neg (by omega)]
  · obtain ⟨j, rfl⟩ : ∃ j, i = j + 1 := ⟨i - 1, by omega⟩
    rfl

theorem pairs_getElem? (hi : i < l.length) : (pairs l)[i / 2]? = some (beside (sibling l i) (l.getD i default)) := by
  fun_induction pairs l generalizing i with
  | case1 => exact absurd hi (Nat.not_lt_zero i)
  | case2 x =>
    obtain rfl : i = 0 := Nat.lt_one_iff.mp hi
    rfl
  | case3 x y rest ih =>
    match i with
    | 0 => rfl
    | 1 => rfl
    | i + 2 =>
      have hhalf : (i + 2) / 2 = i / 2 + 1 := Nat.add_div_right i (by decide)
      rw [hhalf, List.getElem?_cons_succ, sibling_cons_cons, ih (by simpa using hi)]
      rfl

theorem up_getElem? (node : α → α → α) (hi : i < l.length) : (up node l)[i / 2]? =
      some (node (beside (sibling l i) (l.getD i default)).1 (beside (sibling l i) (l.getD i default)).2) := by
  rw [up, List.getElem?_map, pairs_getElem? hi]
  rfl

theorem getD_of_singleton (hi : i < l.length) (h : l = [r]) : l.getD i default = r := by
  subst h
  obtain rfl : i = 0 := Nat.lt_one_iff.mp hi
  rfl

/-- Climbing the branch of a node of a level gives what the level ends in. By induction on the levels. -/
theorem climb_branch (node : α → α → α) (hi : i < l.length) (h : loop node n l = [r]) :
    climb node (l.getD i default) (branch node n l i) = r := by
  induction n generalizing l i with
  | zero => exact getD_of_singleton hi h
  | succ n ih =>
    unfold loop at h
    unfold branch
    split
    · rename_i hshort
      rw [if_pos hshort] at h
      exact getD_of_singleton hi h
    · rename_i hlong
      rw [if_neg hlong] at h
      have hup := up_getElem? node hi
      obtain ⟨hhalf, -⟩ := List.getElem?_eq_some_iff.mp hup
      have hnext := ih hhalf h
      rw [getD_eq_getElem?_getD, hup] at hnext
      exact hnext

theorem sibling_mem (hi : i < l.length) : (sibling l i).1 ∈ l := by
  have hmem : ∀ {k : Nat}, k < l.length → l.getD k default ∈ l := by
    intro k hk
    rw [getD_eq_getElem _ _ hk]
    exact getElem_mem hk
  unfold sibling
  split
  · split
    · rename_i hnext
      exact hmem hnext
    · exact hmem hi
  · exact hmem (by omega)

theorem branch_forall {node : α → α → α} {P : α → Prop} (hnode : ∀ x y, P (node x y))
    (hl : ∀ x ∈ l, P x) (hi : i < l.length) : ∀ s ∈ branch node n l i, P s.1 := by
  induction n generalizing l i with
  | zero =>
    intro s hs
    exact absurd hs not_mem_nil
  | succ n ih =>
    intro s hs
    unfold branch at hs
    split at hs
    · exact absurd hs not_mem_nil
    · rcases mem_cons.mp hs with rfl | hs
      · exact hl _ (sibling_mem hi)
      · obtain ⟨hhalf, -⟩ := List.getElem?_eq_some_iff.mp (up_getElem? node hi)
        refine ih (fun x hx => ?_) hhalf s hs
        obtain ⟨q, -, rfl⟩ := mem_map.mp hx
        exact hnode q.1 q.2

end Complete

/-! ## Who climbs to the root started at a leaf -/

theorem climb_append (node : α → α → α) (x : α) (path path' : List (α × Bool)) :
    climb node x (path ++ path') = climb node (climb node x path) path' := by
  induction path generalizing x with
  | nil => rfl
  | cons s path ih => exact ih _

theorem climbPairs_append (node : α → α → α) (x : α) (path path' : List (α × Bool)) :
    climbPairs node x (path ++ path') = climbPairs node x path ++ climbPairs node (climb node x path) path' := by
  induction path generalizing x with
  | nil => rfl
  | cons s path ih =>
    rw [cons_append, climbPairs, climbPairs, cons_append, ih]
    rfl

variable {x : α} {path : List (α × Bool)}

theorem climbPairs_forall {node : α → α → α} {P : α → Prop} (hnode : ∀ x y, P (node x y)) (hx : P x)
    (hpath : ∀ s ∈ path, P s.1) : ∀ q ∈ climbPairs node x path, P q.1 ∧ P q.2 := by
  induction path generalizing x with
  | nil =>
    intro q hq
    exact absurd hq not_mem_nil
  | cons s path ih =>
    intro q hq
    have hs := hpath s (.head _)
    rcases mem_cons.mp hq with rfl | hq
    · unfold beside
      split
      · exact ⟨hs, hx⟩
      · exact ⟨hx, hs⟩
    · exact ih (hnode _ _) (fun s hs => hpath s (.tail _ hs)) q hq

section Sound

variable {node : α → α → α} {S : α × α → Prop} {Leaf : α → Prop}
  (hinj : ∀ x y x' y', S (x, y) → S (x', y') → node x y = node x' y' → x = x' ∧ y = y')
  (hsep : ∀ x y, S (x, y) → ¬Leaf (node x y))

include hsep

theorem eq_nil_of_climb_leaf (hS : ∀ q ∈ climbPairs node x path, S q) (h : Leaf (climb node x path)) : path = [] := by
  rcases eq_nil_or_concat path with rfl | ⟨before, s, rfl⟩
  · rfl
  · rw [concat_eq_append, climb_append] at h
    rw [concat_eq_append, climbPairs_append] at hS
    exact absurd h (hsep _ _ (hS _ (mem_append_right _ (.head _))))

include hinj

/-- From a leaf to a node of the root's tree: every level of the tree is passed on the way. By induction on the levels, from the root
down. -/
theorem Rooted.exists_climb_mem (h : Rooted node S d l r) (hx : Leaf x)
    (hS : ∀ q ∈ climbPairs node x path, S q) (hclimb : climb node x path = r) :
    ∃ before after, path = before ++ after ∧ climb node x before ∈ l := by
  induction h with
  | leaf r => exact ⟨path, [], (append_nil path).symm, by rw [hclimb]; exact (.head _)⟩
  | @level d l r hlen hl hup ih =>
    obtain ⟨before, after, rfl, hmem⟩ := ih hclimb
    obtain ⟨q, hq, heq⟩ := mem_map.mp hmem
    rw [climbPairs_append] at hS
    rcases eq_nil_or_concat before with rfl | ⟨before, s, rfl⟩
    · -- the leaf itself would be the digest of a pair
      exact absurd (heq ▸ hx) (hsep _ _ (hl q hq))
    · rw [concat_eq_append] at hS heq ⊢
      rw [climb_append] at heq
      rw [climbPairs_append] at hS
      refine ⟨before, s :: after, by simp, ?_⟩
      have hpair := hS (beside s (climb node x before)) (mem_append_left _ (mem_append_right _ (.head _)))
      obtain ⟨hfst, hsnd⟩ := hinj q.1 q.2 (beside s (climb node x before)).1 (beside s (climb node x before)).2 (hl q hq) hpair heq
      -- the climber is one side of the pair
      rcases eq_fst_or_snd_beside s (climb node x before) with hside | hside
      · rw [hside, ← hfst]
        exact (mem_of_mem_pairs q hq).1
      · rw [hside, ← hsnd]
        exact (mem_of_mem_pairs q hq).2

theorem Rooted.mem_of_climb (h : Rooted node S d l r) (hl : ∀ y ∈ l, Leaf y)
    (hx : Leaf x) (hS : ∀ q ∈ climbPairs node x path, S q) (hclimb : climb node x path = r) : x ∈ l := by
  obtain ⟨before, after, rfl, hmem⟩ := h.exists_climb_mem hinj hsep hx hS hclimb
  rw [climbPairs_append] at hS
  obtain rfl := eq_nil_of_climb_leaf hsep (fun q hq => hS q (mem_append_left _ hq)) (hl _ hmem)
  exact hmem

end Sound

end Merkle
end GoLib
