import NeoCoin.Lib.ForkTree

/-!
# The walk from a node back to its root

A loop that goes from the node under a key to its parent until there is none. It gives up when a key is missing or comes up a second
time. It returns the chain of the key, whenever the key has one (`walkBack_eq_ok_iff`).
-/

namespace GoLib

open List
namespace ForkTree

variable {K V : Type*} [DecidableEq K]

inductive WalkError where
  | cycle
  | missing
  deriving DecidableEq, Repr

/-- The loop, for at most `n` rounds. `seen` are the keys visited so far and `path` the nodes found so far, from the current one to the
last. -/
def walkLoop (parent : V → Option K) (m : GoMap K V) : Nat → List K → K → List V → Option (Except WalkError { l : List V // l ≠ [] })
  | 0, _, _, _ => none
  | n + 1, seen, cur, path =>
    if cur ∈ seen then some (.error .cycle)
    else
      match m.lookup cur with
      | none => some (.error .missing)
      | some v =>
        match parent v with
        | none => some (.ok ⟨v :: path, cons_ne_nil v path⟩)
        | some k => walkLoop parent m n (cur :: seen) k (v :: path)

variable {parent : V → Option K} {m : GoMap K V}

theorem walkLoop_isSome (n : Nat) (seen : List K) (cur : K) (path : List V) (hnodup : seen.Nodup) (hmem : ∀ k ∈ seen, k ∈ m)
    (hn : m.keys.card < n + seen.length) : (walkLoop parent m n seen cur path).isSome := by
  induction n generalizing seen cur path with
  | zero =>
    have hle : seen.toFinset.card ≤ m.keys.card := by
      refine Finset.card_le_card fun k hk => ?_
      exact Finmap.mem_keys.mpr (hmem k (mem_toFinset.mp hk))
    rw [toFinset_card_of_nodup hnodup] at hle
    omega
  | succ n ih =>
    unfold walkLoop
    split
    · rfl
    · rename_i hseen
      split
      · rfl
      · rename_i v hv
        split
        · rfl
        · refine ih (cur :: seen) _ _ (nodup_cons.mpr ⟨hseen, hnodup⟩) ?_ ?_
          · intro k hk
            rcases mem_cons.mp hk with rfl | hk
            · exact Finmap.lookup_isSome.mp (by rw [hv]; rfl)
            · exact hmem k hk
          · rw [length_cons]
            omega

def walkBack (parent : V → Option K) (m : GoMap K V) (k : K) : Except WalkError { l : List V // l ≠ [] } :=
  (walkLoop parent m (m.keys.card + 1) [] k []).get (walkLoop_isSome _ [] k [] nodup_nil (by simp) (by simp))

theorem chainTo_of_walkLoop {n : Nat} {seen : List K} {cur : K} {path : List V} {found : { l : List V // l ≠ [] }}
    (h : walkLoop parent m n seen cur path = some (.ok found)) : ∃ front, ChainTo parent m cur front ∧ found.1 = front ++ path := by
  induction n generalizing seen cur path with
  | zero => cases h
  | succ n ih =>
    unfold walkLoop at h
    split at h
    · cases h
    · split at h
      · cases h
      · rename_i v hv
        split at h
        · rename_i hroot
          cases h
          exact ⟨[v], ChainTo.root hv hroot, rfl⟩
        · rename_i k hk
          obtain ⟨front, hfront, heq⟩ := ih h
          exact ⟨front ++ [v], ChainTo.child hv hk hfront, by rw [heq]; simp⟩

theorem walkLoop_of_chainTo {cur : K} {front : List V} (h : ChainTo parent m cur front) (n : Nat) {seen : List K} (path : List V)
    (hseen : ∀ k ∈ seen, ∃ longer, ChainTo parent m k longer ∧ front.length < longer.length) :
    walkLoop parent m n seen cur path = none ∨ ∃ found, walkLoop parent m n seen cur path = some (.ok found) := by
  induction h generalizing n seen path with
  | @root k v hv hroot =>
    cases n with
    | zero => exact Or.inl rfl
    | succ n =>
      right
      have hnew : k ∉ seen := by
        intro hmem
        obtain ⟨longer, hlonger, hlt⟩ := hseen k hmem
        rw [(ChainTo.root hv hroot).unique hlonger] at hlt
        omega
      refine ⟨⟨v :: path, cons_ne_nil v path⟩, ?_⟩
      simp only [walkLoop, if_neg hnew, hv, hroot]
  | @child k k' v front hv hparent hfront ih =>
    cases n with
    | zero => exact Or.inl rfl
    | succ n =>
      have hchain := ChainTo.child hv hparent hfront
      have hnew : k ∉ seen := by
        intro hmem
        obtain ⟨longer, hlonger, hlt⟩ := hseen k hmem
        rw [hchain.unique hlonger] at hlt
        omega
      simp only [walkLoop, if_neg hnew, hv, hparent]
      refine ih n (v :: path) ?_
      intro k₀ hk₀
      rcases mem_cons.mp hk₀ with rfl | hk₀
      · exact ⟨_, hchain, by simp⟩
      · obtain ⟨longer, hlonger, hlt⟩ := hseen k₀ hk₀
        rw [length_append] at hlt
        exact ⟨longer, hlonger, by omega⟩

theorem walkBack_eq_ok_iff {k : K} {path : { l : List V // l ≠ [] }} : walkBack parent m k = .ok path ↔ ChainTo parent m k path.1 := by
  have hwalk : walkLoop parent m (m.keys.card + 1) [] k [] = some (walkBack parent m k) := (Option.some_get _).symm
  have hsound : ∀ found, walkBack parent m k = .ok found → ChainTo parent m k found.1 := by
    intro found hfound
    rw [hfound] at hwalk
    obtain ⟨front, hfront, heq⟩ := chainTo_of_walkLoop hwalk
    rw [heq, append_nil]
    exact hfront
  constructor
  · exact hsound path
  · intro hchain
    rcases walkLoop_of_chainTo hchain (m.keys.card + 1) [] (forall_mem_nil _) with hnone | ⟨found, hfound⟩
    · rw [hwalk] at hnone
      cases hnone
    · have hok := Option.some.inj (hwalk.symm.trans hfound)
      rw [hok, Subtype.ext ((hsound found hok).unique hchain)]

end ForkTree
end GoLib
