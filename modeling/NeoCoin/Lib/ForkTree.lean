import Mathlib.Algebra.GroupWithZero.Nat
import NeoCoin.Lib.GoMap

/-!
# Trees of nodes that name their parents, and their best tip

A map from keys to nodes, where a node names the key of its parent or none. A best tip is one whose chain has the greatest total weight
and, among those, the smallest key. It can be kept up to date by comparing each new node with the tip so far (`Best.insert_better`,
`Best.insert_not_better`), and there is only one (`Best.unique`).
-/

namespace GoLib
namespace ForkTree

variable {K V : Type*} [DecidableEq K] {parent : V → Option K}

/-- `path` leads from a node without a parent to the node under a key. -/
inductive ChainTo (parent : V → Option K) (m : GoMap K V) : K → List V → Prop where
  | root {k : K} {v : V} : m.lookup k = some v → parent v = none → ChainTo parent m k [v]
  | child {k k' : K} {v : V} {path : List V} : m.lookup k = some v → parent v = some k' → ChainTo parent m k' path →
      ChainTo parent m k (path ++ [v])

def Rooted (parent : V → Option K) (m : GoMap K V) : Prop := ∀ k ∈ m, ∃ path, ChainTo parent m k path

/-! ## Chains -/

variable {k k₀ : K} {path : List V} {v₀ : V}

section

variable {m : GoMap K V}

theorem ChainTo.getLast (h : ChainTo parent m k path) : ∃ v, m.lookup k = some v ∧ path.getLast? = some v := by
  cases h with
  | root hv _ => exact ⟨_, hv, rfl⟩
  | child hv _ _ => exact ⟨_, hv, by simp⟩

theorem ChainTo.mem (h : ChainTo parent m k path) : k ∈ m := by
  obtain ⟨v, hv, -⟩ := h.getLast
  exact Finmap.lookup_isSome.mp (by rw [hv]; rfl)

theorem ChainTo.exists_lookup (h : ChainTo parent m k path) {v : V} (hv : v ∈ path) : ∃ k', m.lookup k' = some v := by
  induction h with
  | root hlookup _ =>
    obtain rfl := List.mem_singleton.mp hv
    exact ⟨_, hlookup⟩
  | child hlookup _ _ ih =>
    rcases List.mem_append.mp hv with hv | hv
    · exact ih hv
    · obtain rfl := List.mem_singleton.mp hv
      exact ⟨_, hlookup⟩

theorem ChainTo.unique {path' : List V} (h : ChainTo parent m k path) (h' : ChainTo parent m k path') : path = path' := by
  induction h generalizing path' with
  | root hv hp =>
    cases h' with
    | root hv' _ => rw [Option.some.inj (hv.symm.trans hv')]
    | child hv' hp' _ =>
      cases hv.symm.trans hv'
      exact absurd (hp.symm.trans hp') (by simp)
  | child hv hp _ ih =>
    cases h' with
    | root hv' hp' =>
      cases hv.symm.trans hv'
      exact absurd (hp.symm.trans hp') (by simp)
    | child hv' hp' hc' =>
      cases hv.symm.trans hv'
      cases hp.symm.trans hp'
      rw [ih hc']

theorem ChainTo.mono {m m' : GoMap K V} (hsub : ∀ k v, m.lookup k = some v → m'.lookup k = some v)
    (h : ChainTo parent m k path) : ChainTo parent m' k path := by
  induction h with
  | root hv hp => exact ChainTo.root (hsub _ _ hv) hp
  | child hv hp _ ih => exact ChainTo.child (hsub _ _ hv) hp ih

theorem ChainTo.map {W : Type*} {parent' : W → Option K} (f : V → W) (hparent : ∀ v, parent' (f v) = parent v) {m : GoMap K V}
    (h : ChainTo parent m k path) : ChainTo parent' (m.mapVals f) k (path.map f) := by
  induction h with
  | root hv hp => exact ChainTo.root (by rw [GoMap.lookup_mapVals, hv]; rfl) (by rw [hparent, hp])
  | child hv hp _ ih =>
    rw [List.map_append]
    exact ChainTo.child (by rw [GoMap.lookup_mapVals, hv]; rfl) (by rw [hparent, hp]) ih

theorem ChainTo.set (v₀ : V) (hk₀ : k₀ ∉ m) (h : ChainTo parent m k path) : ChainTo parent (m.set k₀ v₀) k path := by
  refine h.mono fun k v hv => ?_
  have hne : k ≠ k₀ := by
    rintro rfl
    exact hk₀ (Finmap.lookup_isSome.mp (by rw [hv]; rfl))
  rw [GoMap.lookup_set_of_ne m v₀ hne, hv]

theorem ChainTo.of_set (hroot : Rooted parent m) (hk₀ : k₀ ∉ m)
    (h : ChainTo parent (m.set k₀ v₀) k path) : k = k₀ ∨ ChainTo parent m k path := by
  rcases GoMap.mem_set.mp h.mem with hk | hk
  · exact Or.inl hk
  · obtain ⟨path', hpath'⟩ := hroot k hk
    rw [h.unique (hpath'.set v₀ hk₀)]
    exact Or.inr hpath'

theorem Rooted.set (hroot : Rooted parent m) (hk₀ : k₀ ∉ m) (h : ChainTo parent (m.set k₀ v₀) k₀ path) : Rooted parent (m.set k₀ v₀) := by
  intro k hk
  rcases GoMap.mem_set.mp hk with rfl | hk
  · exact ⟨path, h⟩
  · obtain ⟨path', hpath'⟩ := hroot k hk
    exact ⟨path', hpath'.set v₀ hk₀⟩

end

/-! ## The best tip -/

def total (weight : V → Nat) (path : List V) : Nat := (path.map weight).sum

@[simp] theorem total_append (weight : V → Nat) (path path' : List V) :
    total weight (path ++ path') = total weight path + total weight path' := by
  simp [total]

@[simp] theorem total_singleton (weight : V → Nat) (v : V) : total weight [v] = weight v := by
  simp [total]

/-- The chain of `k` has the greatest weight, and no other chain of that weight has a smaller key. -/
structure Best (parent : V → Option K) (weight : V → Nat) (lt : K → K → Prop) (m : GoMap K V) (k : K) (path : List V) : Prop where
  chain : ChainTo parent m k path
  best : ∀ k' path', ChainTo parent m k' path' →
    k' = k ∨ total weight path' < total weight path ∨ total weight path' = total weight path ∧ lt k k'

variable {weight : V → Nat} {lt : K → K → Prop}

theorem best_singleton {v : V} (h : parent v = none) : Rooted parent (GoMap.set ∅ k v) ∧ Best parent weight lt (GoMap.set ∅ k v) k [v] := by
  have hchain : ChainTo parent (GoMap.set ∅ k v) k [v] := ChainTo.root (GoMap.lookup_set_self _ _ _) h
  have honly : ∀ k' ∈ GoMap.set ∅ k v, k' = k := by
    intro k' hk'
    rcases GoMap.mem_set.mp hk' with rfl | hk'
    · rfl
    · exact absurd hk' Finmap.notMem_empty
  refine ⟨?_, hchain, fun k' path' hpath' => Or.inl (honly k' hpath'.mem)⟩
  intro k' hk'
  obtain rfl := honly k' hk'
  exact ⟨[v], hchain⟩

variable {m : GoMap K V}

theorem Best.no_child {k' : K} {v : V} (h : Best parent weight lt m k path)
    (hv : m.lookup k' = some v) (hp : parent v = some k) (hw : 0 < weight v) : False := by
  have hchain := ChainTo.child hv hp h.chain
  have htotal : total weight (path ++ [v]) = total weight path + weight v := by simp
  rcases h.best k' _ hchain with rfl | hlt | ⟨heq, -⟩
  · rw [hchain.unique h.chain] at htotal
    omega
  · omega
  · omega

theorem Best.notMem {k' : K} (h : Best parent weight lt m k path)
    (hchild : ∀ v, m.lookup k' = some v → parent v = some k ∧ 0 < weight v) : k' ∉ m := by
  intro hmem
  obtain ⟨v, hv⟩ := Option.isSome_iff_exists.mp (Finmap.lookup_isSome.mpr hmem)
  exact h.no_child hv (hchild v hv).1 (hchild v hv).2

theorem Best.insert_better (htrans : ∀ a b c, lt a b → lt b c → lt a c) {path₀ : List V}
    (h : Best parent weight lt m k path) (hroot : Rooted parent m) (hk₀ : k₀ ∉ m) (hchain : ChainTo parent (m.set k₀ v₀) k₀ path₀)
    (hbetter : total weight path < total weight path₀ ∨ total weight path₀ = total weight path ∧ lt k₀ k) :
    Best parent weight lt (m.set k₀ v₀) k₀ path₀ := by
  refine ⟨hchain, fun k' path' hc => ?_⟩
  rcases hc.of_set hroot hk₀ with rfl | hold
  · exact Or.inl rfl
  · refine Or.inr ?_
    rcases h.best k' path' hold with rfl | hlt | ⟨heq, hlt⟩
    · rw [hold.unique h.chain]
      rcases hbetter with hw | ⟨hw, hlt⟩
      · exact Or.inl hw
      · exact Or.inr ⟨hw.symm, hlt⟩
    · left
      rcases hbetter with hw | ⟨hw, -⟩
      · omega
      · omega
    · rcases hbetter with hw | ⟨hw, hlt'⟩
      · exact Or.inl (by omega)
      · exact Or.inr ⟨heq.trans hw.symm, htrans _ _ _ hlt' hlt⟩

theorem Best.insert_not_better (htri : ∀ a b, a ≠ b → ¬lt a b → lt b a) {path₀ : List V}
    (h : Best parent weight lt m k path) (hroot : Rooted parent m) (hk₀ : k₀ ∉ m) (hchain : ChainTo parent (m.set k₀ v₀) k₀ path₀)
    (hworse : ¬(total weight path < total weight path₀ ∨ total weight path₀ = total weight path ∧ lt k₀ k)) :
    Best parent weight lt (m.set k₀ v₀) k path := by
  refine ⟨h.chain.set v₀ hk₀, fun k' path' hc => ?_⟩
  rcases hc.of_set hroot hk₀ with rfl | hold
  · refine Or.inr ?_
    rw [hc.unique hchain]
    rw [not_or, not_and] at hworse
    have hne : k' ≠ k := by
      rintro rfl
      exact hk₀ h.chain.mem
    by_cases heq : total weight path₀ = total weight path
    · exact Or.inr ⟨heq, htri _ _ hne (hworse.2 heq)⟩
    · exact Or.inl (by omega)
  · exact h.best k' path' hold

theorem Best.unique (hirrefl : ∀ a, ¬lt a a) (htrans : ∀ a b c, lt a b → lt b c → lt a c) {k' : K}
    {path' : List V} (h : Best parent weight lt m k path) (h' : Best parent weight lt m k' path') : k = k' ∧ path = path' := by
  have hkey : k' = k := by
    rcases h.best k' path' h'.chain with heq | hlt | ⟨htie, hlt⟩
    · exact heq
    · rcases h'.best k path h.chain with heq | hlt' | ⟨htie', -⟩
      · exact heq.symm
      · omega
      · omega
    · rcases h'.best k path h.chain with heq | hlt' | ⟨-, hlt'⟩
      · exact heq.symm
      · omega
      · exact absurd (htrans _ _ _ hlt hlt') (hirrefl k)
  subst hkey
  exact ⟨rfl, h.chain.unique h'.chain⟩

end ForkTree
end GoLib
