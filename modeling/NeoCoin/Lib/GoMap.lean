import Mathlib.Data.Finmap
import Mathlib.Algebra.BigOperators.Group.Finset.Basic

/-!
# Go maps

A Go map is a finite map without an order on its keys: Mathlib's `Finmap`. Reading a missing key gives the zero value of the value type,
here `default`.
-/

namespace GoLib

/-- A Go `map[K]V`. -/
abbrev GoMap (K V : Type*) := Finmap fun _ : K => V

namespace GoMap

variable {K V : Type*}

/-- `for _, v := range m { total += f(v) }`. -/
def sumBy {M : Type*} [AddCommMonoid M] (f : V → M) (m : GoMap K V) : M := (m.entries.map fun e => f e.2).sum

variable {M : Type*}

@[simp] theorem sumBy_empty [AddCommMonoid M] (f : V → M) : sumBy f (∅ : GoMap K V) = 0 := rfl

/-- The entries of a map in an order in which a `range` loop may visit them. -/
def IsRange (m : GoMap K V) (range : List (K × V)) : Prop := (range : Multiset (K × V)) = m.entries.map fun e => (e.1, e.2)

theorem nodup_keys_range {m : GoMap K V} {range : List (K × V)} (h : IsRange m range) : (range.map Prod.fst).Nodup := by
  have hkeys : ((range : Multiset (K × V)).map Prod.fst).Nodup := by
    rw [h, Multiset.map_map]
    exact m.keys.nodup
  exact Multiset.coe_nodup.mp hkeys

variable [DecidableEq K]

instance [DecidableEq V] (m : GoMap K V) (range : List (K × V)) : Decidable (IsRange m range) := inferInstanceAs (Decidable (_ = _))

/-- `m[k]`: the value stored under a key, or the zero value. -/
def get [Inhabited V] (m : GoMap K V) (k : K) : V := (m.lookup k).getD default

section

variable (m : GoMap K V)

/-- `m[k] = v`. -/
def set (k : K) (v : V) : GoMap K V := m.insert k v

/-- `delete(m, k)`. -/
def delete (k : K) : GoMap K V := m.erase k

@[simp] theorem lookup_set_self (k : K) (v : V) : (m.set k v).lookup k = some v :=
  Finmap.lookup_insert m

variable {k k' : K}

@[simp] theorem lookup_set_of_ne (v : V) (h : k' ≠ k) : (m.set k v).lookup k' = m.lookup k' :=
  Finmap.lookup_insert_of_ne m h

theorem lookup_set (k k' : K) (v : V) : (m.set k v).lookup k' = if k' = k then some v else m.lookup k' := by
  by_cases h : k' = k
  · rw [if_pos h, h, lookup_set_self]
  · rw [if_neg h, lookup_set_of_ne m v h]

@[simp] theorem lookup_delete_self (k : K) : (m.delete k).lookup k = none :=
  Finmap.lookup_erase k m

@[simp] theorem lookup_delete_of_ne (h : k' ≠ k) : (m.delete k).lookup k' = m.lookup k' :=
  Finmap.lookup_erase_ne h

variable {v : V}

theorem lookup_delete_eq_some_iff {m : GoMap K V} : (m.delete k).lookup k' = some v ↔ m.lookup k' = some v ∧ k' ≠ k := by
  by_cases h : k' = k
  · rw [h, lookup_delete_self]
    simp
  · rw [lookup_delete_of_ne m h, and_iff_left h]

theorem mem_set {m : GoMap K V} : k' ∈ m.set k v ↔ k' = k ∨ k' ∈ m :=
  Finmap.mem_insert

@[simp] theorem get_empty [Inhabited V] (k : K) : (∅ : GoMap K V).get k = default := by
  simp [get]

@[simp] theorem get_set_self [Inhabited V] (m : GoMap K V) (k : K) (v : V) : (m.set k v).get k = v := by
  simp [get]

@[simp] theorem get_set_of_ne [Inhabited V] (m : GoMap K V) (v : V) (h : k' ≠ k) : (m.set k v).get k' = m.get k' := by
  simp [get, h]

theorem get_set [Inhabited V] (m : GoMap K V) (k k' : K) (v : V) : (m.set k v).get k' = if k' = k then v else m.get k' := by
  by_cases h : k' = k
  · rw [if_pos h, h, get_set_self]
  · rw [if_neg h, get_set_of_ne m v h]

theorem delete_set_of_notMem {m : GoMap K V} (v : V) (h : k ∉ m) : (m.set k v).delete k = m := by
  apply Finmap.ext_lookup
  intro x
  by_cases hx : x = k
  · rw [hx, lookup_delete_self, Finmap.lookup_eq_none.mpr h]
  · rw [lookup_delete_of_ne _ hx, lookup_set_of_ne m v hx]

def mapVals {W : Type*} (f : V → W) (m : GoMap K V) : GoMap K W where
  entries := m.entries.map fun e => ⟨e.1, f e.2⟩
  nodupKeys := by
    have hkeys : (m.entries.map fun e => (⟨e.1, f e.2⟩ : Σ _ : K, W)).keys = m.entries.keys := by simp [Multiset.keys]
    rw [← Multiset.nodup_keys, hkeys, Multiset.nodup_keys]
    exact m.nodupKeys

@[simp] theorem lookup_mapVals {W : Type*} (f : V → W) (m : GoMap K V) (k : K) : (m.mapVals f).lookup k = (m.lookup k).map f := by
  ext w
  rw [Finmap.lookup_eq_some_iff, Option.map_eq_some_iff]
  simp only [Finmap.lookup_eq_some_iff, mapVals, Multiset.mem_map]
  constructor
  · intro h
    obtain ⟨e, he, heq⟩ := h
    obtain ⟨rfl, hw⟩ := Sigma.mk.inj heq
    exact ⟨e.2, he, eq_of_heq hw⟩
  · intro h
    obtain ⟨v, hv, rfl⟩ := h
    exact ⟨_, hv, rfl⟩

@[simp] theorem mem_mapVals {W : Type*} (f : V → W) (m : GoMap K V) (k : K) : k ∈ m.mapVals f ↔ k ∈ m := by
  rw [← Finmap.lookup_isSome, ← Finmap.lookup_isSome, lookup_mapVals, Option.isSome_map]

theorem mapVals_set {W : Type*} (f : V → W) (m : GoMap K V) (k : K) (v : V) : (m.set k v).mapVals f = (m.mapVals f).set k (f v) := by
  apply Finmap.ext_lookup
  intro x
  rw [lookup_mapVals, lookup_set, lookup_set, lookup_mapVals]
  split
  · rfl
  · rfl

theorem mem_range_iff {m : GoMap K V} {range : List (K × V)} (h : IsRange m range) : (k, v) ∈ range ↔ m.lookup k = some v := by
  have hmem : (k, v) ∈ range ↔ (k, v) ∈ m.entries.map fun e => (e.1, e.2) := by
    rw [← h]
    exact Multiset.mem_coe.symm
  rw [hmem, Multiset.mem_map, Finmap.lookup_eq_some_iff]
  constructor
  · rintro ⟨⟨k', v'⟩, hin, heq⟩
    cases heq
    exact hin
  · intro hin
    exact ⟨⟨k, v⟩, hin, rfl⟩

theorem exists_range_cons {m : GoMap K V} (h : m.lookup k = some v) : ∃ rest, IsRange m ((k, v) :: rest) := by
  have hmem : (k, v) ∈ m.entries.map fun e => (e.1, e.2) :=
    Multiset.mem_map.mpr ⟨⟨k, v⟩, Finmap.lookup_eq_some_iff.mp h, rfl⟩
  obtain ⟨rest, hrest⟩ := Multiset.exists_cons_of_mem hmem
  refine ⟨rest.toList, ?_⟩
  rw [IsRange, ← Multiset.cons_coe, Multiset.coe_toList, hrest]
/-- A loop that writes a value for each element of a list, as far as elements with one key have one value. By induction on the list, for
any map to start from. -/
theorem lookup_foldl_set {α : Type*} {key : α → K} {val : α → V} {l : List α}
    (hl : ∀ x ∈ l, ∀ y ∈ l, key x = key y → val x = val y) (m : GoMap K V) (k : K) (v : V) :
    (l.foldl (fun m x => m.set (key x) (val x)) m).lookup k = some v ↔
      (∃ x ∈ l, key x = k ∧ val x = v) ∨ m.lookup k = some v ∧ ∀ x ∈ l, key x ≠ k := by
  induction l generalizing m with
  | nil => simp
  | cons x l ih =>
    have htail := ih (fun y hy z hz => hl y (.tail x hy) z (.tail x hz)) (m.set (key x) (val x))
    rw [List.foldl_cons, htail, lookup_set]
    by_cases hk : k = key x
    · subst hk
      simp only [if_true, Option.some.injEq, List.mem_cons, exists_eq_or_imp, true_and, forall_eq_or_imp, ne_eq, not_true_eq_false,
        false_and, and_false, or_false]
      constructor
      · intro h
        rcases h with h | h
        · exact Or.inr h
        · exact Or.inl h.1
      · intro h
        rcases h with h | h
        · -- a later element with this key has the same value
          by_cases hlater : ∃ y ∈ l, key y = key x
          · obtain ⟨y, hy, hkey⟩ := hlater
            exact Or.inl ⟨y, hy, hkey, (hl y (.tail x hy) x List.mem_cons_self hkey).trans h⟩
          · exact Or.inr ⟨h, fun y hy hkey => hlater ⟨y, hy, hkey⟩⟩
        · exact Or.inl h
    · have hne : key x ≠ k := Ne.symm hk
      simp only [if_neg hk, List.mem_cons, exists_eq_or_imp, hne, false_and, false_or, forall_eq_or_imp, ne_eq, not_false_eq_true,
        true_and]

/-! ## A sum over all entries -/

theorem sumBy_set_of_notMem [AddCommMonoid M] (f : V → M) {m : GoMap K V} (v : V) (h : k ∉ m) : sumBy f (m.set k v) = f v + sumBy f m := by
  simp [sumBy, set, Finmap.entries_insert_of_notMem h]

theorem set_delete_of_lookup {m : GoMap K V} (h : m.lookup k = some v) : (m.delete k).set k v = m := by
  apply Finmap.ext_lookup
  intro x
  by_cases hx : x = k
  · rw [hx, lookup_set_self, h]
  · rw [lookup_set_of_ne _ v hx, lookup_delete_of_ne _ hx]

theorem set_of_lookup {m : GoMap K V} (h : m.lookup k = some v) : m.set k v = m := by
  apply Finmap.ext_lookup
  intro x
  rw [lookup_set]
  split
  · rename_i hx
    rw [hx, h]
  · rfl

theorem set_set (k : K) (v w : V) : (m.set k v).set k w = m.set k w := by
  apply Finmap.ext_lookup
  intro x
  by_cases hx : x = k
  · rw [hx, lookup_set_self, lookup_set_self]
  · rw [lookup_set_of_ne _ w hx, lookup_set_of_ne _ v hx, lookup_set_of_ne _ w hx]

end

theorem sumBy_eq_sum [AddCommMonoid M] (f : V → M) (m : GoMap K V) : sumBy f m = ∑ k ∈ m.keys, (m.lookup k).elim 0 f := by
  have hentries : m.entries.map (fun e => f e.2) = m.entries.map fun e => (m.lookup e.1).elim 0 f := by
    refine Multiset.map_congr rfl fun e he => ?_
    rw [Finmap.lookup_eq_some_iff.mpr he]
    rfl
  rw [sumBy, hentries, Finset.sum, show m.keys.val = m.entries.map Sigma.fst from rfl, Multiset.map_map]
  rfl

theorem sumBy_set [AddCommMonoid M] [Inhabited V] (f : V → M) (hf : f default = 0) (m : GoMap K V) (k : K) (v : V) :
    sumBy f (m.set k v) + f (m.get k) = sumBy f m + f v := by
  cases h : m.lookup k with
  | none =>
    have hk : k ∉ m := Finmap.lookup_eq_none.mp h
    rw [sumBy_set_of_notMem f v hk, get, h, Option.getD_none, hf, add_zero, add_comm]
  | some w =>
    have hk : k ∉ (m.delete k) := Finmap.notMem_erase_self
    have hm := set_delete_of_lookup h
    have hv : m.set k v = (m.delete k).set k v := by rw [← hm, set_set, hm]
    have hw : sumBy f m = f w + sumBy f (m.delete k) := by
      conv_lhs => rw [← hm]
      exact sumBy_set_of_notMem f w hk
    rw [hv, sumBy_set_of_notMem f v hk, hw, get, h, Option.getD_some]
    ac_rfl

end GoMap

end GoLib
