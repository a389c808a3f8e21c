import Mathlib.Algebra.GroupWithZero.Nat
import Mathlib.Data.List.Nodup

/-!
# Queues with consecutive keys

A list whose elements have the 64-bit keys `c + 1`, `c + 2` and so on: what is pending after the number `c`. Its elements are found by
their keys (`ListedBy`), the ones before a key are a prefix, and it goes on with the next key.
-/

namespace GoLib

open List

variable {α : Type*} {key : α → UInt64} {c : Nat} {q : List α} {f : UInt64 → Option α}

def Consecutive (key : α → UInt64) (c : Nat) (q : List α) : Prop := q.map (fun x => (key x).toNat) = List.range' (c + 1) q.length

/-- A function that finds the elements of a list by their keys. -/
def ListedBy (key : α → UInt64) (f : UInt64 → Option α) (q : List α) : Prop := ∀ n x, f n = some x ↔ x ∈ q ∧ key x = n

variable {i : Nat} {x : α} {n : UInt64}

namespace Consecutive

theorem nil (key : α → UInt64) (c : Nat) : Consecutive key c [] := rfl

theorem key_eq (h : Consecutive key c q) (hi : q[i]? = some x) : (key x).toNat = c + 1 + i := by
  have hget := congrArg (fun l : List Nat => l[i]?) h
  obtain ⟨hlt, -⟩ := List.getElem?_eq_some_iff.mp hi
  simp only [List.getElem?_map, hi, Option.map_some, List.getElem?_range' hlt, Nat.one_mul, Option.some.injEq] at hget
  exact hget

theorem take (h : Consecutive key c q) (i : Nat) : Consecutive key c (q.take i) := by
  unfold Consecutive at h ⊢
  rw [map_take, h, length_take]
  refine ext_getElem (by simp) ?_
  intro j hj hj'
  simp

theorem snoc (h : Consecutive key c q) (hx : (key x).toNat = c + 1 + q.length) : Consecutive key c (q ++ [x]) := by
  unfold Consecutive at h ⊢
  rw [map_append, h, length_append, length_singleton, List.range'_concat, Nat.one_mul]
  simp [hx]

theorem lt (h : Consecutive key c q) (hc : c < 2 ^ 64) : c + q.length < 2 ^ 64 := by
  cases hq : q.getLast? with
  | none =>
    rw [List.getLast?_eq_none_iff.mp hq]
    exact hc
  | some x =>
    rw [List.getLast?_eq_getElem?] at hq
    obtain ⟨hlen, -⟩ := List.getElem?_eq_some_iff.mp hq
    have hn := h.key_eq hq
    have hlt := (key x).toNat_lt
    omega

theorem filter_lt (h : Consecutive key c q) (hn : n.toNat = c + 1 + i) : q.filter (fun x => key x < n) = q.take i := by
  conv_lhs => rw [← take_append_drop i q]
  rw [filter_append]
  have hbefore : (q.take i).filter (fun x => key x < n) = q.take i := by
    refine filter_eq_self.mpr ?_
    intro x hx
    obtain ⟨j, hj, rfl⟩ := getElem_of_mem hx
    rw [length_take] at hj
    rw [getElem_take, decide_eq_true_eq, UInt64.lt_iff_toNat_lt, h.key_eq (List.getElem?_eq_getElem (by omega)), hn]
    omega
  have hafter : (q.drop i).filter (fun x => key x < n) = [] := by
    refine filter_eq_nil_iff.mpr ?_
    intro x hx
    obtain ⟨j, hj, rfl⟩ := getElem_of_mem hx
    rw [length_drop] at hj
    rw [getElem_drop, decide_eq_true_eq, UInt64.lt_iff_toNat_lt, h.key_eq (List.getElem?_eq_getElem (by omega)), hn]
    omega
  rw [hbefore, hafter, append_nil]

theorem nodup_keys (h : Consecutive key c q) : (q.map key).Nodup := by
  have hnodup : (q.map fun x => (key x).toNat).Nodup := by
    rw [h]
    exact nodup_range'
  rw [show (fun x => (key x).toNat) = UInt64.toNat ∘ key from rfl, ← map_map] at hnodup
  exact List.Nodup.of_map _ hnodup

variable {q' : List α}

theorem getElem?_of_mem (h : Consecutive key c q) (h' : Consecutive key c q') (hi : q[i]? = some x) (hx : x ∈ q') : q'[i]? = some x := by
  obtain ⟨j, hj⟩ := List.getElem?_of_mem hx
  have hkey := h.key_eq hi
  have hkey' := h'.key_eq hj
  obtain rfl : i = j := by omega
  exact hj

theorem ext (h : Consecutive key c q) (h' : Consecutive key c q') (hmem : ∀ x, x ∈ q ↔ x ∈ q') : q = q' := by
  refine ext_getElem? fun i => Option.ext fun x => ⟨?_, ?_⟩
  · intro hi
    exact h.getElem?_of_mem h' hi ((hmem x).mp (mem_of_getElem? hi))
  · intro hi
    exact h'.getElem?_of_mem h hi ((hmem x).mpr (mem_of_getElem? hi))

theorem take_eq_take (h : Consecutive key c q) (h' : Consecutive key c q')
    (hn : n.toNat = c + 1 + i) (hmem : ∀ x, key x < n → (x ∈ q ↔ x ∈ q')) : q.take i = q'.take i := by
  refine (h.take i).ext (h'.take i) ?_
  intro x
  rw [← h.filter_lt hn, ← h'.filter_lt hn, mem_filter, mem_filter, decide_eq_true_eq]
  exact and_congr_left (hmem x)

end Consecutive

namespace ListedBy

theorem found (hf : ListedBy key f q) (h : Consecutive key c q) (hi : q[i]? = some x) : f (UInt64.ofNat (c + 1 + i)) = some x := by
  rw [← h.key_eq hi, UInt64.ofNat_toNat]
  exact (hf _ x).mpr ⟨mem_of_getElem? hi, rfl⟩

theorem place (hf : ListedBy key f q) (h : Consecutive key c q) (hn : f n = some x) : ∃ i, q[i]? = some x ∧ n.toNat = c + 1 + i := by
  obtain ⟨hmem, rfl⟩ := (hf n x).mp hn
  obtain ⟨i, hi⟩ := List.getElem?_of_mem hmem
  exact ⟨i, hi, h.key_eq hi⟩

theorem end_eq_none (hf : ListedBy key f q) (h : Consecutive key c q) (hc : c < 2 ^ 64) : f (UInt64.ofNat (c + 1 + q.length)) = none := by
  cases hn : f (UInt64.ofNat (c + 1 + q.length)) with
  | none => rfl
  | some x =>
    obtain ⟨i, hi, heq⟩ := hf.place h hn
    obtain ⟨hlt, -⟩ := List.getElem?_eq_some_iff.mp hi
    have hlast := h.lt hc
    rw [UInt64.toNat_ofNat'] at heq
    omega

end ListedBy

end GoLib
