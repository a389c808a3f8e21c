import Mathlib.Algebra.BigOperators.Intervals
import Mathlib.Algebra.Order.BigOperators.Group.Finset
import Mathlib.NumberTheory.Padics.PadicVal.Basic

/-!
# Sums over eras

A quantity that is constant over eras of a fixed length, `f (h / length)` at step `h`, sums over whole eras to the length times the sum
over the eras. A number halved until nothing is left sums to twice the number less its binary digits.
-/

namespace GoLib.Eras

open Finset

/-- The sum over whole eras. By induction on their number. -/
theorem sum_range_mul {length : ℕ} (hlength : 0 < length) (f : ℕ → ℕ) (eras : ℕ) :
    ∑ h ∈ range (eras * length), f (h / length) = length * ∑ k ∈ range eras, f k := by
  induction eras with
  | zero => simp
  | succ eras ih =>
    have hera : ∀ x ∈ range length, f ((eras * length + x) / length) = f eras := by
      intro x hx
      rw [Nat.add_comm, Nat.add_mul_div_right _ _ hlength, Nat.div_eq_of_lt (mem_range.mp hx), Nat.zero_add]
    rw [Nat.succ_mul, sum_range_add, ih, sum_const_nat hera, card_range, sum_range_succ, Nat.mul_add]

theorem sum_range_of_ended {length : ℕ} (hlength : 0 < length) {f : ℕ → ℕ} {eras : ℕ} (hended : ∀ k, eras ≤ k → f k = 0) (n : ℕ) :
    ∑ h ∈ range n, f (h / length) ≤ length * ∑ k ∈ range eras, f k ∧
      (eras * length ≤ n → ∑ h ∈ range n, f (h / length) = length * ∑ k ∈ range eras, f k) := by
  have hafter : eras * length ≤ n → ∑ h ∈ range n, f (h / length) = length * ∑ k ∈ range eras, f k := by
    intro hn
    rw [← sum_range_mul hlength f eras]
    refine (sum_subset (range_subset_range.mpr hn) ?_).symm
    intro h _ hout
    exact hended _ ((Nat.le_div_iff_mul_le hlength).mpr (Nat.not_lt.mp fun hlt => hout (mem_range.mpr hlt)))
  refine ⟨?_, hafter⟩
  rcases Nat.le_total (eras * length) n with hn | hn
  · exact (hafter hn).le
  · rw [← sum_range_mul hlength f eras]
    exact sum_le_sum_of_subset (range_subset_range.mpr hn)

theorem sum_range_eras {length : ℕ} (hlength : 0 < length) (first last n : ℕ) :
    ∑ h ∈ range n, (if first ≤ h / length ∧ h / length < last then 1 else 0) = min n (last * length) - first * length := by
  have hfilter : {h ∈ range n | first ≤ h / length ∧ h / length < last} = Ico (first * length) (min n (last * length)) := by
    ext h
    simp only [mem_filter, mem_range, mem_Ico, Nat.le_div_iff_mul_le hlength, Nat.div_lt_iff_lt_mul hlength, lt_min_iff]
    tauto
  rw [← sum_filter, hfilter, sum_const, smul_eq_mul, mul_one, Nat.card_Ico]

theorem div_two_pow_eq_zero_iff (n k : ℕ) : n / 2 ^ k = 0 ↔ (Nat.digits 2 n).length ≤ k := by
  rw [Nat.digits_length_le_iff (by decide), Nat.div_eq_zero_iff_lt (Nat.two_pow_pos k)]

theorem sum_halvings (n : ℕ) : ∑ k ∈ range (Nat.digits 2 n).length, n / 2 ^ k + (Nat.digits 2 n).sum = 2 * n := by
  rcases Nat.eq_zero_or_pos n with rfl | hn
  · simp
  · have hlegendre := Nat.sub_one_mul_sum_log_div_pow_eq_sub_sum_digits (p := 2) n
    rw [Nat.add_one_sub_one, one_mul, Nat.succ_eq_add_one, ← Nat.length_digits 2 n (by decide) hn.ne'] at hlegendre
    have hlast : n / 2 ^ (Nat.digits 2 n).length = 0 := (div_two_pow_eq_zero_iff n _).mpr le_rfl
    have hsplit := sum_range_succ (fun k => n / 2 ^ k) (Nat.digits 2 n).length
    rw [sum_range_succ', hlast, add_zero, pow_zero, Nat.div_one] at hsplit
    have hdigits := Nat.digit_sum_le 2 n
    have hsum : ∑ k ∈ range (Nat.digits 2 n).length, n / 2 ^ (k + 1) = n - (Nat.digits 2 n).sum := hlegendre
    omega

end GoLib.Eras
