import NeoCoin.Theorems.ExecuteGas
import NeoCoin.Theorems.RunGas

/-!
# Contracts that panic

Which programs make `Run` of `blockchain/vm.go` and `Execute` of `internal/vm/vm.go` panic, exactly. The first asserts the types of its
operands; the second lets a call lead in front of the code and a swap look under the stack.
-/

namespace NeoCoin

open GoLib Machine

/-! ## The first implementation -/

section

variable {vm : VM}

theorem round_panics_iff (hplain : Plain vm.stack) : (∃ msg, vm.round = .inr (.panicked msg)) ↔
    ∃ b op, vm.code[vm.pc]? = some b ∧ Opcode.ofByte b = some op ∧ vm.gasUsed ≤ vm.gasLimit ∧ ¬op.Fits vm.stack := by
  constructor
  · intro h
    obtain ⟨msg, hround⟩ := h
    have hrounds := round_rounds hplain
    rw [hround] at hrounds
    cases hrounds with
    | executes b op hb hop hgas hdoes =>
      cases hdoes with
      | panics _ hnot => exact ⟨b, op, hb, hop, hgas, hnot⟩
  · intro h
    obtain ⟨b, op, hb, hop, hgas, hnot⟩ := h
    have hdoes := execute_does { vm with pc := vm.pc + 1 } hplain op
    have hround : vm.round = { vm with pc := vm.pc + 1 }.execute op := by
      unfold VM.round VM.instruction
      simp only [hb, hop, if_neg (Int64.not_lt.mpr hgas)]
    rw [hround]
    generalize { vm with pc := vm.pc + 1 }.execute op = out at hdoes
    cases hdoes with
    | moves _ hfits _ => exact absurd hfits hnot
    | fails _ hfits => exact absurd hfits hnot
    | returns _ _ hfits => exact absurd hfits hnot
    | panics msg _ => exact ⟨msg, rfl⟩

end

theorem run_returns_iff (code : Bytes) (storage : GoMap Bytes Bytes) (gasLimit : Int64) :
    (∃ n r, (newVM code storage gasLimit).run n = some (.returned r)) ↔
      (gasLimit ≤ Int64.maxValue - 5 ∨ EndsOrExceeds (newVM code storage gasLimit)) ∧
        ∀ n vm b op, Steps VM.round n (newVM code storage gasLimit) vm → vm.code[vm.pc]? = some b → Opcode.ofByte b = some op →
          vm.gasUsed ≤ vm.gasLimit → op.Fits vm.stack := by
  constructor
  · intro h
    obtain ⟨n, r, hrun⟩ := h
    refine ⟨Or.inr (run_ends_iff.mp ⟨n, _, hrun⟩), ?_⟩
    intro k vm b op hsteps hb hop hgas
    by_contra hnot
    obtain ⟨msg, hpanic⟩ := (round_panics_iff (runs_of_steps hsteps).plain).mpr ⟨b, op, hb, hop, hgas, hnot⟩
    have hrun' := run_eq_some_iff.mpr ⟨k, Nat.lt_succ_self k, vm, hsteps, hpanic⟩
    cases run_unique hrun hrun'
  · intro h
    obtain ⟨hends, hfits⟩ := h
    have hexit : ∃ n exit, (newVM code storage gasLimit).run n = some exit := by
      rcases hends with hsmall | hends
      · exact run_ends hsmall
      · exact run_ends_iff.mpr hends
    obtain ⟨n, exit, hrun⟩ := hexit
    cases exit with
    | returned r => exact ⟨n, r, hrun⟩
    | panicked msg =>
      obtain ⟨k, -, vm, hsteps, hpanic⟩ := run_eq_some_iff.mp hrun
      obtain ⟨b, op, hb, hop, hgas, hnot⟩ := (round_panics_iff (runs_of_steps hsteps).plain).mp ⟨msg, hpanic⟩
      exact absurd (hfits k vm b op hsteps hb hop hgas) hnot

/-! ## The second implementation -/

namespace Internal

section

variable {v : VM} {code : Bytes} {f : Frame} {k : Nat}

theorem panics_of_not_safe {op : Opcode} (hcharged : f.charged = some op) (hnot : ¬op.Safe f.vm.stack) :
    ∃ k f' msg, Steps Frame.round k f f' ∧ f'.round = .inr (.panicked msg) := by
  have hrounds := round_rounds f
  generalize hout : f.round = out at hrounds
  cases hrounds with
  | ends hnone _ _ _ =>
    rw [hcharged] at hnone
    cases hnone
  | outside _ hnone _ =>
    rw [hcharged] at hnone
    cases hnone
  | @next op' v hcharged' _ hacts =>
    cases hcharged.symm.trans hcharged'
    cases hacts with
    | next _ _ hsafe =>
      have hneg : v.pc < 0 := by
        by_contra hpc
        exact hnot (hsafe.mp (by omega))
      refine ⟨1, _, "runtime error: index out of range", .head hout (.refl _), ?_⟩
      simp only [Frame.round]
      rw [if_neg (by omega), if_pos hneg]
  | fails op' err hcharged' _ hacts =>
    cases hcharged.symm.trans hcharged'
    cases hacts with
    | fail _ _ _ _ hsafe => exact absurd hsafe hnot
  | panics op' msg _ _ _ => exact ⟨0, f, msg, .refl f, hout⟩

/-- As long as the instructions are safe the program counter is not in front of the code. -/
theorem pc_of_steps (hsafe : ∀ k f op, Steps Frame.round k (v.start code) f → f.charged = some op → op.Safe f.vm.stack)
    (h : Steps Frame.round k (v.start code) f) : 0 ≤ f.vm.pc := by
  rcases h.eq_or_last with rfl | ⟨j, f₁, hsteps, hlast⟩
  · exact Int.le_refl 0
  · have hrounds := round_rounds f₁
    rw [hlast] at hrounds
    cases hrounds with
    | next op hcharged _ hacts =>
      cases hacts with
      | next _ _ hiff => exact hiff.mpr (hsafe j f₁ op hsteps hcharged)

end

theorem execute_returns_iff (v : VM) (code : Bytes) : (∃ r, v.execute code = some (.returned r)) ↔
      ∀ k f op, Steps Frame.round k (v.start code) f → f.charged = some op → op.Safe f.vm.stack := by
  constructor
  · intro h k f op hsteps hcharged
    obtain ⟨r, hexecute⟩ := h
    by_contra hnot
    obtain ⟨j, f', msg, hsteps', hpanic⟩ := panics_of_not_safe hcharged hnot
    have hrun := run_eq_some_iff.mpr ⟨k + j, Nat.lt_succ_self _, f', hsteps.trans hsteps', hpanic⟩
    cases run_unique hexecute hrun
  · intro hsafe
    obtain ⟨k, -, f, exit, hsteps, hexit, hexecute⟩ := execute_exits v code
    cases exit with
    | returned r => exact ⟨r, hexecute⟩
    | panicked msg =>
      have hpc := pc_of_steps hsafe hsteps
      have hrounds := round_rounds f
      rw [hexit] at hrounds
      cases hrounds with
      | outside _ _ hneg => omega
      | panics op _ hcharged _ hacts =>
        cases hacts with
        | panic _ hnot => exact absurd (hsafe k f op hsteps hcharged) hnot

end Internal

/-- `Run` returns if and only if every instruction it comes to finds operands of its types, and the limit is not at the end of the
counter or the program ends under it all the same. `Execute` returns if and only if every instruction it pays for is safe. -/
theorem contracts_return_iff (code : Bytes) (storage : GoMap Bytes Bytes) (gasLimit : Int64) (v : Internal.VM) (code' : Bytes) :
    ((∃ n r, (newVM code storage gasLimit).run n = some (.returned r)) ↔
        (gasLimit ≤ Int64.maxValue - 5 ∨ EndsOrExceeds (newVM code storage gasLimit)) ∧
          ∀ n vm b op, Steps VM.round n (newVM code storage gasLimit) vm → vm.code[vm.pc]? = some b → Opcode.ofByte b = some op →
            vm.gasUsed ≤ vm.gasLimit → op.Fits vm.stack) ∧
      ((∃ r, v.execute code' = some (.returned r)) ↔
        ∀ k f op, Steps Internal.Frame.round k (v.start code') f → f.charged = some op → op.Safe f.vm.stack) :=
  ⟨run_returns_iff code storage gasLimit, Internal.execute_returns_iff v code'⟩

/-- `OP_VERIFY` on an integer, and a call of the address `1 - 2`. -/
theorem contracts_panic :
    (newVM [0x01, 1, 0x61] ∅ 100).run 2 = some (.panicked "interface conversion: interface \x7b\x7d is int64, not bool") ∧
      ∃ msg, (Internal.newVM 100).execute [1, 1, 1, 2, 4, 18] = some (.panicked msg) := by
  exact ⟨by decide, _, rfl⟩

end NeoCoin
