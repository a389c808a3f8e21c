import Mathlib.Order.Basic

/-!
# Machines

A loop that changes a state round by round until it is left with a result. `run` follows the loop for a number of rounds, `Steps` says
which state a number of rounds leads to, and `trace` lists what the rounds emit.
-/

namespace GoLib.Machine

/-- How a Go function is left: it returns, or it panics. -/
inductive Exit (R : Type*) where
  | returned (r : R)
  | panicked (msg : String)
  deriving DecidableEq, Repr

def Exit.map {R R' : Type*} (ψ : R → R') : Exit R → Exit R'
  | .returned r => .returned (ψ r)
  | .panicked msg => .panicked msg

variable {S R E : Type*} (round : S → S ⊕ R)

/-- The loop, for at most `n` rounds: `none` if it is not left within them. -/
def run : Nat → S → Option R
  | 0, _ => none
  | n + 1, s =>
    match round s with
    | .inl s' => run n s'
    | .inr r => some r

/-- `n` rounds lead from one state to another. -/
inductive Steps : Nat → S → S → Prop where
  | refl (s : S) : Steps 0 s s
  | head {n : Nat} {s s' s'' : S} : round s = .inl s' → Steps n s' s'' → Steps (n + 1) s s''

def trace (emit : S → List E) : Nat → S → List E
  | 0, _ => []
  | n + 1, s =>
    match round s with
    | .inl s' => emit s ++ trace emit n s'
    | .inr _ => emit s

variable {round} {n m : Nat} {s s' s'' : S} {r : R}

theorem Steps.tail (h : Steps round n s s') (hround : round s' = .inl s'') : Steps round (n + 1) s s'' := by
  induction h with
  | refl s => exact .head hround (.refl s'')
  | head hfirst _ ih => exact .head hfirst (ih hround)

theorem Steps.trans (h : Steps round n s s') (h' : Steps round m s' s'') : Steps round (n + m) s s'' := by
  induction h with
  | refl s =>
    rw [Nat.zero_add]
    exact h'
  | head hfirst _ ih =>
    rw [Nat.succ_add]
    exact .head hfirst (ih h')

theorem Steps.eq_or_last (h : Steps round n s s') : s' = s ∨ ∃ k s₁, Steps round k s s₁ ∧ round s₁ = .inl s' := by
  induction h with
  | refl s => exact Or.inl rfl
  | @head n s s₁ s' hfirst _ ih =>
    right
    rcases ih with rfl | ⟨k, s₂, hsteps, hlast⟩
    · exact ⟨0, s, .refl s, hfirst⟩
    · exact ⟨k + 1, s₂, .head hfirst hsteps, hlast⟩

theorem Steps.invariant (Inv : S → Prop) (h0 : Inv s) (hround : ∀ s s', Inv s → round s = .inl s' → Inv s') (h : Steps round n s s') :
    Inv s' := by
  induction h with
  | refl s => exact h0
  | head hfirst _ ih => exact ih (hround _ _ h0 hfirst)

/-- The loop is left with the result of the first state that has one. -/
theorem run_eq_some_iff : run round n s = some r ↔ ∃ k < n, ∃ s', Steps round k s s' ∧ round s' = .inr r := by
  induction n generalizing s with
  | zero => simp [run]
  | succ n ih =>
    unfold run
    split
    · rename_i s₁ hs₁
      rw [ih]
      constructor
      · intro h
        obtain ⟨k, hk, s', hsteps, hexit⟩ := h
        exact ⟨k + 1, Nat.succ_lt_succ hk, s', .head hs₁ hsteps, hexit⟩
      · intro h
        obtain ⟨k, hk, s', hsteps, hexit⟩ := h
        cases hsteps with
        | refl =>
          rw [hs₁] at hexit
          cases hexit
        | head hfirst hrest =>
          rw [hs₁] at hfirst
          cases hfirst
          exact ⟨_, Nat.lt_of_succ_lt_succ hk, s', hrest, hexit⟩
    · rename_i r₁ hr₁
      constructor
      · intro h
        exact ⟨0, Nat.succ_pos n, s, .refl s, hr₁.trans (congrArg Sum.inr (Option.some.inj h))⟩
      · intro h
        obtain ⟨k, -, s', hsteps, hexit⟩ := h
        cases hsteps with
        | refl =>
          rw [hr₁] at hexit
          rw [Sum.inr.inj hexit]
        | head hfirst _ =>
          rw [hr₁] at hfirst
          cases hfirst

theorem run_mono (h : run round n s = some r) (hle : n ≤ m) : run round m s = some r := by
  obtain ⟨k, hk, hexit⟩ := run_eq_some_iff.mp h
  exact run_eq_some_iff.mpr ⟨k, Nat.lt_of_lt_of_le hk hle, hexit⟩

theorem run_unique {r' : R} (h : run round n s = some r) (h' : run round m s = some r') : r = r' := by
  rcases Nat.le_total n m with hle | hle
  · exact Option.some.inj ((run_mono h hle).symm.trans h')
  · exact Option.some.inj (h.symm.trans (run_mono h' hle))

theorem trace_add (emit : S → List E) (h : Steps round n s s') :
    trace round emit (n + m) s = trace round emit n s ++ trace round emit m s' := by
  induction h with
  | refl s => simp [trace]
  | @head n s s₁ s' hfirst _ ih =>
    rw [Nat.succ_add]
    simp only [trace, hfirst, ih, List.append_assoc]

theorem trace_exit (emit : S → List E) (h : round s = .inr r) : trace round emit (n + 1) s = emit s := by
  simp only [trace, h]

theorem exits_of_measure (Inv : S → Prop) (μ : S → Nat) (hround : ∀ s s', Inv s → round s = .inl s' → Inv s' ∧ μ s' < μ s) (h0 : Inv s) :
    ∃ k ≤ μ s, ∃ s' r, Steps round k s s' ∧ round s' = .inr r := by
  induction hn : μ s using Nat.strongRecOn generalizing s with
  | _ n ih =>
    subst hn
    rcases hs : round s with s₁ | r
    · obtain ⟨hinv, hlt⟩ := hround s s₁ h0 hs
      obtain ⟨k, hk, s', r, hsteps, hexit⟩ := ih (μ s₁) hlt hinv rfl
      exact ⟨k + 1, by omega, s', r, .head hs hsteps, hexit⟩
    · exact ⟨0, Nat.zero_le _, s, r, .refl s, hs⟩

end GoLib.Machine
