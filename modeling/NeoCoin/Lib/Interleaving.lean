import Mathlib.Data.List.Basic

/-!
# Tasks on shared data

Any number of tasks share some data, and each step is a step of one of them, in any order. What every step of a task keeps, of the data,
of the task itself and of the others, holds at every point of every interleaving (`Interleaving.invariant_stable`).
-/

namespace GoLib

variable {σ τ : Type*} {step : σ → τ → σ → τ → Prop}

structure World (σ τ : Type*) where
  shared : σ
  tasks : List τ
  deriving DecidableEq

/-- The worlds that an interleaving of steps of single tasks can reach. -/
inductive Interleaving {σ τ : Type*} (step : σ → τ → σ → τ → Prop) (w0 : World σ τ) : World σ τ → Prop where
  | start : Interleaving step w0 w0
  | next {w : World σ τ} {i : Nat} {t t' : τ} {s' : σ} : Interleaving step w0 w → w.tasks[i]? = some t → step w.shared t s' t' →
      Interleaving step w0 ⟨s', w.tasks.set i t'⟩

theorem Interleaving.invariant_stable (Inv : σ → Prop) (TaskInv : σ → τ → Prop)
    (hstep : ∀ {s s' : σ} {t t' : τ}, Inv s → TaskInv s t → step s t s' t' → Inv s' ∧ TaskInv s' t')
    (hstable : ∀ {s s' : σ} {t t' u : τ}, step s t s' t' → TaskInv s u → TaskInv s' u) {w0 w : World σ τ}
    (hrun : Interleaving step w0 w) (h0 : Inv w0.shared) (ht0 : ∀ t ∈ w0.tasks, TaskInv w0.shared t) :
    Inv w.shared ∧ ∀ t ∈ w.tasks, TaskInv w.shared t := by
  induction hrun with
  | start => exact ⟨h0, ht0⟩
  | next _ hi hone ih =>
    obtain ⟨hs, ht⟩ := ih
    obtain ⟨hs', ht'⟩ := hstep hs (ht _ (List.mem_of_getElem? hi)) hone
    refine ⟨hs', ?_⟩
    intro t hmem
    rcases List.mem_or_eq_of_mem_set hmem with hmem | rfl
    · exact hstable hone (ht t hmem)
    · exact ht'

theorem Interleaving.invariant (Inv : σ → Prop) (TaskInv : τ → Prop)
    (hstep : ∀ {s s' : σ} {t t' : τ}, Inv s → TaskInv t → step s t s' t' → Inv s' ∧ TaskInv t') {w0 w : World σ τ}
    (hrun : Interleaving step w0 w) (h0 : Inv w0.shared) (ht0 : ∀ t ∈ w0.tasks, TaskInv t) : Inv w.shared ∧ ∀ t ∈ w.tasks, TaskInv t :=
  hrun.invariant_stable Inv (fun _ => TaskInv) hstep (fun _ h => h) h0 ht0

/-- A schedule run by a function: which task steps each time, and what it finds. -/
def runSchedule {ι σ τ : Type*} (step : ι → σ → τ → Option (σ × τ)) : List (Nat × ι) → World σ τ → Option (World σ τ)
  | [], w => some w
  | (i, x) :: rest, w =>
    match w.tasks[i]? with
    | none => none
    | some t =>
      match step x w.shared t with
      | none => none
      | some (s', t') => runSchedule step rest ⟨s', w.tasks.set i t'⟩

theorem Interleaving.of_schedule {ι : Type*} {run : ι → σ → τ → Option (σ × τ)}
    (hstep : ∀ {x s t s' t'}, run x s t = some (s', t') → step s t s' t') {w0 w w' : World σ τ} (h : Interleaving step w0 w)
    {schedule : List (Nat × ι)} (hrun : runSchedule run schedule w = some w') : Interleaving step w0 w' := by
  induction schedule generalizing w with
  | nil =>
    rw [← Option.some.inj hrun]
    exact h
  | cons first rest ih =>
    unfold runSchedule at hrun
    split at hrun
    · cases hrun
    · rename_i t hi
      split at hrun
      · cases hrun
      · rename_i s' t' hone
        exact ih (h.next hi (hstep hone)) hrun

end GoLib
