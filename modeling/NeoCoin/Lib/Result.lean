import Mathlib.Data.List.Forall2
import Mathlib.Logic.Basic
import Mathlib.Tactic.SimpRw

/-!
# Go functions that return an error

A Go function returning `(T, error)` is a function to `Result T`: the value, or the text of the error.
-/

namespace GoLib

/-- What a Go function with an error result returns: a value, or an error with its text. -/
abbrev Result (α : Type*) := Except String α

/-- `if bad { return errors.New(msg) }`. -/
def failIf (bad : Prop) [Decidable bad] (msg : String) : Result Unit := if bad then .error msg else .ok ()

/-- `fmt.Errorf("pre%w", err)`. -/
def Result.wrap {α : Type*} (pre : String) : Result α → Result α
  | .ok a => .ok a
  | .error e => .error (pre ++ e)

/-- `if err != nil { return errors.New(msg) }`. -/
def Result.orError {α : Type*} (msg : String) : Result α → Result α
  | .ok a => .ok a
  | .error _ => .error msg

@[simp] theorem failIf_eq_ok {bad : Prop} [Decidable bad] {msg : String} {u : Unit} : failIf bad msg = .ok u ↔ ¬bad := by
  unfold failIf
  split
  · rename_i h
    simp [h]
  · rename_i h
    simp [h]

variable {α : Type*} {a : α} {r : Result α}

@[simp] theorem Result.wrap_eq_ok {pre : String} : Result.wrap pre r = .ok a ↔ r = .ok a := by
  cases r <;> simp [Result.wrap]

@[simp] theorem Result.orError_eq_ok {msg : String} : Result.orError msg r = .ok a ↔ r = .ok a := by
  cases r <;> simp [Result.orError]

@[simp] theorem bind_eq_ok {ε α β : Type} {x : Except ε α} {f : α → Except ε β} {b : β} :
    (x >>= f) = .ok b ↔ ∃ a, x = .ok a ∧ f a = .ok b := by
  cases x <;> simp [bind, Except.bind]

theorem unit_bind_eq_ok {α : Type} {x : Result Unit} {rest : Result α} {a : α} :
    (x >>= fun _ => rest) = .ok a ↔ x = .ok () ∧ rest = .ok a := by
  cases x <;> simp [bind, Except.bind]

@[simp] theorem pure_eq_ok {α : Type} {a b : α} : (pure a : Result α) = .ok b ↔ a = b := by
  simp [pure, Except.pure]

theorem mapM_ok {α β : Type} {f : α → Result β} {P : β → Prop} {l : List α} (h : ∀ a ∈ l, ∃ b, f a = .ok b ∧ P b) :
    ∃ bs, l.mapM f = .ok bs ∧ bs.length = l.length ∧ ∀ b ∈ bs, P b := by
  induction l with
  | nil => exact ⟨[], rfl, rfl, by simp⟩
  | cons a l ih =>
    obtain ⟨b, hb, hP⟩ := h a (.head _)
    obtain ⟨bs, hbs, hlen, hall⟩ := ih fun x hx => h x (.tail a hx)
    refine ⟨b :: bs, ?_, by rw [List.length_cons, List.length_cons, hlen], ?_⟩
    · rw [List.mapM_cons, hb, hbs]
      rfl
    · intro x hx
      rcases List.mem_cons.mp hx with rfl | hx
      · exact hP
      · exact hall x hx

theorem forM_eq_ok {α : Type} {f : α → Result Unit} {l : List α} : l.forM f = .ok () ↔ ∀ a ∈ l, f a = .ok () := by
  induction l with
  | nil => simp [List.forM, pure, Except.pure]
  | cons a l ih =>
    rw [List.forM, unit_bind_eq_ok, ih, List.forall_mem_cons]

@[simp] theorem Result.toOption_eq_some : r.toOption = some a ↔ r = .ok a := by
  cases r <;> simp [Except.toOption]

theorem forall_ok_iff {ε : Type*} {P : α → Prop} : (∀ b, (.ok a : Except ε α) = .ok b → P b) ↔ P a := by
  constructor
  · intro h
    exact h a rfl
  · intro h b hb
    rw [← Except.ok.inj hb]
    exact h

theorem forall_ok_of_error {ε : Type*} (P : α → Prop) (e : ε) : ∀ b, (.error e : Except ε α) = .ok b → P b := by
  intro b hb
  cases hb

/-- What is asked of a value, if there is one, can be decided. -/
instance decidableForallOk {ε α : Type*} (P : α → Prop) [∀ a, Decidable (P a)] :
    (r : Except ε α) → Decidable (∀ a, r = .ok a → P a)
  | .ok a => decidable_of_iff (P a) forall_ok_iff.symm
  | .error e => isTrue (forall_ok_of_error P e)

theorem Result.ok_or_error (r : Result α) : (∃ a, r = .ok a) ∨ ∃ e, r = .error e := by
  cases r with
  | ok a => exact Or.inl ⟨a, rfl⟩
  | error e => exact Or.inr ⟨e, rfl⟩

end GoLib
