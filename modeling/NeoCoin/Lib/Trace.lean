import Mathlib.Data.List.Infix

/-!
# Sequences of labelled steps

A property holds in every state along a sequence of calls exactly when no call is made in a state in which it is a bad one
(`Trace.always_iff`), if every other call keeps an invariant that implies the property, and a bad call breaks the property at once.
-/

namespace GoLib

open List

inductive Trace {σ ι : Type*} (step : σ → ι → σ → Prop) (s0 : σ) : List ι → σ → Prop where
  | start : Trace step s0 [] s0
  | next {labels : List ι} {l : ι} {s s' : σ} : Trace step s0 labels s → step s l s' → Trace step s0 (labels ++ [l]) s'

namespace Trace

variable {σ ι : Type*} {step : σ → ι → σ → Prop} {s0 s s' : σ} {labels : List ι} {l : ι}

theorem nil_iff : Trace step s0 [] s ↔ s = s0 := by
  constructor
  · intro h
    generalize hlabels : ([] : List ι) = labels at h
    cases h with
    | start => rfl
    | next _ _ => exact absurd hlabels.symm (append_ne_nil_of_right_ne_nil _ (cons_ne_nil _ _))
  · rintro rfl
    exact .start

theorem snoc_iff : Trace step s0 (labels ++ [l]) s' ↔ ∃ s, Trace step s0 labels s ∧ step s l s' := by
  constructor
  · intro h
    generalize hlabels : labels ++ [l] = labels' at h
    cases h with
    | start => exact absurd hlabels (append_ne_nil_of_right_ne_nil _ (cons_ne_nil _ _))
    | @next labels₁ l₁ s _ htrace hstep =>
      obtain ⟨rfl, hl⟩ := append_inj' hlabels rfl
      obtain rfl := (List.cons.inj hl).1
      exact ⟨s, htrace, hstep⟩
  · rintro ⟨s, htrace, hstep⟩
    exact htrace.next hstep

theorem append (h : Trace step s0 labels s) {rest : List ι} (h' : Trace step s rest s') : Trace step s0 (labels ++ rest) s' := by
  induction h' with
  | start =>
    rw [append_nil]
    exact h
  | next _ hstep ih =>
    rw [← append_assoc]
    exact ih.next hstep

theorem mem_of_start {earlier : List ι} (h : earlier ++ [l] <+: labels) : l ∈ labels :=
  h.subset (mem_append_right _ (mem_singleton_self _))

theorem inv_of_good {Inv : σ → Prop} {Good : σ → ι → Prop} (h0 : Inv s0)
    (hgood : ∀ {s l s'}, l ∈ labels → Inv s → Good s l → step s l s' → Inv s')
    (hall : ∀ earlier l s s', earlier ++ [l] <+: labels → Trace step s0 earlier s → step s l s' → Good s l)
    {earlier : List ι} (hearlier : earlier <+: labels) (h : Trace step s0 earlier s) : Inv s := by
  induction h with
  | start => exact h0
  | next htrace hstep ih =>
    exact hgood (mem_of_start hearlier) (ih ((prefix_append _ _).trans hearlier)) (hall _ _ _ _ hearlier htrace hstep) hstep

theorem always_iff (Inv P : σ → Prop) (Good : σ → ι → Prop) (labels : List ι) (h0 : Inv s0) (hP : ∀ {s}, Inv s → P s)
    (hgood : ∀ {s l s'}, l ∈ labels → Inv s → Good s l → step s l s' → Inv s')
    (hbad : ∀ {s l s'}, l ∈ labels → Inv s → step s l s' → P s' → Good s l) :
    (∀ earlier s, earlier <+: labels → Trace step s0 earlier s → P s) ↔
      ∀ earlier l s s', earlier ++ [l] <+: labels → Trace step s0 earlier s → step s l s' → Good s l := by
  constructor
  · intro hall
    have hinv : ∀ {earlier s}, Trace step s0 earlier s → earlier <+: labels → Inv s := by
      intro earlier s htrace
      induction htrace with
      | start => exact fun _ => h0
      | next htrace hstep ih =>
        intro hearlier
        have hinv := ih ((prefix_append _ _).trans hearlier)
        have hmem := mem_of_start hearlier
        exact hgood hmem hinv (hbad hmem hinv hstep (hall _ _ hearlier (htrace.next hstep))) hstep
    intro earlier l s s' hearlier htrace hstep
    have hinv := hinv htrace ((prefix_append _ _).trans hearlier)
    exact hbad (mem_of_start hearlier) hinv hstep (hall _ _ hearlier (htrace.next hstep))
  · exact fun hall earlier s hearlier htrace => hP (inv_of_good h0 hgood hall hearlier htrace)

end Trace

end GoLib
