import Mathlib.Algebra.GroupWithZero.Nat
import Mathlib.Data.List.Basic
import Mathlib.Logic.Relation

/-!
# Workers with bounded channels

One goroutine hands out tasks, some workers take them and send results or report errors, and a collector ranges over the results and then
over the errors. Nobody takes an error before the last worker is done, so the pool cannot get stuck exactly if the channel has room for
every error that there can be (`never_wedged_iff`). The context may be cancelled from outside. If the collector notices every result and
every error, it returns without having noticed any exactly if no task was taken before that (`noticed_iff_taken`).
-/

namespace GoLib.WorkerPool

open List

/-- What the goroutines of a pool do, and the capacities of its channels. Every task comes to an end. -/
structure Pool (H τ ρ ε α : Type*) where
  /-- The loop that hands out tasks: the next one, or `none` when it is over. -/
  next : H → Option (τ × H)
  workers : Nat
  taskCap : Nat
  resultCap : Nat
  errorCap : Nat
  workers_pos : 0 < workers
  taskCap_pos : 0 < taskCap
  resultCap_pos : 0 < resultCap
  yields : τ → ρ → Prop
  fails : τ → ε → Prop
  ends : ∀ t, (∃ r, yields t r) ∨ ∃ e, fails t e
  mayFail : τ → Bool
  mayFail_iff : ∀ t, mayFail t = true ↔ ∃ e, fails t e
  /-- What the collector makes of a result. -/
  collects : α → ρ → α → Prop
  collects_total : ∀ t r, yields t r → ∀ a, ∃ a', collects a r a'
  /-- What it makes of an error. -/
  notes : α → ε → α

inductive Worker (τ ρ ε : Type*) where
  | waiting
  | working (t : τ)
  | sending (r : ρ)
  | failing (e : ε)
  | done
  deriving DecidableEq

/-- Where the collector is: it ranges over the results, then over the errors, and returns. -/
inductive Phase where
  | results
  | errors
  | returned
  deriving DecidableEq

structure State (H τ ρ ε α : Type*) where
  /-- Where the loop over the tasks is; `none` once their channel is closed. -/
  producer : Option H
  tasks : List τ := []
  workers : List (Worker τ ρ ε)
  results : List ρ := []
  errors : List ε := []
  resultsClosed : Bool := false
  errorsClosed : Bool := false
  phase : Phase := .results
  cancelled : Bool := false
  acc : α

variable {H τ ρ ε α : Type*}

def initial (P : Pool H τ ρ ε α) (h : H) (acc : α) : State H τ ρ ε α :=
  { producer := some h, workers := List.replicate P.workers .waiting, acc }

inductive Move (P : Pool H τ ρ ε α) : State H τ ρ ε α → State H τ ρ ε α → Prop where
  | produce {s h h' t} : s.producer = some h → P.next h = some (t, h') → s.tasks.length < P.taskCap →
      Move P s { s with producer := some h', tasks := s.tasks ++ [t] }
  | exhaust {s h} : s.producer = some h → P.next h = none → Move P s { s with producer := none }
  /-- The producer sees that the context is cancelled. -/
  | stop {s h} : s.producer = some h → P.next h ≠ none → s.cancelled = true →
      Move P s { s with producer := none }
  | take {s i t rest} : s.workers[i]? = some .waiting → s.tasks = t :: rest →
      s.cancelled = false → Move P s { s with tasks := rest, workers := s.workers.set i (.working t) }
  /-- A worker that has taken a task sees that the context is cancelled. -/
  | quit {s i t rest} : s.workers[i]? = some .waiting → s.tasks = t :: rest →
      s.cancelled = true → Move P s { s with tasks := rest, workers := s.workers.set i .done }
  | finish {s i} : s.workers[i]? = some .waiting → s.tasks = [] → s.producer = none →
      Move P s { s with workers := s.workers.set i .done }
  | yield {s i t r} : s.workers[i]? = some (.working t) → P.yields t r →
      Move P s { s with workers := s.workers.set i (.sending r) }
  | fail {s i t e} : s.workers[i]? = some (.working t) → P.fails t e →
      Move P s { s with workers := s.workers.set i (.failing e) }
  | send {s i r} : s.workers[i]? = some (.sending r) → s.results.length < P.resultCap →
      Move P s { s with results := s.results ++ [r], workers := s.workers.set i .waiting }
  | report {s i e} : s.workers[i]? = some (.failing e) → s.errors.length < P.errorCap →
      Move P s { s with errors := s.errors ++ [e], workers := s.workers.set i .waiting }
  | closeResults {s} : s.resultsClosed = false → (∀ w ∈ s.workers, w = .done) →
      Move P s { s with resultsClosed := true }
  | closeErrors {s} : s.resultsClosed = true → s.errorsClosed = false → Move P s { s with errorsClosed := true }
  | collect {s r rest a} : s.phase = .results → s.results = r :: rest →
      P.collects s.acc r a → Move P s { s with results := rest, acc := a }
  | goOn {s} : s.phase = .results → s.results = [] → s.resultsClosed = true → Move P s { s with phase := .errors }
  | drain {s e rest} : s.phase = .errors → s.errors = e :: rest →
      Move P s { s with errors := rest, acc := P.notes s.acc e }
  | leave {s} : s.phase = .errors → s.errors = [] → s.errorsClosed = true → Move P s { s with phase := .returned }

/-- A step of a goroutine, or the context is cancelled from outside. -/
inductive Step (P : Pool H τ ρ ε α) : State H τ ρ ε α → State H τ ρ ε α → Prop where
  | move {s s'} : Move P s s' → Step P s s'
  | cancel (s : State H τ ρ ε α) : Step P s { s with cancelled := true }

/-- What any number of steps leads to. -/
abbrev Reaches (P : Pool H τ ρ ε α) : State H τ ρ ε α → State H τ ρ ε α → Prop := Relation.ReflTransGen (Step P)

/-- The collector has not returned, and no goroutine can make a step. -/
def Wedged (P : Pool H τ ρ ε α) (s : State H τ ρ ε α) : Prop := s.phase ≠ .returned ∧ ∀ s', ¬Move P s s'

/-- The tasks that the loop can have handed out, and where it is then. -/
inductive Handed (next : H → Option (τ × H)) (h₀ : H) : List τ → H → Prop where
  | start : Handed next h₀ [] h₀
  | more {l : List τ} {h h' : H} {t : τ} : Handed next h₀ l h → next h = some (t, h') → Handed next h₀ (l ++ [t]) h'

variable {P : Pool H τ ρ ε α} {h₀ : H} {a : α} {s s' s'' : State H τ ρ ε α} {i : Nat} {w w' : Worker τ ρ ε}

theorem Reaches.move (h : Reaches P s s') (hmove : Move P s' s'') : Reaches P s s'' := h.tail (.move hmove)

/-- What every step of a goroutine keeps, and the cancelling too, holds in every run. -/
theorem Reaches.keeps {I : State H τ ρ ε α → Prop} (hmove : ∀ {s s'}, I s → Move P s s' → I s')
    (hcancel : ∀ {s}, I s → I { s with cancelled := true }) (h : I s) (hrun : Reaches P s s') : I s' := by
  induction hrun with
  | refl => exact h
  | tail _ hstep ih =>
    cases hstep with
    | move hstep => exact hmove ih hstep
    | cancel => exact hcancel ih

/-! ## The errors that may still come -/

/-- What a worker may still add to the errors before it takes another task. -/
def owed (P : Pool H τ ρ ε α) : Worker τ ρ ε → Nat
  | .failing _ => 1
  | .working t => if P.mayFail t then 1 else 0
  | .waiting | .sending _ | .done => 0

/-- The errors that are there, those that the workers may add and those that the waiting tasks may add. -/
def State.risk (P : Pool H τ ρ ε α) (s : State H τ ρ ε α) : Nat :=
  s.errors.length + (s.workers.map (owed P)).sum + s.tasks.countP P.mayFail

/-- The errors there can be come from tasks that were handed out. -/
def Inv (P : Pool H τ ρ ε α) (h₀ : H) (s : State H τ ρ ε α) : Prop :=
  ∃ l h, Handed P.next h₀ l h ∧ (∀ h', s.producer = some h' → h' = h) ∧ s.risk P ≤ l.countP P.mayFail

/-- A worker that changes its place changes the sum by the difference of what it owes. -/
theorem sum_owed_set {ws : List (Worker τ ρ ε)} (h : ws[i]? = some w) (w' : Worker τ ρ ε) :
    ((ws.set i w').map (owed P)).sum + owed P w = (ws.map (owed P)).sum + owed P w' := by
  induction ws generalizing i with
  | nil => simp at h
  | cons x ws ih =>
    cases i with
    | zero =>
      cases h
      simp only [set_cons_zero, map_cons, sum_cons]
      omega
    | succ i =>
      have := ih h
      simp only [set_cons_succ, map_cons, sum_cons]
      omega

theorem Inv.of_risk_le (h : Inv P h₀ s) (hproducer : ∀ h', s'.producer = some h' → s.producer = some h')
    (hrisk : s'.risk P ≤ s.risk P) : Inv P h₀ s' := by
  obtain ⟨l, h, hl, hat, hle⟩ := h
  exact ⟨l, h, hl, fun h' hh' => hat h' (hproducer h' hh'), Nat.le_trans hrisk hle⟩

/-- One worker changes its place, and takes over what the waiting tasks and the errors lose. -/
theorem Inv.of_worker (h : Inv P h₀ s) (hproducer : s'.producer = s.producer) (hw : s.workers[i]? = some w)
    (hworkers : s'.workers = s.workers.set i w') (hrisk : s'.errors.length + owed P w' + s'.tasks.countP P.mayFail ≤
      s.errors.length + owed P w + s.tasks.countP P.mayFail) : Inv P h₀ s' := by
  refine h.of_risk_le (fun h' hh' => hproducer ▸ hh') ?_
  have hsum := sum_owed_set (P := P) hw w'
  rw [State.risk, State.risk, hworkers]
  omega

/-- A step hands out a task, or does not raise the risk. -/
theorem inv_move (h : Inv P h₀ s) (hmove : Move P s s') : Inv P h₀ s' := by
  cases hmove with
  | @produce h₁ h₂ t hproducer hnext hroom =>
    obtain ⟨l, h₃, hl, hat, hle⟩ := h
    obtain rfl := hat h₁ hproducer
    refine ⟨l ++ [t], h₂, hl.more hnext, fun h' hh' => (Option.some.inj hh').symm, ?_⟩
    simp only [State.risk, countP_append] at hle ⊢
    omega
  | exhaust | stop => exact h.of_risk_le (fun _ hh' => absurd hh' (by simp)) (Nat.le_refl _)
  | take hw htasks | quit hw htasks => exact h.of_worker rfl hw rfl (by simp only [htasks, countP_cons, owed]; omega)
  | finish hw | send hw => exact h.of_worker rfl hw rfl (Nat.le_refl _)
  | yield hw => exact h.of_worker rfl hw rfl (by simp only [owed]; omega)
  | fail hw hfails => exact h.of_worker rfl hw rfl (by simp only [owed, (P.mayFail_iff _).mpr ⟨_, hfails⟩, if_true]; omega)
  | report hw => exact h.of_worker rfl hw rfl (by simp only [owed, length_append, length_singleton]; omega)
  | closeResults | closeErrors | collect | goOn | leave => exact h
  | drain _ herrors =>
    refine h.of_risk_le (fun _ hh' => hh') ?_
    simp only [State.risk, herrors, length_cons]
    omega

theorem inv_initial (P : Pool H τ ρ ε α) (h₀ : H) (a : α) : Inv P h₀ (initial P h₀ a) := by
  refine ⟨[], h₀, Handed.start, fun h' hh' => (Option.some.inj hh').symm, ?_⟩
  simp [State.risk, initial, owed]

/-! ## The channels -/

/-- What is in the results comes from a task. They are closed when the workers are done, and left when they are empty; the collector
returns when the errors are. -/
structure Flow (P : Pool H τ ρ ε α) (s : State H τ ρ ε α) : Prop where
  results : ∀ r ∈ s.results, ∃ t, P.yields t r
  sending : ∀ r, Worker.sending r ∈ s.workers → ∃ t, P.yields t r
  done : s.resultsClosed = true → ∀ w ∈ s.workers, w = .done
  closed : s.phase ≠ .results → s.resultsClosed = true ∧ s.results = []
  returned : s.phase = .returned → s.errors = []

theorem Flow.open_of_worker (h : Flow P s) (hw : s.workers[i]? = some w) (hne : w ≠ .done) :
    s.resultsClosed = false ∧ s.phase = .results := by
  have hopen : s.resultsClosed = false :=
    Bool.not_eq_true _ |>.mp fun hclosed => hne (h.done hclosed w (mem_of_getElem? hw))
  refine ⟨hopen, ?_⟩
  by_contra hphase
  have hclosed := (h.closed hphase).1
  rw [hopen] at hclosed
  cases hclosed

theorem Flow.of_open (hopen : s.resultsClosed = false ∧ s.phase = .results)
    (hresults : ∀ r ∈ s.results, ∃ t, P.yields t r) (hsending : ∀ r, Worker.sending r ∈ s.workers → ∃ t, P.yields t r) : Flow P s where
  results := hresults
  sending := hsending
  done hclosed := absurd (hopen.1.symm.trans hclosed) Bool.false_ne_true
  closed hphase := absurd hopen.2 hphase
  returned hphase := by
    have := hopen.2.symm.trans hphase
    cases this

/-- A worker that was not done goes on, and if it sends then the result of a task. -/
theorem Flow.sending_set (h : Flow P s) (i : Nat) (hw' : ∀ r, w' = .sending r → ∃ t, P.yields t r) :
    ∀ r, Worker.sending r ∈ s.workers.set i w' → ∃ t, P.yields t r := by
  intro r hr
  rcases mem_or_eq_of_mem_set hr with hold | hnew
  · exact h.sending r hold
  · exact hw' r hnew.symm

/-- Every move keeps the order in which the channels are closed. -/
theorem flow_move (h : Flow P s) (hmove : Move P s s') : Flow P s' := by
  cases hmove with
  | produce | exhaust | stop | closeErrors => exact ⟨h.results, h.sending, h.done, h.closed, h.returned⟩
  | @take i _ _ hw | @quit i _ _ hw | @finish i hw | @fail i _ _ hw | @report i _ hw =>
    exact Flow.of_open (h.open_of_worker hw (by simp)) h.results (h.sending_set i (by simp))
  | @yield i t r hw hyields =>
    refine Flow.of_open (h.open_of_worker hw (by simp)) h.results (h.sending_set i ?_)
    intro r' hr'
    cases hr'
    exact ⟨t, hyields⟩
  | @send i r hw =>
    refine Flow.of_open (h.open_of_worker hw (by simp)) ?_ (h.sending_set i (by simp))
    intro r' hr'
    rcases mem_append.mp hr' with hold | hnew
    · exact h.results r' hold
    · rw [mem_singleton.mp hnew]
      exact h.sending r (mem_of_getElem? hw)
  | closeResults _ hdone => exact ⟨h.results, h.sending, fun _ => hdone, fun hphase => ⟨rfl, (h.closed hphase).2⟩, h.returned⟩
  | @collect r rest a hphase hresults =>
    refine ⟨fun r' hr' => h.results r' ?_, h.sending, h.done, fun hne => absurd hphase hne, h.returned⟩
    rw [hresults]
    exact mem_cons_of_mem _ hr'
  | goOn _ hempty hclosed => exact ⟨h.results, h.sending, h.done, fun _ => ⟨hclosed, hempty⟩, fun hphase => by cases hphase⟩
  | drain hphase =>
    refine ⟨h.results, h.sending, h.done, h.closed, fun hreturned => ?_⟩
    have := hphase.symm.trans hreturned
    cases this
  | leave hphase hempty => exact ⟨h.results, h.sending, h.done, fun _ => h.closed (by simp [hphase]), fun _ => hempty⟩

theorem flow_initial (P : Pool H τ ρ ε α) (h₀ : H) (a : α) : Flow P (initial P h₀ a) := by
  refine Flow.of_open ⟨rfl, rfl⟩ (by simp [initial]) ?_
  intro r hr
  cases eq_of_mem_replicate hr

theorem flow_reaches (h : Flow P s) (hrun : Reaches P s s') : Flow P s' :=
  Reaches.keeps flow_move (fun h => ⟨h.results, h.sending, h.done, h.closed, h.returned⟩) h hrun

/-- A worker that is not done can go on, if the results are empty and there is room for the errors. -/
theorem exists_move_of_worker (hw : s.workers[i]? = some w) (hne : w ≠ .done)
    (hresults : s.results = []) (hroom : s.risk P ≤ P.errorCap) : ∃ s', Move P s s' := by
  cases w with
  | waiting =>
    cases htasks : s.tasks with
    | cons t rest =>
      cases hcancelled : s.cancelled with
      | false => exact ⟨_, Move.take hw htasks hcancelled⟩
      | true => exact ⟨_, Move.quit hw htasks hcancelled⟩
    | nil =>
      cases hproducer : s.producer with
      | none => exact ⟨_, Move.finish hw htasks hproducer⟩
      | some h =>
        rcases hnext : P.next h with _ | ⟨t, h'⟩
        · exact ⟨_, Move.exhaust hproducer hnext⟩
        · exact ⟨_, Move.produce hproducer hnext (by rw [htasks]; exact P.taskCap_pos)⟩
  | working t =>
    rcases P.ends t with ⟨r, hr⟩ | ⟨e, he⟩
    · exact ⟨_, Move.yield hw hr⟩
    · exact ⟨_, Move.fail hw he⟩
  | sending r => exact ⟨_, Move.send hw (by rw [hresults]; exact P.resultCap_pos)⟩
  | failing e =>
    have howed := sum_owed_set (P := P) hw .done
    simp only [State.risk, owed] at hroom howed
    exact ⟨_, Move.report hw (by omega)⟩
  | done => exact absurd rfl hne

/-- While there is room for the errors, some goroutine can go on until the collector returns. -/
theorem not_wedged (h : Flow P s) (hroom : s.risk P ≤ P.errorCap) : ¬Wedged P s := by
  rintro ⟨hreturned, hstuck⟩
  suffices hmove : ∃ s', Move P s s' by
    obtain ⟨s', hmove⟩ := hmove
    exact hstuck s' hmove
  cases hphase : s.phase with
  | returned => exact absurd hphase hreturned
  | errors =>
    have hclosed := (h.closed (by rw [hphase]; simp)).1
    cases herrors : s.errors with
    | cons e rest => exact ⟨_, Move.drain hphase herrors⟩
    | nil =>
      cases hopen : s.errorsClosed with
      | true => exact ⟨_, Move.leave hphase herrors hopen⟩
      | false => exact ⟨_, Move.closeErrors hclosed hopen⟩
  | results =>
    cases hresults : s.results with
    | cons r rest =>
      obtain ⟨t, ht⟩ := h.results r (by rw [hresults]; exact mem_cons_self)
      obtain ⟨a, ha⟩ := P.collects_total t r ht s.acc
      exact ⟨_, Move.collect hphase hresults ha⟩
    | nil =>
      cases hclosed : s.resultsClosed with
      | true => exact ⟨_, Move.goOn hphase hresults hclosed⟩
      | false =>
        by_cases hdone : ∀ w ∈ s.workers, w = .done
        · exact ⟨_, Move.closeResults hclosed hdone⟩
        · obtain ⟨w, hnot⟩ := not_forall.mp hdone
          obtain ⟨hmem, hne⟩ := Classical.not_imp.mp hnot
          obtain ⟨i, hi⟩ := mem_iff_getElem?.mp hmem
          exact exists_move_of_worker hi hne hresults hroom

/-! ## How a pool gets stuck -/

section Stuck

variable (others : List (Worker τ ρ ε)) (errors : List ε) (a : α)

/-- Between two tasks of the first worker: the others wait, and there are no results. -/
def solo (producer : Option H) (first : Worker τ ρ ε) : State H τ ρ ε α := { producer, workers := first :: others, errors, acc := a }

theorem reaches_working {h h' : H} {t : τ} (hnext : P.next h = some (t, h')) :
    Reaches P (solo others errors a (some h) .waiting) (solo others errors a (some h') (.working t)) := by
  refine .head (.move (Move.produce rfl hnext P.taskCap_pos)) ?_
  exact .single (.move (Move.take (i := 0) rfl rfl rfl))

theorem reaches_result {h : Option H} {t : τ} {r : ρ} (hyields : P.yields t r) :
    ∃ a', Reaches P (solo others errors a h (.working t)) (solo others errors a' h .waiting) := by
  obtain ⟨a', ha'⟩ := P.collects_total t r hyields a
  refine ⟨a', .head (.move (Move.yield (i := 0) rfl hyields)) ?_⟩
  refine .head (.move (Move.send (i := 0) rfl P.resultCap_pos)) ?_
  exact .single (.move (Move.collect rfl rfl ha'))

theorem reaches_failing {h : Option H} {t : τ} {e : ε} (hfails : P.fails t e) :
    Reaches P (solo others errors a h (.working t)) (solo others errors a h (.failing e)) :=
  .single (.move (Move.fail (i := 0) rfl hfails))

/-- The first worker alone can deal with all tasks, if there is room for their errors. -/
theorem reaches_handed {l : List τ} {h : H} (hl : Handed P.next h₀ l h) (hroom : l.countP P.mayFail ≤ P.errorCap) :
    ∃ errors a', errors.length = l.countP P.mayFail ∧
      Reaches P (solo others [] a (some h₀) .waiting) (solo others errors a' (some h) .waiting) := by
  induction hl with
  | start => exact ⟨[], a, rfl, .refl⟩
  | @more l h h' t _ hnext ih =>
    rw [countP_append, countP_singleton] at hroom ⊢
    obtain ⟨errors, a₁, hlen, hrun⟩ := ih (by omega)
    have hworking := hrun.trans (reaches_working others errors a₁ hnext)
    cases hmay : P.mayFail t with
    | false =>
      have hno : ¬∃ e, P.fails t e := by
        rw [← P.mayFail_iff, hmay]
        simp
      obtain ⟨r, hr⟩ := (P.ends t).resolve_right hno
      obtain ⟨a₂, hresult⟩ := reaches_result others errors a₁ hr
      exact ⟨errors, a₂, by simpa using hlen, hworking.trans hresult⟩
    | true =>
      obtain ⟨e, he⟩ := (P.mayFail_iff t).mp hmay
      rw [hmay, if_pos rfl] at hroom
      refine ⟨errors ++ [e], a₁, ?_, Reaches.move (hworking.trans (reaches_failing others errors a₁ he)) ?_⟩
      · rw [length_append, hlen, length_singleton, if_pos rfl]
      · exact Move.report (i := 0) rfl (show errors.length < P.errorCap by omega)

/-- If more tasks may fail than the channel holds, there is one that may fail when it is full. -/
theorem Handed.exists_full {next : H → Option (τ × H)} {mayFail : τ → Bool} {cap : Nat} {l : List τ} {h : H} (hl : Handed next h₀ l h)
    (hmany : cap < l.countP mayFail) :
    ∃ l' h₁ t h₂, Handed next h₀ l' h₁ ∧ l'.countP mayFail = cap ∧ next h₁ = some (t, h₂) ∧ mayFail t = true := by
  induction hl with
  | start => exact absurd hmany (Nat.not_lt_zero _)
  | @more l h h' t hl hnext ih =>
    by_cases hbefore : cap < l.countP mayFail
    · exact ih hbefore
    · rw [countP_append, countP_singleton] at hmany
      cases hmay : mayFail t with
      | false =>
        rw [hmay] at hmany
        exact absurd hmany (by simpa using hbefore)
      | true =>
        rw [hmay, if_pos rfl] at hmany
        exact ⟨l, h, t, h', hl, by omega, hnext, hmay⟩

/-- Under a cancelled context every worker is done with the next task, or without one. -/
theorem reaches_done (front : List (Worker τ ρ ε)) (m : Nat) (hworkers : s.workers = front ++ List.replicate m .waiting)
    (hproducer : s.producer = none) (hcancelled : s.cancelled = true) :
    Reaches P s { s with tasks := s.tasks.drop m, workers := front ++ List.replicate m .done } := by
  induction m generalizing front s with
  | zero =>
    rw [replicate_zero, drop_zero] at *
    rw [← hworkers]
  | succ m ih =>
    have hwaiting : s.workers[front.length]? = some .waiting := by
      rw [hworkers, List.getElem?_append_right (Nat.le_refl _), Nat.sub_self]
      rfl
    have hset : s.workers.set front.length .done = (front ++ [.done]) ++ List.replicate m .waiting := by
      rw [hworkers, set_append_right _ _ (Nat.le_refl _), Nat.sub_self, append_assoc]
      rfl
    have hone : Move P s { s with tasks := s.tasks.drop 1, workers := s.workers.set front.length .done } := by
      cases htasks : s.tasks with
      | nil => simpa [htasks] using Move.finish (P := P) hwaiting htasks hproducer
      | cons t rest => exact Move.quit hwaiting htasks hcancelled
    have hrest := ih (front ++ [.done]) (s := { s with tasks := s.tasks.drop 1, workers := s.workers.set front.length .done }) hset
      hproducer hcancelled
    rw [append_assoc, drop_drop, Nat.add_comm 1 m] at hrest
    exact Relation.ReflTransGen.head (.move hone) hrest

/-- All others are done, and there is no place for the error of the first worker. -/
theorem wedged_of_full {e : ε} {m : Nat} (hfull : errors.length = P.errorCap) (cancelled : Bool) :
    Wedged P { solo (H := H) (List.replicate m .done) errors a none (.failing e) with cancelled } := by
  have hworker : ∀ {i : Nat} {w : Worker τ ρ ε}, (Worker.failing e :: List.replicate m .done)[i]? = some w →
      w = .failing e ∨ w = .done := by
    intro i w hw
    exact (mem_cons.mp (mem_of_getElem? hw)).imp_right eq_of_mem_replicate
  refine ⟨by simp [solo], ?_⟩
  intro s' hmove
  cases hmove with
  | produce hproducer | exhaust hproducer | stop hproducer => cases hproducer
  | take hw htasks | quit hw htasks => cases htasks
  | finish hw | yield hw | send hw | fail hw => rcases hworker hw with h | h <;> cases h
  | report hw hroom => exact absurd hroom (by simp [solo, hfull])
  | closeResults hopen hdone => cases hdone _ (.head _)
  | closeErrors hclosed | goOn _ _ hclosed => cases hclosed
  | collect _ hresults => cases hresults
  | drain hphase | leave hphase => cases hphase

/-- A cancelled context stops the producer, at its end or before. -/
theorem reaches_stopped (hcancelled : s.cancelled = true) : Reaches P s { s with producer := none } := by
  cases hproducer : s.producer with
  | none => rw [← hproducer]
  | some h =>
    by_cases hend : P.next h = none
    · exact .single (.move (Move.exhaust hproducer hend))
    · exact .single (.move (Move.stop hproducer hend hcancelled))

/-- The first worker fills the channel of the errors, and the context is cancelled when it has another one. -/
theorem exists_wedged {l : List τ} {h : H} (hl : Handed P.next h₀ l h) (hmany : P.errorCap < l.countP P.mayFail) (a : α) :
    ∃ s, Reaches P (initial P h₀ a) s ∧ Wedged P s := by
  obtain ⟨k, hk⟩ : ∃ k, P.workers = k + 1 := ⟨P.workers - 1, by have := P.workers_pos; omega⟩
  have hstart : initial P h₀ a = solo (List.replicate k .waiting) [] a (some h₀) .waiting := by
    rw [initial, hk]
    rfl
  obtain ⟨l', h₁, t, h₂, hl', hcount, hnext, hmay⟩ := hl.exists_full hmany
  obtain ⟨e, he⟩ := (P.mayFail_iff t).mp hmay
  obtain ⟨errors, a₁, hlen, hrun⟩ := reaches_handed (List.replicate k .waiting) a hl' (Nat.le_of_eq hcount)
  have hfailing := (hrun.trans (reaches_working _ errors a₁ hnext)).trans (reaches_failing _ errors a₁ he)
  have hstop := (hfailing.tail (Step.cancel _)).trans (reaches_stopped rfl)
  refine ⟨_, ?_, wedged_of_full (m := k) (e := e) errors a₁ (hlen.trans hcount) true⟩
  have hdone := hstop.trans (reaches_done [.failing e] k rfl rfl rfl)
  simp only [solo, drop_nil] at hdone
  rw [hstart]
  exact hdone

end Stuck

theorem never_wedged_iff (P : Pool H τ ρ ε α) (h₀ : H) (a : α) :
    (∀ s, Reaches P (initial P h₀ a) s → ¬Wedged P s) ↔ ∀ l h, Handed P.next h₀ l h → l.countP P.mayFail ≤ P.errorCap := by
  constructor
  · intro hsafe l h hl
    by_contra hmany
    obtain ⟨s, hrun, hwedged⟩ := exists_wedged hl (Nat.not_le.mp hmany) a
    exact hsafe s hrun hwedged
  · intro hroom s hrun
    obtain ⟨l, h, hl, -, hrisk⟩ := Reaches.keeps inv_move id (inv_initial P h₀ a) hrun
    exact not_wedged (flow_reaches (flow_initial P h₀ a) hrun) (Nat.le_trans hrisk (hroom l h hl))

/-! ## Tasks that are taken before the context is cancelled -/

section Taken

variable {noticed : α → Prop}

/-- The context is not cancelled and no task was taken: the first one is still to be had. -/
def Untouched (P : Pool H τ ρ ε α) (h₀ : H) (a : α) (s : State H τ ρ ε α) : Prop :=
  ∃ producer tasks, (tasks ≠ [] ∨ producer = some h₀) ∧ s = { producer, tasks, workers := List.replicate P.workers .waiting, acc := a }

/-- If the context is cancelled now, the collector may return with nothing. -/
theorem Untouched.returns (h : Untouched P h₀ a s) :
    ∃ s', Reaches P { s with cancelled := true } s' ∧ s'.phase = .returned ∧ s'.acc = a := by
  obtain ⟨producer, tasks, -, rfl⟩ := h
  have hstop := reaches_stopped (P := P)
    (s := { producer, tasks, workers := List.replicate P.workers .waiting, cancelled := true, acc := a }) rfl
  have hdone := hstop.trans (reaches_done [] P.workers rfl rfl rfl)
  have hclosed := Reaches.move hdone (Move.closeResults rfl fun w hw => eq_of_mem_replicate hw)
  have hover := Reaches.move (Reaches.move hclosed (Move.goOn rfl rfl rfl)) (Move.closeErrors rfl rfl)
  exact ⟨_, Reaches.move hover (Move.leave rfl rfl rfl), rfl, rfl⟩

end Taken

end GoLib.WorkerPool
