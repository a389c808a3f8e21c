import NeoCoin.Lib.Interleaving
import NeoCoin.Theorems.Submission

/-!
# Submissions among others

`handleSubmitTx` checks a transaction against the pending ones that it read, and changes the pool later; other submissions may do so in
between.
-/

namespace NeoCoin

open GoLib SubmitAux

/-! ## The handler and its steps -/

def Task.run {σ : Type} (C : Crypto) (s : Server σ) (out : Outside) : Nat → Task → Mempool → Option (Task × Mempool)
  | 0, t, m => some (t, m)
  | n + 1, t, m =>
    match t.step C s out m with
    | none => none
    | some (t', m') => Task.run C s out n t' m'

/-- A submission that runs alone, one call at a time, comes to what `handleSubmitTx` does. -/
theorem run_eq_handleSubmitTx {σ : Type} (C : Crypto) (bc : Blockchain σ) (requireAI : Bool) (m : Mempool) (out : Outside)
    (req : SubmitRequest) : Task.run C { bc, requireAI, mp := some m } out 4 (.received req) m =
      (handleSubmitTx C { bc, requireAI, mp := some m } out req).map fun done => (.finished done.1, done.2.getD m) := by
  unfold handleSubmitTx
  simp only [Task.run, Task.step]
  cases hread : readSubmission bc.chainID req with
  | error r => simp [bind, Except.bind]
  | ok tx =>
    cases hcheck : checkSubmission C bc.consensus (Server.nextHeight { bc, requireAI, mp := some m }) (some m) tx with
    | error r => simp [bind, Except.bind, hcheck]
    | ok found =>
      obtain ⟨a, m₀⟩ := found
      obtain ⟨-, -, hm, -⟩ := checkSubmission_ok hcheck
      cases hm
      simp only [bind, Except.bind, hcheck]
      cases checkPending (bc.state.get a) out.pending tx with
      | none => rfl
      | some decision =>
        cases decision with
        | error r => rfl
        | ok isReplacement =>
          cases checkAudit requireAI out.audit with
          | error r => rfl
          | ok _ => rfl

/-! ## Steps among others -/

def Task.Reads (m : Mempool) (out : Outside) : Task → Prop
  | .hasBalance _ _ fromAddr _ => PendingForSender m fromAddr out.pending
  | .decided _ _ fromAddr _ _ _ => GoMap.IsRange ((m.bySenderNonce.lookup fromAddr).getD ∅) out.later
  | _ => True

instance (m : Mempool) (out : Outside) : (t : Task) → Decidable (t.Reads m out)
  | .hasBalance _ _ _ _ => inferInstanceAs (Decidable (PendingForSender _ _ _))
  | .decided _ _ _ _ _ _ => inferInstanceAs (Decidable (GoMap.IsRange _ _))
  | .received _ | .verified _ _ _ | .finished _ => inferInstanceAs (Decidable True)

def Task.Fits (C : Crypto) (m : Mempool) : Task → Prop
  | .decided tx _ _ _ _ _ => NeoCoin.Fits C m tx
  | _ => True

instance (C : Crypto) (m : Mempool) : (t : Task) → Decidable (t.Fits C m)
  | .decided _ _ _ _ _ _ => inferInstanceAs (Decidable (NeoCoin.Fits _ _ _))
  | .received _ | .verified _ _ _ | .hasBalance _ _ _ _ | .finished _ => inferInstanceAs (Decidable True)

/-- When a submission changes the pool, the pending transactions before its own are those that it read. -/
def Task.Current (C : Crypto) (m : Mempool) : Task → Prop
  | .decided tx _ fromAddr _ pending _ =>
    (m.pendingOf C fromAddr).filter (fun t => t.nonce < tx.nonce) = (pending.map MempoolEntry.tx).filter fun t => t.nonce < tx.nonce
  | _ => True

instance (C : Crypto) (m : Mempool) : (t : Task) → Decidable (t.Current C m)
  | .decided _ _ _ _ _ _ => inferInstanceAs (Decidable (_ = _))
  | .received _ | .verified _ _ _ | .hasBalance _ _ _ _ | .finished _ => inferInstanceAs (Decidable True)

/-- A step of one submission among others, on a chain that stays as it is: there is room, no sum overflows, and `ok` holds. -/
structure SubmitStep {σ : Type} (C : Crypto) (bc : Blockchain σ) (requireAI : Bool) (ok : Mempool → Task → Prop) (m : Mempool) (t : Task)
    (m' : Mempool) (t' : Task) : Prop where
  room : m.HasRoom
  fits : t.Fits C m
  ok : ok m t
  step : ∃ out : Outside, t.Reads m out ∧ t.step C { bc, requireAI, mp := some m } out m = some (t', m')

namespace SubmitAux

/-- What a submission knows at each point, whatever the others do. -/
def TaskInv (C : Crypto) (state : State) : Task → Prop
  | .verified tx _ a => tx.fromAddress C = .ok a ∧ tx.nonce ≠ 0
  | .hasBalance tx _ a acct => tx.fromAddress C = .ok a ∧ tx.nonce ≠ 0 ∧ acct = state.get a
  | .decided tx _ a _ pending _ => tx.fromAddress C = .ok a ∧ CheckedAgainst (state.get a) pending tx
  | _ => True

section Step

variable {σ : Type} {C : Crypto} {bc : Blockchain σ} {requireAI : Bool} {m m' : Mempool} {t t' : Task}

theorem taskInv_received {req : SubmitRequest} {out : Outside}
    (h : (Task.received req).step C { bc, requireAI, mp := some m } out m = some (t', m')) : m' = m ∧ TaskInv C bc.state t' := by
  unfold Task.step at h
  simp only at h
  split at h
  · cases h
    exact ⟨rfl, trivial⟩
  · rename_i tx a hbefore
    cases h
    obtain ⟨tx', hread, hbefore⟩ := bind_eq_ok.mp hbefore
    obtain ⟨⟨a', m₀⟩, hcheck, hbefore⟩ := bind_eq_ok.mp hbefore
    obtain ⟨rfl, rfl⟩ := Prod.mk.inj (Except.ok.inj hbefore)
    obtain ⟨hverified, hfee, -, ha⟩ := checkSubmission_ok hcheck
    have hadm : Admissible C bc tx' := ⟨readSubmission_chainID hread, hverified, hfee⟩
    exact ⟨rfl, ha, (hadm.transfer ha).nonce⟩

theorem taskInv_hasBalance (h : PoolInv C bc.state m) {tx : Transaction} {height : UInt64} {a : Bytes} {acct : Account} {out : Outside}
    (ht : TaskInv C bc.state (.hasBalance tx height a acct)) (hreads : PendingForSender m a out.pending)
    (hstep : (Task.hasBalance tx height a acct).step C { bc, requireAI, mp := some m } out m = some (t', m')) :
    m' = m ∧ TaskInv C bc.state t' := by
  obtain ⟨ha, hnonce, rfl⟩ := ht
  unfold Task.step at hstep
  simp only at hstep
  split at hstep
  · cases hstep
  · rename_i decision hok
    split at hstep
    · cases hstep
      exact ⟨rfl, trivial⟩
    · cases hstep
      exact ⟨rfl, trivial⟩
    · cases hstep
      exact ⟨rfl, ha, checkedAgainst_of_check h hreads hnonce hok⟩

/-- A step of a submission keeps the pool executable and what the submission knows. -/
theorem poolInv_step (h : PoolInv C bc.state m) (ht : TaskInv C bc.state t)
    (hstep : SubmitStep C bc requireAI (Task.Current C) m t m' t') : PoolInv C bc.state m' ∧ TaskInv C bc.state t' := by
  obtain ⟨out, hreads, hrun⟩ := hstep.step
  cases t with
  | received req =>
    obtain ⟨rfl, ht'⟩ := taskInv_received hrun
    exact ⟨h, ht'⟩
  | verified tx height a =>
    cases hrun
    exact ⟨h, ht.1, ht.2, rfl⟩
  | hasBalance tx height a acct =>
    obtain ⟨rfl, ht'⟩ := taskInv_hasBalance h ht hreads hrun
    exact ⟨h, ht'⟩
  | decided tx height a acct pending isReplacement =>
    cases hrun
    refine ⟨poolInv_commit h ht.1 ht.2 ?_ hstep.fits hstep.room hreads, trivial⟩
    intro tx' hlt
    have hsame := congrArg (tx' ∈ ·) hstep.ok
    simp only [Multiset.mem_filter, Multiset.mem_coe, List.mem_filter, List.mem_map, hlt, decide_true, and_true, eq_iff_iff] at hsame
    exact hsame
  | finished r =>
    cases hrun
    exact ⟨h, trivial⟩

end Step

end SubmitAux

/-- Submissions that run among each other leave what can be executed, as long as each finds what it read when it changes the pool. -/
theorem interleaved_executable {σ : Type} (C : Crypto) (bc : Blockchain σ) (requireAI : Bool) (maxSize : Int64)
    (reqs : List SubmitRequest) (w : World Mempool Task)
    (hrun : Interleaving (SubmitStep C bc requireAI (Task.Current C)) ⟨newMempool maxSize, reqs.map Task.received⟩ w) (a : Bytes) :
    Executable C bc.state w.shared a := by
  have hinv := hrun.invariant (PoolInv C bc.state) (TaskInv C bc.state) poolInv_step (poolInv_newMempool C bc.state maxSize) ?_
  · exact hinv.1.executable a
  · intro t ht
    obtain ⟨req, -, rfl⟩ := List.mem_map.mp ht
    trivial

namespace Sample

def secondID : Bytes := hexEncode secondHash

def submitStep (ok : Mempool → Task → Prop) [∀ m t, Decidable (ok m t)] (out : Outside) (m : Mempool) (t : Task) :
    Option (Mempool × Task) :=
  if m.HasRoom ∧ t.Fits minerCrypto m ∧ ok m t ∧ t.Reads m out then
    (t.step minerCrypto { bc := node, mp := some m } out m).map Prod.swap
  else none

theorem submitStep_steps {ok : Mempool → Task → Prop} [∀ m t, Decidable (ok m t)] {out : Outside} {m m' : Mempool} {t t' : Task}
    (h : submitStep ok out m t = some (m', t')) : SubmitStep minerCrypto node false ok m t m' t' := by
  unfold submitStep at h
  split at h
  · rename_i hif
    obtain ⟨hroom, hfits, hok, hreads⟩ := hif
    obtain ⟨⟨t₁, m₁⟩, hstep, hswap⟩ := Option.map_eq_some_iff.mp h
    cases hswap
    exact ⟨hroom, hfits, hok, out, hreads, hstep⟩
  · cases h

/-- The submissions of the transfer that pays a fee, of the next one, and of the one that takes the place of the first. -/
def submissions : List SubmitRequest :=
  [{ body := some (some paying) }, { body := some (some second) }, { body := some (some dearer) }]

def received : World Mempool Task := ⟨newMempool 10, submissions.map Task.received⟩

theorem interleaving_of_schedule {ok : Mempool → Task → Prop} [∀ m t, Decidable (ok m t)] {schedule : List (Nat × Outside)}
    {w : World Mempool Task} (h : runSchedule (submitStep ok) schedule received = some w) :
    Interleaving (SubmitStep minerCrypto node false ok) received w := by
  refine Interleaving.of_schedule ?_ Interleaving.start h
  intro out m t m' t' hstep
  exact submitStep_steps hstep

def early : Outside := { now := 5 }

/-- The first and the last submission take turns, and the last one reads the pool after the first has changed it. -/
def inTurn : List (Nat × Outside) :=
  [(0, early), (2, early), (0, early), (2, early), (0, early), (0, early), (2, afterPaying), (2, afterPaying)]

def replaced : World Mempool Task :=
  ⟨poolOf dearer dearerID minerAddress,
    [.finished (queued payingID), .received { body := some (some second) }, .finished (queued dearerID)]⟩

theorem inTurn_runs : runSchedule (submitStep (Task.Current minerCrypto)) inTurn received = some replaced := by
  unfold submitStep
  simp only [minerCrypto, goCrypto_eq]
  decide +kernel

theorem inTurn_interleaving : Interleaving (SubmitStep minerCrypto node false (Task.Current minerCrypto)) received replaced :=
  interleaving_of_schedule inTurn_runs

end Sample

open Sample

/-- Two submissions that take turns, of which one takes the place of the other. -/
theorem interleaved_executable_inTurn : Interleaving (SubmitStep minerCrypto node false (Task.Current minerCrypto)) received replaced ∧
      Executable minerCrypto node.state replaced.shared minerAddress :=
  ⟨inTurn_interleaving,
    interleaved_executable minerCrypto node false 10 Sample.submissions replaced inTurn_interleaving
      minerAddress⟩

namespace Sample

/-- The second submission reads the pool before the last one changes it, and changes it afterwards. -/
def late : List (Nat × Outside) :=
  [(0, early), (0, early), (0, early), (0, early), (1, afterPaying), (1, afterPaying), (1, afterPaying), (2, afterPaying),
    (2, afterPaying), (2, afterPaying), (2, afterPaying), (1, { now := 5, later := [(1, dearerID)] })]

def overspent : World Mempool Task :=
  ⟨(poolOf dearer dearerID minerAddress).insert second secondID minerAddress 5,
    [.finished (queued payingID), .finished (queued secondID), .finished (queued dearerID)]⟩

theorem late_runs : runSchedule (submitStep fun _ _ => True) late received = some overspent := by
  unfold submitStep
  simp only [minerCrypto, goCrypto_eq]
  decide +kernel

end Sample

/-- Three submissions of one sender that are all accepted, and that together cost more than it holds. -/
theorem overspent_not_executable : Interleaving (SubmitStep minerCrypto node false fun _ _ => True) received overspent ∧
      (∀ t ∈ overspent.tasks, ∃ txid, t = .finished (queued txid)) ∧
      ¬Executable minerCrypto node.state overspent.shared minerAddress := by
  refine ⟨interleaving_of_schedule late_runs, ?_, ?_⟩
  · intro t ht
    simp only [overspent, List.mem_cons, List.not_mem_nil, or_false] at ht
    rcases ht with rfl | rfl | rfl
    · exact ⟨_, rfl⟩
    · exact ⟨_, rfl⟩
    · exact ⟨_, rfl⟩
  · intro hex
    refine absurd (cost_le_balance hex) ?_
    simp only [minerCrypto, goCrypto_eq]
    decide +kernel

end NeoCoin
