import NeoCoin.Mempool

/-!
# How transactions reach the pool

`handleSubmitTx` of `blockchain/http.go`, and `handleTransactionReq` and `handleTransactionBroadcast` of `blockchain/p2p_server.go`. Between
its calls on the chain and on the pool `handleSubmitTx` holds no lock, so that it is also given as a task that makes one of these calls at a
time.
-/

namespace NeoCoin

open GoLib

variable {status : Nat} {σ : Type} {C : Crypto} {tx : Transaction} {a : Bytes}

/-! ## Requests and responses -/

/-- `submitTxResponse`, as far as it is filled in. -/
structure SubmitTxResponse where
  accepted : Bool
  message : String
  txID : Bytes := []
  deriving DecidableEq, Repr

/-- What an HTTP handler writes: a status with a text (`http.Error`) or with a response (`writeJSON`). -/
inductive HttpResponse where
  | text (status : Nat) (body : String)
  | json (status : Nat) (response : SubmitTxResponse)
  deriving DecidableEq, Repr

def refuse (status : Nat) (message : String) : HttpResponse := .json status { accepted := false, message }

/-- `if bad { writeJSON(...); return }`. -/
def refuseIf (bad : Prop) [Decidable bad] (status : Nat) (message : String) : Except HttpResponse Unit :=
  if bad then .error (refuse status message) else .ok ()

/-- `if err != nil { writeJSON(... err.Error() ...); return }`. -/
def orRefuse {α : Type} (status : Nat) : Result α → Except HttpResponse α
  | .ok a => .ok a
  | .error e => .error (refuse status e)

@[simp] theorem refuseIf_eq_ok {bad : Prop} [Decidable bad] {message : String} {u : Unit} : refuseIf bad status message = .ok u ↔ ¬bad := by
  unfold refuseIf
  split
  · rename_i h
    simp [h]
  · rename_i h
    simp [h]

@[simp] theorem orRefuse_eq_ok {α : Type} {r : Result α} {a : α} : orRefuse status r = .ok a ↔ r = .ok a := by
  cases r <;> simp [orRefuse]

/-- A request: whether it is a POST, and the transaction in its body, if that can be read and decoded. -/
structure SubmitRequest where
  isPost : Bool := true
  body : Option (Option Transaction)
  deriving DecidableEq

/-- What `handleSubmitTx` reads from outside: what `PendingForSender` returned, the AI answers, the orders in which the pool is visited,
and the clock. -/
structure Outside where
  pending : List MempoolEntry := []
  audit : Result Bool := .ok true
  filter : Option (Result (Int × String)) := none
  entries : List (Bytes × MempoolEntry) := []
  later : List (UInt64 × Bytes) := []
  now : Int64 := 0

/-- `Server`, as far as `handleSubmitTx` reads it; a pool that is not configured is none. -/
structure Server (σ : Type) where
  bc : Blockchain σ
  requireAI : Bool := false
  mp : Option Mempool

/-! ## The parts of the handler -/

def readSubmission (chainID : UInt64) (req : SubmitRequest) : Except HttpResponse Transaction :=
  if req.isPost = false then .error (.text 405 "method not allowed")
  else
    match req.body with
    | none => .error (.text 400 "read body failed")
    | some none => .error (refuse 400 "invalid json")
    | some (some tx) => do
      let tx := tx.withChainID chainID
      refuseIf (tx.chainID ≠ chainID) 400 "wrong chainId"
      .ok tx

/-- The part about the transaction alone: the address of its sender, and the pool. -/
def checkSubmission (C : Crypto) (p : ConsensusParams) (nextHeight : UInt64) (mp : Option Mempool) (tx : Transaction) :
    Except HttpResponse (Bytes × Mempool) := do
  orRefuse 400 (tx.verifyForConsensus C p nextHeight)
  refuseIf (tx.fee < minFee) 400 "fee too low"
  match mp with
  | none => .error (refuse 500 "mempool not configured")
  | some m => do
    let fromAddr ← orRefuse 400 (tx.fromAddress C)
    .ok (fromAddr, m)

def pendingByNonce (pending : List MempoolEntry) : GoMap UInt64 Transaction := pending.foldl (fun m p => m.set p.tx.nonce p.tx) ∅

/-- The loop over the contiguous nonces, for at most `n` rounds: the first nonce that is missing, and the debit before it. -/
def contiguousLoop (byNonce : GoMap UInt64 Transaction) : Nat → UInt64 → UInt64 → Option (UInt64 × UInt64)
  | 0, _, _ => none
  | n + 1, expectedNonce, debit =>
    match byNonce.lookup expectedNonce with
    | none => some (expectedNonce, debit)
    | some p => contiguousLoop byNonce n (expectedNonce + 1) (debit + (p.amount + p.fee))

/-- The loop over the nonces before the one that is replaced, which has `k` rounds. -/
def debitBeforeLoop (byNonce : GoMap UInt64 Transaction) : Nat → UInt64 → UInt64 → Except HttpResponse UInt64
  | 0, _, debit => .ok debit
  | k + 1, n, debit =>
    match byNonce.lookup n with
    | none => .error (refuse 400 "nonce gap in mempool")
    | some p => debitBeforeLoop byNonce k (n + 1) (debit + (p.amount + p.fee))

/-- The part about the balance and the nonce: whether the transaction replaces another. `none` when the first loop does not end. -/
def checkPending (acct : Account) (pending : List MempoolEntry) (tx : Transaction) : Option (Except HttpResponse Bool) :=
  let byNonce := pendingByNonce pending
  match contiguousLoop byNonce (byNonce.keys.card + 1) (acct.nonce + 1) 0 with
  | none => none
  | some (expectedNonce, pendingDebitBefore) => some <|
    if tx.nonce = expectedNonce then do
      refuseIf (acct.balance < pendingDebitBefore + (tx.amount + tx.fee)) 400 "insufficient funds"
      .ok false
    else
      match byNonce.lookup tx.nonce with
      | none => .error (refuse 400 s!"bad nonce: expected {expectedNonce}, got {tx.nonce}")
      | some existing => do
        let debitBefore ← debitBeforeLoop byNonce (tx.nonce.toNat - (acct.nonce + 1).toNat) (acct.nonce + 1) 0
        refuseIf (acct.balance < debitBefore + (tx.amount + tx.fee)) 400 "insufficient funds"
        refuseIf (tx.fee ≤ existing.fee) 400 "replacement fee must be higher"
        .ok true

def checkAudit (requireAI : Bool) (audit : Result Bool) : Except HttpResponse Unit :=
  if requireAI = false then .ok ()
  else
    match audit with
    | .error _ => .error (refuse 502 "ai auditor error")
    | .ok approved => refuseIf (approved = false) 200 "rejected by AI auditor"

def queued (txid : Bytes) : HttpResponse := .json 200 { accepted := true, message := "queued", txID := txid }

/-- The last part, which changes the pool. A transaction that is there already counts as accepted. -/
def commitSubmission (C : Crypto) (p : ConsensusParams) (out : Outside) (m : Mempool) (tx : Transaction) (nextHeight : UInt64)
    (isReplacement : Bool) : HttpResponse × Mempool :=
  if isReplacement then
    let r := m.replaceByFeeWithTxID C out.later out.now tx [] p nextHeight
    match r.err with
    | some e => (refuse 400 e, r.pool)
    | none => if r.replaced = false then (refuse 400 "replacement rejected", r.pool) else (queued r.txid, r.pool)
  else
    let r := m.addWithTxID C out.filter out.entries out.now tx [] p nextHeight
    match r.1.2 with
    | some e =>
      if e = "duplicate transaction" then (.json 200 { accepted := true, message := "duplicate", txID := r.1.1 }, r.2)
      else (refuse 400 e, r.2)
    | none => (queued r.1.1, r.2)

/-! ## The handler -/

def Server.nextHeight {σ : Type} (s : Server σ) : UInt64 := s.bc.blocks.tip.height + 1

/-- `handleSubmitTx`: what it writes, and the pool it leaves; `none` when it does not return. -/
def handleSubmitTx {σ : Type} (C : Crypto) (s : Server σ) (out : Outside) (req : SubmitRequest) : Option (HttpResponse × Option Mempool) :=
  let before : Except HttpResponse (Transaction × Bytes × Mempool) := do
    let tx ← readSubmission s.bc.chainID req
    let (fromAddr, m) ← checkSubmission C s.bc.consensus s.nextHeight s.mp tx
    .ok (tx, fromAddr, m)
  match before with
  | .error r => some (r, s.mp)
  | .ok (tx, fromAddr, m) =>
    match checkPending (s.bc.state.get fromAddr) out.pending tx with
    | none => none
    | some decision =>
      match decision, checkAudit s.requireAI out.audit with
      | .error r, _ => some (r, some m)
      | .ok _, .error r => some (r, some m)
      | .ok isReplacement, .ok () =>
        let done := commitSubmission C s.bc.consensus out m tx s.nextHeight isReplacement
        some (done.1, some done.2)

/-! ## What a submission has passed -/

/-- What `handleSubmitTx` checks of a transaction before it looks at the pending ones. -/
structure Admissible {σ : Type} (C : Crypto) (bc : Blockchain σ) (tx : Transaction) : Prop where
  chainID : tx.chainID = bc.chainID
  verified : tx.verifyForConsensus C bc.consensus (bc.blocks.tip.height + 1) = .ok ()
  fee : minFee ≤ tx.fee

theorem Admissible.transfer {bc : Blockchain σ} (h : Admissible C bc tx)
    (ha : tx.fromAddress C = .ok a) : VerifiedTransfer C tx bc.consensus (bc.blocks.tip.height + 1) :=
  (verifyForConsensus_transfer_iff C _ _ ((fromAddress_ok_iff C).mp ha).1).mp h.verified

theorem readSubmission_chainID {chainID : UInt64} {req : SubmitRequest} (h : readSubmission chainID req = .ok tx) :
    tx.chainID = chainID := by
  unfold readSubmission at h
  split at h
  · cases h
  · split at h
    · cases h
    · cases h
    · obtain ⟨_, hid, h⟩ := bind_eq_ok.mp h
      rw [← Except.ok.inj h]
      exact not_not.mp (refuseIf_eq_ok.mp hid)

theorem checkSubmission_ok {p : ConsensusParams} {height : UInt64} {mp : Option Mempool}
    {m : Mempool} (h : checkSubmission C p height mp tx = .ok (a, m)) :
    tx.verifyForConsensus C p height = .ok () ∧ minFee ≤ tx.fee ∧ mp = some m ∧ tx.fromAddress C = .ok a := by
  unfold checkSubmission at h
  obtain ⟨_, hverified, h⟩ := bind_eq_ok.mp h
  obtain ⟨_, hfee, h⟩ := bind_eq_ok.mp h
  split at h
  · cases h
  · obtain ⟨_, ha, h⟩ := bind_eq_ok.mp h
    cases h
    exact ⟨orRefuse_eq_ok.mp hverified, UInt64.not_lt.mp (refuseIf_eq_ok.mp hfee), rfl, orRefuse_eq_ok.mp ha⟩

theorem handleSubmitTx_cases {s : Server σ} {out : Outside} {req : SubmitRequest} {r : HttpResponse}
    {mp' : Option Mempool} (h : handleSubmitTx C s out req = some (r, mp')) :
    mp' = s.mp ∨ ∃ tx a m isReplacement, s.mp = some m ∧ readSubmission s.bc.chainID req = .ok tx ∧ Admissible C s.bc tx ∧
      tx.fromAddress C = .ok a ∧ checkPending (s.bc.state.get a) out.pending tx = some (.ok isReplacement) ∧
      mp' = some (commitSubmission C s.bc.consensus out m tx s.nextHeight isReplacement).2 := by
  unfold handleSubmitTx at h
  simp only at h
  split at h
  · exact Or.inl (Prod.mk.inj (Option.some.inj h)).2.symm
  · rename_i tx a m hbefore
    obtain ⟨tx', hread, hbefore⟩ := bind_eq_ok.mp hbefore
    obtain ⟨⟨a', m'⟩, hcheck, hbefore⟩ := bind_eq_ok.mp hbefore
    obtain ⟨rfl, hpair⟩ := Prod.mk.inj (Except.ok.inj hbefore)
    cases hpair
    obtain ⟨hverified, hfee, hmp, ha⟩ := checkSubmission_ok hcheck
    split at h
    · cases h
    · rename_i decision hpending
      split at h
      · exact Or.inl ((Prod.mk.inj (Option.some.inj h)).2.symm.trans hmp.symm)
      · exact Or.inl ((Prod.mk.inj (Option.some.inj h)).2.symm.trans hmp.symm)
      · rename_i isReplacement _
        exact Or.inr ⟨tx', a', m', isReplacement, hmp, hread, ⟨readSubmission_chainID hread, hverified, hfee⟩, ha, hpending,
          (Prod.mk.inj (Option.some.inj h)).2.symm⟩

/-! ## The handler as a task -/

/-- Where a submission is: what it has read so far, or what it has written. -/
inductive Task where
  | received (req : SubmitRequest)
  | verified (tx : Transaction) (nextHeight : UInt64) (fromAddr : Bytes)
  | hasBalance (tx : Transaction) (nextHeight : UInt64) (fromAddr : Bytes) (acct : Account)
  | decided (tx : Transaction) (nextHeight : UInt64) (fromAddr : Bytes) (acct : Account) (pending : List MempoolEntry)
      (isReplacement : Bool)
  | finished (response : HttpResponse)
  deriving DecidableEq

/-- One call of a submission on the chain or on the pool, with what follows up to the next one. -/
def Task.step {σ : Type} (C : Crypto) (s : Server σ) (out : Outside) (m : Mempool) : Task → Option (Task × Mempool)
  | .received req =>
    let before : Except HttpResponse (Transaction × Bytes) := do
      let tx ← readSubmission s.bc.chainID req
      let (fromAddr, _) ← checkSubmission C s.bc.consensus s.nextHeight (some m) tx
      .ok (tx, fromAddr)
    match before with
    | .error r => some (.finished r, m)
    | .ok (tx, fromAddr) => some (.verified tx s.nextHeight fromAddr, m)
  | .verified tx nextHeight fromAddr => some (.hasBalance tx nextHeight fromAddr (s.bc.state.get fromAddr), m)
  | .hasBalance tx nextHeight fromAddr acct =>
    match checkPending acct out.pending tx with
    | none => none
    | some decision =>
      match decision, checkAudit s.requireAI out.audit with
      | .error r, _ => some (.finished r, m)
      | .ok _, .error r => some (.finished r, m)
      | .ok isReplacement, .ok () => some (.decided tx nextHeight fromAddr acct out.pending isReplacement, m)
  | .decided tx nextHeight _ _ _ isReplacement =>
    let done := commitSubmission C s.bc.consensus out m tx nextHeight isReplacement
    some (.finished done.1, done.2)
  | .finished r => some (.finished r, m)

/-! ## Messages from peers -/

/-- What a peer gets back: the code of an error, or the id of the transaction under the type of the message. -/
inductive PeerReply where
  | error (code : String)
  | ack (type : String) (txid : Bytes)
  deriving DecidableEq, Repr

/-- What a handler of a message writes and returns, and the pool it leaves. -/
structure PeerResult where
  reply : Option PeerReply := none
  err : Option String := none
  mp : Option Mempool

variable (C : Crypto) (out : Outside) (mp : Option Mempool)

/-- The end of both handlers: the transaction goes to the pool as it is, and is acknowledged whatever the pool says. -/
def acknowledge (ackType : String) (txid : Bytes) (tx : Transaction) : PeerResult :=
  { reply := some (.ack ackType txid), mp := mp.map fun m => (m.add C out.filter out.entries out.now tx).2 }

/-- `handleTransactionReq`, on what its payload and the transaction in it decode to. -/
def handleTransactionReq (payload : Result (Result Transaction)) : PeerResult :=
  match payload with
  | .error e => { reply := some (.error "invalid_payload"), err := some e, mp }
  | .ok (.error e) => { reply := some (.error "invalid_json"), err := some e, mp }
  | .ok (.ok tx) =>
    match txIDHex C tx with
    | .error e => { reply := some (.error "invalid_tx"), err := some e, mp }
    | .ok txid => acknowledge C out mp "tx_ack" txid tx

/-- `handleTransactionBroadcast`. It does not answer a message that it cannot decode. -/
def handleTransactionBroadcast (payload : Result (Result Transaction)) : PeerResult :=
  match payload with
  | .error e => { err := some e, mp }
  | .ok (.error e) => { err := some e, mp }
  | .ok (.ok tx) =>
    match txIDHex C tx with
    | .error e => { err := some e, mp }
    | .ok txid => acknowledge C out mp "tx_broadcast_ack" txid tx

end NeoCoin
