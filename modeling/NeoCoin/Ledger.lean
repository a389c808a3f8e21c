import NeoCoin.Block

/-!
# The ledger

The monetary policy of `blockchain/monetary_policy.go` and the state transition of `blockchain/chain.go`. `applyBlockToState` writes to
the map it is given as it goes, so that the model returns the outcome together with the map.
-/

namespace NeoCoin

open GoLib

variable {C : Crypto} {p : ConsensusParams} {s s' : State} {t : Transaction} {b : Block}

/-! ## Monetary policy -/

def MonetaryPolicy.blockReward (p : MonetaryPolicy) (height : UInt64) : UInt64 :=
  if p.halvingInterval = 0 then p.initialBlockReward
  else
    let halvings := height / p.halvingInterval
    if halvings ≥ 64 then p.tailEmission
    else
      let reward := p.initialBlockReward >>> halvings
      if reward = 0 ∧ p.tailEmission = 0 then 1
      else if reward = 0 then p.tailEmission
      else reward

/-- `MonetaryPolicy.MinerFeeAmount`. The product wraps before the division. -/
def MonetaryPolicy.minerFeeAmount (p : MonetaryPolicy) (totalFees : UInt64) : UInt64 :=
  if p.minerFeeShare = 0 ∨ totalFees = 0 then 0 else totalFees * p.minerFeeShare.toUInt64 / 100

/-! ## Writes to an account -/

/-- `acct := state[a]; acct.Balance += amount; state[a] = acct`. -/
def State.credit (s : State) (a : Bytes) (amount : UInt64) : State :=
  s.set a { s.get a with balance := (s.get a).balance + amount }

/-- `from := state[a]; from.Balance -= total; from.Nonce = nonce; state[a] = from`. -/
def State.debit (s : State) (a : Bytes) (total nonce : UInt64) : State :=
  s.set a { balance := (s.get a).balance - total, nonce := nonce }

section

variable (C : Crypto)

/-- The address a transfer is paid from, which is the key of its account. -/
def Transaction.sender (t : Transaction) : Bytes := generateAddress C t.fromPubKey.bytes

def Transaction.pay (t : Transaction) (s : State) : State :=
  State.credit (State.debit s (t.sender C) (t.amount + t.fee) t.nonce) t.toAddress t.amount

/-! ## One transaction -/

section

variable (p : ConsensusParams) (height : UInt64)

/-- The coinbase case of the loop of `applyBlockToState`, at position `i` of the block. -/
def applyCoinbase (i : Nat) (tx : Transaction) (s : State) : Result State := do
  failIf (i ≠ 0) "coinbase must be first"
  tx.verifyForConsensus C p height
  .ok (State.credit s tx.toAddress tx.amount)

def applyTransfer (tx : Transaction) (s : State) : Result State := do
  tx.verifyForConsensus C p height
  let fromAddr ← tx.fromAddress C
  let sender := s.get fromAddr
  failIf (sender.nonce + 1 ≠ tx.nonce) s!"bad nonce for {text fromAddr}: expected {sender.nonce + 1} got {tx.nonce}"
  let totalDebit := tx.amount + tx.fee
  failIf (sender.balance < totalDebit) s!"insufficient funds for {text fromAddr}"
  .ok (State.credit (State.debit s fromAddr totalDebit tx.nonce) tx.toAddress tx.amount)

def applyTx (i : Nat) (tx : Transaction) (s : State) : Result State :=
  match tx.type with
  | .coinbase => applyCoinbase C p height i tx s
  | .transfer => applyTransfer C p height tx s
  | .other name => .error s!"unknown tx type: \"{text name}\""

/-- The loop of `applyBlockToState` from position `i` on: it stops at the first error and keeps the writes made until then. -/
def applyTxs : Nat → List Transaction → State → Result Unit × State
  | _, [], s => (.ok (), s)
  | i, tx :: txs, s =>
    match applyTx C p height i tx s with
    | .error e => (.error e, s)
    | .ok s' => applyTxs (i + 1) txs s'

/-! ## One block -/

def transferFees (txs : List Transaction) : UInt64 := ((txs.filter (·.type = .transfer)).map (·.fee)).sum

def expectedCoinbase (transfers : List Transaction) : UInt64 :=
  p.monetaryPolicy.blockReward height + p.monetaryPolicy.minerFeeAmount (transferFees transfers)

/-- The economics `applyBlockToState` checks of a block above genesis. -/
def checkEconomics (p : ConsensusParams) (b : Block) (cb : Transaction) (rest : List Transaction) : Result Unit := do
  (validateAddress C b.minerAddress).wrap "invalid minerAddress: "
  failIf (cb.toAddress ≠ b.minerAddress) "coinbase toAddress must match minerAddress"
  failIf (cb.amount ≠ expectedCoinbase p b.height rest)
    s!"bad coinbase amount: expected {expectedCoinbase p b.height rest} got {cb.amount}"

/-- The checks `applyBlockToState` makes before it touches the state. -/
def checkBlock (p : ConsensusParams) (b : Block) : Result Unit := do
  failIf (p.maxBlockSize > 0 ∧ p.maxBlockSize.toNat < blockSizeForConsensus b)
    s!"block too large: {blockSizeForConsensus b} bytes (max {p.maxBlockSize})"
  match b.transactions with
  | [] => .error "block has no transactions"
  | cb :: rest =>
    failIf (cb.type ≠ .coinbase) "first tx must be coinbase"
    if b.height > 0 then checkEconomics C p b cb rest else .ok ()

/-- `applyBlockToState`: its error, and the map as it leaves it. -/
def applyBlockToState (p : ConsensusParams) (s : State) (b : Block) : Result Unit × State :=
  match checkBlock C p b with
  | .error e => (.error e, s)
  | .ok () => applyTxs C p b.height 0 b.transactions s

def applyBlocks (p : ConsensusParams) : List Block → State → Result Unit × State
  | [], s => (.ok (), s)
  | b :: bs, s =>
    match applyBlockToState C p s b with
    | (.error e, s') => (.error s!"apply block {b.height}: {e}", s')
    | (.ok (), s') => applyBlocks p bs s'

def totalSupply (s : State) : UInt64 := GoMap.sumBy (fun acct : Account => acct.balance) s

/-! ## What is accepted -/

/-- What the loop establishes of a transfer on the state just before it. -/
structure TransferAccepted (t : Transaction) (s : State) : Prop where
  type : t.type = .transfer
  verified : VerifiedTransfer C t p height
  nonce : (s.get (t.sender C)).nonce + 1 = t.nonce
  funds : t.amount + t.fee ≤ (s.get (t.sender C)).balance

def payAll (ts : List Transaction) (s : State) : State := ts.foldl (fun s t => t.pay C s) s

/-- Each transfer of a list is accepted on the state the ones before have left. -/
def TransfersAccepted : List Transaction → State → Prop
  | [], _ => True
  | t :: ts, s => TransferAccepted C p height t s ∧ TransfersAccepted ts (t.pay C s)

end

/-- What `applyBlockToState` establishes of a block with coinbase `cb` and transfers `ts`. -/
structure BlockAccepted (p : ConsensusParams) (b : Block) (cb : Transaction) (ts : List Transaction) (s : State) :
    Prop where
  transactions : b.transactions = cb :: ts
  size : p.maxBlockSize > 0 → blockSizeForConsensus b ≤ p.maxBlockSize.toNat
  type : cb.type = .coinbase
  economics : b.height > 0 → validateAddress C b.minerAddress = .ok () ∧ cb.toAddress = b.minerAddress ∧
    cb.amount = expectedCoinbase p b.height ts
  coinbase : VerifiedCoinbase C cb
  transfers : TransfersAccepted C p b.height ts (State.credit s cb.toAddress cb.amount)

/-- The state after an accepted block. No consensus parameter has a part in it. -/
def Block.pay (b : Block) (s : State) : State :=
  match b.transactions with
  | [] => s
  | cb :: ts => payAll C ts (State.credit s cb.toAddress cb.amount)

end

theorem transfersAccepted_forall {height : UInt64} {ts : List Transaction}
    (h : TransfersAccepted C p height ts s) : ∀ t ∈ ts, t.type = .transfer ∧ VerifiedTransfer C t p height := by
  induction ts generalizing s with
  | nil => simp
  | cons t ts ih =>
    intro x hx
    rcases List.mem_cons.mp hx with rfl | hx
    · exact ⟨h.1.type, h.1.verified⟩
    · exact ih h.2 x hx

section

variable (C : Crypto) (p : ConsensusParams) (height : UInt64)

theorem applyTransfer_ok_iff (ht : t.type = .transfer) :
    applyTransfer C p height t s = .ok s' ↔ TransferAccepted C p height t s ∧ s' = t.pay C s := by
  unfold applyTransfer
  simp only [↓unit_bind_eq_ok, bind_eq_ok, failIf_eq_ok, not_not, UInt64.not_lt, fromAddress_ok_iff,
    verifyForConsensus_transfer_iff C p height ht]
  constructor
  · rintro ⟨hv, _, ⟨-, -, rfl⟩, hn, hf, hs⟩
    exact ⟨⟨ht, hv, hn, hf⟩, (Except.ok.inj hs).symm⟩
  · rintro ⟨⟨-, hv, hn, hf⟩, rfl⟩
    exact ⟨hv, t.sender C, ⟨ht, hv.fromPubKey, rfl⟩, hn, hf, rfl⟩

theorem applyCoinbase_ok_iff {i : Nat} (ht : t.type = .coinbase) :
    applyCoinbase C p height i t s = .ok s' ↔ i = 0 ∧ VerifiedCoinbase C t ∧ s' = State.credit s t.toAddress t.amount := by
  simp only [applyCoinbase, unit_bind_eq_ok, failIf_eq_ok, not_not, verifyForConsensus_coinbase_iff C p height ht, Except.ok.injEq,
    @eq_comm _ s']

theorem applyTx_succ_ok_iff (i : Nat) : applyTx C p height (i + 1) t s = .ok s' ↔ TransferAccepted C p height t s ∧ s' = t.pay C s := by
  unfold applyTx
  split
  · rename_i ht
    rw [applyCoinbase_ok_iff C p height ht]
    constructor
    · rintro ⟨hi, -⟩
      exact absurd hi (Nat.succ_ne_zero i)
    · rintro ⟨ha, -⟩
      exact absurd (ht.symm.trans ha.type) (by simp)
  · rename_i ht
    exact applyTransfer_ok_iff C p height ht
  · rename_i name ht
    constructor
    · intro h
      exact absurd h (by simp)
    · rintro ⟨ha, -⟩
      exact absurd (ht.symm.trans ha.type) (by simp)

/-- The loop past the first position, by induction on the transactions left. -/
theorem applyTxs_succ_ok_iff (i : Nat) (ts : List Transaction) :
    applyTxs C p height (i + 1) ts s = (.ok (), s') ↔ TransfersAccepted C p height ts s ∧ s' = payAll C ts s := by
  induction ts generalizing i s with
  | nil => simp [applyTxs, TransfersAccepted, payAll, eq_comm]
  | cons t ts ih =>
    unfold applyTxs
    rcases Result.ok_or_error (applyTx C p height (i + 1) t s) with ⟨s1, h1⟩ | ⟨e, h1⟩
    · obtain ⟨ha, rfl⟩ := (applyTx_succ_ok_iff C p height i).mp h1
      rw [h1]
      simp only [ih, TransfersAccepted, payAll, List.foldl_cons]
      exact ⟨fun h => ⟨⟨ha, h.1⟩, h.2⟩, fun h => ⟨h.1.2, h.2⟩⟩
    · rw [h1]
      simp only [Prod.mk.injEq, reduceCtorEq, false_and, false_iff, TransfersAccepted]
      rintro ⟨⟨ha, -⟩, -⟩
      have hok := (applyTx_succ_ok_iff C p height i).mpr ⟨ha, rfl⟩
      rw [h1] at hok
      exact absurd hok (by simp)

theorem checkBlock_ok_iff (C : Crypto) (p : ConsensusParams) {cb : Transaction} {ts : List Transaction} (hb : b.transactions = cb :: ts) :
    checkBlock C p b = .ok () ↔
      (p.maxBlockSize > 0 → blockSizeForConsensus b ≤ p.maxBlockSize.toNat) ∧ cb.type = .coinbase ∧
        (b.height > 0 → validateAddress C b.minerAddress = .ok () ∧ cb.toAddress = b.minerAddress ∧
          cb.amount = expectedCoinbase p b.height ts) := by
  simp only [checkBlock, hb, unit_bind_eq_ok, failIf_eq_ok, not_and, Nat.not_lt, not_not]
  by_cases hh : b.height > 0
  · simp only [hh, if_true, checkEconomics, unit_bind_eq_ok, failIf_eq_ok, Result.wrap_eq_ok, not_not, forall_true_left]
  · simp only [hh, if_false, and_true, false_implies]

theorem applyTxs_coinbase_ok_iff {cb : Transaction} (ts : List Transaction)
    (hcb : cb.type = .coinbase) : applyTxs C p height 0 (cb :: ts) s = (.ok (), s') ↔
      VerifiedCoinbase C cb ∧ TransfersAccepted C p height ts (State.credit s cb.toAddress cb.amount) ∧
        s' = payAll C ts (State.credit s cb.toAddress cb.amount) := by
  have htx : applyTx C p height 0 cb s = applyCoinbase C p height 0 cb s := by simp only [applyTx, hcb]
  unfold applyTxs
  rw [htx]
  rcases Result.ok_or_error (applyCoinbase C p height 0 cb s) with ⟨s1, h1⟩ | ⟨e, h1⟩
  · obtain ⟨-, hv, rfl⟩ := (applyCoinbase_ok_iff C p height hcb).mp h1
    rw [h1]
    simp only [applyTxs_succ_ok_iff]
    exact ⟨fun h => ⟨hv, h⟩, fun h => h.2⟩
  · rw [h1]
    simp only [Prod.mk.injEq, reduceCtorEq, false_and, false_iff]
    rintro ⟨hv, -⟩
    have hok := (applyCoinbase_ok_iff (s := s) C p height hcb).mpr ⟨rfl, hv, rfl⟩
    rw [h1] at hok
    exact absurd hok (by simp)

end

theorem applyBlockToState_ok_iff (C : Crypto) (p : ConsensusParams) :
    applyBlockToState C p s b = (.ok (), s') ↔ (∃ cb ts, BlockAccepted C p b cb ts s) ∧ s' = b.pay C s := by
  unfold applyBlockToState
  constructor
  · intro h
    split at h
    · exact absurd (congrArg Prod.fst h) (by simp)
    · rename_i hc
      cases hb : b.transactions with
      | nil => simp [checkBlock, hb] at hc
      | cons cb ts =>
        obtain ⟨h1, h2, h3⟩ := (checkBlock_ok_iff C p hb).mp hc
        rw [hb] at h
        obtain ⟨h4, h5, rfl⟩ := (applyTxs_coinbase_ok_iff C p b.height ts h2).mp h
        exact ⟨⟨cb, ts, hb, h1, h2, h3, h4, h5⟩, by rw [Block.pay, hb]⟩
  · rintro ⟨⟨cb, ts, hb, h1, h2, h3, h4, h5⟩, rfl⟩
    rw [(checkBlock_ok_iff C p hb).mpr ⟨h1, h2, h3⟩, Block.pay, hb]
    exact (applyTxs_coinbase_ok_iff C p b.height ts h2).mpr ⟨h4, h5, rfl⟩

theorem applyBlockToState_of_fst_ok (h : (applyBlockToState C p s b).1 = .ok ()) : applyBlockToState C p s b = (.ok (), b.pay C s) := by
  obtain ⟨r, s', hr⟩ : ∃ r s', applyBlockToState C p s b = (r, s') := ⟨_, _, rfl⟩
  rw [hr] at h
  obtain rfl : r = .ok () := h
  rw [hr, ((applyBlockToState_ok_iff C p).mp hr).2]

/-! ## Chains of accepted blocks -/

def payBlocks (C : Crypto) (bs : List Block) (s : State) : State := bs.foldl (fun s b => b.pay C s) s

theorem applyBlocks_cons_ok_iff (C : Crypto) (p : ConsensusParams) {bs : List Block} : applyBlocks C p (b :: bs) s = (.ok (), s') ↔
      (∃ cb ts, BlockAccepted C p b cb ts s) ∧ applyBlocks C p bs (b.pay C s) = (.ok (), s') := by
  rw [applyBlocks]
  split
  · rename_i e s1 h1
    simp only [Prod.mk.injEq, reduceCtorEq, false_and, false_iff]
    rintro ⟨hb, -⟩
    rw [(applyBlockToState_ok_iff C p).mpr ⟨hb, rfl⟩] at h1
    exact absurd (congrArg Prod.fst h1) (by simp)
  · rename_i s1 h1
    obtain ⟨hb, rfl⟩ := (applyBlockToState_ok_iff C p).mp h1
    exact ⟨fun h => ⟨hb, h⟩, fun h => h.2⟩

theorem applyBlocks_append_ok_iff (C : Crypto) (p : ConsensusParams) (bs cs : List Block) : applyBlocks C p (bs ++ cs) s = (.ok (), s') ↔
      ∃ s1, applyBlocks C p bs s = (.ok (), s1) ∧ applyBlocks C p cs s1 = (.ok (), s') := by
  induction bs generalizing s with
  | nil => simp [applyBlocks]
  | cons b bs ih =>
    simp only [List.cons_append, applyBlocks_cons_ok_iff, ih]
    constructor
    · rintro ⟨hb, s1, h1, h2⟩
      exact ⟨s1, ⟨hb, h1⟩, h2⟩
    · rintro ⟨s1, ⟨hb, h1⟩, h2⟩
      exact ⟨hb, s1, h1, h2⟩

theorem eq_payBlocks_of_applyBlocks {bs : List Block} (h : applyBlocks C p bs s = (.ok (), s')) : s' = payBlocks C bs s := by
  induction bs generalizing s with
  | nil =>
    simp only [applyBlocks, Prod.mk.injEq, true_and] at h
    exact h.symm
  | cons b bs ih =>
    obtain ⟨-, h⟩ := (applyBlocks_cons_ok_iff C p).mp h
    exact ih h

end NeoCoin
