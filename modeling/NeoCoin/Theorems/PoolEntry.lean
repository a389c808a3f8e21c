import NeoCoin.Theorems.Submission

/-!
# What enters the pool

`handleSubmitTx` verifies a transaction for the next block and checks its chain id and its fee; `handleTransactionReq` and
`handleTransactionBroadcast` hand it to the pool as it is (`entries_admissible`).
-/

namespace NeoCoin

open GoLib

/-- What can bring a transaction into the pool, on the chain as it is then. `ok` holds of each transaction that a peer sends. -/
inductive PoolEvent {σ : Type} (C : Crypto) (requireAI : Bool) (ok : Blockchain σ → Transaction → Prop) (bc : Blockchain σ)
    (m : Mempool) : Mempool → Prop where
  | submission {out : Outside} {req : SubmitRequest} {r : HttpResponse} {m' : Mempool} :
      GoMap.IsRange m.entries out.entries → (∀ tx, readSubmission bc.chainID req = .ok tx → ReadsPool C m out tx) →
      handleSubmitTx C { bc, requireAI, mp := some m } out req = some (r, some m') → PoolEvent C requireAI ok bc m m'
  | request {out : Outside} {payload : Result (Result Transaction)} {m' : Mempool} :
      GoMap.IsRange m.entries out.entries → (∀ tx, payload = .ok (.ok tx) → ok bc tx) →
      (handleTransactionReq C out (some m) payload).mp = some m' → PoolEvent C requireAI ok bc m m'
  | broadcast {out : Outside} {payload : Result (Result Transaction)} {m' : Mempool} :
      GoMap.IsRange m.entries out.entries → (∀ tx, payload = .ok (.ok tx) → ok bc tx) →
      (handleTransactionBroadcast C out (some m) payload).mp = some m' → PoolEvent C requireAI ok bc m m'

/-- An event of a run: the pool before it, the chain, and the pool after it. -/
structure PoolStep (σ : Type) where
  before : Mempool
  chain : Blockchain σ
  after : Mempool

/-- An entry that is there after the event and was not there before. -/
def PoolStep.Brings {σ : Type} (s : PoolStep σ) (id : Bytes) (e : MempoolEntry) : Prop :=
  s.after.entries.lookup id = some e ∧ s.before.entries.lookup id ≠ some e

instance {σ : Type} (s : PoolStep σ) (id : Bytes) (e : MempoolEntry) : Decidable (s.Brings id e) := inferInstanceAs (Decidable (_ ∧ _))

/-- The runs of events from an empty pool, with the pool they leave. The chain may change between them. -/
inductive PoolRun {σ : Type} (C : Crypto) (requireAI : Bool) (maxSize : Int64) (ok : Blockchain σ → Transaction → Prop) :
    List (PoolStep σ) → Mempool → Prop where
  | empty : PoolRun C requireAI maxSize ok [] (newMempool maxSize)
  | next {steps : List (PoolStep σ)} {m m' : Mempool} {bc : Blockchain σ} : PoolRun C requireAI maxSize ok steps m →
      PoolEvent C requireAI ok bc m m' → PoolRun C requireAI maxSize ok (steps ++ [⟨m, bc, m'⟩]) m'

namespace EntryAux

open PoolAux

variable {C : Crypto} {m m' : Mempool} {tx : Transaction}

/-- The maps of the pool fit together afterwards, and an entry was there before or holds the transaction. -/
structure Took (C : Crypto) (m : Mempool) (tx : Transaction) (m' : Mempool) : Prop where
  indexed : Indexed C m'
  entries : ∀ id e, m'.entries.lookup id = some e → m.entries.lookup id = some e ∨ e.tx = tx

theorem took_self (h : Indexed C m) (tx : Transaction) : Took C m tx m := ⟨h, fun _ _ he => Or.inl he⟩

theorem took_removeMany (h : Indexed C m) (tx : Transaction) (ids : List Bytes) : Took C m tx (m.removeMany C ids) := by
  refine ⟨indexed_removeMany h ids, ?_⟩
  intro id e he
  rw [lookup_removeMany] at he
  split at he
  · cases he
  · exact Or.inl he

theorem took_insert {ids : List Bytes} (h : Indexed C m) {id a : Bytes} (now : Int64) (ha : tx.fromAddress C = .ok a)
    (hfresh : id ∉ (m.removeMany C ids).entries) (hfree : (m.removeMany C ids).idAt a tx.nonce = none) :
    Took C m tx ((m.removeMany C ids).insert tx id a now) := by
  refine ⟨indexed_insert (indexed_removeMany h ids) now hfresh hfree ha, ?_⟩
  intro id' e he
  rw [lookup_insert] at he
  split at he
  · rw [← Option.some.inj he]
    exact Or.inr rfl
  · exact (took_removeMany h tx ids).entries id' e he

theorem took_addWithTxID (h : Indexed C m) (ai : Option (Result (Int × String))) (range : List (Bytes × MempoolEntry)) (now : Int64)
    (tx : Transaction) (txid : Bytes) (p : ConsensusParams) (height : UInt64) :
    Took C m tx (m.addWithTxID C ai range now tx txid p height).2 := by
  rcases addWithTxID_cases C ai range now m tx txid p height with hnone | ⟨a, id, ids, ha, hfresh, hfree, -, heq⟩
  · rw [hnone]
    exact took_self h tx
  · rw [heq]
    refine took_insert h now ha (notMem_removeMany hfresh ids) ?_
    rw [idAt_removeMany h, hfree, ite_self]

theorem took_commit (h : Indexed C m) {p : ConsensusParams} {out : Outside} {height : UInt64} {isReplacement : Bool}
    (hlater : ∀ a, tx.fromAddress C = .ok a → GoMap.IsRange ((m.bySenderNonce.lookup a).getD ∅) out.later) :
    Took C m tx (commitSubmission C p out m tx height isReplacement).2 := by
  rw [SubmitAux.commitSubmission_pool]
  cases isReplacement with
  | false =>
    simp only [Bool.false_eq_true, if_false]
    exact took_addWithTxID h _ _ _ tx [] p height
  | true =>
    simp only [if_true]
    rcases replaceByFee_cases h out.later out.now tx [] p height hlater with hnone | ⟨a, ids, ha, -, hids, hpool⟩
    · rw [hnone]
      exact took_self h tx
    · rcases hpool with hpool | ⟨id, -, hfresh, hpool⟩
      · rw [hpool]
        exact took_removeMany h tx ids
      · rw [hpool]
        exact took_insert h out.now ha hfresh (idAt_evict_self h hids)

theorem broadcast_mp_eq_request_mp (C : Crypto) (out : Outside) (mp : Option Mempool) (payload : Result (Result Transaction)) :
    (handleTransactionBroadcast C out mp payload).mp = (handleTransactionReq C out mp payload).mp := by
  unfold handleTransactionBroadcast handleTransactionReq
  split
  · rfl
  · rfl
  · split
    · rfl
    · rfl

theorem took_request (h : Indexed C m) {out : Outside} {payload : Result (Result Transaction)}
    (hrun : (handleTransactionReq C out (some m) payload).mp = some m') : m' = m ∨ ∃ tx, payload = .ok (.ok tx) ∧ Took C m tx m' := by
  unfold handleTransactionReq at hrun
  split at hrun
  · exact Or.inl (Option.some.inj hrun).symm
  · exact Or.inl (Option.some.inj hrun).symm
  · rename_i tx
    split at hrun
    · exact Or.inl (Option.some.inj hrun).symm
    · refine Or.inr ⟨tx, rfl, ?_⟩
      rw [← Option.some.inj hrun]
      exact took_addWithTxID h _ _ _ tx [] {} 0

variable {σ : Type} {bc : Blockchain σ} {requireAI : Bool}

theorem admissible_of_event (h : Indexed C m) (hevent : PoolEvent C requireAI (Admissible C) bc m m') :
    Indexed C m' ∧ ∀ id e, m'.entries.lookup id = some e → m.entries.lookup id = some e ∨ Admissible C bc e.tx := by
  have htook : m' = m ∨ ∃ tx, Admissible C bc tx ∧ Took C m tx m' := by
    cases hevent with
    | submission _ hreads hrun =>
      rcases handleSubmitTx_cases hrun with hsame | ⟨tx, a, m₀, isReplacement, hm, hread, hadm, ha, -, hm'⟩
      · exact Or.inl (Option.some.inj hsame)
      · cases hm
        rw [Option.some.inj hm']
        exact Or.inr ⟨tx, hadm, took_commit h (hreads tx hread).later⟩
    | request _ hok hrun =>
      refine (took_request h hrun).imp_right ?_
      intro hmessage
      obtain ⟨tx, hpayload, htook⟩ := hmessage
      exact ⟨tx, hok tx hpayload, htook⟩
    | broadcast _ hok hrun =>
      rw [broadcast_mp_eq_request_mp] at hrun
      refine (took_request h hrun).imp_right ?_
      intro hmessage
      obtain ⟨tx, hpayload, htook⟩ := hmessage
      exact ⟨tx, hok tx hpayload, htook⟩
  rcases htook with rfl | ⟨tx, hadm, htook⟩
  · exact ⟨h, fun _ _ he => Or.inl he⟩
  · refine ⟨htook.indexed, ?_⟩
    intro id e he
    rcases htook.entries id e he with hold | rfl
    · exact Or.inl hold
    · exact Or.inr hadm

/-- What holds along a run: each event brings what passes the checks, and each entry was brought by an event. -/
structure RunInv (C : Crypto) (steps : List (PoolStep σ)) (m : Mempool) : Prop where
  indexed : Indexed C m
  brings : ∀ s ∈ steps, ∀ id e, s.Brings id e → Admissible C s.chain e.tx
  brought : ∀ id e, m.entries.lookup id = some e → ∃ s ∈ steps, s.Brings id e

/-- Every event keeps what holds along a run. -/
theorem runInv_next {steps : List (PoolStep σ)} (h : RunInv C steps m) (hevent : PoolEvent C requireAI (Admissible C) bc m m') :
    RunInv C (steps ++ [⟨m, bc, m'⟩]) m' := by
  obtain ⟨hindexed, hentries⟩ := admissible_of_event h.indexed hevent
  refine ⟨hindexed, ?_, ?_⟩
  · refine forall_mem_concat.mpr ⟨h.brings, fun id e hbrings => ?_⟩
    rcases hentries id e hbrings.1 with hold | hadm
    · exact absurd hold hbrings.2
    · exact hadm
  · intro id e he
    by_cases hold : m.entries.lookup id = some e
    · obtain ⟨s, hs, hbrings⟩ := h.brought id e hold
      exact ⟨s, List.mem_append_left _ hs, hbrings⟩
    · exact ⟨_, List.mem_append_right _ (.head _), he, hold⟩

theorem runInv_of_run {maxSize : Int64} {steps : List (PoolStep σ)} (hrun : PoolRun C requireAI maxSize (Admissible C) steps m) :
    RunInv C steps m := by
  induction hrun with
  | empty => exact ⟨indexed_newMempool C maxSize, by simp, fun id e he => absurd he (by simp [newMempool])⟩
  | next _ hevent ih => exact runInv_next ih hevent

end EntryAux

/-- In a run in which the transactions of peers pass the checks of a submission, whatever is in the pool has passed them on the chain at
that time, and is signed with the key of its address. -/
theorem entries_admissible {σ : Type} (C : Crypto) (requireAI : Bool) (maxSize : Int64) (steps : List (PoolStep σ)) (m : Mempool)
    (hrun : PoolRun C requireAI maxSize (Admissible C) steps m) : (∀ s ∈ steps, ∀ id e, s.Brings id e → Admissible C s.chain e.tx) ∧
      (∀ id e, m.entries.lookup id = some e → ∃ s ∈ steps, s.Brings id e) ∧
      ∀ a n id, m.idAt a n = some id → ∃ e, m.entries.lookup id = some e ∧ e.tx.nonce = n ∧
        a = generateAddress C e.tx.fromPubKey.bytes ∧
        ∃ s ∈ steps, s.Brings id e ∧ VerifiedTransfer C e.tx s.chain.consensus (s.chain.blocks.tip.height + 1) := by
  have h := EntryAux.runInv_of_run hrun
  refine ⟨h.brings, h.brought, ?_⟩
  intro a n id hid
  obtain ⟨e, he, ha, hn⟩ := h.indexed.slot a n id hid
  obtain ⟨s, hs, hbrings⟩ := h.brought id e he
  exact ⟨e, he, hn, ((fromAddress_ok_iff C).mp ha).2.2, s, hs, hbrings, (h.brings s hs id e hbrings).transfer ha⟩

namespace Sample

/-- The legacy id of the next transfer of the miner, under which `Add` puts it. -/
def secondLegacyID : Bytes := hexEncode (beBytes 32 0xac67e41cb3d36bddcb73ac526b7ec3a4ee140df3e88662dd783c1edc8ec77311)

def payingPool : Mempool := poolOf paying payingID minerAddress

/-- What a handler finds that visits the pool with the transfer that pays a fee. -/
def visitsPaying : Outside :=
  { entries := [(payingID, { tx := paying, txIDHex := payingID, received := 5 })], now := 5 }

def secondPool : Mempool := payingPool.insert second secondLegacyID minerAddress 5

theorem second_broadcast : (handleTransactionBroadcast minerCrypto visitsPaying (some payingPool) (.ok (.ok second))).mp =
    some secondPool := by
  simp only [minerCrypto, goCrypto_eq]
  decide +kernel

theorem second_admissible : Admissible minerCrypto node second := by
  refine ⟨rfl, ?_, by decide⟩
  simp only [minerCrypto, goCrypto_eq]
  decide +kernel

def steps : List (PoolStep Unit) := [⟨newMempool 10, node, payingPool⟩, ⟨payingPool, node, secondPool⟩]

theorem steps_run : PoolRun minerCrypto false 10 (Admissible minerCrypto) steps secondPool := by
  have hpaying : PoolEvent minerCrypto false (Admissible minerCrypto) node (newMempool 10) payingPool := by
    refine PoolEvent.submission (by decide) ?_ paying_accepted
    simp only [minerCrypto, goCrypto_eq]
    decide
  refine PoolRun.next (PoolRun.next PoolRun.empty hpaying) (PoolEvent.broadcast (by decide) ?_ second_broadcast)
  intro tx htx
  cases htx
  exact second_admissible

end Sample

open Sample

/-- A submission and a transfer of a peer that passes the same checks. -/
theorem entries_admissible_steps : PoolRun minerCrypto false 10 (Admissible minerCrypto) steps secondPool ∧
      ∃ e, secondPool.entries.lookup secondLegacyID = some e ∧ e.tx.nonce = 2 ∧
        minerAddress = generateAddress minerCrypto e.tx.fromPubKey.bytes ∧
        ∃ s ∈ steps, s.Brings secondLegacyID e ∧
          VerifiedTransfer minerCrypto e.tx s.chain.consensus (s.chain.blocks.tip.height + 1) :=
  ⟨steps_run,
    (entries_admissible minerCrypto false 10 steps secondPool steps_run).2.2 minerAddress 2
      secondLegacyID (by decide)⟩

namespace Sample

def forged : Transaction :=
  { type := .transfer, chainID := 1, fromPubKey := some minerKey, toAddress := payeeAddress, amount := 1
    fee := 18446744073709551615, nonce := 1 }

def forgedID : Bytes := hexEncode (beBytes 32 0x4920f1a1ea192c6455112090dcc4272301ec038738b1b641b865f857ba4fd7c3)

def forgedEntry : MempoolEntry := { tx := forged, txIDHex := forgedID, received := 5 }

def forgedPool : Mempool := poolOf forged forgedID minerAddress

theorem forged_broadcast : (handleTransactionBroadcast crypto { now := 5 } (some (newMempool 10)) (.ok (.ok forged))).mp =
    some forgedPool := by
  simp only [crypto, goCrypto_eq]
  decide +kernel

end Sample

/-- A peer broadcasts a transfer of the miner that is not signed. It enters the slot of the miner, whose own transfer is refused from
then on. -/
theorem forged_enters : PoolRun crypto false 10 (fun _ _ => True) [⟨newMempool 10, node, forgedPool⟩] forgedPool ∧
      PoolStep.Brings ⟨newMempool 10, node, forgedPool⟩ forgedID forgedEntry ∧
      ¬Admissible crypto node forgedEntry.tx ∧ forgedEntry.tx.signature = none ∧
      forgedPool.idAt minerAddress 1 = some forgedID ∧
      handleSubmitTx crypto { bc := node, mp := some forgedPool }
          { pending := [forgedEntry], entries := [(forgedID, forgedEntry)] } { body := some (some paying) } =
        some (refuse 400 "replacement fee must be higher", some forgedPool) := by
  refine ⟨PoolRun.next PoolRun.empty (PoolEvent.broadcast (by decide) (fun _ _ => trivial) forged_broadcast), by decide,
    ?_, rfl, by decide, by decide +kernel⟩
  intro hadm
  refine absurd hadm.verified ?_
  simp only [crypto, goCrypto_eq]
  decide

end NeoCoin
