import NeoCoin.Theorems.Locking

/-!
# Calls on a chain of the second implementation

What `MineTransfers`, `AddBlock` and `Balance` of `internal/blockchain` leave of a chain, one lemma for each, and runs of such calls. The
roots of a commitment are written into blocks later on, so all is said of the blocks without them, `toBlock`.
-/

namespace NeoCoin.Internal

open GoLib ForkTree

variable {p : ConsensusParams} {s s' : State} {i attempt : Nat} {b : Block} {r : Result Block}

/-! ## What an applied block pays -/

section

variable {C : Crypto}

theorem applyTransfer_pay {height : UInt64} {t : Transaction} (h : applyTransfer C p height t s = .ok s') : s' = t.pay C s := by
  unfold applyTransfer at h
  obtain ⟨_, -, h⟩ := bind_eq_ok.mp h
  obtain ⟨fromAddr, hfrom, h⟩ := bind_eq_ok.mp h
  iterate 2 obtain ⟨_, -, h⟩ := bind_eq_ok.mp h
  unfold fromAddress at hfrom
  iterate 2 obtain ⟨_, -, hfrom⟩ := bind_eq_ok.mp hfrom
  rw [← Except.ok.inj h, ← Except.ok.inj hfrom]
  rfl

theorem applyTx_succ_ok {height : UInt64} {t : Transaction} (h : applyTx C p height (i + 1) t s = .ok s') :
    t.type = .transfer ∧ s' = t.pay C s := by
  unfold applyTx at h
  split at h
  · obtain ⟨_, hfirst, -⟩ := bind_eq_ok.mp h
    exact absurd (Nat.succ_ne_zero i) (failIf_eq_ok.mp hfirst)
  · rename_i htype
    exact ⟨htype, applyTransfer_pay h⟩
  · cases h

/-- The loop past the first position, by induction on the transactions left. -/
theorem applyTxs_succ_ok {height : UInt64} {ts : List Transaction} (h : applyTxs C p height (i + 1) ts s = (.ok (), s')) :
    (∀ t ∈ ts, t.type = .transfer) ∧ s' = payAll C ts s := by
  induction ts generalizing i s with
  | nil => exact ⟨by simp, (Prod.mk.inj h).2.symm⟩
  | cons t ts ih =>
    unfold applyTxs at h
    split at h
    · cases (Prod.mk.inj h).1
    · rename_i s₁ hs₁
      obtain ⟨htype, rfl⟩ := applyTx_succ_ok hs₁
      exact ⟨List.forall_mem_cons.mpr ⟨htype, (ih h).1⟩, (ih h).2⟩

theorem applyBlockToState_parts (h : applyBlockToState C p s b = (.ok (), s')) :
    checkBlock C p b = .ok () ∧ ∃ cb ts, b.transactions = cb :: ts ∧ cb.type = .coinbase ∧ VerifiedCoinbase C cb ∧
      applyTxs C p b.height 1 ts (s.credit cb.toAddress cb.amount) = (.ok (), s') := by
  unfold applyBlockToState at h
  split at h
  · cases (Prod.mk.inj h).1
  · rename_i hcheck
    refine ⟨hcheck, ?_⟩
    unfold checkBlock at hcheck
    obtain ⟨_, -, hcheck⟩ := bind_eq_ok.mp hcheck
    cases hb : b.transactions with
    | nil =>
      rw [hb] at hcheck
      cases hcheck
    | cons cb ts =>
      rw [hb] at hcheck h
      obtain ⟨_, htype, -⟩ := bind_eq_ok.mp hcheck
      have htype := not_not.mp (failIf_eq_ok.mp htype)
      unfold applyTxs at h
      split at h
      · cases (Prod.mk.inj h).1
      · rename_i s₁ hs₁
        simp only [applyTx, htype, applyCoinbase, bind_eq_ok] at hs₁
        obtain ⟨_, -, _, hverify, hs₁⟩ := hs₁
        rw [← Except.ok.inj hs₁] at h
        exact ⟨cb, ts, rfl, htype, (verifyForConsensus_coinbase_iff C p b.height htype).mp hverify, h⟩

theorem applyBlockToState_pay (h : applyBlockToState C p s b = (.ok (), s')) : s' = b.toBlock.pay C s := by
  obtain ⟨-, cb, ts, hb, -, -, htransfers⟩ := applyBlockToState_parts h
  rw [(applyTxs_succ_ok htransfers).2, NeoCoin.Block.pay, hb]

theorem payBlocks_of_replay {blocks : List Block}
    (h : replay C p blocks s = (.ok (), s')) : s' = payBlocks C (blocks.map Block.toBlock) s := by
  induction blocks generalizing s with
  | nil => exact (Prod.mk.inj h).2.symm
  | cons b blocks ih =>
    obtain ⟨s₁, hb, hrest⟩ := replay_cons_ok_iff.mp h
    obtain rfl := applyBlockToState_pay hb
    exact ih hrest

theorem replay_append_ok_iff {blocks blocks' : List Block} : replay C p (blocks ++ blocks') s = (.ok (), s') ↔
      ∃ s₁, replay C p blocks s = (.ok (), s₁) ∧ replay C p blocks' s₁ = (.ok (), s') := by
  induction blocks generalizing s with
  | nil => simp [replay]
  | cons b blocks ih =>
    rw [List.cons_append, replay_cons_ok_iff]
    constructor
    · intro h
      obtain ⟨s₁, hb, hrest⟩ := h
      obtain ⟨s₂, hblocks, hblocks'⟩ := ih.mp hrest
      exact ⟨s₂, replay_cons_ok_iff.mpr ⟨s₁, hb, hblocks⟩, hblocks'⟩
    · intro h
      obtain ⟨s₂, hblocks, hblocks'⟩ := h
      obtain ⟨s₁, hb, hrest⟩ := replay_cons_ok_iff.mp hblocks
      exact ⟨s₁, hb, ih.mpr ⟨s₂, hrest, hblocks'⟩⟩

theorem replay_singleton_ok_iff : replay C p [b] s = (.ok (), s') ↔ applyBlockToState C p s b = (.ok (), s') := by
  rw [replay_cons_ok_iff]
  simp [replay]

end

/-! ## Commitments -/

/-- What `ComputeAndStoreCommitment` leaves of a chain whose lock nobody holds. -/
inductive Committed {σ : Type} (C : Crypto) (S : ChainStore σ) (bc : Blockchain σ) (height : UInt64) : Blockchain σ → Prop where
  | skipped : Committed C S bc height bc
  | failed (c : StateCommitment) : (S.writeCommitment bc.store c).1 ≠ .ok () →
      Committed C S bc height { bc with store := (S.writeCommitment bc.store c).2 }
  | stored (c : StateCommitment) : shouldCommit height → c.stateRoot = computeStateRoot C bc.state →
      c.utxoRoot = computeUTXORoot C bc.state → (S.writeCommitment bc.store c).1 = .ok () →
      Committed C S bc height ({ bc with store := (S.writeCommitment bc.store c).2 }.setRoots height c)

section

variable {σ : Type} (C : Crypto) (S : ChainStore σ) (bc : Blockchain σ)

theorem computeAndStoreCommitment_unlocked (height : UInt64) :
    ∃ r bc', computeAndStoreCommitment C S bc .unlocked height = some (r, bc') ∧ Committed C S bc height bc' := by
  unfold computeAndStoreCommitment
  by_cases hcommit : shouldCommit height
  · simp only [hcommit, not_true_eq_false, if_false, computeStateCommitment, RWMutex.rLock]
    by_cases hbeyond : height.toInt64 ≥ Int64.ofNat bc.blocks.1.length
    · simp only [failIf, hbeyond, if_true, bind, Except.bind]
      exact ⟨_, bc, rfl, .skipped⟩
    · simp only [failIf, hbeyond, if_false, bind, Except.bind]
      split
      · rename_i hwrite
        have hcommitted : Committed C S bc height { bc with store := _ } := .failed _ (by rw [hwrite]; simp)
        rw [hwrite] at hcommitted
        exact ⟨_, _, rfl, hcommitted⟩
      · rename_i hwrite
        have hcommitted : Committed C S bc height _ := .stored _ hcommit rfl rfl (congrArg Prod.fst hwrite)
        rw [hwrite] at hcommitted
        exact ⟨_, _, rfl, hcommitted⟩
  · simp only [hcommit, not_false_eq_true, if_true]
    exact ⟨_, bc, rfl, .skipped⟩

end

section

variable {σ : Type} {C : Crypto} {S : ChainStore σ} {bc bc' : Blockchain σ} {height : UInt64}

theorem setRoots_eq (bc : Blockchain σ) (height : UInt64) (c : StateCommitment) : bc.setRoots height c =
      { bc with blocks := (bc.setRoots height c).blocks, blocksByHash := (bc.setRoots height c).blocksByHash } := by
  unfold Blockchain.setRoots
  split
  · rfl
  · rfl

theorem setRoots_blocks (bc : Blockchain σ) (height : UInt64) (c : StateCommitment) :
    (bc.setRoots height c).blocks.1.map Block.toBlock = bc.blocks.1.map Block.toBlock := by
  unfold Blockchain.setRoots
  split
  · rfl
  · rename_i b hb
    rw [List.map_set]
    refine List.ext_getElem? fun i => ?_
    rw [List.getElem?_set]
    split
    · rename_i hi
      subst hi
      rw [List.getElem?_map, hb]
      simp only [Option.map_some, List.length_map, (List.getElem?_eq_some_iff.mp hb).1, if_true]
      rfl
    · rfl

theorem setRoots_tree {c : StateCommitment} {k : Bytes} {v : Block} (h : (bc.setRoots height c).blocksByHash.lookup k = some v) :
    bc.blocksByHash.lookup k = some v ∨
      ∃ b, bc.blocks.1[height.toNat]? = some b ∧ k = b.hashHex ∧ k ∈ bc.blocksByHash ∧ v = b.withRoots c := by
  unfold Blockchain.setRoots at h
  split at h
  · exact Or.inl h
  · rename_i b hb
    simp only at h
    split at h
    · rename_i hmem
      rw [GoMap.lookup_set] at h
      split at h
      · rename_i hk
        exact Or.inr ⟨b, hb, hk, by rw [hk]; exact hmem, (Option.some.inj h).symm⟩
      · exact Or.inl h
    · exact Or.inl h

theorem Committed.same (h : Committed C S bc height bc') :
    bc' = { bc with blocks := bc'.blocks, blocksByHash := bc'.blocksByHash, store := bc'.store } := by
  cases h with
  | skipped => rfl
  | failed c _ => rfl
  | stored c _ _ _ _ => rw [setRoots_eq]

theorem Committed.blocks (h : Committed C S bc height bc') : bc'.blocks.1.map Block.toBlock = bc.blocks.1.map Block.toBlock := by
  cases h with
  | skipped => rfl
  | failed c _ => rfl
  | stored c _ _ _ _ => exact setRoots_blocks _ height c

end

/-! ## Mining -/

/-- The block that `mineOneBlock` finds: its template with a nonce and a hash. -/
def Mines {σ : Type} (C : Crypto) (bc : Blockchain σ) (transfers : List Transaction) (now : Int64) (b : Block) : Prop :=
  ∃ fees nonce hash, checkAllMinable C bc.consensus bc.chainID (bc.blocks.tip.height + 1) transfers 0 = .ok fees ∧
    powRun C bc.consensus (mineTemplate bc transfers fees now) = some (.ok (nonce, hash)) ∧
    b = { mineTemplate bc transfers fees now with nonce := nonce, hash := some hash }

/-- What `mineAppend` leaves of a chain, with its result. -/
inductive AppendEffect {σ : Type} (C : Crypto) (S : ChainStore σ) (bc : Blockchain σ) (b : Block) : Result Bool → Blockchain σ → Prop where
  | stale : AppendEffect C S bc b (.ok false) bc
  | refused {e : String} {s : State} : applyBlockToState C bc.consensus bc.state b = (.error e, s) →
      AppendEffect C S bc b (.error e) { bc with state := s }
  | unstored {e : String} {s : State} : bc.blocks.tip.height < b.height → applyBlockToState C bc.consensus bc.state b = (.ok (), s) →
      (S.appendCanonical bc.store b).1 = .error e →
      AppendEffect C S bc b (.error e) { bc with state := s, store := (S.appendCanonical bc.store b).2 }
  | appended {s : State} : bc.blocks.tip.height < b.height → bc.blocks.tip.hash.bytes = b.prevHash.bytes →
      applyBlockToState C bc.consensus bc.state b = (.ok (), s) → (S.appendCanonical bc.store b).1 = .ok () →
      AppendEffect C S bc b (.ok true) (bc.extend C b s (S.appendCanonical bc.store b).2)

/-- What `MineTransfers` leaves of a chain. A block that does not apply, or that the store does not take, leaves its payments in the
state. -/
inductive MineEffect {σ : Type} (C : Crypto) (S : ChainStore σ) (bc : Blockchain σ) (transfers : List Transaction)
    (clock : Nat → Int64) : Blockchain σ → Prop where
  | nothing : MineEffect C S bc transfers clock bc
  | refused {b : Block} {attempt : Nat} {e : String} {s : State} : Mines C bc transfers (clock attempt) b →
      applyBlockToState C bc.consensus bc.state b = (.error e, s) → MineEffect C S bc transfers clock { bc with state := s }
  | unstored {b : Block} {attempt : Nat} {s : State} : Mines C bc transfers (clock attempt) b → bc.blocks.tip.height < b.height →
      applyBlockToState C bc.consensus bc.state b = (.ok (), s) → (S.appendCanonical bc.store b).1 ≠ .ok () →
      MineEffect C S bc transfers clock { bc with state := s, store := (S.appendCanonical bc.store b).2 }
  | mined {b : Block} {attempt : Nat} {s : State} {bc' : Blockchain σ} : Mines C bc transfers (clock attempt) b →
      bc.blocks.tip.height < b.height → applyBlockToState C bc.consensus bc.state b = (.ok (), s) →
      (S.appendCanonical bc.store b).1 = .ok () →
      Committed C S (mineCheckpoint C S (bc.extend C b s (S.appendCanonical bc.store b).2) b.height) b.height bc' →
      MineEffect C S bc transfers clock bc'

section

variable {σ : Type} {C : Crypto} {S : ChainStore σ} {bc bc' : Blockchain σ} {transfers : List Transaction} {clock : Nat → Int64}

theorem mineAppend_effect {r : Result Bool} (h : mineAppend C S bc b = some (r, bc')) : AppendEffect C S bc b r bc' := by
  unfold mineAppend at h
  split at h
  · cases h
    exact .stale
  · rename_i hheight
    split at h
    · cases h
      exact .stale
    · rename_i hhash
      split at h
      · cases h
      · split at h
        · rename_i happly
          cases h
          exact .refused happly
        · rename_i happly
          split at h
          · rename_i happend
            cases h
            have heffect := AppendEffect.unstored (UInt64.not_le.mp hheight) happly (congrArg Prod.fst happend)
            rwa [happend] at heffect
          · rename_i happend
            cases h
            have heffect := AppendEffect.appended (UInt64.not_le.mp hheight) (not_not.mp hhash) happly (congrArg Prod.fst happend)
            rwa [happend] at heffect

theorem mineOneBlock_cases {now : Int64} {r : Result (Option Block)} (h : mineOneBlock C S bc transfers now = some (r, bc')) :
    (bc' = bc ∧ ∀ b, r ≠ .ok (some b)) ∨ ∃ b, Mines C bc transfers now b ∧
      ((r = .ok none ∧ mineAppend C S bc b = some (.ok false, bc')) ∨ (∃ e, r = .error e ∧ mineAppend C S bc b = some (.error e, bc')) ∨
        ∃ bc₁ r', r = .ok (some bc'.blocks.tip) ∧ mineAppend C S bc b = some (.ok true, bc₁) ∧
          computeAndStoreCommitment C S (mineCheckpoint C S bc₁ b.height) .unlocked b.height = some (r', bc')) := by
  unfold mineOneBlock at h
  split at h
  · cases h
    exact .inl ⟨rfl, by simp⟩
  · rename_i fees hfees
    simp only at h
    split at h
    · cases h
    · cases h
      exact .inl ⟨rfl, by simp⟩
    · rename_i nonce hash hpow
      refine .inr ⟨_, ⟨fees, nonce, hash, hfees, hpow, rfl⟩, ?_⟩
      split at h
      · cases h
      · rename_i e _ happend
        cases h
        exact .inr (.inl ⟨e, rfl, happend⟩)
      · rename_i happend
        cases h
        exact .inl ⟨rfl, happend⟩
      · rename_i bc₁ happend
        split at h
        · cases h
        · rename_i r' _ hcommit
          cases h
          exact .inr (.inr ⟨bc₁, r', rfl, happend, hcommit⟩)

theorem mineOneBlock_effect {r : Result (Option Block)} (h : mineOneBlock C S bc transfers (clock attempt) = some (r, bc')) :
    MineEffect C S bc transfers clock bc' ∧ (r = .ok none → bc' = bc) := by
  rcases mineOneBlock_cases h with ⟨rfl, -⟩ | ⟨b, hmines, ⟨rfl, happend⟩ | ⟨e, rfl, happend⟩ | ⟨bc₁, r', rfl, happend, hcommit⟩⟩
  · exact ⟨.nothing, fun _ => rfl⟩
  · cases mineAppend_effect happend with
    | stale => exact ⟨.nothing, fun _ => rfl⟩
  · refine ⟨?_, fun hr => by cases hr⟩
    cases mineAppend_effect happend with
    | refused happly => exact .refused hmines happly
    | unstored habove happly hfailed => exact .unstored hmines habove happly (by rw [hfailed]; simp)
  · refine ⟨?_, fun hr => by cases hr⟩
    cases mineAppend_effect happend with
    | appended habove _ happly hstored =>
      obtain ⟨_, bc₂, hcommit', hcommitted⟩ := computeAndStoreCommitment_unlocked C S (mineCheckpoint C S _ b.height) b.height
      cases hcommit.symm.trans hcommit'
      exact .mined hmines habove happly hstored hcommitted

/-- The result of `MineTransfers` is that of one attempt on the chain as it was, unless all attempts come without a block. By induction
on those that are left. -/
theorem mineTransfersLoop_cases {n : Nat} (h : mineTransfersLoop C S transfers clock n attempt bc = some (r, bc')) :
    (∃ b attempt, r = .ok b ∧ mineOneBlock C S bc transfers (clock attempt) = some (.ok (some b), bc')) ∨
      ∃ e, r = .error e ∧ (bc' = bc ∨ ∃ attempt, mineOneBlock C S bc transfers (clock attempt) = some (.error e, bc')) := by
  induction n generalizing attempt with
  | zero =>
    cases h
    exact .inr ⟨_, rfl, .inl rfl⟩
  | succ n ih =>
    unfold mineTransfersLoop at h
    split at h
    · cases h
    · rename_i e _ hone
      cases h
      exact .inr ⟨e, rfl, .inr ⟨attempt, hone⟩⟩
    · rename_i b _ hone
      cases h
      exact .inl ⟨b, attempt, rfl, hone⟩
    · rename_i hone
      obtain rfl := (mineOneBlock_effect hone).2 rfl
      exact ih h

theorem mineTransfersLoop_effect {n : Nat}
    (h : mineTransfersLoop C S transfers clock n attempt bc = some (r, bc')) : MineEffect C S bc transfers clock bc' := by
  rcases mineTransfersLoop_cases h with ⟨b, attempt, -, hone⟩ | ⟨e, -, rfl | ⟨attempt, hone⟩⟩
  · exact (mineOneBlock_effect hone).1
  · exact .nothing
  · exact (mineOneBlock_effect hone).1

theorem mineTransfers_effect (h : mineTransfers C S bc transfers clock = some (r, bc')) : MineEffect C S bc transfers clock bc' :=
  mineTransfersLoop_effect h

end

/-! ## Adding a block -/

/-- What `AddBlock` leaves of a chain when it returns. -/
inductive AddEffect {σ : Type} (C : Crypto) (S : ChainStore σ) (bc : Blockchain σ) (block : Option Block) (clock : Nat → Int64) :
    Blockchain σ → Prop where
  | rejected {bc' : Blockchain σ} : Rejected S bc bc' → AddEffect C S bc block clock bc'
  | beside {b : Block} {cand : Candidate} : block = some b → Accepted C S bc clock b cand →
      ¬isBetter cand.work b.hashHex bc.canonicalWork bc.bestTipHash → AddEffect C S bc block clock (bc.insert S b)
  | tip {b : Block} {cand : Candidate} : block = some b → Accepted C S bc clock b cand →
      isBetter cand.work b.hashHex bc.canonicalWork bc.bestTipHash →
      AddEffect C S bc block clock ((bc.insert S b).retip C S b cand)

theorem addBlock_effect {σ : Type} {C : Crypto} {S : ChainStore σ} {bc : Blockchain σ} {block : Option Block} {clock : Nat → Int64}
    {r : AddResult σ} (h : addBlock C S bc block clock = some r) : AddEffect C S bc block clock r.chain := by
  rcases addBlock_cases C S bc block clock with ⟨bc', msg, hadd, hrejected, -⟩ | ⟨b, cand, hb, hacc, hadd⟩
  · rw [hadd] at h
    cases h
    exact .rejected hrejected
  · rw [hadd] at h
    by_cases hbetter : isBetter cand.work b.hashHex bc.canonicalWork bc.bestTipHash
    · rcases chooseTip_of_better C S (bc.insert S b) hbetter with ⟨hnone, -, -⟩ | ⟨-, _, _, hsome⟩
      · rw [hnone] at h
        cases h
      · rw [hsome] at h
        cases h
        exact .tip hb hacc hbetter
    · rw [chooseTip_of_not_better C S (bc.insert S b) .locked hbetter] at h
      cases h
      exact .beside hb hacc hbetter

/-! ## Runs -/

inductive Call where
  | mineTransfers (transfers : List Transaction) (clock : Nat → Int64)
  | addBlock (block : Option Block) (clock : Nat → Int64)
  | balance (address : Bytes)

/-- The chain after a call; `none` when the call does not return. -/
def Call.run {σ : Type} (C : Crypto) (S : ChainStore σ) (bc : Blockchain σ) : Call → Option (Blockchain σ)
  | .mineTransfers transfers clock => (Internal.mineTransfers C S bc transfers clock).map Prod.snd
  | .addBlock block clock => (Internal.addBlock C S bc block clock).map AddResult.chain
  | .balance address => some (bc.balance address).2

def Call.handled {σ : Type} (bc' : Blockchain σ) : Call → List Block
  | .mineTransfers _ _ => [bc'.blocks.tip]
  | .addBlock block _ => block.toList
  | .balance _ => []

/-- Any number of calls that return, each of them allowed where it is made, with the blocks they handle. A Go slice has fewer than
`2 ^ 63` elements. -/
inductive Runs {σ : Type} (C : Crypto) (S : ChainStore σ) (allowed : Blockchain σ → Call → Prop) (bc0 : Blockchain σ) :
    List Block → Blockchain σ → Prop where
  | start : Runs C S allowed bc0 [] bc0
  | step {handled : List Block} {bc bc' : Blockchain σ} (call : Call) : Runs C S allowed bc0 handled bc → allowed bc call →
      call.run C S bc = some bc' → bc'.blocks.1.length < 2 ^ 63 → Runs C S allowed bc0 (handled ++ call.handled bc') bc'

section

variable {σ : Type} {C : Crypto} {S : ChainStore σ} {allowed : Blockchain σ → Call → Prop} {bc0 bc : Blockchain σ} {handled : List Block}

theorem Runs.invariant_handled (Inv : List Block → Blockchain σ → Prop) (h0 : Inv [] bc0)
    (hmine : ∀ handled bc bc' transfers clock, Inv handled bc → allowed bc (.mineTransfers transfers clock) →
      MineEffect C S bc transfers clock bc' → bc'.blocks.1.length < 2 ^ 63 → Inv (handled ++ [bc'.blocks.tip]) bc')
    (hadd : ∀ handled bc bc' block clock, Inv handled bc → allowed bc (.addBlock block clock) → AddEffect C S bc block clock bc' →
      bc'.blocks.1.length < 2 ^ 63 → Inv (handled ++ block.toList) bc')
    (hbalance : ∀ handled bc address, Inv handled bc → allowed bc (.balance address) → Inv handled (bc.balance address).2)
    (hrun : Runs C S allowed bc0 handled bc) : Inv handled bc := by
  induction hrun with
  | start => exact h0
  | step call _ hallowed hcall hlen ih =>
    cases call with
    | mineTransfers transfers clock =>
      obtain ⟨⟨r, bc'⟩, hmined, rfl⟩ := Option.map_eq_some_iff.mp hcall
      exact hmine _ _ _ transfers clock ih hallowed (mineTransfers_effect hmined) hlen
    | addBlock block clock =>
      obtain ⟨r, hadded, rfl⟩ := Option.map_eq_some_iff.mp hcall
      exact hadd _ _ _ block clock ih hallowed (addBlock_effect hadded) hlen
    | balance address =>
      cases hcall
      rw [Call.handled, List.append_nil]
      exact hbalance _ _ address ih hallowed

theorem Runs.invariant {Inv : Blockchain σ → Prop} (h0 : Inv bc0)
    (hmine : ∀ bc bc' transfers clock, Inv bc → allowed bc (.mineTransfers transfers clock) →
      MineEffect C S bc transfers clock bc' → bc'.blocks.1.length < 2 ^ 63 → Inv bc')
    (hadd : ∀ bc bc' block clock, Inv bc → allowed bc (.addBlock block clock) → AddEffect C S bc block clock bc' →
      bc'.blocks.1.length < 2 ^ 63 → Inv bc') (hbalance : ∀ bc address, Inv bc → allowed bc (.balance address) → Inv (bc.balance address).2)
    (hrun : Runs C S allowed bc0 handled bc) : Inv bc :=
  Runs.invariant_handled (fun _ bc => Inv bc) h0 (fun _ => hmine) (fun _ => hadd) (fun _ => hbalance) hrun

end

end NeoCoin.Internal
