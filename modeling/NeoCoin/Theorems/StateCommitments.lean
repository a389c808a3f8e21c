import NeoCoin.Theorems.Branches
import NeoCoin.Theorems.StateRoot

/-!
# Commitments to the state

`ComputeAndStoreCommitment` of `internal/blockchain` stores the root of the state right after a block; `VerifyStateCommitment` computes
the root of the state of now, whatever the height.
-/

namespace NeoCoin.Internal

open GoLib

variable {t : Transaction} {i : Nat} {blocks : List Block} {transfers : List Transaction} {b : Block} {r : Result Unit}
  {handled : List Block} {clock : Nat → Int64}

/-! ## Addresses with an account -/

def ValidAddresses (C : Crypto) (s : State) : Prop := ∀ a ∈ s, validateAddress C a = .ok ()

section

variable {C : Crypto} {p : ConsensusParams} {height : UInt64} {s s' : State}

theorem ValidAddresses.set (h : ValidAddresses C s) {a : Bytes} (ha : validateAddress C a = .ok ()) (acct : Account) :
    ValidAddresses C (GoMap.set s a acct) := by
  intro a' ha'
  rcases GoMap.mem_set.mp ha' with rfl | ha'
  · exact ha
  · exact h a' ha'

theorem toAddress_of_verify (h : verifyForConsensus C t p height = .ok ()) : validateAddress C t.toAddress = .ok () := by
  unfold verifyForConsensus at h
  split at h
  · rename_i htype
    unfold verify at h
    simp only [htype] at h
    unfold verifyCoinbase at h
    iterate 2 obtain ⟨_, -, h⟩ := bind_eq_ok.mp h
    obtain ⟨_, hto, -⟩ := bind_eq_ok.mp h
    exact hto
  · unfold verifyTransfer at h
    obtain ⟨_, -, h⟩ := bind_eq_ok.mp h
    obtain ⟨_, hto, -⟩ := bind_eq_ok.mp h
    exact hto
  · cases h

theorem ValidAddresses.applyTx (h : ValidAddresses C s) (happly : applyTx C p height i t s = .ok s') : ValidAddresses C s' := by
  unfold Internal.applyTx at happly
  split at happly
  · unfold applyCoinbase at happly
    obtain ⟨_, -, happly⟩ := bind_eq_ok.mp happly
    obtain ⟨_, hverify, happly⟩ := bind_eq_ok.mp happly
    cases happly
    exact h.set (toAddress_of_verify hverify) _
  · obtain rfl := applyTransfer_pay happly
    unfold applyTransfer at happly
    obtain ⟨_, hverify, -⟩ := bind_eq_ok.mp happly
    exact (h.set (validateAddress_generateAddress C _) _).set (toAddress_of_verify hverify) _
  · cases happly

theorem ValidAddresses.applyTxs (ts : List Transaction) (h : ValidAddresses C s) : ValidAddresses C (applyTxs C p height i ts s).2 := by
  induction ts generalizing i s with
  | nil => exact h
  | cons t ts ih =>
    unfold Internal.applyTxs
    split
    · exact h
    · rename_i s₁ hs₁
      exact ih (h.applyTx hs₁)

theorem ValidAddresses.applied (h : ValidAddresses C s) (happly : applyBlockToState C p s b = (r, s')) : ValidAddresses C s' := by
  unfold applyBlockToState at happly
  split at happly
  · cases happly
    exact h
  · rw [show s' = (Internal.applyTxs C p b.height 0 b.transactions s).2 from (congrArg Prod.snd happly).symm]
    exact h.applyTxs _

theorem ValidAddresses.replayed (h : ValidAddresses C s) (happly : replay C p blocks s = (r, s')) : ValidAddresses C s' := by
  induction blocks generalizing s with
  | nil =>
    cases happly
    exact h
  | cons b blocks ih =>
    unfold replay at happly
    split at happly
    · rename_i hb
      cases happly
      exact h.applied hb
    · rename_i hb
      exact ih (h.applied hb) happly

theorem validAddresses_empty : ValidAddresses C ∅ := fun _ ha => absurd ha (Finmap.notMem_empty)

end

section

variable {β : Type} {C : Crypto} {G : Gob β} {bc bc' : Blockchain (Bolt β)} {bc0 : Blockchain (Bolt β)}

/-- No call puts an account under another address. -/
theorem validAddresses_of_run {allowed : Blockchain (Bolt β) → Call → Prop}
    (h0 : ValidAddresses C bc0.state) (hrun : Runs C (boltStore G) allowed bc0 handled bc) : ValidAddresses C bc.state := by
  refine Runs.invariant_handled (fun _ bc => ValidAddresses C bc.state) h0 ?_ ?_ ?_ hrun
  · intro _ bc bc' transfers clock h _ heffect _
    cases heffect with
    | nothing => exact h
    | refused _ happly => exact h.applied happly
    | unstored _ _ happly _ => exact h.applied happly
    | mined _ _ happly _ hcommit =>
      rw [hcommit.same, mineCheckpoint_same]
      exact h.applied happly
  · intro _ bc bc' block clock h _ heffect _
    cases heffect with
    | rejected hrejected =>
      rw [hrejected.same]
      exact h
    | beside _ _ _ => exact h
    | tip _ hacc _ =>
      rw [retip_same]
      exact validAddresses_empty.replayed hacc.valid.applied
  · intro _ bc address h _
    rw [balance_eq]
    exact h

/-! ## Stored commitments -/

theorem update_commitments {st : Bolt β} {tx : Bolt β → Result (Bolt β)} (h : ∀ st', tx st = .ok st' → st'.commitmentsB = st.commitmentsB) :
    (st.update tx).2.commitmentsB = st.commitmentsB := by
  unfold Bolt.update
  split
  · rfl
  · rename_i st' htx
    exact h st' htx

theorem putNew_commitments (st : Bolt β) (b : Block) : (st.putNew G b).commitmentsB = st.commitmentsB := by
  unfold Bolt.putNew
  split
  · rfl
  · rfl

theorem append_commitments (st : Bolt β) (b : Block) : (st.appendCanonical G b).2.commitmentsB = st.commitmentsB := by
  unfold Bolt.appendCanonical
  split
  · rfl
  · refine update_commitments fun st' htx => ?_
    obtain ⟨_, -, htx⟩ := bind_eq_ok.mp htx
    cases htx
    exact putNew_commitments st b

theorem putBlock_commitments (st : Bolt β) (b : Block) : (st.putBlock G b).2.commitmentsB = st.commitmentsB := by
  rcases BoltAux.putBlock_cases G st b with ⟨-, hsame⟩ | hok
  · rw [hsame]
  · rw [hok]
    exact putNew_commitments st b

theorem rewriteLoop_commitments {acc acc' : Bolt β × Option (Bytes × UInt64)}
    (h : blocks.foldlM (Bolt.rewriteBlock G) acc = .ok acc') : acc'.1.commitmentsB = acc.1.commitmentsB := by
  induction blocks generalizing acc with
  | nil =>
    cases h
    rfl
  | cons b blocks ih =>
    rw [List.foldlM_cons] at h
    obtain ⟨next, hnext, h⟩ := bind_eq_ok.mp h
    unfold Bolt.rewriteBlock at hnext
    obtain ⟨_, -, hnext⟩ := bind_eq_ok.mp hnext
    cases hnext
    exact (ih h).trans (putNew_commitments acc.1 b)

theorem rewrite_commitments (st : Bolt β) (blocks : List Block) : (st.rewriteCanonical G blocks).2.commitmentsB = st.commitmentsB := by
  unfold Bolt.rewriteCanonical
  refine update_commitments fun st' htx => ?_
  obtain ⟨⟨st₁, tip⟩, hloop, htx⟩ := bind_eq_ok.mp htx
  have hsame := rewriteLoop_commitments hloop
  cases tip with
  | none =>
    cases htx
    exact hsame
  | some tip =>
    cases htx
    exact hsame

theorem checkpoint_commitments (cfg : Config) (st : Bolt β) (height : Int64) :
    (stateCheckpoint C (boltStore G) cfg st height).2.commitmentsB = st.commitmentsB := by
  rcases BoltAux.stateCheckpoint_cases C G cfg st height with hsame | ⟨-, canonical, -, hst⟩
  · rw [hsame]
  · rw [hst]

theorem AddEffect.commitments {block : Option Block} (h : AddEffect C (boltStore G) bc block clock bc') :
    bc'.store.commitmentsB = bc.store.commitmentsB := by
  cases h with
  | rejected hrejected => rw [hrejected.store_bolt]
  | beside _ _ _ => exact putBlock_commitments _ _
  | @tip b cand _ hacc _ =>
    unfold Blockchain.retip addCheckpoint
    have hrewrite := (rewrite_commitments (G := G) (bc.store.putBlock G b).2 cand.path.1).trans (putBlock_commitments bc.store b)
    simp only
    split
    · exact hrewrite
    · split
      · exact (checkpoint_commitments _ _ _).trans hrewrite
      · exact hrewrite

variable {height : UInt64}

theorem commit_commitments (hbelow : height.toInt64 < Int64.ofNat bc.blocks.1.length)
    (h : computeAndStoreCommitment C (boltStore G) bc .unlocked height = some (r, bc')) :
    (¬shouldCommit height ∧ bc' = bc) ∨ shouldCommit height ∧ ∃ c : StateCommitment, c.stateRoot = computeStateRoot C bc.state ∧
      bc'.store.commitmentsB = bc.store.commitmentsB.put (u64be height) c := by
  unfold computeAndStoreCommitment at h
  by_cases hdue : shouldCommit height
  · right
    simp only [hdue, not_true_eq_false, if_false, computeStateCommitment, RWMutex.rLock, failIf, ge_iff_le, Int64.not_le.mpr hbelow,
      bind, Except.bind] at h
    cases h
    rw [setRoots_eq]
    refine ⟨hdue, _, ?_, congrArg (fun k => bc.store.commitmentsB.put (u64be k) _) (UInt64.toUInt64_toInt64 height)⟩
    rfl
  · left
    rw [if_pos hdue] at h
    cases h
    exact ⟨hdue, rfl⟩

theorem toInt64_lt_length {n : Nat} (h : height.toNat < n) (hn : n < 2 ^ 63) : height.toInt64 < Int64.ofNat n := by
  rw [Int64.lt_iff_toInt_lt, toInt_toInt64 (by omega), toInt_ofNat_of_lt hn]
  omega

theorem mine_commitments {r : Result Block} (h : Kept bc)
    (hmine : mineTransfers C (boltStore G) bc transfers clock = some (r, bc')) (hlen : bc'.blocks.1.length < 2 ^ 63) :
    (bc'.store.commitmentsB = bc.store.commitmentsB ∧ ∀ b, r = .ok b → ¬shouldCommit b.height) ∨
      ∃ b c, r = .ok b ∧ b.height.toNat = bc.blocks.1.length ∧ c.stateRoot = computeStateRoot C bc'.state ∧
        bc'.store.commitmentsB = bc.store.commitmentsB.put (u64be b.height) c := by
  rcases mineTransfersLoop_cases hmine with ⟨b, attempt, rfl, hone⟩ | ⟨e, rfl, rfl | ⟨attempt, hone⟩⟩
  · rcases mineOneBlock_cases hone with ⟨-, hr⟩ | ⟨b₀, hm, ⟨hr, -⟩ | ⟨_, hr, -⟩ | ⟨bc₁, r', hr, happend, hcommit⟩⟩
    · exact absurd rfl (hr b)
    · cases hr
    · cases hr
    · cases mineAppend_effect happend with
      | @appended s _ _ happly hstored =>
        set pointed := mineCheckpoint C (boltStore G) (bc.extend C b₀ s (bc.store.appendCanonical G b₀).2) b₀.height with hpointed
        obtain ⟨_, bc₂, hcommit', hcommitted⟩ := computeAndStoreCommitment_unlocked C (boltStore G) pointed b₀.height
        cases hcommit.symm.trans hcommit'
        have hmore := hcommitted.length_mined hlen
        have hheight := h.mined_height hm hmore
        have hb : b.toBlock = b₀.toBlock := by
          rw [Option.some.inj (Except.ok.inj hr), hcommitted.tip, hpointed, mineCheckpoint_same]
          exact congrArg Block.toBlock List.getLast_concat
        have hbheight : b.height = b₀.height := congrArg NeoCoin.Block.height hb
        have hstate : bc'.state = s := by
          rw [hcommitted.same, hpointed, mineCheckpoint_same]
          rfl
        have hsame : pointed.store.commitmentsB = bc.store.commitmentsB := by
          rw [hpointed, mineCheckpoint_eq]
          split
          · exact (checkpoint_commitments _ _ _).trans (append_commitments _ _)
          · exact append_commitments _ _
        have hbelow : b₀.height.toInt64 < Int64.ofNat pointed.blocks.1.length := by
          have hlength : pointed.blocks.1.length = bc.blocks.1.length + 1 := by
            rw [hpointed, mineCheckpoint_same]
            exact List.length_append
          exact toInt64_lt_length (by omega) (by omega)
        rcases commit_commitments hbelow hcommit with ⟨hnot, rfl⟩ | ⟨-, c, hroot, hput⟩
        · refine .inl ⟨hsame, fun b' hb' => ?_⟩
          rw [← Except.ok.inj hb', hbheight]
          exact hnot
        · refine .inr ⟨b, c, rfl, hbheight ▸ hheight, ?_, ?_⟩
          · rw [hroot, hstate, hpointed, mineCheckpoint_same]
            rfl
          · rw [hput, hsame, hbheight]
  · exact .inl ⟨rfl, by simp⟩
  · rcases mineOneBlock_cases hone with ⟨rfl, -⟩ | ⟨b, -, ⟨hr, -⟩ | ⟨e, -, happend⟩ | ⟨bc₁, r', hr, -⟩⟩
    · exact .inl ⟨rfl, by simp⟩
    · cases hr
    · refine .inl ⟨?_, by simp⟩
      cases mineAppend_effect happend with
      | refused => rfl
      | unstored => exact append_commitments _ _
    · cases hr

/-! ## Later calls -/

def Canonical {σ : Type} (b : Block) (bc : Blockchain σ) : Prop := (bc.blocks.1[b.height.toNat]?).map Block.toBlock = some b.toBlock

instance {σ : Type} (b : Block) (bc : Blockchain σ) : Decidable (Canonical b bc) := inferInstanceAs (Decidable (_ = _))

theorem Canonical.below (h : Canonical b bc) : b.height.toNat < bc.blocks.1.length := by
  obtain ⟨b', hb', -⟩ := Option.map_eq_some_iff.mp h
  exact (List.getElem?_eq_some_iff.mp hb').1

/-- No call changes the commitment for a height that the chain has. -/
theorem call_commitments {call : Call} (h : Kept bc) (hbelow : height.toNat < bc.blocks.1.length)
    (hcall : call.run C (boltStore G) bc = some bc') (hlen : bc'.blocks.1.length < 2 ^ 63) :
    bc'.store.commitmentsB.get (u64be height) = bc.store.commitmentsB.get (u64be height) := by
  cases call with
  | mineTransfers transfers clock =>
    obtain ⟨⟨r, bc'⟩, hmine, rfl⟩ := Option.map_eq_some_iff.mp hcall
    rcases mine_commitments h hmine hlen with ⟨hsame, -⟩ | ⟨b, c, -, hheight, -, hput⟩
    · rw [hsame]
    · rw [hput, OrdMap.get_put_of_ne]
      intro heq
      rw [u64be_inj heq] at hbelow
      omega
  | addBlock block clock =>
    obtain ⟨r, hadd, rfl⟩ := Option.map_eq_some_iff.mp hcall
    rw [(addBlock_effect hadd).commitments]
  | balance address =>
    cases hcall
    rw [balance_eq]

theorem kept_of_run {allowed : Blockchain (Bolt β) → Call → Prop} (h0 : Kept bc0)
    (hrun : Runs C (boltStore G) allowed bc0 handled bc) : Kept bc :=
  Runs.invariant h0 (fun _ _ _ _ h _ => kept_mine h) (fun _ _ _ _ h _ => kept_add h) (fun _ address h _ => kept_balance h address) hrun

/-- The commitment for a block stays as long as the block is canonical. By induction on the calls. -/
theorem commitment_of_run (h0 : Kept bc0) (hrun : Runs C (boltStore G) (fun bc _ => Canonical b bc) bc0 handled bc) :
    bc.store.commitmentsB.get (u64be b.height) = bc0.store.commitmentsB.get (u64be b.height) := by
  induction hrun with
  | start => rfl
  | step call hrun hcanonical hcall hlen ih => rw [call_commitments (kept_of_run h0 hrun) hcanonical.below hcall hlen, ih]

theorem verifyStateCommitment_eq (h : Kept bc) (hbelow : height.toNat < bc.blocks.1.length) (c : StateCommitment) :
    verifyStateCommitment C bc .unlocked height.toInt64 c = some (.ok (decide (computeStateRoot C bc.state = c.stateRoot))) := by
  have hlt := Int64.not_le.mpr (toInt64_lt_length hbelow h.bounded)
  simp only [verifyStateCommitment, computeStateCommitment, RWMutex.rLock, failIf, ge_iff_le, hlt, if_false, bind, Except.bind]

end

/-- What a later `VerifyStateCommitment` says of the commitment that was stored after block `b`. -/
theorem verify_of_run {β : Type} {C : Crypto} {G : Gob β} {bc1 bc2 bc : Blockchain (Bolt β)} (h1 : Kept bc1)
    (hmine : mineTransfers C (boltStore G) bc1 transfers clock = some (.ok b, bc2)) (hlen : bc2.blocks.1.length < 2 ^ 63)
    (hdue : shouldCommit b.height) (hlater : Runs C (boltStore G) (fun bc _ => Canonical b bc) bc2 handled bc)
    (hcanonical : Canonical b bc) :
    ∃ c, loadCommitment (boltStore G) bc b.height.toInt64 = .ok c ∧ verifyStateCommitment C bc .unlocked b.height.toInt64 c =
      some (.ok (decide (computeStateRoot C bc.state = computeStateRoot C bc2.state))) := by
  have h2 : Kept bc2 := kept_mine h1 (mineTransfers_effect hmine) hlen
  rcases mine_commitments h1 hmine hlen with ⟨-, hnot⟩ | ⟨b', c, hr, -, hroot, hput⟩
  · exact absurd hdue (hnot b rfl)
  · cases hr
    refine ⟨c, ?_, ?_⟩
    · have hget := commitment_of_run h2 hlater
      rw [hput, OrdMap.get_put_self] at hget
      show Bolt.readCommitment bc.store _ = _
      rw [Bolt.readCommitment, UInt64.toUInt64_toInt64, hget]
    · rw [verifyStateCommitment_eq (kept_of_run h2 hlater) hcanonical.below, hroot]

/-- A commitment that was stored after its block was mined verifies later, as long as the block is canonical, exactly when the state is
what it was then. -/
theorem commitment_verifies_iff {β : Type} (C : Crypto) (G : Gob β) (chainID : UInt64) (minerAddress : Bytes) (raw : GenesisConfigJSON)
    (cfg : Config) (ignoreRulesHash : Bool) {bc0 bc1 bc2 bc : Blockchain (Bolt β)} {handled handled' : List Block}
    {transfers : List Transaction} {clock : Nat → Int64} {b : Block}
    (hload : loadBlockchain C (boltStore G) chainID minerAddress raw cfg ignoreRulesHash Bolt.empty = some (.ok bc0))
    (hrun : Runs C (boltStore G) (fun _ _ => True) bc0 handled bc1)
    (hmine : mineTransfers C (boltStore G) bc1 transfers clock = some (.ok b, bc2)) (hlen : bc2.blocks.1.length < 2 ^ 63)
    (hdue : shouldCommit b.height) (hlater : Runs C (boltStore G) (fun bc _ => Canonical b bc) bc2 handled' bc)
    (hcanonical : Canonical b bc) (hfree : C.CollisionFreeOn (stateMessages C bc.state ++ stateMessages C bc2.state)) :
    (∃ c, loadCommitment (boltStore G) bc b.height.toInt64 = .ok c ∧
      verifyStateCommitment C bc .unlocked b.height.toInt64 c = some (.ok true)) ↔ bc.state = bc2.state := by
  obtain ⟨_, _, hstarted⟩ := started_of_load hload
  have h1 := kept_of_run hstarted.kept hrun
  have hmined : Runs C (boltStore G) (fun _ _ => True) bc1 _ bc2 :=
    .step (.mineTransfers transfers clock) .start trivial (congrArg (Option.map Prod.snd) hmine) hlen
  have hvalid2 := validAddresses_of_run (validAddresses_of_run (validAddresses_empty.replayed hstarted.applied) hrun) hmined
  obtain ⟨c, hload, hverify⟩ := verify_of_run h1 hmine hlen hdue hlater hcanonical
  constructor
  · intro h
    obtain ⟨c', hload', hverify'⟩ := h
    cases hload.symm.trans hload'
    have htrue := Except.ok.inj (Option.some.inj (hverify.symm.trans hverify'))
    exact state_eq_of_root (validAddresses_of_run hvalid2 hlater) hvalid2 hfree (of_decide_eq_true htrue)
  · intro h
    refine ⟨c, hload, ?_⟩
    rw [hverify, h]
    simp

namespace Sample

open NeoCoin.Sample (minerAddress)

theorem loaded_mines_twice : ∃ bc1 b bc2 b' bc3, loaded = some (.ok bc1) ∧
    mineTransfers crypto (boltStore gob) bc1 [] (fun _ => 4) = some (.ok b, bc2) ∧
    mineTransfers crypto (boltStore gob) bc2 [] (fun _ => 5) = some (.ok b', bc3) ∧
    (shouldCommit b.height ∧ bc2.blocks.1.length = 2 ∧ Canonical b bc2 ∧ bc2.state = GoMap.set ∅ minerAddress { balance := 1050 }) ∧
    bc3.blocks.1.length = 3 ∧ Canonical b bc3 ∧ bc3.state = GoMap.set ∅ minerAddress { balance := 1100 } := by
  have hmine : mines (mineTransfers crypto (boltStore gob) node [] fun _ => 4) (fun b bc2 =>
      mines (mineTransfers crypto (boltStore gob) bc2 [] fun _ => 5) fun _ bc3 =>
        decide ((shouldCommit b.height ∧ bc2.blocks.1.length = 2 ∧ Canonical b bc2 ∧
            bc2.state = GoMap.set ∅ minerAddress { balance := 1050 }) ∧
          bc3.blocks.1.length = 3 ∧ Canonical b bc3 ∧ bc3.state = GoMap.set ∅ minerAddress { balance := 1100 })) = true := by
    simp only [Sample.crypto, goCrypto_eq]
    decide +kernel
  obtain ⟨b, bc2, hfirst, hmine⟩ := exists_of_mines hmine
  obtain ⟨b', bc3, hsecond, hmine⟩ := exists_of_mines hmine
  exact ⟨node, b, bc2, b', bc3, node_loads, hfirst, hsecond, of_decide_eq_true hmine⟩

end Sample

open NeoCoin.Sample (minerAddress)

/-- After the block, and after a question for a balance, the commitment verifies. -/
theorem commitment_verifies_mined : ∃ bc1 b bc2 bc handled, Sample.loaded = some (.ok bc1) ∧
      mineTransfers Sample.crypto (boltStore Sample.gob) bc1 [] (fun _ => 4) = some (.ok b, bc2) ∧ shouldCommit b.height ∧
      Runs Sample.crypto (boltStore Sample.gob) (fun bc _ => Canonical b bc) bc2 handled bc ∧ Canonical b bc ∧
      ∃ c, loadCommitment (boltStore Sample.gob) bc b.height.toInt64 = .ok c ∧
        verifyStateCommitment Sample.crypto bc .unlocked b.height.toInt64 c = some (.ok true) := by
  obtain ⟨bc1, b, bc2, _, _, hload, hmine, -, ⟨hdue, hlen, hcanonical, hstate⟩, -⟩ := Sample.loaded_mines_twice
  have hlater : Runs Sample.crypto (boltStore Sample.gob) (fun bc _ => Canonical b bc) bc2 _ (bc2.balance minerAddress).2 :=
    .step (.balance minerAddress) .start hcanonical rfl (by rw [balance_eq]; simp only [hlen]; decide)
  have hcanonical' : Canonical b (bc2.balance minerAddress).2 := by
    rw [balance_eq]
    exact hcanonical
  have hsame : (bc2.balance minerAddress).2.state = bc2.state := by rw [balance_eq]
  have hdigests : Sample.crypto.CollisionFreeOn [[], str "empty", accountMessage (minerAddress, { balance := 1050 })] :=
    .of_nodup (by rw [Sample.crypto, goCrypto_eq]; decide +kernel)
  refine ⟨bc1, b, bc2, _, _, hload, hmine, hdue, hlater, hcanonical', ?_⟩
  refine (commitment_verifies_iff Sample.crypto Sample.gob 1 minerAddress Sample.raw _ false hload .start hmine
    (by rw [hlen]; decide) hdue hlater hcanonical' ?_).mpr hsame
  rw [hsame, hstate, stateMessages_singleton]
  exact hdigests.mono fun m hm => (List.mem_append.mp hm).elim id id

/-- After one more block the commitment does not verify any more. -/
theorem commitment_refused_later : ∃ bc1 b bc2 bc handled c, Sample.loaded = some (.ok bc1) ∧
      mineTransfers Sample.crypto (boltStore Sample.gob) bc1 [] (fun _ => 4) = some (.ok b, bc2) ∧ shouldCommit b.height ∧
      Runs Sample.crypto (boltStore Sample.gob) (fun bc _ => Canonical b bc) bc2 handled bc ∧ Canonical b bc ∧
      loadCommitment (boltStore Sample.gob) bc b.height.toInt64 = .ok c ∧
      verifyStateCommitment Sample.crypto bc .unlocked b.height.toInt64 c = some (.ok false) := by
  obtain ⟨bc1, b, bc2, b', bc3, hload, hmine, hnext, ⟨hdue, hlen, hcanonical, hstate⟩, hlen', hcanonical', hstate'⟩ :=
    Sample.loaded_mines_twice
  obtain ⟨_, _, hstarted⟩ := started_of_load hload
  have hlater : Runs Sample.crypto (boltStore Sample.gob) (fun bc _ => Canonical b bc) bc2 _ bc3 :=
    .step (.mineTransfers [] fun _ => 5) .start hcanonical (congrArg (Option.map Prod.snd) hnext) (by rw [hlen']; decide)
  obtain ⟨c, hstored, hverify⟩ := verify_of_run hstarted.kept hmine (by rw [hlen]; decide) hdue hlater hcanonical'
  rw [hstate, hstate', computeStateRoot_singleton, computeStateRoot_singleton] at hverify
  refine ⟨bc1, b, bc2, bc3, _, c, hload, hmine, hdue, hlater, hcanonical', hstored, hverify.trans ?_⟩
  have hne : Sample.crypto.sha256 (accountMessage (minerAddress, { balance := 1100 })) ≠
      Sample.crypto.sha256 (accountMessage (minerAddress, { balance := 1050 })) := by
    simp only [Sample.crypto, goCrypto_eq]
    decide +kernel
  rw [decide_eq_false hne]

/-! ## The root and the state -/

theorem computeStateRootOver_eq {C : Crypto} {s : State} {range : List (Bytes × Account)} (h : GoMap.IsRange s range) :
    computeStateRootOver C s (range.map Prod.fst) = computeStateRoot C s := by
  have hkeys : ((range.map Prod.fst : List Bytes) : Multiset Bytes) = (s.keys.sort fun a b => a ≤ b : List Bytes) := by
    rw [Finset.sort_eq, ← Multiset.map_coe, h, Multiset.map_map]
    rfl
  have hsort : (range.map Prod.fst).insertionSort (fun a b => a ≤ b) = s.keys.sort fun a b => a ≤ b :=
    List.Perm.eq_of_pairwise' (List.pairwise_insertionSort _ _) (Finset.pairwise_sort _ _)
      ((List.perm_insertionSort _ _).trans (Multiset.coe_eq_coe.mp hkeys))
  rw [computeStateRootOver, hsort]
  rfl

/-- The root is the same in whatever order the loop meets the addresses, and two states of valid addresses with one root are equal. -/
theorem stateRoot_binds (C : Crypto) (s s' : State) (range range' : List (Bytes × Account)) (hrange : GoMap.IsRange s range)
    (hrange' : GoMap.IsRange s' range') :
    computeStateRootOver C s (range.map Prod.fst) = computeStateRoot C s ∧
      (ValidAddresses C s → ValidAddresses C s' → C.CollisionFreeOn (stateMessages C s ++ stateMessages C s') →
        computeStateRootOver C s (range.map Prod.fst) = computeStateRootOver C s' (range'.map Prod.fst) → s = s') := by
  rw [computeStateRootOver_eq hrange, computeStateRootOver_eq hrange']
  exact ⟨rfl, state_eq_of_root⟩

/-- The states after the two blocks. -/
theorem stateRoot_binds_other : computeStateRootOver Sample.crypto (GoMap.set ∅ minerAddress { balance := 1050 }) [minerAddress] ≠
    computeStateRootOver Sample.crypto (GoMap.set ∅ minerAddress { balance := 1100 }) [minerAddress] := by
  intro hroot
  have hvalid : ∀ acct, ValidAddresses Sample.crypto (GoMap.set ∅ minerAddress acct) :=
    validAddresses_empty.set (by rw [Sample.crypto, goCrypto_eq]; decide +kernel)
  have hfree : Sample.crypto.CollisionFreeOn
      [[], str "empty", accountMessage (minerAddress, { balance := 1050 }), accountMessage (minerAddress, { balance := 1100 })] :=
    .of_nodup (by rw [Sample.crypto, goCrypto_eq]; decide +kernel)
  have hrange : ∀ acct : Account, GoMap.IsRange (GoMap.set ∅ minerAddress acct) [(minerAddress, acct)] := fun _ => rfl
  refine absurd ((stateRoot_binds _ _ _ _ _ (hrange _) (hrange _)).2 (hvalid _) (hvalid _) (hfree.mono ?_) hroot) (by decide)
  rw [stateMessages_singleton, stateMessages_singleton]
  simp

end NeoCoin.Internal
