import NeoCoin.Miner
import NeoCoin.Theorems.Headers
import NeoCoin.Theorems.Runs

/-!
# Mining what was selected

Whether what is selected is mined depends on the checks that only `MineTransfers` makes, and on the reward, which the selection does not
simulate (`selected_mined_iff`).
-/

namespace NeoCoin

open GoLib List

variable {fees total reward : UInt64} {a : Bytes} {s s' : State} {C : Crypto} {p : ConsensusParams} {b : Block} {σ : Type}
  {bc : Blockchain σ} {height chainID : UInt64} {ts : List Transaction} {t : Transaction}

/-! ## What mining asks for -/

def HeaderFits {σ : Type} (bc : Blockchain σ) (now : Int64) : Prop :=
  bc.consensus.binaryEncodingActive (bc.blocks.tip.height + 1) = true →
    0 < mineTimestamp bc.blocks.tip now ∧ (bc.blocks.tip.hash.bytes.length = 0 ∨ bc.blocks.tip.hash.bytes.length = 32) ∧
      ∃ miner, decodeHex32 bc.minerAddress = .ok miner

/-- Each transfer of the miner itself is still covered when the reward is added, in `uint64`, to the balance it is selected on. -/
def RewardKeepsFunds (C : Crypto) (miner : Bytes) (reward : UInt64) : List Transaction → State → Prop
  | [], _ => True
  | t :: ts, s =>
    (t.sender C = miner → t.amount + t.fee ≤ (s.get miner).balance + reward) ∧ RewardKeepsFunds C miner reward ts (t.pay C s)

/-! ## The search for a nonce -/

section

variable (C : Crypto) (p : ConsensusParams) (b : Block)

def Solves (nonce : UInt64) : Prop :=
  ∃ header, b.headerBytesForConsensus C p nonce = .ok header ∧ beNat (C.sha256 header) < powTarget b

/-- If the headers of a block can be encoded at all, one of them has a digest below the target: the search comes to an end. -/
def SearchEnds : Prop :=
  (∀ nonce, ∃ header, b.headerBytesForConsensus C p nonce = .ok header) → ∃ nonce, Solves C p b nonce

structure FirstSolution (nonce : UInt64) : Prop where
  solves : Solves C p b nonce
  first : ∀ m < nonce, ¬Solves C p b m

end

theorem FirstSolution.unique {n n' : UInt64} (h : FirstSolution C p b n) (h' : FirstSolution C p b n') : n = n' := by
  rcases Nat.lt_trichotomy n.toNat n'.toNat with hlt | heq | hlt
  · exact absurd h.solves (h'.first n (UInt64.lt_iff_toNat_lt.mpr hlt))
  · exact UInt64.toNat_inj.mp heq
  · exact absurd h'.solves (h.first n' (UInt64.lt_iff_toNat_lt.mpr hlt))

/-- The block `MineTransfers` makes of a batch that passes its checks, with a nonce and a hash. -/
def minedFrom {σ : Type} (bc : Blockchain σ) (ts : List Transaction) (now : Int64) (nonce : UInt64) (hash : Bytes) : Block :=
  { mineTemplate bc ts (transferFees ts) now with nonce := nonce, hash := some hash }

/-- What a batch must have for the next block to be mined from it. -/
structure BatchMinable {σ : Type} (C : Crypto) (bc : Blockchain σ) (ts : List Transaction) (now : Int64) : Prop where
  chainID : bc.chainID ≠ 0
  transfers : ∀ t ∈ ts, t.chainID = bc.chainID ∧ minFee ≤ t.fee
  header : HeaderFits bc now
  reward : expectedCoinbase bc.consensus (bc.blocks.tip.height + 1) ts ≠ 0
  funds : RewardKeepsFunds C bc.minerAddress (expectedCoinbase bc.consensus (bc.blocks.tip.height + 1) ts) ts bc.state
  size : ∀ nonce header, FirstSolution C bc.consensus (mineTemplate bc ts (transferFees ts) now) nonce →
    (mineTemplate bc ts (transferFees ts) now).headerBytesForConsensus C bc.consensus nonce = .ok header →
    bc.consensus.maxBlockSize > 0 →
    blockSizeForConsensus (minedFrom bc ts now nonce (C.sha256 header)) ≤ bc.consensus.maxBlockSize.toNat

namespace SelectionAux

/-- The search from `k` on, when every header can be encoded and no nonce before `k` is a solution. By induction on the rounds. -/
theorem powRunLoop_eq (hall : ∀ nonce, ∃ header, b.headerBytesForConsensus C p nonce = .ok header) {n k : Nat} (hk : k + n = 2 ^ 64)
    (hno : ∀ m : UInt64, m.toNat < k → ¬Solves C p b m) : (powRunLoop C p b n (UInt64.ofNat k) = none ∧ ∀ m, ¬Solves C p b m) ∨
      ∃ nonce header, powRunLoop C p b n (UInt64.ofNat k) = some (.ok (nonce, C.sha256 header)) ∧
        b.headerBytesForConsensus C p nonce = .ok header ∧ FirstSolution C p b nonce := by
  induction n generalizing k with
  | zero =>
    refine Or.inl ⟨rfl, fun m => hno m ?_⟩
    have := m.toNat_lt
    omega
  | succ n ih =>
    have hnat : (UInt64.ofNat k).toNat = k := by
      rw [UInt64.toNat_ofNat', Nat.mod_eq_of_lt (by omega)]
    obtain ⟨header, hheader⟩ := hall (UInt64.ofNat k)
    rw [powRunLoop, hheader]
    simp only
    by_cases hlow : beNat (C.sha256 header) < powTarget b
    · rw [if_pos hlow]
      refine Or.inr ⟨_, header, rfl, hheader, ⟨header, hheader, hlow⟩, ?_⟩
      intro m hm
      rw [UInt64.lt_iff_toNat_lt, hnat] at hm
      exact hno m hm
    · rw [if_neg hlow]
      have hnext : UInt64.ofNat k + 1 = UInt64.ofNat (k + 1) := by simp
      rw [hnext]
      refine ih (by omega) ?_
      intro m hm hsolves
      rcases Nat.lt_succ_iff_lt_or_eq.mp hm with hlt | heq
      · exact hno m hlt hsolves
      · obtain rfl : m = UInt64.ofNat k := UInt64.toNat_inj.mp (heq.trans hnat.symm)
        obtain ⟨header', hheader', hlow'⟩ := hsolves
        cases hheader.symm.trans hheader'
        exact hlow hlow'

theorem powRun_of_solves (hall : ∀ nonce, ∃ header, b.headerBytesForConsensus C p nonce = .ok header) (hsearch : SearchEnds C p b) :
    ∃ nonce header, powRun C p b = some (.ok (nonce, C.sha256 header)) ∧ b.headerBytesForConsensus C p nonce = .ok header ∧
      FirstSolution C p b nonce := by
  rcases powRunLoop_eq hall (n := 2 ^ 64) (k := 0) (by simp) (fun m hm => absurd hm (Nat.not_lt_zero _)) with ⟨-, hnone⟩ | hfound
  · obtain ⟨nonce, hnonce⟩ := hsearch hall
    exact absurd hnonce (hnone nonce)
  · exact hfound

/-! ## The header of the next block -/

theorem commitmentRoot_exists (hne : b.transactions ≠ [])
    (h : ∀ t ∈ b.transactions, ∃ pre, signingPreimage C t p b.height = .ok pre) : ∃ root, b.commitmentRoot C p = .ok root := by
  have hhash : ∀ t ∈ b.transactions, ∃ x, txSigningHashForConsensus C t p b.height = .ok x ∧ x.length = 32 := by
    intro t ht
    obtain ⟨pre, hpre⟩ := h t ht
    exact ⟨C.sha256 pre, bind_eq_ok.mpr ⟨pre, hpre, rfl⟩, C.sha256_length pre⟩
  obtain ⟨leaves, hleaves, hlen, h32⟩ := mapM_ok hhash
  unfold Block.commitmentRoot
  split
  · have hsome : leaves.map (hashLeaf C) ≠ [] := by
      intro hnil
      rw [map_eq_nil_iff] at hnil
      rw [hnil, length_nil] at hlen
      exact hne (length_eq_zero_iff.mp hlen.symm)
    obtain ⟨root, hroot⟩ := Merkle.root_isSome (hashNode C) hsome
    refine ⟨root, bind_eq_ok.mpr ⟨leaves, hleaves, ?_⟩⟩
    have hany : leaves.any (fun l => l.length ≠ 32) = false := by
      rw [any_eq_false]
      intro l hl
      simp [h32 l hl]
    rw [merkleRoot, hany, hroot]
    rfl
  · exact ⟨_, bind_eq_ok.mpr ⟨leaves, hleaves, rfl⟩⟩

theorem coinbase_preimage (hchain : bc.chainID ≠ 0)
    (hminer : bc.consensus.binaryEncodingActive height = true → ∃ miner, decodeHex32 bc.minerAddress = .ok miner) :
    ∃ pre, signingPreimage C (mineCoinbase bc height fees) bc.consensus height = .ok pre := by
  unfold signingPreimage
  split
  · rename_i hbin
    obtain ⟨miner, hm⟩ := hminer hbin
    simp only [txSigningPreimageBinaryV1, mineCoinbase]
    exact ⟨_, bind_eq_ok.mpr ⟨(), failIf_eq_ok.mpr hchain, bind_eq_ok.mpr ⟨miner, Result.orError_eq_ok.mpr hm, rfl⟩⟩⟩
  · exact ⟨_, rfl⟩

theorem header_ok_iff (fees : UInt64) (now : Int64)
    (hchain : bc.chainID ≠ 0) (hts : ∀ t ∈ ts, VerifiedTransfer C t bc.consensus (bc.blocks.tip.height + 1)) (nonce : UInt64) :
    (∃ header, (mineTemplate bc ts fees now).headerBytesForConsensus C bc.consensus nonce = .ok header) ↔ HeaderFits bc now := by
  have hroot : (bc.consensus.binaryEncodingActive (bc.blocks.tip.height + 1) = true →
      ∃ miner, decodeHex32 bc.minerAddress = .ok miner) →
      ∃ root, (mineTemplate bc ts fees now).commitmentRoot C bc.consensus = .ok root := by
    intro hminer
    refine commitmentRoot_exists (by simp [mineTemplate]) fun t ht => ?_
    rcases mem_cons.mp ht with rfl | ht
    · exact coinbase_preimage hchain hminer
    · obtain ⟨pre, hpre, -⟩ := (hts t ht).signed
      exact ⟨pre, hpre⟩
  unfold Block.headerBytesForConsensus HeaderFits
  have hheight : (mineTemplate bc ts fees now).height = bc.blocks.tip.height + 1 := rfl
  rw [hheight]
  by_cases hbin : bc.consensus.binaryEncodingActive (bc.blocks.tip.height + 1) = true
  · rw [if_pos hbin]
    have hprev : (mineTemplate bc ts fees now).prevHash.bytes = bc.blocks.tip.hash.bytes := GoSlice.bytes_copy _
    constructor
    · intro ⟨header, h⟩ _
      unfold blockHeaderPreimageBinaryV1 at h
      obtain ⟨_, htime, h⟩ := bind_eq_ok.mp h
      obtain ⟨_, hlen, h⟩ := bind_eq_ok.mp h
      obtain ⟨_, -, h⟩ := bind_eq_ok.mp h
      obtain ⟨miner, hm, -⟩ := bind_eq_ok.mp h
      rw [hprev, failIf_eq_ok, not_and, not_not] at hlen
      refine ⟨Int64.not_le.mp (failIf_eq_ok.mp htime), ?_, miner, Result.orError_eq_ok.mp hm⟩
      by_cases hzero : bc.blocks.tip.hash.bytes.length = 0
      · exact Or.inl hzero
      · exact Or.inr (hlen hzero)
    · intro hfits
      obtain ⟨htime, hlen, miner, hm⟩ := hfits hbin
      obtain ⟨root, hr⟩ := hroot fun _ => ⟨miner, hm⟩
      refine ⟨_, bind_eq_ok.mpr ⟨(), failIf_eq_ok.mpr (Int64.not_le.mpr htime), bind_eq_ok.mpr ⟨(), failIf_eq_ok.mpr ?_,
        bind_eq_ok.mpr ⟨(), failIf_eq_ok.mpr ?_, bind_eq_ok.mpr ⟨miner, Result.orError_eq_ok.mpr hm,
          bind_eq_ok.mpr ⟨root, hr, rfl⟩⟩⟩⟩⟩⟩
      · rw [hprev]
        omega
      · simp [mineTemplate]
  · rw [if_neg hbin]
    obtain ⟨root, hr⟩ := hroot fun h => absurd h hbin
    exact iff_of_true ⟨_, bind_eq_ok.mpr ⟨root, hr, rfl⟩⟩ fun h => absurd h hbin

/-! ## What is selected -/

theorem withChainID_of_ne_zero (chainID : UInt64) (h : t.chainID ≠ 0) : t.withChainID chainID = t := by
  rw [Transaction.withChainID, if_neg h]

theorem withChainID_type (t : Transaction) (chainID : UInt64) : (t.withChainID chainID).type = t.type := by
  unfold Transaction.withChainID
  split
  · rfl
  · rfl

section

variable (C : Crypto) (p : ConsensusParams) (chainID height : UInt64) (n : Nat) (entries : List MempoolEntry) (s : State)

/-- The picked transactions apply in order to the state the loop starts from. By induction on the entries left. -/
theorem selectLoop_accepted : TransfersAccepted C p height ((selectLoop C p chainID height n entries s).map (·.1)) s := by
  induction entries generalizing n s with
  | nil =>
    unfold selectLoop
    exact trivial
  | cons e entries ih =>
    cases n with
    | zero => exact trivial
    | succ n =>
      unfold selectLoop
      simp only
      split
      · exact ih (n + 1) s
      · rename_i htype
        have htype : (e.tx.withChainID chainID).type = .transfer := by
          rw [withChainID_type]
          exact not_not.mp htype
        split
        · rename_i fromAddr hverify hfrom
          obtain ⟨-, -, rfl⟩ := (fromAddress_ok_iff C).mp hfrom
          split
          · exact ih (n + 1) s
          · rename_i hnonce
            split
            · exact ih (n + 1) s
            · rename_i hfunds
              have hv := (verifyForConsensus_transfer_iff C p height htype).mp hverify
              exact ⟨⟨htype, hv, not_not.mp hnonce, UInt64.not_lt.mp hfunds⟩, ih n _⟩
        · exact ih (n + 1) s

/-- No more are picked than asked for. By induction on the entries left. -/
theorem selectLoop_length : (selectLoop C p chainID height n entries s).length ≤ n := by
  induction entries generalizing n s with
  | nil =>
    unfold selectLoop
    exact Nat.zero_le n
  | cons e entries ih =>
    cases n with
    | zero => exact Nat.le_refl 0
    | succ n =>
      unfold selectLoop
      simp only
      split
      · exact ih (n + 1) s
      · split
        · split
          · exact ih (n + 1) s
          · split
            · exact ih (n + 1) s
            · exact Nat.succ_le_succ (ih n _)
        · exact ih (n + 1) s

end

/-! ## The checks of `MineTransfers` -/

theorem checkMinable_ok_iff (ht : t.type = .transfer) (hv : VerifiedTransfer C t p height) :
    checkMinable C p chainID height t = .ok () ↔ t.chainID = chainID ∧ minFee ≤ t.fee := by
  have hverify := (verifyForConsensus_transfer_iff C p height ht).mpr hv
  simp only [checkMinable, unit_bind_eq_ok, failIf_eq_ok, not_not, UInt64.not_lt, withChainID_of_ne_zero chainID hv.chainID, ht, hverify,
    true_and]

theorem checkAllMinable_ok_iff : checkAllMinable C p chainID height ts fees = .ok total ↔
      (∀ t ∈ ts, checkMinable C p chainID height t = .ok ()) ∧ total = fees + (ts.map (·.fee)).sum := by
  induction ts generalizing fees with
  | nil => simp [checkAllMinable, eq_comm]
  | cons t ts ih =>
    rw [checkAllMinable, unit_bind_eq_ok]
    simp only [ih, forall_mem_cons, map_cons, sum_cons, UInt64.add_assoc, and_assoc]

theorem transferFees_eq (h : ∀ t ∈ ts, t.type = .transfer) : transferFees ts = (ts.map (·.fee)).sum := by
  rw [transferFees, filter_eq_self.mpr fun t ht => by simp [h t ht]]

theorem checkBatch_ok_iff (hts : ∀ t ∈ ts, t.type = .transfer ∧ VerifiedTransfer C t p height) :
    checkAllMinable C p chainID height ts 0 = .ok total ↔
      (∀ t ∈ ts, t.chainID = chainID ∧ minFee ≤ t.fee) ∧ total = transferFees ts := by
  rw [checkAllMinable_ok_iff, UInt64.zero_add, transferFees_eq fun t ht => (hts t ht).1]
  refine and_congr_left fun _ => forall₂_congr fun t ht => ?_
  exact checkMinable_ok_iff (hts t ht).1 (hts t ht).2

/-! ## The reward on top of the simulated state -/

/-- A state that differs from another by a credit to one account. -/
def Credited (a : Bytes) (reward : UInt64) (s s' : State) : Prop :=
  ∀ k, (s'.get k).nonce = (s.get k).nonce ∧ (s'.get k).balance = (s.get k).balance + if k = a then reward else 0

theorem credited_credit (s : State) (a : Bytes) (reward : UInt64) : Credited a reward s (State.credit s a reward) := by
  intro k
  rw [State.credit, GoMap.get_set]
  split
  · rename_i hk
    rw [hk]
    exact ⟨rfl, rfl⟩
  · exact ⟨rfl, (UInt64.add_zero _).symm⟩

theorem credited_pay (h : Credited a reward s s') (t : Transaction) : Credited a reward (t.pay C s) (t.pay C s') := by
  intro k
  obtain ⟨hnonce, hbal⟩ := h k
  obtain ⟨-, hsender⟩ := h (t.sender C)
  obtain ⟨htnonce, hto⟩ := h t.toAddress
  simp only [Transaction.pay, State.credit, State.debit, GoMap.get_set]
  grind

/-- With the reward credited first the same transfers apply, as far as the miner itself can still pay. By induction on the transfers. -/
theorem transfersAccepted_credited_iff (hdiff : Credited a reward s s') (h : TransfersAccepted C p height ts s) :
    TransfersAccepted C p height ts s' ↔ RewardKeepsFunds C a reward ts s := by
  induction ts generalizing s s' with
  | nil => exact Iff.rfl
  | cons t ts ih =>
    obtain ⟨hnonce, hbal⟩ := hdiff (t.sender C)
    have hfirst : TransferAccepted C p height t s' ↔ (t.sender C = a → t.amount + t.fee ≤ (s.get a).balance + reward) := by
      constructor
      · intro ha hsender
        have hfunds := ha.funds
        rwa [hbal, if_pos hsender, hsender] at hfunds
      · intro hfunds
        refine ⟨h.1.type, h.1.verified, by rw [hnonce]; exact h.1.nonce, ?_⟩
        rw [hbal]
        split
        · rename_i hsender
          rw [hsender]
          exact hfunds hsender
        · rw [UInt64.add_zero]
          exact h.1.funds
    exact and_congr hfirst (ih (credited_pay hdiff t) h.2)

/-! ## The block that is mined -/

theorem blockAccepted_mined_iff (now : Int64) (nonce : UInt64) (hash : Bytes) (hminer : validateAddress C bc.minerAddress = .ok ())
    (hts : TransfersAccepted C bc.consensus (bc.blocks.tip.height + 1) ts bc.state) :
    (∃ cb ts', BlockAccepted C bc.consensus (minedFrom bc ts now nonce hash) cb ts' bc.state) ↔
      bc.chainID ≠ 0 ∧ expectedCoinbase bc.consensus (bc.blocks.tip.height + 1) ts ≠ 0 ∧
        RewardKeepsFunds C bc.minerAddress (expectedCoinbase bc.consensus (bc.blocks.tip.height + 1) ts) ts bc.state ∧
        (bc.consensus.maxBlockSize > 0 →
          blockSizeForConsensus (minedFrom bc ts now nonce hash) ≤ bc.consensus.maxBlockSize.toNat) := by
  have hfunds := transfersAccepted_credited_iff
    (credited_credit bc.state bc.minerAddress (expectedCoinbase bc.consensus (bc.blocks.tip.height + 1) ts)) hts
  constructor
  · intro ⟨cb, ts', hacc⟩
    obtain ⟨rfl, rfl⟩ := List.cons.inj hacc.transactions
    exact ⟨hacc.coinbase.chainID, hacc.coinbase.amount, hfunds.mp hacc.transfers, hacc.size⟩
  · intro ⟨hchain, hreward, hkeeps, hsize⟩
    exact ⟨mineCoinbase bc (bc.blocks.tip.height + 1) (transferFees ts), ts, rfl, hsize, rfl, fun _ => ⟨hminer, rfl, rfl⟩,
      ⟨hchain, hreward, hminer, rfl, rfl, rfl, rfl⟩, hfunds.mpr hkeeps⟩

theorem mineTransfers_ok_iff {S : ChainStore σ} {now : Int64}
    (hts : TransfersAccepted C bc.consensus (bc.blocks.tip.height + 1) ts bc.state)
    (hminer : validateAddress C bc.minerAddress = .ok ()) (hstore : ∀ b, (S.appendCanonical bc.store b).1 = .ok ())
    (hsearch : SearchEnds C bc.consensus (mineTemplate bc ts (transferFees ts) now)) :
    (∃ b bc', mineTransfers C S bc ts now = some (.ok b, bc')) ↔ BatchMinable C bc ts now := by
  have hall := transfersAccepted_forall hts
  constructor
  · intro ⟨b, bc', hmine⟩
    obtain ⟨⟨hmined, happlied⟩, -⟩ := mineTransfers_ok hmine
    obtain ⟨hacc, -⟩ := (applyBlockToState_ok_iff C bc.consensus).mp happlied
    unfold minedBlock at hmined
    split at hmined
    · nomatch hmined
    · rename_i fees hcheck
      obtain ⟨htransfers, rfl⟩ := (checkBatch_ok_iff hall).mp hcheck
      split at hmined
      · rename_i nonce hash hpow
        cases hmined
        obtain ⟨hchain, hreward, hkeeps, hsize⟩ := (blockAccepted_mined_iff now nonce hash hminer hts).mp hacc
        have hheader := header_ok_iff (transferFees ts) now hchain fun t ht => (hall t ht).2
        obtain ⟨header, hok, -⟩ := HeaderAux.powRunLoop_ok hpow
        have hfits := (hheader nonce).mp ⟨header, hok⟩
        refine ⟨hchain, htransfers, hfits, hreward, hkeeps, ?_⟩
        intro nonce' header' hfirst' hheader'
        obtain ⟨nonce0, header0, hpow0, hok0, hfirst0⟩ := powRun_of_solves (fun n => (hheader n).mpr hfits) hsearch
        obtain rfl := hfirst'.unique hfirst0
        cases hok0.symm.trans hheader'
        cases hpow.symm.trans hpow0
        exact hsize
      · nomatch hmined
  · intro h
    have hheader := header_ok_iff (transferFees ts) now h.chainID fun t ht => (hall t ht).2
    obtain ⟨nonce, header, hpow, hok, hfirst⟩ := powRun_of_solves (fun n => (hheader n).mpr h.header) hsearch
    have hacc := (blockAccepted_mined_iff now nonce (C.sha256 header) hminer hts).mpr
      ⟨h.chainID, h.reward, h.funds, h.size nonce header hfirst hok⟩
    have happlied := (applyBlockToState_ok_iff C bc.consensus).mpr ⟨hacc, rfl⟩
    have hcheck := (checkBatch_ok_iff hall).mpr ⟨h.transfers, rfl⟩
    obtain ⟨st, hst⟩ : ∃ st, S.appendCanonical bc.store (minedFrom bc ts now nonce (C.sha256 header)) = (.ok (), st) :=
      ⟨_, Prod.ext (hstore _) rfl⟩
    have hmine : mineTransfers C S bc ts now = some (commitMined C S bc (minedFrom bc ts now nonce (C.sha256 header))) := by
      simp only [mineTransfers, hcheck, hpow]
      rfl
    rw [hmine, commitMined, happlied]
    simp only [hst]
    exact ⟨_, _, rfl⟩

end SelectionAux

/-! ## Mining what was selected -/

open SelectionAux

def selectedBatch {σ : Type} (C : Crypto) (bc : Blockchain σ) (entries : List MempoolEntry) (max : Int64) : List Transaction :=
  (selectMempoolTxs C bc entries max).map (·.1)

theorem selectedBatch_accepted (C : Crypto) (bc : Blockchain σ) (entries : List MempoolEntry) (max : Int64) :
    TransfersAccepted C bc.consensus (bc.blocks.tip.height + 1) (selectedBatch C bc entries max) bc.state :=
  selectLoop_accepted C bc.consensus bc.chainID (bc.blocks.tip.height + 1) _ entries bc.state

/-- What `SelectMempoolTxs` returns, for any state and pool: no more than asked for, no transaction twice, and nothing that
`applyBlockToState` rejects in this order after the coinbase. -/
theorem selected_applies {σ : Type} (C : Crypto) (bc : Blockchain σ) (entries : List MempoolEntry) (max : Int64) :
    ((selectedBatch C bc entries max).length : Int) ≤ (if max ≤ 0 then 100 else max : Int64).toInt ∧
      (selectedBatch C bc entries max).Nodup ∧
      (applyTxs C bc.consensus (bc.blocks.tip.height + 1) 1 (selectedBatch C bc entries max) bc.state).1 = .ok () := by
  have haccepted := selectedBatch_accepted C bc entries max
  refine ⟨?_, ?_, ?_⟩
  · have hlen : (selectedBatch C bc entries max).length ≤ (if max ≤ 0 then 100 else max : Int64).toInt.toNat := by
      rw [selectedBatch, length_map]
      exact selectLoop_length C bc.consensus bc.chainID (bc.blocks.tip.height + 1) _ entries bc.state
    have hpos : 0 ≤ (if max ≤ 0 then 100 else max : Int64).toInt := by
      split
      · decide
      · rename_i hmax
        exact Int64.le_iff_toInt_le.mp (Int64.le_of_lt (Int64.not_le.mp hmax))
    omega
  · -- the nonces of one sender count on, so no pair of sender and nonce comes twice
    have hpairs := NonceAux.nodup_pairs fun a => by
      rw [(NonceAux.countsFrom_payAll haccepted a).1]
      exact nodup_range'
    exact hpairs.of_map _
  · rw [(applyTxs_succ_ok_iff C bc.consensus _ 0 _).mpr ⟨haccepted, rfl⟩]

theorem mineTransfers_refused (C : Crypto) (S : ChainStore σ) (bc : Blockchain σ) (entries : List MempoolEntry)
    (max : Int64) (ht : t ∈ selectedBatch C bc entries max) (hbad : ¬(t.chainID = bc.chainID ∧ minFee ≤ t.fee))
    (now : Int64) : ∃ e, mineTransfers C S bc (selectedBatch C bc entries max) now = some (.error e, bc) := by
  have hall := transfersAccepted_forall (selectedBatch_accepted C bc entries max)
  unfold mineTransfers
  rcases Result.ok_or_error
    (checkAllMinable C bc.consensus bc.chainID (bc.blocks.tip.height + 1) (selectedBatch C bc entries max) 0) with
    ⟨fees, hok⟩ | ⟨e, he⟩
  · exact absurd (((checkBatch_ok_iff hall).mp hok).1 t ht) hbad
  · rw [he]
    exact ⟨e, rfl⟩

theorem mineOnce_stuck (C : Crypto) (S : ChainStore σ) (bc : Blockchain σ) (mp : Mempool) (entries : List MempoolEntry)
    (max : Int64) (mineEmpty : Bool) (ht : t ∈ selectedBatch C bc entries max)
    (hbad : ¬(t.chainID = bc.chainID ∧ minFee ≤ t.fee)) (now : Int64) :
    ∃ e, mineOnce C S bc mp max mineEmpty entries now = some (.error e, bc, mp) := by
  have hselected : selectMempoolTxs C bc entries max ≠ [] := by
    intro hnil
    rw [selectedBatch, hnil] at ht
    nomatch ht
  obtain ⟨e, hmine⟩ := mineTransfers_refused C S bc entries max ht hbad now
  rw [selectedBatch] at hmine
  refine ⟨e, ?_⟩
  unfold mineOnce
  simp only [hselected, false_and, if_false, hmine]

/-- What `SelectMempoolTxs` returns is mined by the next `MineTransfers`, with a valid miner address and a store that takes the block, if
and only if the batch is minable. -/
theorem selected_mined_iff {σ : Type} (C : Crypto) (S : ChainStore σ) (bc : Blockchain σ) (entries : List MempoolEntry)
    (max now : Int64) (hminer : validateAddress C bc.minerAddress = .ok ()) (hstore : ∀ b, (S.appendCanonical bc.store b).1 = .ok ())
    (hsearch : SearchEnds C bc.consensus
      (mineTemplate bc (selectedBatch C bc entries max) (transferFees (selectedBatch C bc entries max)) now)) :
    (∃ b bc', mineTransfers C S bc (selectedBatch C bc entries max) now = some (.ok b, bc')) ↔
      BatchMinable C bc (selectedBatch C bc entries max) now :=
  mineTransfers_ok_iff (selectedBatch_accepted C bc entries max) hminer hstore hsearch

open Sample

namespace Sample

def payingEntry : MempoolEntry :=
  { tx := paying, txIDHex := hexEncode (beBytes 32 0xe660285165e79851325bba7b1cc5a6565979a39b09990dcddf530d37345e1fd9), received := 5 }

theorem paying_selected : selectedBatch crypto node [payingEntry] 100 = [paying] := by
  simp only [crypto, goCrypto_eq]
  decide +kernel

theorem paying_solved : Solves crypto params (mineTemplate node [paying] (transferFees [paying]) 2) 0 := by
  have hrun : ((mineTemplate node [paying] (transferFees [paying]) 2).headerBytesForConsensus crypto params 0).toOption.map
      (fun header => decide (beNat (crypto.sha256 header) < powTarget (mineTemplate node [paying] (transferFees [paying]) 2))) =
        some true := by
    simp only [crypto, goCrypto_eq]
    decide +kernel
  obtain ⟨header, hheader, hlow⟩ := Option.map_eq_some_iff.mp hrun
  exact ⟨header, Result.toOption_eq_some.mp hheader, of_decide_eq_true hlow⟩

end Sample

/-- A pool with one transfer that pays its fee: it is mined, so the batch is minable. -/
theorem selected_mined_iff_paying : BatchMinable crypto node (selectedBatch crypto node [payingEntry] 100) 2 := by
  refine (selected_mined_iff crypto store node [payingEntry] 100 2 ?_ (fun _ => rfl) (fun _ => ⟨0, ?_⟩)).mp ?_
  · simp only [crypto, goCrypto_eq]
    decide
  · rw [paying_selected]
    exact paying_solved
  · rw [paying_selected]
    have hrun : (mineTransfers crypto store node [paying] 2).map (fun r => r.1.toOption.isSome) =
        some true := by
      simp only [crypto, goCrypto_eq, paying, node, genesis]
      decide +kernel
    obtain ⟨⟨r, bc'⟩, hr, hval⟩ := Option.map_eq_some_iff.mp hrun
    cases r with
    | ok b => exact ⟨b, bc', hr⟩
    | error e => cases hval

namespace Sample

def feelessID : Bytes := hexEncode (beBytes 32 0xdcaf4561d396caf79e78b2d0387aa01bab7ab9de4678b755aca8be0096b3dd08)

def feelessEntry : MempoolEntry := { tx := feeless, txIDHex := feelessID, received := 5 }

def feelessPool : Mempool :=
  { maxSize := 10, entries := GoMap.set ∅ feelessID feelessEntry
    bySenderNonce := GoMap.set ∅ minerAddress (GoMap.set ∅ 1 feelessID) }

theorem add_feeless : Mempool.add crypto none [] 5 (newMempool 10) feeless = ((feelessID, none), feelessPool) := by
  simp only [crypto, goCrypto_eq, feelessPool, feeless]
  decide +kernel

theorem feelessPool_sorted {entries : List MempoolEntry} (h : EntriesSortedByFeeDesc feelessPool entries) : entries = [feelessEntry] :=
  Multiset.coe_eq_singleton.mp h.snapshot

theorem feeless_selected : selectedBatch crypto node [feelessEntry] 100 = [feeless] := by
  simp only [crypto, goCrypto_eq]
  decide +kernel

end Sample

/-- A signed and funded transfer without a fee enters the pool and is selected. Mining then fails, and does so at every later attempt. -/
theorem feeless_stops_mining : Mempool.add crypto none [] 5 (newMempool 10) feeless = ((feelessID, none), feelessPool) ∧
      ∀ entries, EntriesSortedByFeeDesc feelessPool entries →
        selectedBatch crypto node entries 100 = [feeless] ∧
        ∀ now, (∃ e, mineTransfers crypto store node (selectedBatch crypto node entries 100) now =
            some (.error e, node)) ∧
          ∃ e, mineOnce crypto store node feelessPool 100 false entries now =
            some (.error e, node, feelessPool) := by
  refine ⟨add_feeless, ?_⟩
  intro entries hentries
  obtain rfl := feelessPool_sorted hentries
  have hmem : feeless ∈ selectedBatch crypto node [feelessEntry] 100 := by
    rw [feeless_selected]
    exact .head _
  refine ⟨feeless_selected, fun now => ⟨?_, ?_⟩⟩
  · exact mineTransfers_refused crypto store node _ 100 hmem (by decide) now
  · exact mineOnce_stuck crypto store node feelessPool _ 100 false hmem (by decide) now

end NeoCoin
