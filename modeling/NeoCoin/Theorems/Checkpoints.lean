import Mathlib.Data.List.TakeWhile
import NeoCoin.Theorems.Branches
import NeoCoin.Theorems.StateRoot

/-!
# Checkpoints

`recomputeStateLocked` starts from the latest checkpoint if that is on the chain, and `StateCheckpoint` computes a checkpoint with rules
of its own: it counts no nonces. A checkpoint stands under its height, whatever chain it was made of (`CheckpointSafe`).
-/

namespace NeoCoin.Internal

open GoLib ForkTree List

variable {b : Block} {i : Nat} {L now : Int64} {clock : Nat → Int64} {cand : Candidate}

/-! ## Replay -/

section

variable {C : Crypto} {p : ConsensusParams} {s s' : State}

def TransferFree (b : Block) : Prop := ∀ t ∈ b.transactions, t.type ≠ .transfer

instance (b : Block) : Decidable (TransferFree b) := inferInstanceAs (Decidable (∀ t ∈ b.transactions, _))

/-- A checkpoint pays the coinbase of a block as a replay does. -/
theorem pruner_of_applied (h : applyBlockToState C p s b = (.ok (), s')) (hfree : TransferFree b) :
    applyBlockToStateFromPruner C s b = s' := by
  obtain ⟨-, cb, ts, hb, htype, -, htransfers⟩ := applyBlockToState_parts h
  have hts : ts = [] := by
    refine eq_nil_iff_forall_not_mem.mpr fun t ht => ?_
    exact hfree t (by rw [hb]; exact mem_cons_of_mem cb ht) ((applyTxs_succ_ok htransfers).1 t ht)
  subst hts
  obtain rfl := (Prod.mk.inj htransfers).2
  simp [applyBlockToStateFromPruner, hb, applyTxFromPruner, htype]

theorem prunerFold_of_replay {blocks : List Block} (h : replay C p blocks s = (.ok (), s')) (hfree : ∀ b ∈ blocks, TransferFree b) :
    blocks.foldl (applyBlockToStateFromPruner C) s = s' := by
  induction blocks generalizing s with
  | nil => exact (Prod.mk.inj h).2
  | cons b blocks ih =>
    obtain ⟨s₁, hb, hrest⟩ := replay_cons_ok_iff.mp h
    rw [foldl_cons, pruner_of_applied hb (hfree b (.head _))]
    exact ih hrest fun b' hb' => hfree b' (.tail b hb')

/-- A checkpoint does not depend on the roots of the blocks. -/
theorem prunerFold_congr {blocks canonical : List Block} (h : canonical.map Block.toBlock = blocks.map Block.toBlock) :
    canonical.foldl (applyBlockToStateFromPruner C) s = blocks.foldl (applyBlockToStateFromPruner C) s := by
  have hbare : ∀ l : List Block, l.foldl (applyBlockToStateFromPruner C) s =
      (l.map Block.toBlock).foldl (fun s b => b.transactions.foldl (applyTxFromPruner C) s) s := by
    intro l
    rw [foldl_map]
    rfl
  rw [hbare, hbare, h]

end

/-! ## Heights -/

section

variable {β : Type} {C : Crypto} {G : Gob β} {bc : Blockchain (Bolt β)}

theorem Kept.toInt_height (h : Kept bc) (hb : bc.blocks.1[i]? = some b) : b.height.toInt64.toInt = i := by
  obtain ⟨hi, -⟩ := List.getElem?_eq_some_iff.mp hb
  have hlen := h.bounded
  have hheight := h.height hb
  rw [toInt_toInt64 (by omega), hheight]

theorem Kept.filter_height (h : Kept bc) {j : Nat} (hj : j < 2 ^ 63) :
    (bc.blocks.1.filter fun b => b.height.toInt64 ≥ Int64.ofNat j) = bc.blocks.1.drop j := by
  have hbelow : (bc.blocks.1.take j).filter (fun b => b.height.toInt64 ≥ Int64.ofNat j) = [] := by
    rw [filter_eq_nil_iff]
    intro b hb
    obtain ⟨i, hi, rfl⟩ := mem_take_iff_getElem.mp hb
    have hheight := h.toInt_height (List.getElem?_eq_getElem (show i < bc.blocks.1.length by omega))
    rw [decide_eq_true_eq, ge_iff_le, Int64.le_iff_toInt_le, hheight, toInt_ofNat_of_lt hj]
    omega
  have habove : (bc.blocks.1.drop j).filter (fun b => b.height.toInt64 ≥ Int64.ofNat j) = bc.blocks.1.drop j := by
    rw [filter_eq_self]
    intro b hb
    obtain ⟨i, hi, rfl⟩ := mem_drop_iff_getElem.mp hb
    have hheight := h.toInt_height (List.getElem?_eq_getElem (show j + i < bc.blocks.1.length by omega))
    rw [decide_eq_true_eq, ge_iff_le, Int64.le_iff_toInt_le, hheight, toInt_ofNat_of_lt hj]
    omega
  conv_lhs => rw [← take_append_drop j bc.blocks.1]
  rw [filter_append, hbelow, habove, nil_append]

end

/-! ## The blocks in the store -/

variable {blocks : List NeoCoin.Block}

section

variable {β : Type} {G : Gob β} {st st' : Bolt β} {tree : GoMap Bytes NeoCoin.Block}

/-- The store has the blocks of a tree under their hashes, up to their roots, and no others. -/
def Holds (G : Gob β) (st : Bolt β) (tree : GoMap Bytes NeoCoin.Block) : Prop :=
  ∀ hash, (st.blocksB.get hash).map (fun raw => (G.decode raw).toOption.map Block.toBlock) = (tree.lookup (hexEncode hash)).map some

theorem Holds.congr (h : Holds G st tree) (hblocks : st'.blocksB = st.blocksB) : Holds G st' tree := by
  intro hash
  rw [hblocks]
  exact h hash

theorem Holds.get_ne_none (h : Holds G st tree) {b : NeoCoin.Block} (hb : tree.lookup b.hashHex = some b) :
    st.blocksB.get b.hash.bytes ≠ none := by
  intro hnone
  have hget := h b.hash.bytes
  rw [hnone, show tree.lookup (hexEncode b.hash.bytes) = some b from hb] at hget
  cases hget

theorem Holds.readBlock (h : Holds G st tree) {b : NeoCoin.Block} (hb : tree.lookup b.hashHex = some b) :
    ∃ b', st.readBlock G b.hash.bytes = .ok b' ∧ b'.toBlock = b := by
  have hget := h b.hash.bytes
  rw [show tree.lookup (hexEncode b.hash.bytes) = some b from hb] at hget
  obtain ⟨raw, hraw, hdecode⟩ := Option.map_eq_some_iff.mp hget
  obtain ⟨b', hb', rfl⟩ := Option.map_eq_some_iff.mp hdecode
  refine ⟨b', ?_, rfl⟩
  unfold Bolt.readBlock
  rw [hraw]
  rcases Result.ok_or_error (G.decode raw) with ⟨b'', hok⟩ | ⟨e, herror⟩
  · rw [hok] at hb'
    rw [← Option.some.inj hb']
    exact hok
  · rw [herror] at hb'
    cases hb'

theorem Holds.readCanonical (h : Holds G st tree) (hblocks : ∀ b ∈ blocks, tree.lookup b.hashHex = some b)
    (hcanon : st.canonB.entries = blocks.map canonEntry) :
    ∃ canonical, st.readCanonical G = .ok canonical ∧ canonical.map Block.toBlock = blocks := by
  unfold Bolt.readCanonical
  rw [hcanon]
  clear hcanon
  induction blocks with
  | nil => exact ⟨[], rfl, rfl⟩
  | cons b blocks ih =>
    obtain ⟨b', hread, hbare⟩ := h.readBlock (hblocks b (.head _))
    obtain ⟨canonical, hrest, hbares⟩ := ih fun b' hb' => hblocks b' (.tail b hb')
    refine ⟨b' :: canonical, ?_, by rw [map_cons, hbare, hbares]⟩
    rw [map_cons, mapM_cons]
    exact bind_eq_ok.mpr ⟨b', hread, bind_eq_ok.mpr ⟨canonical, hrest, rfl⟩⟩

theorem Holds.putNew (h : Holds G st tree) (hfresh : b.hashHex ∉ tree) : Holds G (st.putNew G b) (tree.set b.hashHex b.toBlock) := by
  have hnone : st.blocksB.get b.hash.bytes = none := by
    have hget := h b.hash.bytes
    rw [show tree.lookup (hexEncode b.hash.bytes) = none from Finmap.lookup_eq_none.mpr hfresh] at hget
    exact Option.map_eq_none_iff.mp hget
  intro hash
  unfold Bolt.putNew
  rw [hnone]
  simp only
  rw [OrdMap.get_put, GoMap.lookup_set]
  by_cases hhash : hash = b.hash.bytes
  · subst hhash
    rw [if_pos rfl, if_pos (show hexEncode b.hash.bytes = b.hashHex from rfl), Option.map_some, G.decode_encode]
    rfl
  · have hkey : hexEncode hash ≠ b.hashHex := fun heq => hhash (hexEncode_inj.mp heq)
    rw [if_neg hhash, if_neg hkey]
    exact h hash

end

/-! ## The latest checkpoint -/

section

variable {β : Type} {st : Bolt β}

def latestCheckpoint (st : Bolt β) : Option Int64 := st.getCheckpointHeights.toOption.bind List.getLast?

/-- Where every key is the big-endian form of a height, the latest checkpoint is one of them, and the highest. -/
theorem latestCheckpoint_spec (hkeys : ∀ e ∈ st.checkpointsB.entries, ∃ h : UInt64, e.1 = u64be h) (h : latestCheckpoint st = some L) :
    (∃ h s, st.checkpointsB.get (u64be h) = some s ∧ h.toInt64 = L) ∧
      ∀ h s, st.checkpointsB.get (u64be h) = some s → h.toInt64 ≤ L := by
  obtain ⟨heights, hheights, hsorted, hmem⟩ := getCheckpointHeights_spec hkeys
  unfold latestCheckpoint at h
  rw [hheights] at h
  refine ⟨(hmem L).mp (mem_of_getLast? h), ?_⟩
  intro h' s hs
  exact le_getLast_of_sorted hsorted h _ ((hmem _).mpr ⟨h', s, hs, rfl⟩)

end

/-! ## What is recomputed -/

variable {s : State}

section

variable {β : Type} {C : Crypto} {G : Gob β} {bc : Blockchain (Bolt β)}

/-- The latest checkpoint, if it is on a chain, is what the blocks up to it pay. -/
def CheckpointOn (C : Crypto) (st : Bolt β) (blocks : List NeoCoin.Block) : Prop :=
  ∀ i < blocks.length, latestCheckpoint st = some (Int64.ofNat i) →
    st.checkpointsB.get (u64be (UInt64.ofNat i)) = some (payBlocks C (blocks.take (i + 1)) ∅)

theorem recomputeFrom_on (hkept : Kept bc) (hreplay : replay C bc.consensus bc.blocks.1 ∅ = (.ok (), s))
    (hi : i < bc.blocks.1.length) (hget : bc.store.checkpointsB.get (u64be (UInt64.ofNat i)) =
      some (payBlocks C ((bc.blocks.1.map Block.toBlock).take (i + 1)) ∅)) :
    recomputeFrom C (boltStore G) bc.consensus bc.blocks bc.store (Int64.ofNat i) = (.ok (), s) := by
  have hlen := hkept.bounded
  have hsucc : Int64.ofNat i + 1 = Int64.ofNat (i + 1) := (Int64.ofNat_add i 1).symm
  have hpos : Int64.ofNat (i + 1) > 0 := by
    rw [gt_iff_lt, Int64.lt_iff_toInt_lt, toInt_ofNat_of_lt (by omega), show (0 : Int64).toInt = 0 from rfl]
    omega
  have hne : ¬Int64.ofNat (i + 1) = 0 := by
    intro hzero
    rw [hzero] at hpos
    exact absurd hpos (by decide)
  have hon : (bc.blocks.1.any fun b => b.height.toInt64 = Int64.ofNat i) = true := by
    rw [any_eq_true]
    refine ⟨bc.blocks.1[i], getElem_mem hi, decide_eq_true ?_⟩
    have hheight := hkept.toInt_height (List.getElem?_eq_getElem hi)
    rw [← Int64.toInt_inj, hheight, toInt_ofNat_of_lt (by omega)]
  have hread : (boltStore G).readCheckpoint bc.store (Int64.ofNat i) =
      .ok (payBlocks C ((bc.blocks.1.map Block.toBlock).take (i + 1)) ∅) := by
    show Bolt.readCheckpoint bc.store (Int64.ofNat i) = _
    unfold Bolt.readCheckpoint
    rw [show (Int64.ofNat i).toUInt64 = UInt64.ofNat i from rfl, hget]
  -- the blocks up to the checkpoint and those above it
  rw [← take_append_drop (i + 1) bc.blocks.1] at hreplay
  obtain ⟨s₁, hbelow, habove⟩ := replay_append_ok_iff.mp hreplay
  obtain rfl := payBlocks_of_replay hbelow
  unfold recomputeFrom
  simp only [hon, if_true, hsucc, if_neg hne, and_true, if_pos hpos, hread]
  rw [hkept.filter_height (by omega), ← map_take]
  exact habove

theorem recomputeFrom_off (hkept : Kept bc) (hoff : ∀ i < bc.blocks.1.length, L ≠ Int64.ofNat i) :
    recomputeFrom C (boltStore G) bc.consensus bc.blocks bc.store L = replay C bc.consensus bc.blocks.1 ∅ := by
  have hlen := hkept.bounded
  have hnot : (bc.blocks.1.any fun b => b.height.toInt64 = L) = false := by
    rw [any_eq_false]
    intro b hb heq
    obtain ⟨i, hi, rfl⟩ := getElem_of_mem hb
    refine hoff i hi ?_
    rw [← of_decide_eq_true heq, ← Int64.toInt_inj, hkept.toInt_height (List.getElem?_eq_getElem hi), toInt_ofNat_of_lt (by omega)]
  have hzero : (bc.blocks.1.head bc.blocks.2).height.toInt64 = Int64.ofNat 0 := by
    have hfirst : bc.blocks.1[0]? = some (bc.blocks.1.head bc.blocks.2) := by
      rw [← List.head?_eq_getElem?, List.head?_eq_some_head bc.blocks.2]
    rw [← Int64.toInt_inj, hkept.toInt_height hfirst]
    rfl
  unfold recomputeFrom
  simp only [hnot, Bool.false_eq_true, if_false, if_true, hzero, and_false]
  rw [hkept.filter_height (by decide), drop_zero]

theorem recompute_eq (hkept : Kept bc) (hreplay : replay C bc.consensus bc.blocks.1 ∅ = (.ok (), s))
    (hlatest : bc.cfg.Pruned → CheckpointOn C bc.store (bc.blocks.1.map Block.toBlock)) :
    recomputeStateLocked C (boltStore G) bc.cfg bc.consensus bc.blocks bc.store = (.ok (), s) := by
  unfold recomputeStateLocked
  split
  · rename_i hpruned
    split
    · rename_i L hL
      by_cases hon : ∃ i < bc.blocks.1.length, L = Int64.ofNat i
      · obtain ⟨i, hi, rfl⟩ := hon
        exact recomputeFrom_on hkept hreplay hi (hlatest hpruned i (by rw [length_map]; exact hi) hL)
      · rw [recomputeFrom_off hkept fun i hi heq => hon ⟨i, hi, heq⟩]
        exact hreplay
    · exact hreplay
  · exact hreplay

end

/-! ## Mined blocks that do not spoil the state -/

/-- Each transfer has its chain id, counts on from the nonce of its sender, and can be paid out of the state that those before it
leave. -/
def Covered (C : Crypto) : List Transaction → State → Prop
  | [], _ => True
  | t :: ts, s =>
    t.chainID ≠ 0 ∧ (s.get (t.sender C)).nonce + 1 = t.nonce ∧ t.amount + t.fee ≤ (s.get (t.sender C)).balance ∧
      Covered C ts (t.pay C s)

section

variable {σ : Type} {C : Crypto} {bc : Blockchain σ} {transfers : List Transaction} {p : ConsensusParams} {chainID height : UInt64}

theorem applyTxs_of_covered {fees fees' : UInt64}
    (h : checkAllMinable C p chainID height transfers fees = .ok fees') (hcovered : Covered C transfers s) :
    ∃ s', applyTxs C p height (i + 1) transfers s = (.ok (), s') := by
  induction transfers generalizing i fees s with
  | nil => exact ⟨s, rfl⟩
  | cons t ts ih =>
    obtain ⟨hchain, hnonce, hfunds, hrest⟩ := hcovered
    obtain ⟨_, hminable, hts⟩ := bind_eq_ok.mp h
    unfold checkMinable at hminable
    obtain ⟨_, htype, hminable⟩ := bind_eq_ok.mp hminable
    obtain ⟨_, -, hminable⟩ := bind_eq_ok.mp hminable
    obtain ⟨_, hverify, -⟩ := bind_eq_ok.mp hminable
    have htype : t.type = .transfer := not_not.mp (failIf_eq_ok.mp htype)
    have hsame : t.withChainID chainID = t := if_neg hchain
    rw [hsame] at hverify
    have hlen : t.fromPubKey.bytes.length = 32 := by
      have hv := hverify
      simp only [verifyForConsensus, htype, verifyTransfer] at hv
      iterate 2 obtain ⟨_, -, hv⟩ := bind_eq_ok.mp hv
      obtain ⟨_, hlen, -⟩ := bind_eq_ok.mp hv
      exact not_not.mp (failIf_eq_ok.mp hlen)
    have hfrom : fromAddress C t = .ok (t.sender C) := by
      simp only [fromAddress, htype, hlen, failIf, ne_eq, not_true_eq_false, if_false, bind, Except.bind]
      rfl
    have happly : applyTx C p height (i + 1) t s = .ok (t.pay C s) := by
      simp only [applyTx, htype, applyTransfer, hverify, hfrom, failIf, hnonce, ne_eq, not_true_eq_false, if_false, bind, Except.bind]
      rw [if_neg (UInt64.not_lt.mpr hfunds)]
      rfl
    obtain ⟨s', hs'⟩ := ih hts hrest (i := i + 1)
    exact ⟨s', by rw [applyTxs, happly]; exact hs'⟩

theorem refused_unchanged {e : String} (hm : Mines C bc transfers now b)
    (hcovered : ∀ fees, checkAllMinable C bc.consensus bc.chainID (bc.blocks.tip.height + 1) transfers 0 = .ok fees →
      Covered C transfers (bc.state.credit bc.minerAddress (mineCoinbase bc (bc.blocks.tip.height + 1) fees).amount))
    (h : applyBlockToState C bc.consensus bc.state b = (.error e, s)) : s = bc.state := by
  obtain ⟨fees, hfees, htransactions⟩ := hm.transactions
  have hheight : b.height = bc.blocks.tip.height + 1 := hm.follows.height
  unfold applyBlockToState at h
  split at h
  · exact (Prod.mk.inj h).2.symm
  · rw [htransactions, applyTxs] at h
    split at h
    · exact (Prod.mk.inj h).2.symm
    · rename_i s₁ hcoinbase
      have hcredit : s₁ = bc.state.credit bc.minerAddress (mineCoinbase bc (bc.blocks.tip.height + 1) fees).amount := by
        simp only [applyTx, mineCoinbase, applyCoinbase] at hcoinbase
        iterate 2 obtain ⟨_, -, hcoinbase⟩ := bind_eq_ok.mp hcoinbase
        exact (Except.ok.inj hcoinbase).symm
      rw [hcredit, hheight] at h
      obtain ⟨s', hs'⟩ := applyTxs_of_covered (i := 0) hfees (hcovered fees hfees)
      rw [hs'] at h
      cases (Prod.mk.inj h).1

end

/-! ## Roots -/

/-- A template with the longest nonce, a hash and roots: the block that comes of it is not larger. -/
def Block.filledUp (b : Block) : Block :=
  { b with nonce := 18446744073709551615, hash := some (List.replicate 32 0), stateRoot := some (List.replicate 32 0)
           utxoRoot := some (List.replicate 32 0) }

theorem blockSize_le_filledUp (b : Block) {nonce : UInt64} {hash : Bytes} {c : StateCommitment} (hhash : hash.length = 32)
    (hstate : c.stateRoot.length = 32) (hutxo : c.utxoRoot.length = 32) :
    blockSizeForConsensus (Block.withRoots { b with nonce := nonce, hash := some hash } c) ≤ blockSizeForConsensus b.filledUp := by
  have hnonce := Json.nat_uint64_length nonce
  have hmost : (Json.nat (18446744073709551615 : UInt64).toNat).length = 20 := by decide
  have hne : ∀ x : Bytes, x.length = 32 → ¬x = [] := by
    intro x hx hnil
    rw [hnil] at hx
    cases hx
  unfold blockSizeForConsensus blockJSON Block.withRoots Block.filledUp omitEmpty
  simp only [GoSlice.bytes_some, hne _ hstate, hne _ hutxo, hne _ (length_replicate : (List.replicate 32 (0 : UInt8)).length = 32),
    if_false, Json.object_length, cons_append, nil_append, map_cons, map_nil, sum_cons, sum_nil,
    length_cons, length_nil, Json.field_length, Json.goSlice_length, hhash, hstate, hutxo, length_replicate, hmost]
  omega

theorem applyBlockToState_withRoots {C : Crypto} {p : ConsensusParams} {s' : State} {c : StateCommitment}
    (h : applyBlockToState C p s b = (.ok (), s'))
    (hfits : p.maxBlockSize > 0 → blockSizeForConsensus (b.withRoots c) ≤ p.maxBlockSize.toNat) :
    applyBlockToState C p s (b.withRoots c) = (.ok (), s') := by
  have hcheck := (applyBlockToState_parts h).1
  have hcheck' : checkBlock C p (b.withRoots c) = .ok () := by
    unfold checkBlock at hcheck ⊢
    obtain ⟨_, -, hcheck⟩ := bind_eq_ok.mp hcheck
    refine bind_eq_ok.mpr ⟨(), failIf_eq_ok.mpr ?_, hcheck⟩
    intro hlarge
    exact absurd (hfits hlarge.1) (Nat.not_le.mpr hlarge.2)
  unfold applyBlockToState at h ⊢
  rw [hcheck] at h
  rw [hcheck']
  exact h

/-! ## The condition on a call -/

/-- What is asked of a block that `MineTransfers` is to append, with the fees of its transfers. -/
structure MineSafe {β : Type} (C : Crypto) (bc : Blockchain (Bolt β)) (transfers : List Transaction) (clock : Nat → Int64)
    (fees : UInt64) : Prop where
  covered : Covered C transfers (bc.state.credit bc.minerAddress (mineCoinbase bc (bc.blocks.tip.height + 1) fees).amount)
  fits : shouldCommit (bc.blocks.tip.height + 1) → ∀ attempt,
    blockSizeForConsensus (mineTemplate bc transfers fees (clock attempt)).filledUp ≤ bc.consensus.maxBlockSize.toNat
  due : 0 < bc.cfg.interval → (bc.blocks.tip.height + 1).toInt64 % bc.cfg.interval = 0 →
    transfers = [] ∧ ∀ b ∈ bc.blocks.1, TransferFree b
  notDue : bc.cfg.interval ≤ 0 → latestCheckpoint bc.store ≠ some (bc.blocks.tip.height + 1).toInt64

/-- Where a new chain makes a checkpoint it has no transfers, and elsewhere it has the blocks of the old chain up to the latest
checkpoint. -/
def AddSafe {β : Type} (bc : Blockchain (Bolt β)) (path : Path) : Prop :=
  if path.tip.height.toInt64 % bc.cfg.interval = 0 then ∀ b ∈ path.1, TransferFree b
  else ∀ i < path.1.length, latestCheckpoint bc.store = some (Int64.ofNat i) → path.1.take (i + 1) = bc.blocks.1.take (i + 1)

def CheckpointSafe {β : Type} (C : Crypto) (G : Gob β) (bc : Blockchain (Bolt β)) : Call → Prop
  | .mineTransfers transfers clock =>
    ∀ fees, checkAllMinable C bc.consensus bc.chainID (bc.blocks.tip.height + 1) transfers 0 = .ok fees →
      MineSafe C bc transfers clock fees
  | .addBlock block clock => ∀ b path, block = some b → BecomesTip C (boltStore G) bc clock b path → AddSafe bc path
  | .balance _ => True

/-! ## The invariant -/

section

variable {β : Type} (C : Crypto) (G : Gob β) (handled : List Block) (bc : Blockchain (Bolt β))

/-- A node whose store has its tree, and whose state is that of its chain. -/
structure Recorded : Prop where
  kept : Kept bc
  tree : TreeInv C handled bc
  holds : Holds G bc.store bc.bareTree
  replayed : replay C bc.consensus bc.blocks.1 ∅ = (.ok (), bc.state)
  keys : ∀ e ∈ bc.store.checkpointsB.entries, ∃ h : UInt64, e.1 = u64be h ∧ h.toInt64 % bc.cfg.interval = 0

structure Recoverable : Prop
    extends Recorded C G handled bc where
  latest : bc.cfg.Pruned → CheckpointOn C bc.store (bc.blocks.1.map Block.toBlock)

end

section

variable {β : Type} {C : Crypto} {G : Gob β} {handled : List Block} {bc bc' : Blockchain (Bolt β)}

theorem Recorded.mono (h : Recorded C G handled bc) (bs : List Block) : Recorded C G (handled ++ bs) bc :=
  ⟨h.kept, h.tree.mono bs, h.holds, h.replayed, h.keys⟩

theorem Recoverable.mono (h : Recoverable C G handled bc) (bs : List Block) : Recoverable C G (handled ++ bs) bc :=
  ⟨h.toRecorded.mono bs, h.latest⟩

theorem Recorded.u64be_keys (h : Recorded C G handled bc) : ∀ e ∈ bc.store.checkpointsB.entries, ∃ h : UInt64, e.1 = u64be h := by
  intro e he
  obtain ⟨height, hkey, -⟩ := h.keys e he
  exact ⟨height, hkey⟩

theorem Recorded.latest_mod (h : Recorded C G handled bc) (hL : latestCheckpoint bc.store = some L) : L % bc.cfg.interval = 0 := by
  obtain ⟨⟨height, s, hget, rfl⟩, -⟩ := latestCheckpoint_spec h.u64be_keys hL
  obtain ⟨height', hkey, hmod⟩ := h.keys _ (OrdMap.get_eq_some_iff.mp hget)
  rw [u64be_inj hkey]
  exact hmod

theorem Recorded.stateCheckpoint_eq (h : Recorded C G handled bc) (hdue : bc.blocks.tip.height.toInt64 % bc.cfg.interval = 0)
    (hfree : ∀ b ∈ bc.blocks.1, TransferFree b) : (stateCheckpoint C (boltStore G) bc.cfg bc.store bc.blocks.tip.height.toInt64).2 =
      { bc.store with checkpointsB := bc.store.checkpointsB.put (u64be bc.blocks.tip.height) bc.state } := by
  have htree : ∀ b ∈ bc.blocks.1.map Block.toBlock, bc.bareTree.lookup b.hashHex = some b := by
    intro b hb
    obtain ⟨b', hb', rfl⟩ := mem_map.mp hb
    exact h.tree.lookup_chain hb'
  obtain ⟨canonical, hread, hcanonical⟩ := h.holds.readCanonical htree h.kept.canonical
  have htip := h.kept.tip_height
  have hlen := h.kept.bounded
  have hall : (canonical.takeWhile fun b => decide (b.height.toInt64 ≤ bc.blocks.tip.height.toInt64)) = canonical := by
    rw [takeWhile_eq_self_iff]
    intro b hb
    have hbare : b.toBlock ∈ bc.blocks.1.map Block.toBlock := by
      rw [← hcanonical]
      exact mem_map_of_mem hb
    obtain ⟨b', hb', hsame⟩ := mem_map.mp hbare
    obtain ⟨i, hi, rfl⟩ := getElem_of_mem hb'
    have hheight := h.kept.toInt_height (List.getElem?_eq_getElem hi)
    rw [decide_eq_true_eq, show b.height = b.toBlock.height from rfl, ← hsame, Int64.le_iff_toInt_le, hheight,
      toInt_toInt64 (by omega), htip]
    omega
  have hstate : canonical.foldl (applyBlockToStateFromPruner C) ∅ = bc.state := by
    rw [prunerFold_congr hcanonical]
    exact prunerFold_of_replay h.replayed hfree
  unfold stateCheckpoint
  rw [if_neg (not_not.mpr hdue), show (boltStore G).readCanonical bc.store = .ok canonical from hread]
  simp only [hall, hstate]
  rw [show bc.blocks.tip.height = bc.blocks.tip.height.toInt64.toUInt64 from (UInt64.toUInt64_toInt64 _).symm]
  rfl

theorem Recorded.checkpoint (h : Recorded C G handled bc) (hdue : bc.blocks.tip.height.toInt64 % bc.cfg.interval = 0)
    (hfree : ∀ b ∈ bc.blocks.1, TransferFree b) :
    Recoverable C G handled { bc with store := (stateCheckpoint C (boltStore G) bc.cfg bc.store bc.blocks.tip.height.toInt64).2 } := by
  have hkeys : ∀ e ∈ (bc.store.checkpointsB.put (u64be bc.blocks.tip.height) bc.state).entries,
      ∃ h : UInt64, e.1 = u64be h ∧ h.toInt64 % bc.cfg.interval = 0 := by
    intro e he
    have hget := OrdMap.get_eq_some_iff.mpr he
    rw [OrdMap.get_put] at hget
    split at hget
    · rename_i hkey
      exact ⟨bc.blocks.tip.height, hkey, hdue⟩
    · exact h.keys e (OrdMap.get_eq_some_iff.mp hget)
  rw [h.stateCheckpoint_eq hdue hfree]
  refine ⟨⟨h.kept.withStore rfl, h.tree.congr rfl rfl rfl rfl rfl, h.holds.congr rfl, h.replayed, hkeys⟩, ?_⟩
  intro _ i hi hlatest
  -- the new checkpoint is at the tip, and the latest one is not below it
  have htip := h.kept.tip_height
  have hlen := h.kept.bounded
  rw [length_map] at hi
  have hi : i < bc.blocks.1.length := hi
  have hkeys' : ∀ e ∈ (bc.store.checkpointsB.put (u64be bc.blocks.tip.height) bc.state).entries, ∃ h : UInt64, e.1 = u64be h := by
    intro e he
    obtain ⟨height, hkey, -⟩ := hkeys e he
    exact ⟨height, hkey⟩
  have hle := (latestCheckpoint_spec hkeys' hlatest).2 bc.blocks.tip.height bc.state (OrdMap.get_put_self _ _ _)
  rw [Int64.le_iff_toInt_le, toInt_toInt64 (by omega), toInt_ofNat_of_lt (by omega)] at hle
  have hheight : UInt64.ofNat i = bc.blocks.tip.height := by
    rw [← UInt64.toNat_inj, UInt64.toNat_ofNat_of_lt' (show i < 2 ^ 64 by omega)]
    omega
  have htake : (bc.blocks.1.map Block.toBlock).take (i + 1) = bc.blocks.1.map Block.toBlock := by
    rw [take_of_length_le]
    rw [length_map]
    omega
  simp only [hheight, htake, OrdMap.get_put_self, payBlocks_of_replay h.replayed]

/-! ## Every call keeps it -/

variable {height : UInt64}

theorem Committed.store_bolt (hc : Committed C (boltStore G) bc height bc') :
    bc'.store.blocksB = bc.store.blocksB ∧ bc'.store.checkpointsB = bc.store.checkpointsB := by
  cases hc with
  | skipped => exact ⟨rfl, rfl⟩
  | failed c _ => exact ⟨rfl, rfl⟩
  | stored c _ _ _ _ =>
    rw [setRoots_eq]
    exact ⟨rfl, rfl⟩

variable {st st' : Bolt β}

theorem latestCheckpoint_congr (h : st'.checkpointsB = st.checkpointsB) : latestCheckpoint st' = latestCheckpoint st := by
  unfold latestCheckpoint Bolt.getCheckpointHeights
  rw [h]

theorem CheckpointOn.congr (h : CheckpointOn C st blocks) (hst : st'.checkpointsB = st.checkpointsB) : CheckpointOn C st' blocks := by
  unfold CheckpointOn at h ⊢
  rw [latestCheckpoint_congr hst, hst]
  exact h

theorem Recoverable.committed (h : Recoverable C G handled bc) (hc : Committed C (boltStore G) bc height bc')
    (hreplay : replay C bc'.consensus bc'.blocks.1 ∅ = (.ok (), bc'.state)) : Recoverable C G handled bc' := by
  obtain ⟨hblocksB, hcheckpointsB⟩ := hc.store_bolt
  have hcfg : bc'.cfg = bc.cfg := by rw [hc.same]
  refine ⟨⟨h.kept.committed hc, h.tree.committed hc, ?_, hreplay, ?_⟩, ?_⟩
  · rw [hc.bareTree h.tree]
    exact h.holds.congr hblocksB
  · rw [hcheckpointsB, hcfg]
    exact h.keys
  · intro hpruned
    rw [hcfg] at hpruned
    rw [hc.blocks]
    exact (h.latest hpruned).congr hcheckpointsB

theorem replay_committed {p : ConsensusParams} {before : List Block} {s₀ : State}
    (hc : Committed C (boltStore G) bc height bc') (hblocks : bc.blocks.1 = before ++ [b]) (hheight : height.toNat = before.length)
    (hbefore : replay C p before ∅ = (.ok (), s₀)) (happly : applyBlockToState C p s₀ b = (.ok (), s))
    (hfits : shouldCommit height → ∀ c : StateCommitment, c.stateRoot.length = 32 → c.utxoRoot.length = 32 →
      blockSizeForConsensus (b.withRoots c) ≤ p.maxBlockSize.toNat) : replay C p bc'.blocks.1 ∅ = (.ok (), s) := by
  have hsame : replay C p (before ++ [b]) ∅ = (.ok (), s) :=
    replay_append_ok_iff.mpr ⟨s₀, hbefore, replay_singleton_ok_iff.mpr happly⟩
  cases hc with
  | skipped =>
    rw [hblocks]
    exact hsame
  | failed c _ =>
    rw [show bc.blocks.1 = _ from hblocks]
    exact hsame
  | stored c hcommit hstate hutxo _ =>
    have hroots : (Blockchain.setRoots { bc with store := ((boltStore G).writeCommitment bc.store c).2 } height c).blocks.1 =
        before ++ [b.withRoots c] := by
      unfold Blockchain.setRoots
      simp only [hblocks, hheight]
      simp
    have hlen : c.stateRoot.length = 32 ∧ c.utxoRoot.length = 32 := by
      rw [hstate, hutxo]
      exact ⟨computeStateRoot_length _, computeStateRoot_length _⟩
    rw [hroots]
    refine replay_append_ok_iff.mpr ⟨s₀, hbefore, replay_singleton_ok_iff.mpr ?_⟩
    exact applyBlockToState_withRoots happly fun _ => hfits hcommit c hlen.1 hlen.2

theorem CheckpointOn.snoc (h : CheckpointOn C st blocks) (b : NeoCoin.Block)
    (hnot : latestCheckpoint st ≠ some (Int64.ofNat blocks.length)) : CheckpointOn C st (blocks ++ [b]) := by
  intro i hi hlatest
  rw [length_append, length_singleton] at hi
  rcases Nat.lt_succ_iff_lt_or_eq.mp hi with hlt | rfl
  · rw [take_append_of_le_length (by omega)]
    exact h i hlt hlatest
  · exact absurd hlatest hnot

section

variable {transfers : List Transaction}

theorem Recorded.extend (h : Recorded C G handled bc)
    (hfree : C.CollisionFreeOn (headerMessages C bc.consensus handled)) (hm : Mines C bc transfers now b)
    (habove : bc.blocks.tip.height < b.height) (happly : applyBlockToState C bc.consensus bc.state b = (.ok (), s))
    (hb : b.toBlock ∈ handled.map Block.toBlock) (hlen : bc.blocks.1.length + 1 < 2 ^ 63) :
    Recorded C G handled (bc.extend C b s (bc.store.appendCanonical G b).2) := by
  obtain ⟨hfresh, htree⟩ : b.hashHex ∉ bc.bareTree ∧ TreeInv C handled (bc.extend C b s (bc.store.appendCanonical G b).2) :=
    h.tree.mined h.kept.bits hfree hm habove happly hb
  have hhash : ¬b.hash.bytes.length = 0 := by
    rw [hm.hash_length]
    decide
  refine ⟨h.kept.extend hm hlen, htree, ?_, ?_, ?_⟩
  · rw [bareTree_extend _ _ hhash]
    refine (h.holds.putNew hfresh).congr ?_
    rw [Blockchain.extend, h.kept.append hm]
    rfl
  · exact replay_append_ok_iff.mpr ⟨bc.state, h.replayed, replay_singleton_ok_iff.mpr happly⟩
  · have hcheckpoints : (bc.extend C b s (bc.store.appendCanonical G b).2).store.checkpointsB = bc.store.checkpointsB := by
      rw [Blockchain.extend, h.kept.append hm]
      exact BoltAux.putNew_checkpointsB G bc.store b
    rw [hcheckpoints]
    exact h.keys

theorem Recorded.mineCheckpoint (h : Recorded C G handled bc) (htip : bc.blocks.tip.height = height)
    (hdue : 0 < bc.cfg.interval → height.toInt64 % bc.cfg.interval = 0 → ∀ b ∈ bc.blocks.1, TransferFree b)
    (hnotDue : ¬(0 < bc.cfg.interval ∧ height.toInt64 % bc.cfg.interval = 0) → bc.cfg.Pruned →
      CheckpointOn C bc.store (bc.blocks.1.map Block.toBlock)) : Recoverable C G handled (mineCheckpoint C (boltStore G) bc height) := by
  subst htip
  rw [mineCheckpoint_eq]
  split
  · rename_i hpoint
    exact h.checkpoint hpoint.2.2 (hdue hpoint.2.1 hpoint.2.2)
  · rename_i hpoint
    exact ⟨h, fun hpruned => hnotDue (fun hboth => hpoint ⟨hpruned, hboth⟩) hpruned⟩

theorem Recorded.latest_ne (h : Recorded C G handled bc) (hnot : ¬(0 < bc.cfg.interval ∧ height.toInt64 % bc.cfg.interval = 0))
    (hnotDue : bc.cfg.interval ≤ 0 → latestCheckpoint bc.store ≠ some height.toInt64) :
    latestCheckpoint bc.store ≠ some height.toInt64 := by
  intro hlatest
  by_cases hpos : 0 < bc.cfg.interval
  · exact hnot ⟨hpos, h.latest_mod hlatest⟩
  · exact hnotDue (Int64.not_lt.mp hpos) hlatest

theorem Recoverable.mined {attempt : Nat} {fees : UInt64} (h : Recoverable C G handled bc) (hsafe : MineSafe C bc transfers clock fees)
    (hfree : C.CollisionFreeOn (headerMessages C bc.consensus handled)) (hm : Mines C bc transfers (clock attempt) b)
    (htransactions : b.transactions = mineCoinbase bc (bc.blocks.tip.height + 1) fees :: transfers)
    (habove : bc.blocks.tip.height < b.height) (happly : applyBlockToState C bc.consensus bc.state b = (.ok (), s))
    (hb : b.toBlock ∈ handled.map Block.toBlock) (hlen : bc.blocks.1.length + 1 < 2 ^ 63) :
    Recoverable C G handled (mineCheckpoint C (boltStore G) (bc.extend C b s (bc.store.appendCanonical G b).2) b.height) := by
  have hrecorded : Recorded C G handled (bc.extend C b s (bc.store.appendCanonical G b).2) :=
    h.toRecorded.extend hfree hm habove happly hb hlen
  have hheight : b.height = bc.blocks.tip.height + 1 := hm.follows.height
  have htip : (bc.extend C b s (bc.store.appendCanonical G b).2).blocks.tip = b := by
    simp [Blockchain.extend, Path.snoc, Path.tip]
  refine hrecorded.mineCheckpoint (by rw [htip]) ?_ ?_
  · intro hpos hmod
    obtain ⟨rfl, hchain⟩ := hsafe.due hpos (by rw [← hheight]; exact hmod)
    refine forall_mem_concat.mpr ⟨hchain, fun t ht => ?_⟩
    rw [htransactions] at ht
    obtain rfl := mem_singleton.mp ht
    exact fun htype => by cases htype
  · intro hnot hpruned
    have hne : latestCheckpoint bc.store ≠ some (Int64.ofNat bc.blocks.1.length) := by
      rw [← h.kept.mined_height hm hlen, ← toInt64_ofNat, UInt64.ofNat_toNat]
      exact h.latest_ne hnot (by rw [hheight]; exact hsafe.notDue)
    have hon := (h.latest hpruned).snoc b.toBlock (by rw [length_map]; exact hne)
    have hcheckpoints : (bc.store.appendCanonical G b).2.checkpointsB = bc.store.checkpointsB := by
      rw [h.kept.append hm]
      exact BoltAux.putNew_checkpointsB G bc.store b
    have hblocks : (bc.extend C b s (bc.store.appendCanonical G b).2).blocks.1.map Block.toBlock =
        bc.blocks.1.map Block.toBlock ++ [b.toBlock] := by
      simp [Blockchain.extend, Path.snoc]
    rw [hblocks]
    exact hon.congr hcheckpoints

theorem replay_mined
    (hreplay : replay C bc.consensus bc.blocks.1 ∅ = (.ok (), bc.state)) (hm : Mines C bc transfers now b)
    (hfits : ∀ fees, checkAllMinable C bc.consensus bc.chainID (bc.blocks.tip.height + 1) transfers 0 = .ok fees →
      shouldCommit (bc.blocks.tip.height + 1) →
      blockSizeForConsensus (mineTemplate bc transfers fees now).filledUp ≤ bc.consensus.maxBlockSize.toNat)
    (hplace : b.height.toNat = bc.blocks.1.length) (happly : applyBlockToState C bc.consensus bc.state b = (.ok (), s))
    (hcommit : Committed C (boltStore G)
      (mineCheckpoint C (boltStore G) (bc.extend C b s (bc.store.appendCanonical G b).2) b.height) b.height bc') :
    replay C bc'.consensus bc'.blocks.1 ∅ = (.ok (), bc'.state) := by
  obtain ⟨fees, nonce, hash, hfees, hpow, hb⟩ := hm
  have hheight : b.height = bc.blocks.tip.height + 1 := by rw [hb]; rfl
  rw [show bc'.consensus = bc.consensus by rw [hcommit.same, mineCheckpoint_same]; rfl,
    show bc'.state = s by rw [hcommit.same, mineCheckpoint_same]; rfl]
  refine replay_committed hcommit (by rw [mineCheckpoint_same]; rfl) hplace hreplay happly ?_
  intro hcommits c hstate hutxo
  rw [hheight] at hcommits
  refine Nat.le_trans ?_ (hfits fees hfees hcommits)
  obtain ⟨header, -, rfl⟩ := powRunLoop_ok hpow
  rw [hb]
  exact blockSize_le_filledUp _ (C.sha256_length header) hstate hutxo

theorem recoverable_mine (h : Recoverable C G handled bc)
    (hsafe : CheckpointSafe C G bc (.mineTransfers transfers clock)) (heffect : MineEffect C (boltStore G) bc transfers clock bc')
    (hfree : C.CollisionFreeOn (headerMessages C bc.consensus (handled ++ [bc'.blocks.tip]))) (hlen : bc'.blocks.1.length < 2 ^ 63) :
    Recoverable C G (handled ++ [bc'.blocks.tip]) bc' := by
  cases heffect with
  | nothing => exact h.mono _
  | refused hm happly =>
    obtain rfl := refused_unchanged hm (fun fees hfees => (hsafe fees hfees).covered) happly
    exact h.mono _
  | unstored hm _ _ hfailed => exact absurd (congrArg Prod.fst (h.kept.append hm)) hfailed
  | @mined b attempt s _ hm habove happly _ hcommit =>
    have hlen := hcommit.length_mined hlen
    have htip : b.toBlock ∈ (handled ++ [bc'.blocks.tip]).map Block.toBlock := by
      have hsame : bc'.blocks.tip.toBlock = b.toBlock := by
        rw [hcommit.tip, mineCheckpoint_same]
        simp [Blockchain.extend, Path.snoc, Path.tip]
      rw [map_append, map_singleton, hsame]
      exact mem_append_right _ (.head _)
    obtain ⟨fees, hfees, htransactions⟩ := hm.transactions
    have hpointed := (h.mono [bc'.blocks.tip]).mined (hsafe fees hfees) hfree hm htransactions habove happly htip hlen
    refine hpointed.committed hcommit (replay_mined h.replayed hm ?_ (h.kept.mined_height hm hlen) happly hcommit)
    exact fun fees hfees hcommits => (hsafe fees hfees).fits hcommits attempt

end

theorem Recorded.holds_insert (h : Recorded C G handled bc) (hacc : Accepted C (boltStore G) bc clock b cand) :
    Holds G (bc.insert (boltStore G) b).store (bc.bareTree.set b.hashHex b.toBlock) ∧
      (bc.insert (boltStore G) b).store.checkpointsB = bc.store.checkpointsB := by
  have hstore : (bc.insert (boltStore G) b).store = bc.store.putNew G b := by
    rcases BoltAux.putBlock_cases G bc.store b with ⟨hfailed, -⟩ | hok
    · exact absurd hacc.put hfailed
    · exact congrArg Prod.snd hok
  rw [hstore]
  exact ⟨h.holds.putNew (TreeInv.fresh_accepted hacc), BoltAux.putNew_checkpointsB G bc.store b⟩

theorem Recoverable.beside (h : Recoverable C G handled bc)
    (hacc : Accepted C (boltStore G) bc clock b cand) (hworse : ¬isBetter cand.work b.hashHex bc.canonicalWork bc.bestTipHash)
    (hb : b ∈ handled) : Recoverable C G handled (bc.insert (boltStore G) b) := by
  obtain ⟨hholds, hcheckpoints⟩ := h.holds_insert hacc
  refine ⟨⟨h.kept.insert hacc, h.tree.beside hacc (stored_accepted hacc hb) hworse, ?_, h.replayed, ?_⟩, ?_⟩
  · rw [show (bc.insert (boltStore G) b).bareTree = bc.bareTree.set b.hashHex b.toBlock from bareTree_set b]
    exact hholds
  · rw [hcheckpoints]
    exact h.keys
  · exact fun hpruned => (h.latest hpruned).congr hcheckpoints

theorem Recorded.adopt (h : Recorded C G handled bc)
    (hacc : Accepted C (boltStore G) bc clock b cand) (hbetter : isBetter cand.work b.hashHex bc.canonicalWork bc.bestTipHash)
    (hb : b ∈ handled) (hlen : cand.path.1.length < 2 ^ 63)
    (hrewritten : BoltAux.Rewritten (bc.insert (boltStore G) b).store st' cand.path.1)
    (hcanon : st'.canonB.entries = (cand.path.1.map Block.toBlock).map canonEntry) :
    Recorded C G handled { (bc.insert (boltStore G) b).adopt cand b.hashHex with store := st' } := by
  obtain ⟨hlinked, hhashes⟩ := h.kept.candidate hacc
  obtain ⟨hholds, hcheckpoints⟩ := h.holds_insert hacc
  have htree := h.tree.adopt hacc (stored_accepted hacc hb) hbetter st'
  have hbare : Blockchain.bareTree { (bc.insert (boltStore G) b).adopt cand b.hashHex with store := st' } =
      bc.bareTree.set b.hashHex b.toBlock := bareTree_set b
  refine ⟨⟨h.kept.bits, hlinked, hhashes, (h.kept.insert hacc).tree, hlen, hcanon⟩, htree, ?_, hacc.valid.applied, ?_⟩
  · rw [hbare]
    refine hholds.congr (hrewritten.stored ?_)
    intro b' hb'
    have hlookup := htree.lookup_chain hb'
    rw [hbare] at hlookup
    exact hholds.get_ne_none hlookup
  · rw [hrewritten.checkpoints, hcheckpoints]
    exact h.keys

theorem Recoverable.retip (h : Recoverable C G handled bc)
    (hacc : Accepted C (boltStore G) bc clock b cand) (hbetter : isBetter cand.work b.hashHex bc.canonicalWork bc.bestTipHash)
    (hb : b ∈ handled) (hlen : cand.path.1.length < 2 ^ 63) (hsafe : AddSafe bc cand.path) :
    Recoverable C G handled ((bc.insert (boltStore G) b).retip C (boltStore G) b cand) := by
  obtain ⟨st', hrewrite, hrewritten, hcanon⟩ := h.kept.rewrite hacc hlen
  have hrecorded := h.toRecorded.adopt hacc hbetter hb hlen hrewritten hcanon
  have htip : cand.path.tip = b := by
    obtain ⟨v, hv, hlast⟩ := hacc.valid.chain.getLast
    rw [GoMap.lookup_set_self] at hv
    rw [List.getLast?_eq_some_getLast cand.path.2] at hlast
    rw [Option.some.inj hv]
    exact Option.some.inj hlast
  have hcheckpoints : st'.checkpointsB = bc.store.checkpointsB := hrewritten.checkpoints.trans (h.holds_insert hacc).2
  rw [retip_eq hrewrite]
  subst htip
  unfold addCheckpoint
  split
  · rename_i hpoint
    have hmod : cand.path.tip.height.toInt64 % bc.cfg.interval = 0 := hpoint.2
    unfold AddSafe at hsafe
    rw [if_pos hmod] at hsafe
    exact hrecorded.checkpoint hmod hsafe
  · rename_i hpoint
    refine ⟨hrecorded, fun hpruned => ?_⟩
    have hmod : ¬cand.path.tip.height.toInt64 % bc.cfg.interval = 0 := fun hmod => hpoint ⟨hpruned, hmod⟩
    unfold AddSafe at hsafe
    rw [if_neg hmod] at hsafe
    -- up to the latest checkpoint the chain is the old one
    intro i hi hlatest
    rw [length_map] at hi
    have hi : i < cand.path.1.length := hi
    have hlatest : latestCheckpoint bc.store = some (Int64.ofNat i) := (latestCheckpoint_congr hcheckpoints).symm.trans hlatest
    have htake := hsafe i hi hlatest
    have hlong : i < bc.blocks.1.length := by
      have hcount := congrArg List.length htake
      rw [length_take, length_take] at hcount
      omega
    have hget := h.latest hpruned i (by rw [length_map]; exact hlong) hlatest
    rw [← map_take, ← htake, map_take] at hget
    rw [show st'.checkpointsB = bc.store.checkpointsB from hcheckpoints]
    exact hget

theorem recoverable_add {block : Option Block} (h : Recoverable C G handled bc)
    (hsafe : CheckpointSafe C G bc (.addBlock block clock)) (heffect : AddEffect C (boltStore G) bc block clock bc')
    (hlen : bc'.blocks.1.length < 2 ^ 63) : Recoverable C G (handled ++ block.toList) bc' := by
  have hkept := kept_add h.kept heffect hlen
  cases heffect with
  | rejected hrejected =>
    have hstore := hrejected.store_bolt
    rw [hrejected.same, hstore] at hkept ⊢
    have h := h.mono block.toList
    exact ⟨⟨hkept, h.tree.congr rfl rfl rfl rfl rfl, h.holds, h.replayed, h.keys⟩, h.latest⟩
  | beside hb hacc hworse =>
    subst hb
    exact (h.mono _).beside hacc hworse (by simp)
  | @tip b cand hb hacc hbetter =>
    subst hb
    rw [retip_blocks] at hlen
    refine (h.mono _).retip hacc hbetter (by simp) hlen (hsafe b cand.path rfl ?_)
    obtain ⟨st', hrewrite, -⟩ := h.kept.rewrite hacc hlen
    exact hacc.becomesTip hbetter (congrArg Prod.fst hrewrite)

theorem recoverable_balance (h : Recoverable C G handled bc) (address : Bytes) : Recoverable C G handled (bc.balance address).2 := by
  have hkept := kept_balance h.kept address
  rw [balance_eq] at hkept ⊢
  exact ⟨⟨hkept, h.tree.congr rfl rfl rfl rfl rfl, h.holds, h.replayed, h.keys⟩, h.latest⟩

theorem Started.recoverable {gcfg : GenesisConfig} {genesis : Block} {cfg : Config} (h : Started C G gcfg genesis cfg bc) :
    Recoverable C G [genesis] bc := by
  have htree : bc.bareTree = GoMap.set ∅ genesis.hashHex genesis.toBlock := by
    unfold Blockchain.bareTree
    rw [h.tree, GoMap.mapVals_set]
    rfl
  refine ⟨⟨h.kept, h.treeInv, ?_, ?_, ?_⟩, ?_⟩
  · intro hash
    rw [htree, h.blocksB, GoMap.lookup_set]
    by_cases hhash : hash = genesis.hash.bytes
    · subst hhash
      rw [if_pos rfl, if_pos (show hexEncode genesis.hash.bytes = genesis.hashHex from rfl), Option.map_some, G.decode_encode]
      rfl
    · have hkey : hexEncode hash ≠ genesis.hashHex := fun heq => hhash (hexEncode_inj.mp heq)
      rw [if_neg hhash, if_neg hkey]
      rfl
  · rw [h.blocks]
    exact h.applied
  · rw [h.checkpointsB]
    simp
  · intro _ i _ hlatest
    unfold latestCheckpoint Bolt.getCheckpointHeights at hlatest
    rw [h.checkpointsB] at hlatest
    cases hlatest

end

/-! ## Recomputation -/

/-- On every chain built from an empty database by calls that were safe for checkpoints, the state that is recomputed is that of a full
replay, as far as no two headers of handled blocks share a digest. -/
theorem recompute_of_run {β : Type} (C : Crypto) (G : Gob β) (chainID : UInt64) (minerAddress : Bytes) (raw : GenesisConfigJSON)
    (cfg : Config) (ignoreRulesHash : Bool) (bc0 bc : Blockchain (Bolt β)) (handled : List Block)
    (hload : loadBlockchain C (boltStore G) chainID minerAddress raw cfg ignoreRulesHash Bolt.empty = some (.ok bc0))
    (hrun : Runs C (boltStore G) (CheckpointSafe C G) bc0 handled bc)
    (hfree : C.CollisionFreeOn (headerMessages C bc0.consensus (bc0.blocks.1 ++ handled))) :
    ∃ s, replay C bc.consensus bc.blocks.1 ∅ = (.ok (), s) ∧
      recomputeStateLocked C (boltStore G) bc.cfg bc.consensus bc.blocks bc.store = (.ok (), s) := by
  obtain ⟨gcfg, genesis, hstarted⟩ := started_of_load hload
  have hstart := hstarted.recoverable
  rw [← hstarted.blocks] at hstart
  have hmono : ∀ {handled bs : List Block}, C.CollisionFreeOn (headerMessages C bc0.consensus (handled ++ bs)) →
      C.CollisionFreeOn (headerMessages C bc0.consensus handled) := by
    intro handled bs h
    refine h.mono ?_
    unfold headerMessages
    rw [filterMap_append]
    exact fun m hm => mem_append_left _ hm
  have hrecoverable : Recoverable C G (bc0.blocks.1 ++ handled) bc := by
    refine (Runs.invariant_handled (fun handled bc => bc.consensus = bc0.consensus ∧
      (C.CollisionFreeOn (headerMessages C bc0.consensus (bc0.blocks.1 ++ handled)) → Recoverable C G (bc0.blocks.1 ++ handled) bc))
      ?_ ?_ ?_ ?_ hrun).2 hfree
    · refine ⟨rfl, fun _ => ?_⟩
      rw [append_nil]
      exact hstart
    · intro handled bc bc' transfers clock hinv hsafe heffect hlen
      refine ⟨heffect.consensus.trans hinv.1, fun hfree => ?_⟩
      rw [← append_assoc] at hfree ⊢
      exact recoverable_mine (hinv.2 (hmono hfree)) hsafe heffect (by rw [hinv.1]; exact hfree) hlen
    · intro handled bc bc' block clock hinv hsafe heffect hlen
      refine ⟨heffect.consensus.trans hinv.1, fun hfree => ?_⟩
      rw [← append_assoc] at hfree ⊢
      exact recoverable_add (hinv.2 (hmono hfree)) hsafe heffect hlen
    · intro handled bc address hinv _
      refine ⟨?_, fun hfree => recoverable_balance (hinv.2 hfree) address⟩
      rw [balance_eq]
      exact hinv.1
  exact ⟨bc.state, hrecoverable.replayed, recompute_eq hrecoverable.kept hrecoverable.replayed hrecoverable.latest⟩

open Internal.Sample
open NeoCoin.Sample (minerAddress)

/-- A node mines its first block, and makes a checkpoint of it. -/
theorem recompute_of_run_mined : ∃ bc0 bc handled, loaded = some (.ok bc0) ∧
      Runs crypto (boltStore gob) (CheckpointSafe crypto gob) bc0 handled bc ∧
      bc.blocks.1.length = 2 ∧ latestCheckpoint bc.store = some 1 ∧
      ∃ s, replay crypto bc.consensus bc.blocks.1 ∅ = (.ok (), s) ∧
        recomputeStateLocked crypto (boltStore gob) bc.cfg bc.consensus bc.blocks bc.store = (.ok (), s) := by
  obtain ⟨bc0, hload, hmine⟩ : ∃ bc0, loaded = some (.ok bc0) ∧
      (match mineTransfers crypto (boltStore gob) bc0 [] fun _ => 4 with
        | some (_, bc) => decide (bc.blocks.1.length = 2 ∧ latestCheckpoint bc.store = some 1 ∧
            (∀ b ∈ bc0.blocks.1, TransferFree b) ∧ 0 < bc0.cfg.interval ∧
            blockSizeForConsensus (mineTemplate bc0 [] 0 4).filledUp ≤ bc0.consensus.maxBlockSize.toNat ∧
            ((headerMessages crypto bc0.consensus (bc0.blocks.1 ++ [bc.blocks.tip])).map crypto.sha256).Nodup)
        | none => false) = true := by
    refine ⟨Sample.node, node_loads, ?_⟩
    simp only [crypto, goCrypto_eq]
    decide +kernel
  split at hmine
  · rename_i r bc hmined
    obtain ⟨hlen, hlatest, hfree, hpos, hfits, hnodup⟩ := of_decide_eq_true hmine
    have hsafe : CheckpointSafe crypto gob bc0 (.mineTransfers [] fun _ => 4) := by
      intro fees hfees
      cases hfees
      exact ⟨trivial, fun _ _ => hfits, fun _ _ => ⟨rfl, hfree⟩, fun hneg => absurd hpos (Int64.not_lt.mpr hneg)⟩
    have hrun : Runs crypto (boltStore gob) (CheckpointSafe crypto gob) bc0 [bc.blocks.tip] bc :=
      .step (.mineTransfers [] fun _ => 4) .start hsafe (congrArg (Option.map Prod.snd) hmined) (by simp only [hlen]; decide)
    exact ⟨bc0, bc, _, hload, hrun, hlen, hlatest,
      recompute_of_run crypto gob 1 minerAddress raw _ false bc0 bc _ hload hrun
        (Crypto.CollisionFreeOn.of_nodup hnodup)⟩
  · cases hmine

/-- A node mines a transfer at a height at which it makes a checkpoint: the state that is recomputed has forgotten its nonce. -/
theorem checkpoint_without_nonce : ∃ bc0 bc handled, loaded = some (.ok bc0) ∧ bc0.cfg.Pruned ∧
      Runs crypto (boltStore gob) (fun _ _ => True) bc0 handled bc ∧ ∃ s s',
      replay crypto bc.consensus bc.blocks.1 ∅ = (.ok (), s) ∧ (s.get minerAddress).nonce = 1 ∧
      recomputeStateLocked crypto (boltStore gob) bc.cfg bc.consensus bc.blocks bc.store = (.ok (), s') ∧
      (s'.get minerAddress).nonce = 0 := by
  obtain ⟨bc0, hload, hmine⟩ : ∃ bc0, loaded = some (.ok bc0) ∧
      (match mineTransfers crypto (boltStore gob) bc0 [paying] fun _ => 4 with
        | some (_, bc) =>
          let recomputed := recomputeStateLocked crypto (boltStore gob) bc.cfg bc.consensus bc.blocks bc.store
          decide (bc0.cfg.Pruned ∧ bc0.blocks.1.length = 1 ∧ bc.blocks.1.length = 2 ∧
            (checkAllMinable crypto bc0.consensus bc0.chainID (bc0.blocks.tip.height + 1) [paying] 0).toOption = some 1 ∧
            blockSizeForConsensus (mineTemplate bc0 [paying] 1 4).filledUp ≤ bc0.consensus.maxBlockSize.toNat ∧
            (bc.state.get minerAddress).nonce = 1 ∧
            recomputed.1.toOption = some () ∧ (recomputed.2.get minerAddress).nonce = 0)
        | none => false) = true := by
    refine ⟨Sample.node, node_loads, ?_⟩
    simp only [crypto, goCrypto_eq]
    decide +kernel
  split at hmine
  · rename_i r bc hmined
    obtain ⟨hpruned, hlen0, hlen, hfees, hfits, hnonce, hrecomputed, hnonce'⟩ := of_decide_eq_true hmine
    have hrun : Runs crypto (boltStore gob) (fun _ _ => True) bc0 [bc.blocks.tip] bc :=
      .step (.mineTransfers [paying] fun _ => 4) .start trivial (congrArg (Option.map Prod.snd) hmined)
        (by simp only [hlen]; decide)
    obtain ⟨_, _, hstarted⟩ := started_of_load hload
    have hreplay : replay crypto bc.consensus bc.blocks.1 ∅ = (.ok (), bc.state) := by
      cases mineTransfers_effect hmined with
      | nothing => exact absurd (hlen0.symm.trans hlen) (by decide)
      | refused _ _ => exact absurd (hlen0.symm.trans hlen) (by decide)
      | unstored _ _ _ _ => exact absurd (hlen0.symm.trans hlen) (by decide)
      | mined hm _ happly _ hcommit =>
        refine replay_mined hstarted.recoverable.replayed hm ?_
          (hstarted.kept.mined_height hm (by rw [hlen0]; decide)) happly hcommit
        intro fees hok _
        cases hok.symm.trans (Result.toOption_eq_some.mp hfees)
        exact hfits
    exact ⟨bc0, bc, _, hload, hpruned, hrun, _, _, hreplay, hnonce, Prod.ext (Result.toOption_eq_some.mp hrecomputed) rfl, hnonce'⟩
  · cases hmine

end NeoCoin.Internal
