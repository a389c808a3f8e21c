import NeoCoin.Theorems.HonestPeer

/-!
# Following a peer with more work

`SyncOnce` asks a peer for its height and for a window of headers, and adds the blocks it does not know.
-/

namespace NeoCoin

open GoLib ForkTree List

variable {b : Block} {path : List Block} {i : Nat}

namespace SyncAux

open HeaderAux TreeAux PathAux

variable {σ : Type} {C : Crypto} {clock : Nat → Nat → Int64} {handled : List Block} {bc : Blockchain σ} {chain : Path}
  {S : ChainStore σ} {n : Nat} {w : Syncing σ}

/-! ## The rounds of `SyncOnce` -/

variable {api : PeerAPI} {peer : Bytes} {maxAncestorDepth : Int64} {calls : Nat}

theorem fetchAny_of_answers (ha : AnswersFrom C bc chain api peer) (m : Nat) (hb : b ∈ chain.1) :
    api.fetchAnyBlockByHash m b.hashHex = .ok b := by
  simp [PeerAPI.fetchAnyBlockByHash, ha.peers, fetchAnyLoop, ha.blocks m b hb]

theorem Facing.parent_mem (h : Facing C clock handled bc chain) (hb : b ∈ chain.1.take n)
    (hprev : b.prevHash.bytes.length ≠ 0) : ∃ a ∈ chain.1.take n, b.prevHashHex = a.hashHex := by
  obtain ⟨i, hi⟩ := List.getElem?_of_mem hb
  obtain ⟨hlt, -⟩ := List.getElem?_eq_some_iff.mp hi
  rw [length_take] at hlt
  rw [List.getElem?_take_of_lt (by omega)] at hi
  cases i with
  | zero => exact absurd (length_eq_zero_iff.mpr (h.peer.linked.genesis b hi).prevHash) hprev
  | succ i =>
    have hparent := List.getElem?_eq_getElem (show i < chain.1.length by omega)
    refine ⟨chain.1[i], ?_, ?_⟩
    · exact mem_of_getElem? ((List.getElem?_take_of_lt (by omega)).trans hparent)
    · rw [Block.prevHashHex, h.prevHash hparent hi, Block.hashHex]

theorem Followed.prevHash_of_unknown (hface : Facing C clock handled bc chain) (h : Followed C S handled bc chain n w)
    (hb : b ∈ chain.1) (hunknown : b.hashHex ∉ w.chain.blocksByHash) : b.prevHash.bytes.length ≠ 0 := by
  obtain ⟨i, hi⟩ := List.getElem?_of_mem hb
  cases i with
  | zero =>
    have hlookup := h.old _ _ (hface.genesis hi).2
    exact absurd (Finmap.lookup_isSome.mp (by rw [hlookup]; rfl)) hunknown
  | succ i =>
    obtain ⟨hlen, -⟩ := List.getElem?_eq_some_iff.mp hi
    have hparent := List.getElem?_eq_getElem (show i < chain.1.length by omega)
    rw [hface.prevHash hparent hi, (hface.hashed (mem_of_getElem? hparent)).1.length]
    decide

theorem followed_syncHeader (hface : Facing C clock handled bc chain) (ha : AnswersFrom C bc chain api peer)
    (h : Followed C S handled bc chain n w) (hb : b ∈ chain.1.take n) {w' : Syncing σ}
    (hsync : syncHeader C S clock api maxAncestorDepth calls peer w b.blockHeader = some w') : Followed C S handled bc chain n w' := by
  unfold syncHeader at hsync
  split at hsync
  · cases hsync
    exact h
  · rename_i hunknown
    have hprev := h.prevHash_of_unknown hface (mem_of_mem_take hb) hunknown
    have hfetch : api.fetchBlockByHash peer w.requests b.blockHeader.hashHex = .ok b :=
      ha.blocks w.requests b (mem_of_mem_take hb)
    simp only [hfetch] at hsync
    have hadded : Followed C S handled bc chain n (w.ask.add C S clock b).2 := followed_add (followed_ask h) hb
    -- the ancestors that are asked for are among the first blocks too
    have hasked : ∀ m need a, (∃ a' ∈ chain.1.take n, need = a'.hashHex) → api.fetchAnyBlockByHash m need = .ok a →
        a ∈ chain.1.take n ∧ (a.prevHash.bytes.length ≠ 0 → ∃ a' ∈ chain.1.take n, a.prevHashHex = a'.hashHex) := by
      intro m need a hneed hfetched
      obtain ⟨a', ha', rfl⟩ := hneed
      rw [fetchAny_of_answers ha m (mem_of_mem_take ha')] at hfetched
      cases hfetched
      exact ⟨ha', fun hprev' => hface.parent_mem ha' hprev'⟩
    have hancestors : ∀ r w1, ensureAncestors C S clock api.fetchAnyBlockByHash maxAncestorDepth calls b.blockHeader.prevHashHex
        (w.ask.add C S clock b).2 = some (r, w1) → Followed C S handled bc chain n w1 := by
      intro r w1 h1
      exact AncestorAux.ensureAncestors_preserves (fun w hw => followed_ask hw) hasked (fun w a hw ha => followed_add hw ha)
        (hface.parent_mem hb hprev) hadded h1
    split at hsync
    · split at hsync
      · cases hsync
      · rename_i w1 h1
        cases hsync
        exact hancestors _ _ h1
      · rename_i w1 h1
        cases hsync
        exact followed_add (hancestors _ _ h1) hb
    · cases hsync
      exact hadded

/-- All rounds for headers of the first blocks. By induction on the headers. -/
theorem followed_syncHeaders (hface : Facing C clock handled bc chain) (ha : AnswersFrom C bc chain api peer) {blocks : List Block}
    (hblocks : ∀ b ∈ blocks, b ∈ chain.1.take n) (h : Followed C S handled bc chain n w) {w' : Syncing σ}
    (hsync : (blocks.map Block.blockHeader).foldlM (syncHeader C S clock api maxAncestorDepth calls peer) w = some w') :
    Followed C S handled bc chain n w' := by
  induction blocks generalizing w with
  | nil =>
    cases hsync
    exact h
  | cons b blocks ih =>
    rw [map_cons, foldlM_cons] at hsync
    obtain ⟨w1, h1, hsync⟩ := Option.bind_eq_some_iff.mp hsync
    have hnext := followed_syncHeader hface ha h (hblocks b (.head _)) h1
    exact ih (fun b' hb' => hblocks b' (.tail b hb')) hnext hsync

/-! ## The window -/

theorem Facing.tip_height (h : Facing C clock handled bc chain) : chain.tip.height.toNat + 1 = chain.1.length := by
  have hpos := length_pos_iff.mpr chain.2
  have hlen := h.peer.length
  have htip : chain.1[chain.1.length - 1]? = some chain.tip := by
    rw [← List.getLast?_eq_getElem?, List.getLast?_eq_some_getLast chain.2]
    rfl
  rw [h.peer.linked.height htip, UInt64.toNat_ofNat_of_lt' (show chain.1.length - 1 < 2 ^ 64 by omega)]
  omega

def windowStart (height : UInt64) : UInt64 := if height > syncWindow then height - syncWindow else 0

theorem Facing.headers_eq (h : Facing C clock handled bc chain) : headersFrom chain.1 (windowStart chain.tip.height) syncWindow.toInt64 =
      (if chain.tip.height < syncWindow then chain.1
        else (chain.1.take (chain.1.length - 1)).drop (windowStart chain.tip.height).toNat).map Block.blockHeader := by
  have htip := h.tip_height
  have hlen := h.peer.length
  have hlenNat : (UInt64.ofNat chain.1.length).toNat = chain.1.length := UInt64.toNat_ofNat_of_lt' (show _ < 2 ^ 64 by omega)
  have hcount : ¬syncWindow.toInt64 ≤ 0 := by decide
  have hwindow : syncWindow.toInt64.toUInt64 = syncWindow := by decide
  have hwindowNat : syncWindow.toNat = 200 := rfl
  unfold headersFrom
  simp only [if_neg hcount, hwindow]
  generalize chain.tip.height = height at htip ⊢
  have hstart : (windowStart height).toNat = height.toNat - 200 := by
    unfold windowStart
    split
    · rename_i hgt
      rw [UInt64.toNat_sub_of_le _ _ (UInt64.le_of_lt hgt), hwindowNat]
    · rename_i hle
      have hle := UInt64.le_iff_toNat_le.mp (UInt64.not_lt.mp hle)
      rw [hwindowNat] at hle
      exact (Nat.sub_eq_zero_of_le hle).symm
  have hstop : (windowStart height + syncWindow).toNat = (height.toNat - 200) + 200 := by
    rw [UInt64.toNat_add, hstart, hwindowNat, Nat.mod_eq_of_lt (by omega)]
  have hinside : ¬windowStart height ≥ UInt64.ofNat chain.1.length := by
    rw [ge_iff_le, UInt64.le_iff_toNat_le, hlenNat, hstart]
    omega
  rw [if_neg hinside]
  by_cases hshort : height < syncWindow
  · have hshortNat := UInt64.lt_iff_toNat_lt.mp hshort
    rw [hwindowNat] at hshortNat
    have hall : chain.1.length ≤ (if windowStart height + syncWindow > UInt64.ofNat chain.1.length then
        UInt64.ofNat chain.1.length else windowStart height + syncWindow).toNat := by
      split
      · rw [hlenNat]
      · rw [hstop]
        omega
    rw [if_pos hshort, take_of_length_le hall, hstart, Nat.sub_eq_zero_of_le (by omega), drop_zero]
  · have hlong := UInt64.le_iff_toNat_le.mp (UInt64.not_lt.mp hshort)
    rw [hwindowNat] at hlong
    have hless : ¬windowStart height + syncWindow > UInt64.ofNat chain.1.length := by
      rw [gt_iff_lt, UInt64.lt_iff_toNat_lt, hlenNat, hstop]
      omega
    have hlast : height.toNat - 200 + 200 = chain.1.length - 1 := by omega
    rw [if_neg hshort, if_neg hless, hstop, hlast]

theorem syncOnce_eq (hface : Facing C clock handled bc chain) (ha : AnswersFrom C bc chain api peer)
    (hrules : bc.consensus.rulesHash C ≠ List.replicate 32 0) (strictIdentity : Bool) :
    syncOnce C S clock api maxAncestorDepth calls strictIdentity bc =
      if chain.tip.height ≤ bc.blocks.tip.height then some { chain := bc }
      else (headersFrom chain.1 (windowStart chain.tip.height) syncWindow.toInt64).foldlM
        (syncHeader C S clock api maxAncestorDepth calls peer) { chain := bc } := by
  have hgenesis : (chain.1.head chain.2).hashHex = (bc.blocks.1.head bc.blocks.2).hashHex := by
    have hhead := hface.peer.genesis
    rw [List.head?_eq_some_head chain.2, List.head?_eq_some_head bc.blocks.2] at hhead
    rw [Option.some.inj hhead]
  have hrulesHex : rulesHashHex C bc.consensus ≠ [] := by
    rw [rulesHashHex, if_neg hrules]
    exact hexEncode_ne_nil (by rw [ConsensusParams.rulesHash, C.sha256_length]; decide)
  have hgenesisHex : (bc.blocks.1.head bc.blocks.2).hashHex ≠ [] := by
    rw [← hgenesis]
    exact hexEncode_ne_nil (by rw [(hface.hashed (head_mem chain.2)).1.length]; decide)
  have hskip : skipsPeer bc bc.blocks.tip.height (rulesHashHex C bc.consensus) (bc.blocks.1.head bc.blocks.2).hashHex strictIdentity
      { chainID := bc.chainID, height := chain.tip.height, latestHash := chain.tip.hashHex, rulesHash := rulesHashHex C bc.consensus
        genesisHash := (chain.1.head chain.2).hashHex } ↔ chain.tip.height ≤ bc.blocks.tip.height := by
    simp [skipsPeer, hgenesis, hrulesHex, hgenesisHex]
  unfold syncOnce
  rw [ha.peers, foldlM_cons]
  simp only [foldlM_nil, syncPeer, ha.info, ha.headers, hskip]
  split
  · rfl
  · exact bind_pure _

/-! ## Catching up -/

theorem getElem?_of_take {n : Nat} (h : (path.take n)[i]? = some b) : path[i]? = some b := by
  rw [List.getElem?_take] at h
  split at h
  · exact h
  · cases h

theorem linked_take {p : ConsensusParams} (h : Linked p path) (n : Nat) : Linked p (path.take n) := by
  refine ⟨?_, ?_⟩
  · intro b hb
    exact h.genesis b (getElem?_of_take hb)
  · intro i b hb
    have hi : i + 1 < n := by
      obtain ⟨hlt, -⟩ := List.getElem?_eq_some_iff.mp hb
      rw [length_take] at hlt
      omega
    have hfollows := h.follows i b (by rwa [List.getElem?_take_of_lt hi] at hb)
    rw [take_take, Nat.min_eq_left (by omega)]
    rwa [getD_eq_getElem?_getD, List.getElem?_take_of_lt (by omega), ← getD_eq_getElem?_getD]

theorem times_take {p : ConsensusParams} {clock : Nat → Int64}
    (h : ∀ i, i < path.length → validateBlockTime p path i (clock i) = .ok ()) (n : Nat) :
    ∀ i, i < (path.take n).length → validateBlockTime p (path.take n) i (clock i) = .ok () := by
  obtain ⟨hinc, hahead⟩ := (times_ok_iff p path clock).mp h
  refine (times_ok_iff p (path.take n) clock).mpr ⟨hinc.sublist (take_sublist n path), ?_⟩
  intro i b hb
  exact hahead i b (getElem?_of_take hb)

theorem Facing.valid_take (h : Facing C clock handled bc chain) (n m : Nat) : Linked bc.consensus ((bc.asHeld chain.1).take n) ∧
      ∀ i, i < ((bc.asHeld chain.1).take n).length →
        validateBlockTime bc.consensus ((bc.asHeld chain.1).take n) i (clock m i) = .ok () := by
  refine ⟨linked_take ?_ n, times_take ?_ n⟩
  · rw [← linked_headerOnly, h.asHeld_headerOnly, linked_headerOnly]
    exact h.peer.linked
  · rw [← times_headerOnly, h.asHeld_headerOnly, times_headerOnly]
    exact h.peer.times m

theorem Followed.validated (hface : Facing C clock handled bc chain) (h : Followed C S handled bc chain n w)
    (happlies : ∃ s, applyBlocks C bc.consensus (bc.asHeld chain.1) ∅ = (.ok (), s)) {prev : Block}
    (hprev : chain.1[i]? = some prev) (hb : chain.1[i + 1]? = some b) (hprevKnown : prev.hashHex ∈ w.chain.blocksByHash)
    (hunknown : b.hashHex ∉ w.chain.blocksByHash) : ∃ cand, Validated C w.chain b (clock w.adds) cand := by
  have hlenPrev := (hface.hashed (mem_of_getElem? hprev)).1.length
  have hparent : parentKey b = some prev.hashHex := parentKey_of_prevHash (hface.prevHash hprev hb) hlenPrev
  have hheld : bc.held b = b := by
    unfold Blockchain.held
    cases hlookup : bc.blocksByHash.lookup b.hashHex with
    | none => rfl
    | some v => exact absurd (Finmap.lookup_isSome.mp (by rw [h.old _ _ hlookup]; rfl)) hunknown
  have hpath : (bc.asHeld chain.1).take (i + 2) = (bc.asHeld chain.1).take (i + 1) ++ [b] := by
    rw [take_succ_asHeld hb, hheld]
  have hchain : ChainTo parentKey (w.chain.blocksByHash.set b.hashHex b) b.hashHex ((bc.asHeld chain.1).take (i + 2)) := by
    rw [hpath]
    exact ChainTo.child (GoMap.lookup_set_self _ _ _) hparent ((h.chainTo hface hprev hprevKnown).set b hunknown)
  obtain ⟨hlinked, htimes⟩ := hface.valid_take (i + 2) w.adds
  have hstate : ∃ s, applyBlocks C bc.consensus ((bc.asHeld chain.1).take (i + 2)) ∅ = (.ok (), s) := by
    obtain ⟨s, hs⟩ := happlies
    rw [← take_append_drop (i + 2) (bc.asHeld chain.1)] at hs
    obtain ⟨s1, hs1, -⟩ := (applyBlocks_append_ok_iff C bc.consensus _ _).mp hs
    exact ⟨s1, hs1⟩
  obtain ⟨s, hs⟩ := hstate
  have hlen : ((bc.asHeld chain.1).take (i + 2)).length ≤ 2 ^ 63 := by
    have hslice := hface.peer.length
    rw [length_take, Blockchain.asHeld, length_map]
    omega
  refine ⟨⟨⟨_, chainTo_ne_nil hchain⟩, s, pathWork ((bc.asHeld chain.1).take (i + 2))⟩, ?_, ?_, hunknown, ?_⟩
  · rw [h.consensus, h.chainID]
    exact checkExternal_ok_iff.mpr (hface.external hb)
  · rw [Block.prevHashHex, hface.prevHash hprev hb]
    exact hprevKnown
  · rw [h.consensus]
    refine (candidate_ok_iff C (bitsValid_of_validParams hface.params) _ _ _ _).mpr ⟨?_, ⟨hlinked, htimes⟩, hs, rfl⟩
    exact walkBack_of_chain hchain fun b' hb' => PeerAux.Linked.tail_height_ne_zero hlinked hlen hb'

theorem Followed.next (hface : Facing C clock handled bc chain) (ha : AnswersFrom C bc chain api peer)
    (hput : ∀ st b, (S.putBlock st b).1 = .ok ()) (hrewrite : ∀ st bs, (S.rewriteCanonical st bs).1 = .ok ())
    (happlies : ∃ s, applyBlocks C bc.consensus (bc.asHeld chain.1) ∅ = (.ok (), s))
    (h : Followed C S handled bc chain chain.1.length w) (maxAncestorDepth : Int64) (calls : Nat)
    (hb : chain.1[i]? = some b) (hknown : ∀ j a, j < i → chain.1[j]? = some a → a.hashHex ∈ w.chain.blocksByHash) :
    ∃ w', syncHeader C S clock api maxAncestorDepth calls peer w b.blockHeader = some w' ∧
      b.hashHex ∈ w'.chain.blocksByHash ∧ ∀ k ∈ w.chain.blocksByHash, k ∈ w'.chain.blocksByHash := by
  by_cases hmem : b.hashHex ∈ w.chain.blocksByHash
  · exact ⟨w, if_pos hmem, hmem, fun _ hk => hk⟩
  · cases i with
    | zero =>
      have hlookup := h.old _ _ (hface.genesis hb).2
      exact absurd (Finmap.lookup_isSome.mp (by rw [hlookup]; rfl)) hmem
    | succ i =>
      obtain ⟨hlen, -⟩ := List.getElem?_eq_some_iff.mp hb
      have hprev := List.getElem?_eq_getElem (show i < chain.1.length by omega)
      obtain ⟨cand, hv⟩ := (followed_ask h).validated hface happlies hprev hb (hknown i _ (Nat.lt_succ_self i) hprev) hmem
      have hfetch : api.fetchBlockByHash peer w.requests b.blockHeader.hashHex = .ok b :=
        ha.blocks w.requests b (mem_of_getElem? hb)
      -- the store takes the block and the chain, so there is no error
      have hadded : (addBlock C S w.chain (some b) (clock w.adds)).err = none ∧
          (addBlock C S w.chain (some b) (clock w.adds)).chain.blocksByHash = w.chain.blocksByHash.set b.hashHex b := by
        rcases addBlock_cases C S w.chain (some b) (clock w.adds) with ⟨-, -, hnot⟩ | ⟨b', cand', hb', -, -, hadd⟩
        · exact absurd (hput _ _) (hnot b cand rfl hv)
        · cases hb'
          rw [hadd]
          by_cases hbetter : isBetter cand'.work b.hashHex (w.chain.insert S b).canonicalWork (w.chain.insert S b).bestTipHash
          · obtain ⟨hchain, herr⟩ := chooseTip_of_better C S (w.chain.insert S b) b cand' hbetter
            rw [hchain]
            exact ⟨herr.mpr (hrewrite _ _), rfl⟩
          · rw [chooseTip_of_not_better C S (w.chain.insert S b) b cand' hbetter]
            exact ⟨rfl, rfl⟩
      have hknows : ¬isUnknownParent (w.ask.add C S clock b).1 := by
        change ¬(addBlock C S w.chain (some b) (clock w.adds)).err = some "unknown parent"
        rw [hadded.1]
        exact fun h => Option.some_ne_none _ h.symm
      refine ⟨(w.ask.add C S clock b).2, ?_, ?_, ?_⟩
      · have hneg : b.blockHeader.hashHex ∉ w.chain.blocksByHash := hmem
        unfold syncHeader
        rw [if_neg hneg]
        simp only [hfetch, if_neg hknows]
      · change b.hashHex ∈ (addBlock C S w.chain (some b) (clock w.adds)).chain.blocksByHash
        rw [hadded.2]
        exact GoMap.mem_set.mpr (Or.inl rfl)
      · intro k hk
        change k ∈ (addBlock C S w.chain (some b) (clock w.adds)).chain.blocksByHash
        rw [hadded.2]
        exact GoMap.mem_set.mpr (Or.inr hk)

/-- After the rounds for the first `k` blocks these are known. By induction on `k`. -/
theorem catch_up (hface : Facing C clock handled bc chain) (ha : AnswersFrom C bc chain api peer) (hrun : FreshRun C S handled bc)
    (hput : ∀ st b, (S.putBlock st b).1 = .ok ()) (hrewrite : ∀ st bs, (S.rewriteCanonical st bs).1 = .ok ())
    (happlies : ∃ s, applyBlocks C bc.consensus (bc.asHeld chain.1) ∅ = (.ok (), s)) (maxAncestorDepth : Int64) (calls k : Nat)
    (hk : k ≤ chain.1.length) :
    ∃ w, ((chain.1.take k).map Block.blockHeader).foldlM (syncHeader C S clock api maxAncestorDepth calls peer) { chain := bc } =
        some w ∧ ∀ j a, j < k → chain.1[j]? = some a → a.hashHex ∈ w.chain.blocksByHash := by
  induction k with
  | zero => exact ⟨{ chain := bc }, rfl, fun j a hj => absurd hj (Nat.not_lt_zero j)⟩
  | succ k ih =>
    obtain ⟨w, hsync, hknown⟩ := ih (by omega)
    have hb := List.getElem?_eq_getElem (show k < chain.1.length by omega)
    have hfollowed : Followed C S handled bc chain chain.1.length w := by
      refine followed_syncHeaders hface ha ?_ (followed_start hrun) hsync
      intro b hb
      rw [take_length]
      exact mem_of_mem_take hb
    obtain ⟨w', hnext, hmem, hkeeps⟩ := hfollowed.next hface ha hput hrewrite happlies maxAncestorDepth calls hb hknown
    refine ⟨w', ?_, ?_⟩
    · rw [take_add_one, hb, map_append, foldlM_append, hsync]
      change (List.foldlM _ w [chain.1[k].blockHeader] : Option (Syncing σ)) = some w'
      rw [foldlM_cons, hnext]
      rfl
    · intro j a hj haj
      rcases Nat.lt_succ_iff_lt_or_eq.mp hj with hlt | rfl
      · exact hkeeps _ (hknown j a hlt haj)
      · rw [hb] at haj
        cases haj
        exact hmem

theorem Followed.work_ge (hface : Facing C clock handled bc chain) (h : Followed C S handled bc chain n w)
    (hknown : ∀ j a, j < chain.1.length → chain.1[j]? = some a → a.hashHex ∈ w.chain.blocksByHash) :
    pathWork chain.1 ≤ w.chain.canonicalWork := by
  obtain ⟨_, htree⟩ := h.tree hface
  have hpos := length_pos_iff.mpr chain.2
  have htip := List.getElem?_eq_getElem (show chain.1.length - 1 < chain.1.length by omega)
  have hchain := h.chainTo hface htip (hknown _ _ (by omega) htip)
  have hall : chain.1.length - 1 + 1 = chain.1.length := by omega
  have hwork := hface.work_take chain.1.length
  rw [take_length] at hwork
  rw [hall] at hchain
  rw [htree.derived.canonicalWork, ← hwork]
  rcases htree.best.best _ _ hchain with heq | hlt | ⟨heq, -⟩
  · rw [heq] at hchain
    rw [hchain.unique htree.best.chain]
  · exact Nat.le_of_lt hlt
  · exact Nat.le_of_eq heq

end SyncAux

/-- After `SyncOnce` with one honest peer that has more work, the node has at least that work exactly if the chain of the peer is longer
than its own, its tip is in the window of headers that is asked for, and it still applies with the blocks that the node has under the
same hashes. -/
theorem syncOnce_follows_iff {σ : Type} (C : Crypto) (S : ChainStore σ) (handled : List Block) (bc : Blockchain σ)
    (clock : Nat → Nat → Int64) (chain : Path) (api : PeerAPI) (peer : Bytes) (maxAncestorDepth : Int64) (strictIdentity : Bool)
    (hrun : FreshRun C S handled bc) (hdist : HeadersDistinct C bc.consensus (handled ++ chain.1))
    (hrules : bc.consensus.rulesHash C ≠ List.replicate 32 0) (hput : ∀ st b, (S.putBlock st b).1 = .ok ())
    (hrewrite : ∀ st bs, (S.rewriteCanonical st bs).1 = .ok ()) (hpeer : ValidPeer C clock bc chain)
    (hanswers : AnswersFrom C bc chain api peer) (hmore : bc.canonicalWork < pathWork chain.1) :
    (∃ calls w, syncOnce C S clock api maxAncestorDepth calls strictIdentity bc = some w ∧
        pathWork chain.1 ≤ w.chain.canonicalWork) ↔
      bc.blocks.tip.height < chain.tip.height ∧ chain.tip.height < syncWindow ∧
        ∃ s, applyBlocks C bc.consensus (bc.asHeld chain.1) ∅ = (.ok (), s) := by
  obtain ⟨cfg, genesis, hinv⟩ := PathAux.chainInv_freshRun hrun
  have hface : SyncAux.Facing C clock handled bc chain := ⟨treeInv_freshRun hrun hdist.mono, hinv.validParams, hpeer, hdist⟩
  have hlen := length_pos_iff.mpr chain.2
  constructor
  · intro h
    obtain ⟨calls, w, hsync, hwork⟩ := h
    rw [SyncAux.syncOnce_eq hface hanswers hrules strictIdentity] at hsync
    split at hsync
    · cases hsync
      exact absurd hmore (Nat.not_lt.mpr hwork)
    · rename_i hlonger
      rw [hface.headers_eq] at hsync
      refine ⟨UInt64.not_le.mp hlonger, ?_, ?_⟩
      · by_contra hshort
        rw [if_neg hshort] at hsync
        -- the window ends before the tip
        have hfollowed := SyncAux.followed_syncHeaders hface hanswers (fun b hb => mem_of_mem_drop hb)
          (SyncAux.followed_start hrun) hsync
        have hless := hfollowed.work_lt hface hmore (by omega)
        omega
      · have hfollowed : SyncAux.Followed C S handled bc chain chain.1.length w := by
          refine SyncAux.followed_syncHeaders hface hanswers ?_ (SyncAux.followed_start hrun) hsync
          intro b hb
          rw [take_length]
          split at hb
          · exact hb
          · exact mem_of_mem_take (mem_of_mem_drop hb)
        exact hfollowed.applies hface hmore hwork
  · intro h
    obtain ⟨hlonger, hshort, happlies⟩ := h
    obtain ⟨w, hsync, hknown⟩ := SyncAux.catch_up hface hanswers hrun hput hrewrite happlies maxAncestorDepth 0 chain.1.length le_rfl
    have hfollowed : SyncAux.Followed C S handled bc chain chain.1.length w :=
      SyncAux.followed_syncHeaders hface hanswers (fun b hb => hb) (SyncAux.followed_start hrun) hsync
    refine ⟨0, w, ?_, hfollowed.work_ge hface hknown⟩
    rw [SyncAux.syncOnce_eq hface hanswers hrules strictIdentity, if_neg (UInt64.not_le.mpr hlonger), hface.headers_eq, if_pos hshort]
    rwa [take_length] at hsync

open Sample

namespace Sample

def heavyBlock : Block :=
  { emptyBlock with
    nonce := 3
    difficultyBits := 2
    hash := some (beBytes 32 0x2e4b97ecbe6a54606230f2e70b605be26c7e9f1811c28168de9610f9605b91a6) }

def heavyChain : Path := ⟨[genesis, heavyBlock], by simp⟩

def heavyPeer : PeerAPI where
  peers := [str "peer"]
  fetchChainInfo _ _ := .ok
    { chainID := 1, height := heavyChain.tip.height, latestHash := heavyChain.tip.hashHex, rulesHash := rulesHashHex crypto params
      genesisHash := genesis.hashHex }
  fetchHeadersFrom _ _ height count := .ok (headersFrom heavyChain.1 height count)
  fetchBlockByHash _ _ hashHex := if hashHex = genesis.hashHex then .ok genesis else .ok heavyBlock

/-- A node that has taken `emptyBlock`: its chain is as long as that of the peer. -/
def lightNode : Blockchain Unit := (addBlock crypto store node (some emptyBlock) fun _ => 2).chain

theorem lightNode_chain : lightNode.consensus = params ∧ lightNode.chainID = 1 ∧ lightNode.blocks.1 = [genesis, emptyBlock] ∧
      lightNode.canonicalWork = 4 := by
  decide +kernel

theorem heavyChain_checks : (headerMessages crypto params [genesis, emptyBlock, heavyBlock]).map crypto.sha256 =
        [genesis.hash.bytes, emptyBlock.hash.bytes, heavyBlock.hash.bytes] ∧
      params.rulesHash crypto ≠ List.replicate 32 0 ∧ (applyBlocks crypto params heavyChain.1 ∅).1 = .ok () ∧
      checkExternal crypto params 1 heavyBlock = .ok () := by
  simp only [crypto, goCrypto_eq, emptyBlock, heavyChain, heavyBlock, genesis]
  refine ⟨?_, ?_, ?_, ?_⟩ <;> decide +kernel

theorem heavy_distinct : HeadersDistinct crypto params [genesis, emptyBlock, heavyBlock] := by
  refine ⟨Crypto.CollisionFreeOn.of_nodup ?_, ?_⟩
  · rw [heavyChain_checks.1]
    decide
  · intro m hm heq
    have hmem := mem_map_of_mem (f := crypto.sha256) hm
    rw [heavyChain_checks.1, heq] at hmem
    exact absurd hmem (by decide)

theorem heavyChain_linkage (i : Nat) (b : Block) (hb : heavyChain.1[i]? = some b) :
    checkLinkage params heavyChain.1 (fun _ => 2) i b = .ok () := by
  match i with
  | 0 =>
    cases hb
    decide
  | 1 =>
    cases hb
    decide
  | i + 2 => cases hb

theorem applies_of_ok {r : Result Unit × State} (h : r.1 = .ok ()) : ∃ s, r = (.ok (), s) := ⟨r.2, Prod.ext h rfl⟩

theorem heavyChain_valid {bc : Blockchain Unit} (hcons : bc.consensus = params) (hid : bc.chainID = 1)
    (hhead : bc.blocks.1.head? = some genesis) : ValidPeer crypto (fun _ _ => 2) bc heavyChain := by
  obtain ⟨cfg, g, hinv⟩ := PathAux.chainInv_freshRun node_fresh
  have hbits : TreeAux.BitsValid params := TreeAux.bitsValid_of_validParams hinv.validParams
  obtain ⟨hlinked, htimes⟩ := (PathAux.linkage_ok_iff hbits heavyChain.1 fun _ => 2).mp heavyChain_linkage
  refine ⟨hhead.symm, ?_, by rwa [hcons], ?_, ?_, by decide⟩
  · intro b hb
    obtain rfl := mem_singleton.mp hb
    rw [hcons, hid]
    exact heavyChain_checks.2.2.2
  · intro n i hi
    rw [hcons]
    exact htimes i hi
  · rw [hcons]
    exact applies_of_ok heavyChain_checks.2.2.1

theorem lightNode_freshRun : FreshRun crypto store [genesis, emptyBlock] lightNode := node_freshRun

theorem heavyPeer_answers {bc : Blockchain Unit} (hcons : bc.consensus = params) (hid : bc.chainID = 1) :
    AnswersFrom crypto bc heavyChain heavyPeer (str "peer") := by
  refine ⟨rfl, ?_, fun _ _ _ => rfl, ?_⟩
  · intro n
    rw [hcons, hid]
    rfl
  · intro n b hb
    have hne : heavyBlock.hashHex ≠ genesis.hashHex := by decide
    change (if b.hashHex = genesis.hashHex then Except.ok genesis else Except.ok heavyBlock) = Except.ok b
    rcases mem_cons.mp hb with rfl | hb
    · exact if_pos rfl
    · obtain rfl := mem_singleton.mp hb
      exact if_neg hne

end Sample

/-- The node with its genesis block only takes the chain of the peer. -/
theorem syncOnce_follows_iff_node : ∃ calls w, syncOnce crypto store (fun _ _ => 2) heavyPeer 256 calls true Sample.node = some w ∧
      pathWork heavyChain.1 ≤ w.chain.canonicalWork := by
  refine (syncOnce_follows_iff crypto store [Sample.genesis] Sample.node (fun _ _ => 2) heavyChain
    heavyPeer (str "peer") 256 true node_fresh (heavy_distinct.of_subset (by simp [heavyChain]))
    heavyChain_checks.2.1 (fun _ _ => rfl) (fun _ _ => rfl) (heavyChain_valid rfl rfl rfl) (heavyPeer_answers rfl rfl)
    (by decide)).mpr ⟨by decide, by decide, ?_⟩
  have hheld : Sample.node.asHeld heavyChain.1 = heavyChain.1 := by decide
  rw [hheld]
  exact applies_of_ok heavyChain_checks.2.2.1

/-- The node with a block of its own at the same height stays on it, although the chain of the peer is valid and has more work. -/
theorem heavyPeer_not_followed : ValidPeer crypto (fun _ _ => 2) lightNode heavyChain ∧
      AnswersFrom crypto lightNode heavyChain heavyPeer (str "peer") ∧
      lightNode.canonicalWork < pathWork heavyChain.1 ∧
      ∀ calls, ∃ w, syncOnce crypto store (fun _ _ => 2) heavyPeer 256 calls true lightNode = some w ∧
        w.chain.canonicalWork < pathWork heavyChain.1 := by
  obtain ⟨hcons, hid, hblocks, hwork⟩ := lightNode_chain
  have hvalid := heavyChain_valid hcons hid (by rw [hblocks]; rfl)
  have hanswers := heavyPeer_answers hcons hid
  have hmore : lightNode.canonicalWork < pathWork heavyChain.1 := by
    rw [hwork]
    decide
  refine ⟨hvalid, hanswers, hmore, fun calls => ⟨{ chain := lightNode }, ?_, hmore⟩⟩
  obtain ⟨cfg, g, hinv⟩ := PathAux.chainInv_freshRun lightNode_freshRun
  have hdist : HeadersDistinct crypto lightNode.consensus ([genesis, emptyBlock] ++ heavyChain.1) := by
    rw [hcons]
    exact heavy_distinct.of_subset (by simp [heavyChain])
  have hface : SyncAux.Facing crypto (fun _ _ => 2) [genesis, emptyBlock] lightNode heavyChain :=
    ⟨treeInv_freshRun lightNode_freshRun hdist.mono, hinv.validParams, hvalid, hdist⟩
  have htip : lightNode.blocks.tip = emptyBlock := by
    unfold Path.tip
    simp only [hblocks]
    rfl
  rw [SyncAux.syncOnce_eq hface hanswers (by rw [hcons]; exact heavyChain_checks.2.1) true, htip]
  exact if_pos (by decide)

end NeoCoin
