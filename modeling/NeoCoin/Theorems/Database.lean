import NeoCoin.Theorems.Calls
import NeoCoin.Theorems.Restart
import NeoCoin.Theorems.Start

/-!
# The database of the second implementation

What each call of `BoltChainStore` leaves, and what holds of a node over it at every point of a run (`Kept`).
-/

namespace NeoCoin.Internal

open GoLib List

/-! ## Heights -/

theorem toInt64_ofNat (i : Nat) : (UInt64.ofNat i).toInt64 = Int64.ofNat i := rfl

theorem toInt_ofNat_of_lt {i : Nat} (hi : i < 2 ^ 63) : (Int64.ofNat i).toInt = i := by
  have hnat : (UInt64.ofNat i).toNat = i := UInt64.toNat_ofNat_of_lt' (show i < 2 ^ 64 by omega)
  rw [← toInt64_ofNat, toInt_toInt64 (by omega), hnat]

theorem ofNat_beNat_u64be (h : UInt64) : UInt64.ofNat (beNat (u64be h)) = h := by
  have hlt : h.toNat < 256 ^ 8 := h.toNat_lt
  rw [u64be, beNat_beBytes hlt, UInt64.ofNat_toNat]

theorem u64be_inj {h h' : UInt64} (heq : u64be h = u64be h') : h = h' := by
  rw [← ofNat_beNat_u64be h, ← ofNat_beNat_u64be h', heq]

theorem le_getLast_of_sorted {l : List Int64} {x : Int64} (h : l.Pairwise (· ≤ ·)) (hx : l.getLast? = some x) : ∀ y ∈ l, y ≤ x := by
  obtain ⟨l', rfl⟩ := List.getLast?_eq_some_iff.mp hx
  intro y hy
  rcases mem_append.mp hy with hy | hy
  · exact (pairwise_append.mp h).2.2 y hy x (.head _)
  · rw [mem_singleton.mp hy]
    exact Int64.le_refl x

/-- `GetCheckpointHeights` lists the heights of the checkpoints in order, where every key is the big-endian form of a height. -/
theorem getCheckpointHeights_spec {β : Type} {st : Bolt β} (hkeys : ∀ e ∈ st.checkpointsB.entries, ∃ h : UInt64, e.1 = u64be h) :
    ∃ heights, st.getCheckpointHeights = .ok heights ∧ heights.Pairwise (· ≤ ·) ∧
      ∀ x, x ∈ heights ↔ ∃ h s, st.checkpointsB.get (u64be h) = some s ∧ h.toInt64 = x := by
  have hheight : ∀ h : UInt64, ∀ s : State,
      (if (u64be h, s).1.length = 8 then some (UInt64.ofNat (beNat (u64be h, s).1)).toInt64 else none) = some h.toInt64 := by
    intro h s
    rw [if_pos (show (u64be h).length = 8 from beBytes_length 8 _), ofNat_beNat_u64be]
  refine ⟨_, rfl, pairwise_insertionSort _ _, ?_⟩
  intro x
  rw [mem_insertionSort, mem_filterMap]
  constructor
  · intro hmem
    obtain ⟨⟨key, s⟩, he, hx⟩ := hmem
    obtain ⟨h, rfl⟩ := hkeys _ he
    rw [hheight] at hx
    exact ⟨h, s, OrdMap.get_eq_some_iff.mpr he, Option.some.inj hx⟩
  · intro hget
    obtain ⟨h, s, hget, rfl⟩ := hget
    exact ⟨_, OrdMap.get_eq_some_iff.mp hget, hheight h s⟩

/-! ## What each call leaves -/

/-- The state that `StateCheckpoint` computes from the canonical chain. -/
def checkpointState (C : Crypto) (canonical : List Block) (height : Int64) : State :=
  (canonical.takeWhile fun b => decide (b.height.toInt64 ≤ height)).foldl (applyBlockToStateFromPruner C) ∅

variable {b : Block}

namespace BoltAux

variable {β : Type} {G : Gob β} {st : Bolt β}

@[simp] theorem putNew_canonB (G : Gob β) (st : Bolt β) (b : Block) : (st.putNew G b).canonB = st.canonB := by
  unfold Bolt.putNew
  split
  · rfl
  · rfl

@[simp] theorem putNew_checkpointsB (G : Gob β) (st : Bolt β) (b : Block) : (st.putNew G b).checkpointsB = st.checkpointsB := by
  unfold Bolt.putNew
  split
  · rfl
  · rfl

theorem putNew_of_get (h : st.blocksB.get b.hash.bytes ≠ none) : st.putNew G b = st := by
  unfold Bolt.putNew
  split
  · rfl
  · rename_i hnone
    exact absurd hnone h

theorem putBlock_cases (G : Gob β) (st : Bolt β) (b : Block) :
    (st.putBlock G b).1 ≠ .ok () ∧ (st.putBlock G b).2 = st ∨ st.putBlock G b = (.ok (), st.putNew G b) := by
  unfold Bolt.putBlock
  split
  · exact Or.inl ⟨by simp, rfl⟩
  · exact Or.inr rfl

theorem appendCanonical_eq (hhash : b.hash.bytes.length ≠ 0)
    (hprev : st.canonB.get (u64be (b.height - 1)) = some b.prevHash.bytes ∨ b.height = 0) :
    st.appendCanonical G b = (.ok (), ((st.putNew G b).putCanon b).setTip b.hash.bytes b.height) := by
  have hcheck : (st.putNew G b).toBolt.checkAppend b.toBlock = .ok () := by
    unfold NeoCoin.Bolt.checkAppend
    rcases hprev with hprev | hzero
    · rw [putNew_canonB, hprev]
      split
      · exact failIf_eq_ok.mpr (not_not.mpr rfl)
      · rfl
    · rw [hzero]
      rfl
  unfold Bolt.appendCanonical
  rw [if_neg hhash, Bolt.update]
  simp only [hcheck, bind, Except.bind]

/-- What a rewritten database has in common with the one before: its blocks, if those of the chain were among them. -/
structure Rewritten (st st' : Bolt β) (blocks : List Block) : Prop where
  checkpoints : st'.checkpointsB = st.checkpointsB
  stored : (∀ b ∈ blocks, st.blocksB.get b.hash.bytes ≠ none) → st'.blocksB = st.blocksB

/-- The loop of `RewriteCanonical`, by induction on the blocks. -/
theorem rewrite_loop {blocks : List Block} (hhash : ∀ b ∈ blocks, b.hash.bytes.length ≠ 0) (st : Bolt β) (tip : Option (Bytes × UInt64)) :
    ∃ st' tip', blocks.foldlM (Bolt.rewriteBlock G) (st, tip) = .ok (st', tip') ∧ Rewritten st st' blocks ∧
      st'.canonB = ((blocks.map Block.toBlock).map canonEntry).foldl (fun m e => m.put e.1 e.2) st.canonB := by
  induction blocks generalizing st tip with
  | nil => exact ⟨st, tip, rfl, ⟨rfl, fun _ => rfl⟩, rfl⟩
  | cons b blocks ih =>
    have hround : Bolt.rewriteBlock G (st, tip) b = .ok ((st.putNew G b).putCanon b, some (b.hash.bytes, b.height)) := by
      unfold Bolt.rewriteBlock
      exact bind_eq_ok.mpr ⟨(), failIf_eq_ok.mpr (hhash b (.head _)), rfl⟩
    obtain ⟨st', tip', hloop, hrest, hcanon⟩ :=
      ih (fun b' hb' => hhash b' (.tail b hb')) ((st.putNew G b).putCanon b) (some (b.hash.bytes, b.height))
    refine ⟨st', tip', ?_, ⟨?_, ?_⟩, ?_⟩
    · rw [foldlM_cons, hround]
      exact hloop
    · rw [hrest.checkpoints]
      exact putNew_checkpointsB G st b
    · intro hstored
      have hsame := putNew_of_get (G := G) (hstored b (.head _))
      rw [hrest.stored, hsame]
      · rfl
      · intro b' hb'
        rw [hsame]
        exact hstored b' (.tail b hb')
    · rw [hcanon]
      simp only [Bolt.putCanon, NeoCoin.Bolt.putCanon, putNew_canonB, map_cons, foldl_cons, canonEntry]

theorem rewriteCanonical_ok {path : Path} (hhash : ∀ b ∈ path.1, b.hash.bytes.length ≠ 0) (st : Bolt β)
    (hsorted : ((path.1.map Block.toBlock).map canonEntry).Pairwise fun e e' => e.1 < e'.1) :
    ∃ st', st.rewriteCanonical G path.1 = (.ok (), st') ∧ Rewritten st st' path.1 ∧
      st'.canonB.entries = (path.1.map Block.toBlock).map canonEntry := by
  obtain ⟨st', tip', hloop, hrewritten, hcanon⟩ := rewrite_loop (G := G) hhash { st with toBolt := st.toBolt.clearCanon } none
  have hempty : st.toBolt.clearCanon.canonB.entries = [] := OrdMap.foldl_delete_entries _ _ fun e he => mem_map_of_mem he
  have hentries : st'.canonB.entries = (path.1.map Block.toBlock).map canonEntry := by
    rw [hcanon, OrdMap.foldl_put_entries _ _ (by rw [hempty]; exact hsorted), hempty]
    rfl
  unfold Bolt.rewriteCanonical Bolt.update
  simp only [hloop, bind, Except.bind]
  cases tip' with
  | none => exact ⟨_, rfl, ⟨hrewritten.checkpoints, hrewritten.stored⟩, hentries⟩
  | some tip => exact ⟨_, rfl, ⟨hrewritten.checkpoints, hrewritten.stored⟩, hentries⟩

theorem stateCheckpoint_cases (C : Crypto) (G : Gob β) (cfg : Config) (st : Bolt β) (height : Int64) :
    (stateCheckpoint C (boltStore G) cfg st height).2 = st ∨
      height % cfg.interval = 0 ∧ ∃ canonical, st.readCanonical G = .ok canonical ∧
        (stateCheckpoint C (boltStore G) cfg st height).2 =
          { st with checkpointsB := st.checkpointsB.put (u64be height.toUInt64) (checkpointState C canonical height) } := by
  unfold stateCheckpoint
  split
  · exact Or.inl rfl
  · rename_i hdue
    rcases Result.ok_or_error (st.readCanonical G) with ⟨canonical, hread⟩ | ⟨e, hread⟩
    · right
      refine ⟨not_not.mp hdue, canonical, hread, ?_⟩
      rw [show (boltStore G).readCanonical st = .ok canonical from hread]
      rfl
    · left
      rw [show (boltStore G).readCanonical st = .error e from hread]

end BoltAux

/-! ## Mined blocks -/

variable {p : ConsensusParams}

theorem powRunLoop_ok {C : Crypto} {n : Nat} {start nonce : UInt64} {hash : Bytes}
    (h : powRunLoop C p b n start = some (.ok (nonce, hash))) :
    ∃ header, b.headerBytesForConsensus C p nonce = .ok header ∧ hash = C.sha256 header := by
  induction n generalizing start with
  | zero => cases h
  | succ n ih =>
    unfold powRunLoop at h
    split at h
    · cases h
    · rename_i header hheader
      simp only at h
      split at h
      · cases h
        exact ⟨header, hheader, rfl⟩
      · exact ih h

section

variable {σ : Type} {C : Crypto} {bc : Blockchain σ} {transfers : List Transaction} {now : Int64} {b : Block}

theorem Mines.hash_length (h : Mines C bc transfers now b) : b.hash.bytes.length = 32 := by
  obtain ⟨fees, nonce, hash, -, hpow, rfl⟩ := h
  obtain ⟨header, -, rfl⟩ := powRunLoop_ok hpow
  exact C.sha256_length header

theorem Mines.follows (h : Mines C bc transfers now b) :
    Follows bc.consensus (bc.blocks.1.map Block.toBlock) bc.blocks.tip.toBlock b.toBlock := by
  obtain ⟨fees, nonce, hash, -, -, rfl⟩ := h
  exact ⟨rfl, GoSlice.bytes_copy _, fun _ => rfl, rfl⟩

theorem Mines.transactions (h : Mines C bc transfers now b) :
    ∃ fees, checkAllMinable C bc.consensus bc.chainID (bc.blocks.tip.height + 1) transfers 0 = .ok fees ∧
      b.transactions = mineCoinbase bc (bc.blocks.tip.height + 1) fees :: transfers := by
  obtain ⟨fees, nonce, hash, hfees, -, rfl⟩ := h
  exact ⟨fees, hfees, rfl⟩

end

def Path.bare (path : Path) : NeoCoin.Path := ⟨path.1.map Block.toBlock, by simpa using path.2⟩

theorem Path.tip_bare (path : Path) : path.bare.tip = path.tip.toBlock := getLast_map _

theorem Path.bare_snoc (path : Path) (b : Block) : (path.snoc b).1.map Block.toBlock = (path.bare.snoc b.toBlock).1 := by
  simp [Path.snoc, Path.bare, NeoCoin.Path.snoc]

section

variable {σ : Type} (C : Crypto) (S : ChainStore σ) (bc : Blockchain σ) (height : UInt64)

theorem mineCheckpoint_eq : mineCheckpoint C S bc height =
      if bc.cfg.Pruned ∧ 0 < bc.cfg.interval ∧ height.toInt64 % bc.cfg.interval = 0 then
        { bc with store := (stateCheckpoint C S bc.cfg bc.store height.toInt64).2 }
      else bc := by
  unfold mineCheckpoint
  by_cases hpruned : bc.cfg.Pruned
  · simp [hpruned]
  · simp [hpruned]

theorem mineCheckpoint_same : mineCheckpoint C S bc height = { bc with store := (mineCheckpoint C S bc height).store } := by
  rw [mineCheckpoint_eq]
  split
  · rfl
  · rfl

end

/-! ## The invariant -/

/-- What holds of a node over the database at every point of a run. -/
structure Kept {β : Type} (bc : Blockchain (Bolt β)) : Prop where
  bits : TreeAux.BitsValid bc.consensus
  linked : Linked bc.consensus (bc.blocks.1.map Block.toBlock)
  hashes : ∀ b ∈ bc.blocks.1, b.hash.bytes.length ≠ 0
  tree : ∀ k b, bc.blocksByHash.lookup k = some b → b.hash.bytes.length ≠ 0
  bounded : bc.blocks.1.length < 2 ^ 63
  canonical : bc.store.canonB.entries = (bc.blocks.1.map Block.toBlock).map canonEntry

section

variable {β : Type} {C : Crypto} {G : Gob β} {bc bc' : Blockchain (Bolt β)}

theorem Kept.height (h : Kept bc) {i : Nat} (hb : bc.blocks.1[i]? = some b) : b.height.toNat = i := by
  obtain ⟨hi, -⟩ := List.getElem?_eq_some_iff.mp hb
  have hlen := h.bounded
  have hheight := h.linked.height (i := i) (b := b.toBlock) (by rw [List.getElem?_map, hb]; rfl)
  rw [hheight, UInt64.toNat_ofNat_of_lt' (show i < 2 ^ 64 by omega)]

theorem Kept.tip_height (h : Kept bc) : bc.blocks.tip.height.toNat = bc.blocks.1.length - 1 := by
  refine h.height ?_
  rw [Path.tip, getLast_eq_getElem, List.getElem?_eq_getElem]

theorem hashes_of_map {blocks blocks' : List Block} (hmap : blocks'.map Block.toBlock = blocks.map Block.toBlock)
    (h : ∀ b ∈ blocks, b.hash.bytes.length ≠ 0) : ∀ b ∈ blocks', b.hash.bytes.length ≠ 0 := by
  intro b hb
  have hmem : b.toBlock ∈ blocks.map Block.toBlock := by
    rw [← hmap]
    exact mem_map_of_mem hb
  obtain ⟨b', hb', heq⟩ := mem_map.mp hmem
  rw [← heq]
  exact h b' hb'

variable {height : UInt64}

theorem Kept.committed (h : Kept bc) (hc : Committed C (boltStore G) bc height bc') : Kept bc' := by
  have hblocks := hc.blocks
  have hlen := congrArg List.length hblocks
  rw [length_map, length_map] at hlen
  have hcons : bc'.consensus = bc.consensus := by rw [hc.same]
  have hcanon : bc'.store.canonB = bc.store.canonB := by
    cases hc with
    | skipped => rfl
    | failed c _ => rfl
    | stored c _ _ _ _ =>
      rw [setRoots_eq]
      rfl
  refine ⟨by rw [hcons]; exact h.bits, by rw [hcons, hblocks]; exact h.linked, hashes_of_map hblocks h.hashes, ?_,
    by rw [hlen]; exact h.bounded, by rw [hcanon, hblocks]; exact h.canonical⟩
  cases hc with
  | skipped => exact h.tree
  | failed c _ => exact h.tree
  | stored c _ _ _ _ =>
    intro k v hv
    rcases setRoots_tree hv with hold | ⟨b, hb, -, -, rfl⟩
    · exact h.tree k v hold
    · exact h.hashes b (mem_of_getElem? hb)

theorem Kept.withStore {st : Bolt β} (h : Kept bc) (hcanon : st.canonB = bc.store.canonB) : Kept { bc with store := st } :=
  ⟨h.bits, h.linked, h.hashes, h.tree, h.bounded, by rw [← h.canonical, ← hcanon]⟩

theorem Kept.checkpoint {height : Int64} (h : Kept bc) :
    Kept { bc with store := (stateCheckpoint C (boltStore G) bc.cfg bc.store height).2 } := by
  rcases BoltAux.stateCheckpoint_cases C G bc.cfg bc.store height with hsame | ⟨-, canonical, -, hst⟩
  · exact h.withStore (by rw [hsame])
  · exact h.withStore (by rw [hst])

theorem Kept.mineCheckpoint (h : Kept bc) : Kept (mineCheckpoint C (boltStore G) bc height) := by
  rw [mineCheckpoint_eq]
  split
  · exact h.checkpoint
  · exact h

theorem Kept.addCheckpoint (h : Kept bc) : Kept (addCheckpoint C (boltStore G) bc height) := by
  unfold Internal.addCheckpoint
  split
  · exact h.checkpoint
  · exact h

section

variable {transfers : List Transaction} {now : Int64} {b : Block}

theorem Kept.mined_height (h : Kept bc) (hm : Mines C bc transfers now b)
    (hlen : bc.blocks.1.length + 1 < 2 ^ 63) : b.height.toNat = bc.blocks.1.length := by
  have hpos : 0 < bc.blocks.1.length := length_pos_iff.mpr bc.blocks.2
  rw [hm.follows.height, UInt64.toNat_add, show bc.blocks.tip.toBlock.height.toNat = _ from h.tip_height]
  simp only [UInt64.toNat_one]
  omega

theorem Kept.append (h : Kept bc) (hm : Mines C bc transfers now b) :
    bc.store.appendCanonical G b = (.ok (), ((bc.store.putNew G b).putCanon b).setTip b.hash.bytes b.height) := by
  refine BoltAux.appendCanonical_eq (by rw [hm.hash_length]; decide) (Or.inl ?_)
  have hf := hm.follows
  have hbelow : b.height - 1 = bc.blocks.tip.height := by
    rw [hf.height]
    exact UInt64.add_sub_cancel _ _
  rw [hbelow, hf.prevHash, OrdMap.get_eq_some_iff, h.canonical, map_map]
  exact mem_map.mpr ⟨bc.blocks.tip, getLast_mem _, rfl⟩

theorem Kept.extend {s : State} (h : Kept bc) (hm : Mines C bc transfers now b) (hlen : bc.blocks.1.length + 1 < 2 ^ 63) :
    Kept (bc.extend C b s (bc.store.appendCanonical G b).2) := by
  have hhash : b.hash.bytes.length ≠ 0 := by
    rw [hm.hash_length]
    decide
  have hlinked : Linked bc.consensus ((bc.blocks.snoc b).1.map Block.toBlock) := by
    rw [Path.bare_snoc]
    refine Linked.snoc h.linked ?_
    rw [Path.tip_bare]
    exact hm.follows
  have hentries : (bc.blocks.snoc b).1.map Block.toBlock = bc.blocks.1.map Block.toBlock ++ [b.toBlock] := by simp [Path.snoc]
  refine ⟨h.bits, hlinked, ?_, ?_, ?_, ?_⟩
  · exact forall_mem_concat.mpr ⟨h.hashes, hhash⟩
  · intro k v hv
    simp only [Blockchain.extend, addToIndex, if_neg hhash, GoMap.lookup_set] at hv
    split at hv
    · cases hv
      exact hhash
    · exact h.tree k v hv
  · simpa [Blockchain.extend, Path.snoc] using hlen
  · -- the new height is above all others, so that its entry goes to the end
    have hsorted := NeoCoin.BoltAux.pairwise_canonEntry hlinked (by simp [Path.snoc]; omega)
    rw [hentries, map_append, pairwise_append] at hsorted
    have hput : (bc.extend C b s (bc.store.appendCanonical G b).2).store.canonB =
        bc.store.canonB.put (u64be b.height) b.hash.bytes := by
      rw [Blockchain.extend, h.append hm]
      simp only [Bolt.setTip, Bolt.putCanon, NeoCoin.Bolt.setTip, NeoCoin.Bolt.putCanon, BoltAux.putNew_canonB]
    rw [hput, OrdMap.entries_put_of_lt, h.canonical]
    · simp only [Blockchain.extend, hentries, map_append]
      rfl
    · intro e he
      rw [h.canonical] at he
      exact hsorted.2.2 e he _ (.head _)

end

section

variable {clock : Nat → Int64} {b : Block} {cand : Candidate}

theorem Kept.insert (h : Kept bc) (hacc : Accepted C (boltStore G) bc clock b cand) : Kept (bc.insert (boltStore G) b) := by
  refine ⟨h.bits, h.linked, h.hashes, ?_, h.bounded, ?_⟩
  · intro k v hv
    simp only [Blockchain.insert, GoMap.lookup_set] at hv
    split at hv
    · cases hv
      have hext := hacc.external
      unfold checkExternal at hext
      iterate 2 obtain ⟨_, -, hext⟩ := bind_eq_ok.mp hext
      obtain ⟨_, hhash, -⟩ := bind_eq_ok.mp hext
      exact failIf_eq_ok.mp hhash
    · exact h.tree k v hv
  · rw [show (bc.insert (boltStore G) b).store = (bc.store.putBlock G b).2 from rfl]
    rcases BoltAux.putBlock_cases G bc.store b with ⟨-, hsame⟩ | hok
    · rw [hsame]
      exact h.canonical
    · rw [hok, BoltAux.putNew_canonB]
      exact h.canonical

theorem Kept.candidate (h : Kept bc) (hacc : Accepted C (boltStore G) bc clock b cand) :
    Linked bc.consensus (cand.path.1.map Block.toBlock) ∧ ∀ b' ∈ cand.path.1, b'.hash.bytes.length ≠ 0 := by
  constructor
  · refine ((PathAux.linkage_ok_iff h.bits _ clock).mp ?_).1
    intro i b' hb'
    rw [List.getElem?_map, Option.map_eq_some_iff] at hb'
    obtain ⟨b'', hb'', rfl⟩ := hb'
    exact hacc.valid.linkage i b'' hb''
  · intro b' hb'
    obtain ⟨k, hk⟩ := hacc.valid.chain.exists_lookup hb'
    exact (h.insert hacc).tree k b' hk

theorem Kept.rewrite (h : Kept bc) (hacc : Accepted C (boltStore G) bc clock b cand) (hlen : cand.path.1.length < 2 ^ 63) :
    ∃ st', (bc.insert (boltStore G) b).store.rewriteCanonical G cand.path.1 = (.ok (), st') ∧
      BoltAux.Rewritten (bc.insert (boltStore G) b).store st' cand.path.1 ∧
      st'.canonB.entries = (cand.path.1.map Block.toBlock).map canonEntry := by
  obtain ⟨hlinked, hhashes⟩ := h.candidate hacc
  exact BoltAux.rewriteCanonical_ok hhashes _ (NeoCoin.BoltAux.pairwise_canonEntry hlinked (by rw [length_map]; omega))

theorem retip_eq {b : Block} {cand : Candidate} {st' : Bolt β} (h : bc.store.rewriteCanonical G cand.path.1 = (.ok (), st')) :
    bc.retip C (boltStore G) b cand = addCheckpoint C (boltStore G) { bc.adopt cand b.hashHex with store := st' } b.height := by
  unfold Blockchain.retip
  rw [show (boltStore G).rewriteCanonical bc.store cand.path.1 = (.ok (), st') from h]

theorem retip_same {σ : Type} (C : Crypto) (S : ChainStore σ) (bc : Blockchain σ) (b : Block) (cand : Candidate) :
    bc.retip C S b cand = { bc.adopt cand b.hashHex with store := (bc.retip C S b cand).store } := by
  unfold Blockchain.retip addCheckpoint
  simp only
  split
  · rfl
  · split
    · rfl
    · rfl

theorem retip_blocks {σ : Type} (C : Crypto) (S : ChainStore σ) (bc : Blockchain σ) (b : Block) (cand : Candidate) :
    (bc.retip C S b cand).blocks = cand.path := by
  rw [retip_same]
  rfl

theorem Kept.retip (h : Kept bc) (hacc : Accepted C (boltStore G) bc clock b cand) (hlen : cand.path.1.length < 2 ^ 63) :
    Kept ((bc.insert (boltStore G) b).retip C (boltStore G) b cand) := by
  obtain ⟨hlinked, hhashes⟩ := h.candidate hacc
  obtain ⟨st', hrewrite, -, hcanon⟩ := h.rewrite hacc hlen
  rw [retip_eq hrewrite]
  exact Kept.addCheckpoint ⟨h.bits, hlinked, hhashes, (h.insert hacc).tree, hlen, hcanon⟩

end

/-! ## Every call keeps it -/

theorem Committed.length_mined {s : State} {st : Bolt β}
    (h : Committed C (boltStore G) (Internal.mineCheckpoint C (boltStore G) (bc.extend C b s st) b.height) b.height bc')
    (hlen : bc'.blocks.1.length < 2 ^ 63) : bc.blocks.1.length + 1 < 2 ^ 63 := by
  have hblocks := congrArg List.length h.blocks
  rw [length_map, length_map, mineCheckpoint_same] at hblocks
  rw [hblocks] at hlen
  simpa [Blockchain.extend, Path.snoc] using hlen

theorem kept_mine {transfers : List Transaction} {clock : Nat → Int64} (h : Kept bc)
    (heffect : MineEffect C (boltStore G) bc transfers clock bc') (hlen : bc'.blocks.1.length < 2 ^ 63) : Kept bc' := by
  cases heffect with
  | nothing => exact h
  | refused _ _ => exact ⟨h.bits, h.linked, h.hashes, h.tree, h.bounded, h.canonical⟩
  | unstored hm _ _ hfailed => exact absurd (congrArg Prod.fst (h.append hm)) hfailed
  | mined hm _ _ _ hcommit => exact (Kept.mineCheckpoint (h.extend hm (hcommit.length_mined hlen))).committed hcommit

theorem Rejected.store_bolt (h : Rejected (boltStore G) bc bc') : bc'.store = bc.store := by
  rcases h.store with hsame | ⟨b, hfailed, hst⟩
  · exact hsame
  · rcases BoltAux.putBlock_cases G bc.store b with ⟨-, hsame⟩ | hok
    · exact hst.trans hsame
    · exact absurd (congrArg Prod.fst hok) hfailed

theorem kept_add {block : Option Block} {clock : Nat → Int64} (h : Kept bc)
    (heffect : AddEffect C (boltStore G) bc block clock bc') (hlen : bc'.blocks.1.length < 2 ^ 63) : Kept bc' := by
  cases heffect with
  | rejected hrejected =>
    rw [hrejected.same, hrejected.store_bolt]
    exact ⟨h.bits, h.linked, h.hashes, h.tree, h.bounded, h.canonical⟩
  | beside _ hacc _ => exact h.insert hacc
  | tip _ hacc _ =>
    rw [retip_blocks] at hlen
    exact h.retip hacc hlen

end

theorem balance_eq {σ : Type} (bc : Blockchain σ) (address : Bytes) :
    (bc.balance address).2 = { bc with balances := (bc.balance address).2.balances } := by
  unfold Blockchain.balance
  split
  · rfl
  · split
    · rfl
    · rfl

theorem kept_balance {β : Type} {bc : Blockchain (Bolt β)} (h : Kept bc) (address : Bytes) : Kept (bc.balance address).2 := by
  rw [balance_eq]
  exact ⟨h.bits, h.linked, h.hashes, h.tree, h.bounded, h.canonical⟩

/-! ## A node on an empty database -/

/-- What a node has that was loaded on an empty database: its genesis block and nothing else. -/
structure Started {β : Type} (C : Crypto) (G : Gob β) (gcfg : GenesisConfig) (genesis : Block) (cfg : Config)
    (bc : Blockchain (Bolt β)) : Prop where
  params : ValidParams gcfg.consensusParams
  built : buildGenesisBlock C gcfg gcfg.consensusParams = some (.ok genesis)
  consensus : bc.consensus = gcfg.consensusParams
  config : bc.cfg = cfg
  blocks : bc.blocks.1 = [genesis]
  applied : replay C bc.consensus [genesis] ∅ = (.ok (), bc.state)
  tree : bc.blocksByHash = GoMap.set ∅ genesis.hashHex genesis
  tip : bc.bestTipHash = genesis.hashHex
  work : bc.canonicalWork = pathWork [genesis]
  uncached : ∀ a, bc.balances.peek a = none
  blocksB : ∀ k, bc.store.blocksB.get k = if k = genesis.hash.bytes then some (G.encode genesis) else none
  canonB : bc.store.canonB.entries = [canonEntry genesis.toBlock]
  checkpointsB : bc.store.checkpointsB.entries = []

section

variable {β : Type} {C : Crypto} {G : Gob β} {gcfg : GenesisConfig}

theorem genesis_of_build {genesis : Block} (h : buildGenesisBlock C gcfg gcfg.consensusParams = some (.ok genesis)) :
    GenesisHeader gcfg.consensusParams genesis.toBlock ∧ genesis.hash.bytes.length = 32 := by
  obtain ⟨nonce, hash, hpow, rfl⟩ := StartAux.internal_powRun_of_build h
  obtain ⟨header, -, rfl⟩ := powRunLoop_ok hpow
  exact ⟨⟨rfl, rfl, rfl⟩, C.sha256_length header⟩

/-- Two databases that differ in their metadata only. -/
structure SameData (st st' : Bolt β) : Prop where
  blocksB : st'.blocksB = st.blocksB
  canonB : st'.canonB = st.canonB
  checkpointsB : st'.checkpointsB = st.checkpointsB

theorem sameData_putHash (name : String) (key : Bytes) (st : Bolt β) (hash : Bytes) :
    SameData st (onMeta (NeoCoin.Bolt.putHash name key) st hash).2 := by
  unfold onMeta NeoCoin.Bolt.putHash
  split
  · exact ⟨rfl, rfl, rfl⟩
  · exact ⟨rfl, rfl, rfl⟩

variable {st st' : Bolt β}

theorem sameData_checkRulesHash {ignoreRulesHash : Bool}
    (h : checkRulesHash C (boltStore G) p ignoreRulesHash st = .ok st') : SameData st st' := by
  unfold checkRulesHash at h
  obtain ⟨stored, -, h⟩ := bind_eq_ok.mp h
  cases stored with
  | some stored =>
    iterate 2 obtain ⟨_, -, h⟩ := bind_eq_ok.mp h
    cases h
    exact ⟨rfl, rfl, rfl⟩
  | none =>
    obtain ⟨_, -, h⟩ := bind_eq_ok.mp h
    cases h
    exact sameData_putHash _ _ st _

theorem sameData_checkGenesisHash {hash : Bytes} (h : checkGenesisHash (boltStore G) hash st = .ok st') : SameData st st' := by
  unfold checkGenesisHash at h
  obtain ⟨stored, -, h⟩ := bind_eq_ok.mp h
  cases stored with
  | some stored =>
    obtain ⟨_, -, h⟩ := bind_eq_ok.mp h
    cases h
    exact ⟨rfl, rfl, rfl⟩
  | none =>
    obtain ⟨_, -, h⟩ := bind_eq_ok.mp h
    cases h
    exact sameData_putHash _ _ st _

theorem loadGenesis_empty {path : Path} (hblocks : st.blocksB = .empty)
    (hcanon : st.canonB = .empty) (hcheckpoints : st.checkpointsB = .empty)
    (h : loadGenesis C (boltStore G) gcfg [] st = some (.ok (path, st'))) :
    ∃ genesis, buildGenesisBlock C gcfg gcfg.consensusParams = some (.ok genesis) ∧ path.1 = [genesis] ∧
      (∀ k, st'.blocksB.get k = if k = genesis.hash.bytes then some (G.encode genesis) else none) ∧
      st'.canonB.entries = [canonEntry genesis.toBlock] ∧ st'.checkpointsB.entries = [] := by
  unfold loadGenesis at h
  simp only at h
  split at h
  · cases h
  · rename_i built hbuilt
    obtain ⟨genesis, rfl, hbody⟩ := bind_eq_ok.mp (Option.some.inj h)
    obtain ⟨_, -, hbody⟩ := bind_eq_ok.mp hbody
    cases hbody
    obtain ⟨hheader, hlen⟩ := genesis_of_build hbuilt
    have hhash : genesis.hash.bytes.length ≠ 0 := by
      rw [hlen]
      decide
    have happend : st.appendCanonical G genesis =
        (.ok (), ((st.putNew G genesis).putCanon genesis).setTip genesis.hash.bytes genesis.height) :=
      BoltAux.appendCanonical_eq hhash (Or.inr hheader.height)
    have hnew : st.putNew G genesis = { st with blocksB := OrdMap.empty.put genesis.hash.bytes (G.encode genesis) } := by
      unfold Bolt.putNew
      rw [hblocks]
      rfl
    have hget : ∀ k, (OrdMap.empty.put genesis.hash.bytes (G.encode genesis)).get k =
        if k = genesis.hash.bytes then some (G.encode genesis) else none := by
      intro k
      rw [OrdMap.get_put, OrdMap.get_empty]
    refine ⟨genesis, hbuilt, rfl, ?_⟩
    rw [show (boltStore G).appendCanonical st genesis = _ from happend, hnew]
    -- the second write of the block finds it there
    rcases BoltAux.putBlock_cases G ((Bolt.putCanon { st with blocksB := OrdMap.empty.put genesis.hash.bytes (G.encode genesis) }
        genesis).setTip genesis.hash.bytes genesis.height) genesis with ⟨-, hsame⟩ | hok
    · rw [show ((boltStore G).putBlock _ genesis).2 = _ from hsame]
      refine ⟨hget, ?_, congrArg OrdMap.entries hcheckpoints⟩
      simp only [Bolt.setTip, Bolt.putCanon, NeoCoin.Bolt.setTip, NeoCoin.Bolt.putCanon, hcanon]
      rfl
    · rw [show (boltStore G).putBlock _ genesis = _ from hok, BoltAux.putNew_of_get]
      · refine ⟨hget, ?_, congrArg OrdMap.entries hcheckpoints⟩
        simp only [Bolt.setTip, Bolt.putCanon, NeoCoin.Bolt.setTip, NeoCoin.Bolt.putCanon, hcanon]
        rfl
      · exact fun hnone => absurd ((hget _).symm.trans hnone) (by simp)

theorem validParams_of_load {raw : GenesisConfigJSON} (h : loadGenesisConfig C raw = .ok gcfg) : ValidParams gcfg.consensusParams := by
  unfold loadGenesisConfig at h
  iterate 5 obtain ⟨_, -, h⟩ := bind_eq_ok.mp h
  obtain ⟨params, hparams, h⟩ := bind_eq_ok.mp h
  cases h
  have hvalid := validParams_of_parse hparams
  exact { hvalid with }

variable {cfg : Config}

theorem recompute_of_no_checkpoint {blocks : Path} (h : st.checkpointsB.entries = []) :
    recomputeStateLocked C (boltStore G) cfg p blocks st = replay C p blocks.1 ∅ := by
  have hheights : (boltStore G).getCheckpointHeights st = .ok [] := by
    simp only [boltStore, Bolt.getCheckpointHeights, h]
    rfl
  unfold recomputeStateLocked
  rw [hheights]
  split
  · rfl
  · rfl

theorem started_of_load {chainID : UInt64} {minerAddress : Bytes} {raw : GenesisConfigJSON} {ignoreRulesHash : Bool}
    {bc : Blockchain (Bolt β)}
    (h : loadBlockchain C (boltStore G) chainID minerAddress raw cfg ignoreRulesHash Bolt.empty = some (.ok bc)) :
    ∃ gcfg genesis, Started C G gcfg genesis cfg bc := by
  unfold loadBlockchain at h
  simp only at h
  split at h
  · cases h
  · rename_i gcfg blocks all st hbefore
    obtain ⟨gcfg', hgcfg, hbefore⟩ := bind_eq_ok.mp hbefore
    iterate 2 obtain ⟨_, -, hbefore⟩ := bind_eq_ok.mp hbefore
    obtain ⟨blocks', hread, hbefore⟩ := bind_eq_ok.mp hbefore
    obtain ⟨all', hall, hbefore⟩ := bind_eq_ok.mp hbefore
    obtain ⟨st', hrules, hbefore⟩ := bind_eq_ok.mp hbefore
    obtain ⟨rfl, rfl, rfl, rfl⟩ : gcfg' = gcfg ∧ blocks' = blocks ∧ all' = all ∧ st' = st := by simpa using hbefore
    obtain rfl : [] = blocks' := Except.ok.inj hread
    obtain rfl : ∅ = all' := Except.ok.inj hall
    have hempty := sameData_checkRulesHash hrules
    split at h
    · cases h
    · rename_i loaded hloaded
      obtain ⟨⟨⟨path, hne⟩, st₁⟩, rfl, hbody⟩ := bind_eq_ok.mp (Option.some.inj h)
      obtain ⟨⟨genesisHash, first⟩, hensure, hbody⟩ := bind_eq_ok.mp hbody
      obtain ⟨st₂, hgenesisHash, hbody⟩ := bind_eq_ok.mp hbody
      obtain ⟨genesis, hbuilt, hpath, hblocksB, hcanonB, hcheckpointsB⟩ :=
        loadGenesis_empty hempty.blocksB hempty.canonB hempty.checkpointsB hloaded
      obtain rfl : path = [genesis] := hpath
      have hdata := sameData_checkGenesisHash hgenesisHash
      obtain ⟨-, hlen⟩ := genesis_of_build hbuilt
      have hhash : genesis.hash.bytes.length ≠ 0 := by
        rw [hlen]
        decide
      have hfirst : genesis = first := by
        obtain ⟨header, -, hensure⟩ := bind_eq_ok.mp hensure
        have hsame := (Prod.mk.inj (Except.ok.inj hensure)).2
        simpa [hhash] using hsame
      subst hfirst
      unfold initChain at hbody
      obtain ⟨_, hok, hbody⟩ := bind_eq_ok.mp hbody
      have hnone : st₂.checkpointsB.entries = [] := (congrArg OrdMap.entries hdata.checkpointsB).trans hcheckpointsB
      rw [recompute_of_no_checkpoint hnone] at hok hbody
      cases hbody
      exact ⟨gcfg', genesis,
        { params := validParams_of_load hgcfg
          built := hbuilt
          consensus := rfl
          config := rfl
          blocks := rfl
          applied := Prod.ext hok rfl
          tree := if_neg hhash
          tip := rfl
          work := rfl
          uncached := fun a => rfl
          blocksB := by rw [hdata.blocksB]; exact hblocksB
          canonB := by rw [hdata.canonB]; exact hcanonB
          checkpointsB := hnone }⟩

theorem Started.kept {genesis : Block} {bc : Blockchain (Bolt β)} (h : Started C G gcfg genesis cfg bc) : Kept bc := by
  obtain ⟨hheader, hlen⟩ := genesis_of_build h.built
  have hhash : genesis.hash.bytes.length ≠ 0 := by
    rw [hlen]
    decide
  refine ⟨?_, ?_, ?_, ?_, ?_, ?_⟩
  · rw [h.consensus]
    exact TreeAux.bitsValid_of_validParams h.params
  · rw [h.consensus, h.blocks]
    exact linked_singleton hheader
  · intro b hb
    rw [h.blocks] at hb
    obtain rfl := mem_singleton.mp hb
    exact hhash
  · intro k b hb
    rw [h.tree, GoMap.lookup_set] at hb
    split at hb
    · cases hb
      exact hhash
    · exact absurd hb (by simp)
  · rw [h.blocks, length_singleton]
    decide
  · rw [h.blocks]
    exact h.canonB

end

end NeoCoin.Internal
