import NeoCoin.Theorems.Ancestors
import NeoCoin.Theorems.Peers

/-!
# A node that adds the blocks of a peer

An honest peer answers from a chain that is valid by the rules of the node (`ValidPeer`, `AnswersFrom`). While the node adds blocks of that
chain and no others, its own chain is the one it had or a part of that of the peer (`Followed`).
-/

namespace NeoCoin

open GoLib ForkTree List

variable {prev a v : Block} {path : List Block} {b : Block} {p : ConsensusParams} {i : Nat}

/-! ## A chain by its headers -/

def Block.headerOnly (b : Block) : Block :=
  { b with prevHash := some b.prevHash.bytes, nonce := 0, minerAddress := [], transactions := [], hash := some b.hash.bytes }

namespace SyncAux

open HeaderAux TreeAux PathAux

theorem headerOnly_eq_iff {b' : Block} :
    b.headerOnly = b'.headerOnly ↔ b.version = b'.version ∧ b.height = b'.height ∧ b.timestampUnix = b'.timestampUnix ∧
      b.prevHash.bytes = b'.prevHash.bytes ∧ b.difficultyBits = b'.difficultyBits ∧ b.hash.bytes = b'.hash.bytes := by
  simp [Block.headerOnly]

theorem getD_timestampUnix (path : List Block) (n : Nat) :
    ((path.map Block.headerOnly).getD n default).timestampUnix = (path.getD n default).timestampUnix := by
  rw [getD_eq_getElem?_getD, getD_eq_getElem?_getD, List.getElem?_map]
  cases path[n]? with
  | none => rfl
  | some b => rfl

theorem nextDifficultyBits_headerOnly (p : ConsensusParams) (path : List Block) :
    nextDifficultyBitsFromPath p (path.map Block.headerOnly) = nextDifficultyBitsFromPath p path := by
  unfold nextDifficultyBitsFromPath
  rw [List.getLast?_map, length_map]
  cases path.getLast? with
  | none => rfl
  | some parent =>
    simp only [Option.map_some]
    have hretarget : retargetBits p parent.headerOnly
        ((path.map Block.headerOnly).getD (path.length - 1 - p.difficultyWindow.toInt.toNat) default) =
        retargetBits p parent (path.getD (path.length - 1 - p.difficultyWindow.toInt.toNat) default) := by
      unfold retargetBits
      rw [getD_timestampUnix]
      rfl
    rw [hretarget]
    rfl

theorem follows_headerOnly {before : List Block} :
    Follows p (before.map Block.headerOnly) prev.headerOnly b.headerOnly ↔ Follows p before prev b := by
  constructor
  · intro h
    have hbits := h.difficulty
    rw [nextDifficultyBits_headerOnly] at hbits
    exact ⟨h.height, h.prevHash, hbits, h.version⟩
  · intro h
    have hbits := h.difficulty
    rw [← nextDifficultyBits_headerOnly] at hbits
    exact ⟨h.height, h.prevHash, hbits, h.version⟩

theorem linked_headerOnly : Linked p (path.map Block.headerOnly) ↔ Linked p path := by
  have hprev : ∀ i b, path[i + 1]? = some b →
      (path.map Block.headerOnly).getD i default = (path.getD i default).headerOnly := by
    intro i b hb
    obtain ⟨hi, -⟩ := List.getElem?_eq_some_iff.mp hb
    rw [getD_eq_getElem _ _ (by simp; omega), getElem_map, getD_eq_getElem _ _ (by omega)]
  constructor
  · intro h
    refine ⟨?_, ?_⟩
    · intro b hb
      obtain ⟨hheight, hnil, hversion⟩ := h.genesis b.headerOnly (by rw [List.getElem?_map, hb]; rfl)
      exact ⟨hheight, hnil, hversion⟩
    · intro i b hb
      have hfollows := h.follows i b.headerOnly (by rw [List.getElem?_map, hb]; rfl)
      rw [hprev i b hb, ← map_take] at hfollows
      exact follows_headerOnly.mp hfollows
  · intro h
    refine ⟨?_, ?_⟩
    · intro b hb
      rw [List.getElem?_map] at hb
      obtain ⟨b', hb', rfl⟩ := Option.map_eq_some_iff.mp hb
      obtain ⟨hheight, hnil, hversion⟩ := h.genesis b' hb'
      exact ⟨hheight, hnil, hversion⟩
    · intro i b hb
      rw [List.getElem?_map] at hb
      obtain ⟨b', hb', rfl⟩ := Option.map_eq_some_iff.mp hb
      rw [hprev i b' hb', ← map_take]
      exact follows_headerOnly.mpr (h.follows i b' hb')

theorem times_headerOnly {clock : Nat → Int64} :
    (∀ i, i < (path.map Block.headerOnly).length → validateBlockTime p (path.map Block.headerOnly) i (clock i) = .ok ()) ↔
      ∀ i, i < path.length → validateBlockTime p path i (clock i) = .ok () := by
  rw [times_ok_iff, times_ok_iff, Increasing, Increasing, pairwise_map]
  refine and_congr Iff.rfl (forall_congr' fun i => ?_)
  rw [List.getElem?_map]
  cases path[i + 1]? with
  | none => simp
  | some b => simp [Block.headerOnly]

theorem pathWork_headerOnly (path : List Block) : pathWork (path.map Block.headerOnly) = pathWork path := by
  unfold pathWork
  rw [map_map]
  rfl

end SyncAux

/-! ## An honest peer -/

/-- A chain that is valid by the rules of a node, from the same genesis block and with times that the node takes whenever it looks. -/
structure ValidPeer {σ : Type} (C : Crypto) (clock : Nat → Nat → Int64) (bc : Blockchain σ) (chain : Path) : Prop where
  genesis : chain.1.head? = bc.blocks.1.head?
  blocks : ∀ b ∈ chain.1.tail, checkExternal C bc.consensus bc.chainID b = .ok ()
  linked : Linked bc.consensus chain.1
  times : ∀ n i, i < chain.1.length → validateBlockTime bc.consensus chain.1 i (clock n i) = .ok ()
  applied : ∃ s, applyBlocks C bc.consensus chain.1 ∅ = (.ok (), s)
  length : chain.1.length < 2 ^ 63

structure AnswersFrom {σ : Type} (C : Crypto) (bc : Blockchain σ) (chain : Path) (api : PeerAPI) (peer : Bytes) : Prop where
  peers : api.peers = [peer]
  info : ∀ n, api.fetchChainInfo peer n = .ok
    { chainID := bc.chainID, height := chain.tip.height, latestHash := chain.tip.hashHex, rulesHash := rulesHashHex C bc.consensus
      genesisHash := (chain.1.head chain.2).hashHex }
  headers : ∀ n height count, api.fetchHeadersFrom peer n height count = .ok (headersFrom chain.1 height count)
  blocks : ∀ n, ∀ b ∈ chain.1, api.fetchBlockByHash peer n b.hashHex = .ok b

/-- A block as a node holds it: the one it has under the hash of the block, if it has one. -/
def Blockchain.held {σ : Type} (bc : Blockchain σ) (b : Block) : Block := (bc.blocksByHash.lookup b.hashHex).getD b

/-- A chain with the blocks that a node holds under the same hashes. -/
def Blockchain.asHeld {σ : Type} (bc : Blockchain σ) (chain : List Block) : List Block := chain.map bc.held

namespace SyncAux

open HeaderAux TreeAux PathAux

variable {σ : Type} {C : Crypto} {clock : Nat → Nat → Int64} {handled : List Block} {bc : Blockchain σ} {chain : Path}

/-- A node and a peer, with headers of which no two share a digest. -/
structure Facing (C : Crypto) (clock : Nat → Nat → Int64) (handled : List Block) (bc : Blockchain σ) (chain : Path) : Prop where
  tree : TreeInv C handled bc
  params : ValidParams bc.consensus
  peer : ValidPeer C clock bc chain
  distinct : HeadersDistinct C bc.consensus (handled ++ chain.1)

theorem Facing.genesis (h : Facing C clock handled bc chain) {g : Block} (hg : chain.1[0]? = some g) :
    Stored C bc.consensus handled g.hashHex g ∧ bc.blocksByHash.lookup g.hashHex = some g := by
  rw [← List.head?_eq_getElem?, h.peer.genesis] at hg
  obtain ⟨k, hk⟩ := h.tree.best.chain.exists_lookup (mem_of_mem_head? hg)
  have hstored := h.tree.stored k g hk
  obtain rfl := hstored.key
  exact ⟨hstored, hk⟩

theorem Facing.external (h : Facing C clock handled bc chain) (hb : chain.1[i + 1]? = some b) : External C bc.consensus bc.chainID b := by
  refine checkExternal_ok_iff.mp (h.peer.blocks b ?_)
  rw [← List.getElem?_tail] at hb
  exact mem_of_getElem? hb

theorem Facing.hashed (h : Facing C clock handled bc chain) (hb : b ∈ chain.1) : Hashed C bc.consensus b ∧ b.difficultyBits ≠ 0 := by
  obtain ⟨i, hi⟩ := List.getElem?_of_mem hb
  cases i with
  | zero => exact ⟨(h.genesis hi).1.hashed, (h.genesis hi).1.bits⟩
  | succ i => exact ⟨(h.external hi).hashed, (h.external hi).bits⟩

theorem sameHeader_of_hashHex {blocks : List Block} (hdist : HeadersDistinct C p blocks)
    (ha : Hashed C p a) (hb : Hashed C p b) (hmemA : a ∈ blocks) (hmemB : b ∈ blocks) (heq : a.hashHex = b.hashHex) : SameHeader a b := by
  obtain ⟨headerA, hinA, hheaderA, hsumA⟩ := ha.mem_headerMessages hmemA
  obtain ⟨headerB, hinB, hheaderB, hsumB⟩ := hb.mem_headerMessages hmemB
  have hsame : C.sha256 headerA = C.sha256 headerB := by
    rw [← hsumA, ← hsumB]
    exact hexEncode_inj.mp heq
  obtain rfl := hdist.collisionFree headerA hinA headerB hinB hsame
  exact sameHeader_of_ok hheaderA hheaderB

theorem Facing.place (h : Facing C clock handled bc chain) {j : Nat} (ha : chain.1[i]? = some a)
    (hb : chain.1[j]? = some b) (heq : a.hashHex = b.hashHex) : i = j := by
  have hmemA := mem_of_getElem? ha
  have hmemB := mem_of_getElem? hb
  have hsame := sameHeader_of_hashHex h.distinct (h.hashed hmemA).1 (h.hashed hmemB).1 (mem_append_right _ hmemA)
    (mem_append_right _ hmemB) heq
  have hheight := hsame.height
  rw [h.peer.linked.height ha, h.peer.linked.height hb] at hheight
  have hlen := h.peer.length
  obtain ⟨hi, -⟩ := List.getElem?_eq_some_iff.mp ha
  obtain ⟨hj, -⟩ := List.getElem?_eq_some_iff.mp hb
  have hheight := congrArg UInt64.toNat hheight
  rw [UInt64.toNat_ofNat_of_lt' (show i < 2 ^ 64 by omega), UInt64.toNat_ofNat_of_lt' (show j < 2 ^ 64 by omega)] at hheight
  exact hheight

theorem Facing.prevHash (h : Facing C clock handled bc chain) (hprev : chain.1[i]? = some prev)
    (hb : chain.1[i + 1]? = some b) : b.prevHash.bytes = prev.hash.bytes := by
  have hfollows := (h.peer.linked.follows i b hb).prevHash
  obtain ⟨hi, rfl⟩ := List.getElem?_eq_some_iff.mp hprev
  rwa [getD_eq_getElem _ _ hi] at hfollows

theorem Facing.held_headerOnly (h : Facing C clock handled bc chain) (hb : b ∈ chain.1) : (bc.held b).headerOnly = b.headerOnly := by
  unfold Blockchain.held
  cases hlookup : bc.blocksByHash.lookup b.hashHex with
  | none => rfl
  | some v =>
    rw [Option.getD_some]
    obtain ⟨i, hi⟩ := List.getElem?_of_mem hb
    cases i with
    | zero =>
      rw [(h.genesis hi).2] at hlookup
      rw [Option.some.inj hlookup]
    | succ i =>
      have hstored := h.tree.stored _ _ hlookup
      have hsame := sameHeader_of_hashHex h.distinct hstored.hashed (h.hashed hb).1 (mem_append_left _ hstored.mem)
        (mem_append_right _ hb) hstored.key.symm
      -- a previous hash is a digest, so that it is not mistaken for none
      obtain ⟨hlen, -⟩ := List.getElem?_eq_some_iff.mp hi
      have hprev := List.getElem?_eq_getElem (show i < chain.1.length by omega)
      have hmem := mem_of_getElem? hprev
      have hprevHash := h.prevHash hprev hi
      obtain ⟨header, hin, -, hsum⟩ := (h.hashed hmem).1.mem_headerMessages (mem_append_right handled hmem)
      have hlenPrev : b.prevHash.bytes.length = 32 := by rw [hprevHash, (h.hashed hmem).1.length]
      have hheaderPrev := hsame.prevHash
      rw [headerPrev, headerPrev, if_pos hlenPrev] at hheaderPrev
      have hbytes : v.prevHash.bytes = b.prevHash.bytes := by
        split at hheaderPrev
        · exact hheaderPrev
        · exact absurd (hsum.symm.trans (hprevHash.symm.trans hheaderPrev.symm)) (h.distinct.nonzero header hin)
      exact headerOnly_eq_iff.mpr ⟨hsame.version, hsame.height, hsame.timestampUnix, hbytes, hsame.difficultyBits,
        (hexEncode_inj.mp hstored.key).symm⟩

theorem Facing.asHeld_headerOnly (h : Facing C clock handled bc chain) :
    (bc.asHeld chain.1).map Block.headerOnly = chain.1.map Block.headerOnly := by
  unfold Blockchain.asHeld
  rw [map_map]
  exact map_congr_left fun b hb => h.held_headerOnly hb

theorem Facing.work_take (h : Facing C clock handled bc chain) (n : Nat) :
    pathWork ((bc.asHeld chain.1).take n) = pathWork (chain.1.take n) := by
  rw [← pathWork_headerOnly, map_take, h.asHeld_headerOnly, ← map_take, pathWork_headerOnly]

/-! ## What a round does to the tree -/

theorem addBlock_tree (C : Crypto) (S : ChainStore σ) (bc : Blockchain σ) (b : Block) (clock : Nat → Int64) :
    (addBlock C S bc (some b) clock).chain.blocksByHash = bc.blocksByHash ∨
      b.hashHex ∉ bc.blocksByHash ∧
        (addBlock C S bc (some b) clock).chain.blocksByHash = bc.blocksByHash.set b.hashHex b := by
  rcases addBlock_cases C S bc (some b) clock with ⟨-, hrejected, -⟩ | ⟨b', cand, hb, hv, -, hadd⟩
  · exact Or.inl hrejected.sameMemory.blocksByHash
  · cases hb
    refine Or.inr ⟨hv.fresh, ?_⟩
    rw [hadd]
    by_cases hbetter : isBetter cand.work b.hashHex (bc.insert S b).canonicalWork (bc.insert S b).bestTipHash
    · rw [(chooseTip_of_better C S (bc.insert S b) b cand hbetter).1]
      rfl
    · rw [chooseTip_of_not_better C S (bc.insert S b) b cand hbetter]
      rfl

theorem FreshRun.step {S : ChainStore σ} {bc' : Blockchain σ} {block : Option Block} (h : FreshRun C S handled bc)
    (hstep : Step C S bc block bc') : FreshRun C S (handled ++ block.toList) bc' := by
  obtain ⟨chainID, minerAddress, raw, ignoreRulesHash, st, bc0, genesis, bs, hload, hblocks, htree, hruns, rfl⟩ := h
  exact ⟨chainID, minerAddress, raw, ignoreRulesHash, st, bc0, genesis, bs ++ block.toList, hload, hblocks, htree,
    Runs.step hruns hstep, append_assoc _ _ _⟩

/-- A node that has added nothing but the first `n` blocks of the peer to what it had. -/
structure Followed (C : Crypto) (S : ChainStore σ) (handled : List Block) (bc : Blockchain σ) (chain : Path) (n : Nat)
    (w : Syncing σ) : Prop where
  run : ∃ added, FreshRun C S (handled ++ added) w.chain ∧ ∀ b ∈ added, b ∈ chain.1
  consensus : w.chain.consensus = bc.consensus
  chainID : w.chain.chainID = bc.chainID
  old : ∀ k v, bc.blocksByHash.lookup k = some v → w.chain.blocksByHash.lookup k = some v
  new : ∀ k v, w.chain.blocksByHash.lookup k = some v → bc.blocksByHash.lookup k = some v ∨ v ∈ chain.1.take n ∧ k = v.hashHex

variable {S : ChainStore σ} {n : Nat} {w : Syncing σ}

theorem followed_start (hrun : FreshRun C S handled bc) : Followed C S handled bc chain n { chain := bc } :=
  ⟨⟨[], by rwa [append_nil], by simp⟩, rfl, rfl, fun _ _ hv => hv, fun _ _ hv => Or.inl hv⟩

theorem followed_ask (h : Followed C S handled bc chain n w) : Followed C S handled bc chain n w.ask :=
  ⟨h.run, h.consensus, h.chainID, h.old, h.new⟩

theorem lookup_set_of_fresh {m : GoMap Bytes Block} {k : Bytes} (hfresh : b.hashHex ∉ m) (hv : m.lookup k = some v) :
    (m.set b.hashHex b).lookup k = some v := by
  have hne : k ≠ b.hashHex := by
    rintro rfl
    exact hfresh (Finmap.lookup_isSome.mp (by rw [hv]; rfl))
  rw [GoMap.lookup_set_of_ne _ _ hne, hv]

theorem followed_add (h : Followed C S handled bc chain n w) (hb : b ∈ chain.1.take n) :
    Followed C S handled bc chain n (w.add C S clock b).2 := by
  have hstep : Step C S w.chain (some b) (w.add C S clock b).2.chain := Step.add w.chain (some b) (clock w.adds)
  obtain ⟨hcons, hid, -⟩ := step_startedWith hstep
  obtain ⟨added, hrun, hadded⟩ := h.run
  refine ⟨⟨added ++ [b], ?_, ?_⟩, hcons.trans h.consensus, hid.trans h.chainID, ?_, ?_⟩
  · have hrun' := FreshRun.step hrun hstep
    rwa [append_assoc] at hrun'
  · exact forall_mem_concat.mpr ⟨hadded, mem_of_mem_take hb⟩
  · intro k v hv
    change (addBlock C S w.chain (some b) (clock w.adds)).chain.blocksByHash.lookup k = some v
    rcases addBlock_tree C S w.chain b (clock w.adds) with heq | ⟨hfresh, heq⟩
    · rw [heq]
      exact h.old k v hv
    · rw [heq]
      exact lookup_set_of_fresh hfresh (h.old k v hv)
  · intro k v hv
    change (addBlock C S w.chain (some b) (clock w.adds)).chain.blocksByHash.lookup k = some v at hv
    rcases addBlock_tree C S w.chain b (clock w.adds) with heq | ⟨-, heq⟩
    · rw [heq] at hv
      exact h.new k v hv
    · rw [heq, GoMap.lookup_set] at hv
      split at hv
      · rename_i hk
        cases hv
        exact Or.inr ⟨hb, hk⟩
      · exact h.new k v hv

/-! ## The chain of a block of the peer -/

theorem Followed.tree (hface : Facing C clock handled bc chain) (h : Followed C S handled bc chain n w) :
    ∃ handled', TreeInv C handled' w.chain := by
  obtain ⟨added, hrun, hadded⟩ := h.run
  refine ⟨handled ++ added, treeInv_freshRun hrun ?_⟩
  rw [h.consensus]
  refine hface.distinct.of_subset fun b hb => ?_
  rcases mem_append.mp hb with hb | hb
  · exact mem_append_left _ hb
  · exact mem_append_right _ (hadded b hb)

theorem Followed.lookup (hface : Facing C clock handled bc chain) (h : Followed C S handled bc chain n w)
    (hb : b ∈ chain.1) (hv : w.chain.blocksByHash.lookup b.hashHex = some v) : v = bc.held b := by
  unfold Blockchain.held
  cases hlookup : bc.blocksByHash.lookup b.hashHex with
  | some u =>
    rw [h.old _ _ hlookup] at hv
    exact (Option.some.inj hv).symm
  | none =>
    rcases h.new _ _ hv with hold | ⟨hmem, hkey⟩
    · rw [hlookup] at hold
      cases hold
    · obtain ⟨i, hi⟩ := List.getElem?_of_mem (mem_of_mem_take hmem)
      obtain ⟨j, hj⟩ := List.getElem?_of_mem hb
      obtain rfl := hface.place hj hi hkey
      rw [hi] at hj
      exact Option.some.inj hj

theorem take_succ_asHeld (hb : chain.1[i]? = some b) : (bc.asHeld chain.1).take (i + 1) = (bc.asHeld chain.1).take i ++ [bc.held b] := by
  rw [take_add_one, Blockchain.asHeld, List.getElem?_map, hb]
  rfl

/-- If the hash of a block of the peer is known, its chain is that of the peer as the node holds it. By induction on the place. -/
theorem Followed.chainTo (hface : Facing C clock handled bc chain) (h : Followed C S handled bc chain n w)
    (hb : chain.1[i]? = some b) (hknown : b.hashHex ∈ w.chain.blocksByHash) :
    ChainTo parentKey w.chain.blocksByHash b.hashHex ((bc.asHeld chain.1).take (i + 1)) := by
  obtain ⟨handled', htree⟩ := h.tree hface
  induction i generalizing b with
  | zero =>
    rw [take_succ_asHeld hb, take_zero, nil_append]
    obtain ⟨v, hv⟩ := Option.isSome_iff_exists.mp (Finmap.lookup_isSome.mpr hknown)
    obtain rfl := h.lookup hface (mem_of_getElem? hb) hv
    refine ChainTo.root hv (if_pos ?_)
    have hheader := (headerOnly_eq_iff.mp (hface.held_headerOnly (mem_of_getElem? hb))).2.2.2.1
    rw [hheader]
    exact (hface.peer.linked.genesis b hb).prevHash
  | succ i ih =>
    rw [take_succ_asHeld hb]
    obtain ⟨v, hv⟩ := Option.isSome_iff_exists.mp (Finmap.lookup_isSome.mpr hknown)
    obtain rfl := h.lookup hface (mem_of_getElem? hb) hv
    obtain ⟨hlen, -⟩ := List.getElem?_eq_some_iff.mp hb
    have hprev := List.getElem?_eq_getElem (show i < chain.1.length by omega)
    have hheader := (headerOnly_eq_iff.mp (hface.held_headerOnly (mem_of_getElem? hb))).2.2.2.1
    have hparent : parentKey (bc.held b) = some (chain.1[i]).hashHex :=
      parentKey_of_prevHash (hheader.trans (hface.prevHash hprev hb)) (hface.hashed (mem_of_getElem? hprev)).1.length
    -- the tree has a chain for the block, so it has its parent
    have hprevKnown : (chain.1[i]).hashHex ∈ w.chain.blocksByHash := by
      obtain ⟨path, hpath⟩ := htree.rooted _ hknown
      cases hpath with
      | root hv' hroot =>
        cases hv.symm.trans hv'
        rw [hparent] at hroot
        cases hroot
      | child hv' hparent' hchild =>
        cases hv.symm.trans hv'
        cases hparent.symm.trans hparent'
        exact hchild.mem
    exact ChainTo.child hv hparent (ih hprev hprevKnown)

theorem Followed.tip_cases (hface : Facing C clock handled bc chain) (h : Followed C S handled bc chain n w) :
    w.chain.canonicalWork ≤ bc.canonicalWork ∨
      ∃ i, i < n ∧ i < chain.1.length ∧ w.chain.blocks.1 = (bc.asHeld chain.1).take (i + 1) := by
  obtain ⟨handled', htree⟩ := h.tree hface
  obtain ⟨v, hv, -⟩ := htree.best.chain.getLast
  rcases h.new _ _ hv with hold | ⟨hmem, hkey⟩
  · left
    obtain ⟨path, hpath⟩ := hface.tree.rooted _ (Finmap.lookup_isSome.mp (by rw [hold]; rfl))
    have hblocks := htree.best.chain.unique (hpath.mono h.old)
    rw [htree.derived.canonicalWork, hface.tree.derived.canonicalWork, hblocks]
    change total blockWork path ≤ total blockWork bc.blocks.1
    rcases hface.tree.best.best _ _ hpath with heq | hlt | ⟨heq, -⟩
    · rw [heq] at hpath
      rw [hpath.unique hface.tree.best.chain]
    · omega
    · omega
  · right
    obtain ⟨i, hi⟩ := List.getElem?_of_mem hmem
    have hin : i < n ∧ i < chain.1.length := by
      obtain ⟨hlt, -⟩ := List.getElem?_eq_some_iff.mp hi
      rw [length_take] at hlt
      omega
    rw [List.getElem?_take_of_lt hin.1] at hi
    have hknown : v.hashHex ∈ w.chain.blocksByHash := by
      rw [← hkey]
      exact htree.best.chain.mem
    refine ⟨i, hin.1, hin.2, ?_⟩
    have hchain := h.chainTo hface hi hknown
    rw [← hkey] at hchain
    exact htree.best.chain.unique hchain

theorem Facing.work_lt (h : Facing C clock handled bc chain) (hi : i < chain.1.length) : pathWork (chain.1.take i) < pathWork chain.1 := by
  have hsplit := pathWork_append (chain.1.take i) (chain.1.drop i)
  rw [take_append_drop] at hsplit
  have hpos := blockWork_pos (h.hashed (getElem_mem hi)).2
  have hdrop : pathWork (chain.1.drop i) = blockWork chain.1[i] + pathWork (chain.1.drop (i + 1)) := by
    rw [drop_eq_getElem_cons hi]
    rfl
  omega

theorem Followed.work_lt (hface : Facing C clock handled bc chain) (h : Followed C S handled bc chain n w)
    (hmore : bc.canonicalWork < pathWork chain.1) (hn : n < chain.1.length) : w.chain.canonicalWork < pathWork chain.1 := by
  rcases h.tip_cases hface with hle | ⟨i, hi, -, hblocks⟩
  · omega
  · obtain ⟨_, htree⟩ := h.tree hface
    rw [htree.derived.canonicalWork, hblocks, hface.work_take]
    exact hface.work_lt (by omega)

theorem Followed.applies (hface : Facing C clock handled bc chain) (h : Followed C S handled bc chain n w)
    (hmore : bc.canonicalWork < pathWork chain.1) (hwork : pathWork chain.1 ≤ w.chain.canonicalWork) :
    ∃ s, applyBlocks C bc.consensus (bc.asHeld chain.1) ∅ = (.ok (), s) := by
  obtain ⟨_, htree⟩ := h.tree hface
  rcases h.tip_cases hface with hle | ⟨i, -, hlen, hblocks⟩
  · omega
  · have hall : chain.1.length ≤ i + 1 := by
      by_contra hlt
      have hless := hface.work_lt (show i + 1 < chain.1.length by omega)
      rw [htree.derived.canonicalWork, hblocks, hface.work_take] at hwork
      omega
    rw [take_of_length_le (by rw [Blockchain.asHeld, length_map]; exact hall)] at hblocks
    have hstate := htree.derived.state
    rw [h.consensus, hblocks] at hstate
    exact ⟨_, hstate⟩

end SyncAux

end NeoCoin
