import NeoCoin.BoltStore
import NeoCoin.Theorems.Paths

/-!
# A node after a restart

What the database holds at every point of a run is the memory of the node: its blocks, and its chain under increasing heights. A second
load then finds what the first one stored, and ends in the same node (`restart_reproduces`).
-/

namespace NeoCoin

open GoLib List

/-! ## What the buckets stand for -/

def canonEntry (b : Block) : Bytes × Bytes := (u64be b.height, b.hash.bytes)

/-- The bucket of blocks holds exactly the blocks of a map keyed by the hexadecimal hash. -/
def Holds {β : Type} (G : Gob β) (st : Bolt β) (m : GoMap Bytes Block) : Prop :=
  ∀ k, st.blocksB.get k = (m.lookup (hexEncode k)).map G.encode

def HasBlocks (m : GoMap Bytes Block) (blocks : List Block) : Prop := ∀ b ∈ blocks, m.lookup b.hashHex = some b

variable {b : Block} {key : Bytes} {blocks : List Block}

namespace BoltAux

variable {β : Type} {G : Gob β} {st : Bolt β} {m : GoMap Bytes Block}

/-! ## Blocks -/

@[simp] theorem putNew_canonB (G : Gob β) (st : Bolt β) (b : Block) : (st.putNew G b).canonB = st.canonB := by
  unfold Bolt.putNew
  split
  · rfl
  · rfl

@[simp] theorem putNew_metaB (G : Gob β) (st : Bolt β) (b : Block) : (st.putNew G b).metaB = st.metaB := by
  unfold Bolt.putNew
  split
  · rfl
  · rfl

theorem putNew_of_lookup (h : Holds G st m) (hb : m.lookup b.hashHex = some b) : st.putNew G b = st := by
  have hget : st.blocksB.get b.hash.bytes = some (G.encode b) := by
    rw [h b.hash.bytes]
    exact congrArg (Option.map G.encode) hb
  unfold Bolt.putNew
  rw [hget]

theorem holds_putNew (h : Holds G st m) (hb : b.hashHex ∉ m) : Holds G (st.putNew G b) (m.set b.hashHex b) := by
  have hget : st.blocksB.get b.hash.bytes = none := by
    rw [h b.hash.bytes]
    exact congrArg (Option.map G.encode) (Finmap.lookup_eq_none.mpr hb)
  intro k
  unfold Bolt.putNew
  rw [hget]
  simp only [OrdMap.get_put, GoMap.lookup_set, Block.hashHex, hexEncode_inj]
  split
  · rfl
  · exact h k

/-- The loop of `ReadAllBlocks` over entries that can all be decoded. -/
theorem readAll_loop {block : Bytes × β → Block} {es : List (Bytes × β)} (h : ∀ e ∈ es, G.decode e.2 = .ok (block e))
    (out : GoMap Bytes Block) : es.foldlM (fun out e => do
        let blk ← G.decode e.2
        .ok (out.set (hexEncode e.1) blk)) out = .ok (es.foldl (fun out e => out.set (hexEncode e.1) (block e)) out) := by
  induction es generalizing out with
  | nil => rfl
  | cons e es ih =>
    rw [foldlM_cons, h e mem_cons_self]
    exact ih (fun e' he' => h e' (.tail e he')) _

theorem readAllBlocks_of_holds (h : Holds G st m) (hkeys : ∀ k b, m.lookup k = some b → k = b.hashHex) : st.readAllBlocks G = .ok m := by
  have hblock : ∀ e ∈ st.blocksB.entries, ∃ b, m.lookup (hexEncode e.1) = some b ∧ e.2 = G.encode b := by
    intro e he
    have hget := OrdMap.get_eq_some_iff.mpr he
    rw [h e.1, Option.map_eq_some_iff] at hget
    obtain ⟨b, hb, henc⟩ := hget
    exact ⟨b, hb, henc.symm⟩
  have hdecode : ∀ e ∈ st.blocksB.entries, G.decode e.2 = .ok (m.get (hexEncode e.1)) := by
    intro e he
    obtain ⟨b, hb, henc⟩ := hblock e he
    rw [henc, G.decode_encode, GoMap.get, hb]
    rfl
  rw [Bolt.readAllBlocks, readAll_loop hdecode]
  congr 1
  refine Finmap.ext_lookup fun k => Option.ext fun b => ?_
  rw [GoMap.lookup_foldl_set (fun e _ e' _ heq => by rw [heq])]
  constructor
  · intro hb
    rcases hb with ⟨e, he, rfl, rfl⟩ | ⟨hb, -⟩
    · obtain ⟨b, hb, -⟩ := hblock e he
      rw [hb, GoMap.get, hb]
      rfl
    · exact absurd hb (by simp)
  · intro hb
    have hk : hexEncode b.hash.bytes = k := (hkeys k b hb).symm
    have hget := h b.hash.bytes
    rw [hk, hb] at hget
    exact Or.inl ⟨_, OrdMap.get_eq_some_iff.mp hget, hk, by rw [hk, GoMap.get, hb]; rfl⟩

/-! ## The canonical chain -/

theorem readCanonical_of_entries (h : Holds G st m) (hblocks : HasBlocks m blocks)
    (hentries : st.canonB.entries = blocks.map canonEntry) : st.readCanonical G = .ok blocks := by
  rw [Bolt.readCanonical, hentries]
  have hread : ∀ b ∈ blocks, st.readBlock G (canonEntry b).2 = .ok b := by
    intro b hb
    have hget := h b.hash.bytes
    rw [show m.lookup (hexEncode b.hash.bytes) = some b from hblocks b hb] at hget
    unfold Bolt.readBlock canonEntry
    rw [hget]
    exact G.decode_encode b
  clear hentries hblocks
  induction blocks with
  | nil => rfl
  | cons b blocks ih =>
    rw [map_cons, mapM_cons, hread b (.head _), ih fun b' hb' => hread b' (.tail b hb')]
    rfl

theorem pairwise_canonEntry {p : ConsensusParams} {path : List Block} (h : Linked p path) (hlen : path.length ≤ 2 ^ 64) :
    (path.map canonEntry).Pairwise fun e e' => e.1 < e'.1 := by
  rw [pairwise_map, pairwise_iff_getElem]
  intro i j hi hj hlt
  have hheight : ∀ k (hk : k < path.length), path[k].height.toNat = k := by
    intro k hk
    rw [h.height (List.getElem?_eq_getElem hk), UInt64.toNat_ofNat_of_lt' (show k < 2 ^ 64 by omega)]
  refine beBytes_lt_beBytes ?_
  rw [hheight i hi, hheight j hj, Nat.mod_eq_of_lt (show i < 256 ^ 8 by omega), Nat.mod_eq_of_lt (show j < 256 ^ 8 by omega)]
  exact hlt

/-- The loop of `RewriteCanonical` over blocks that are all stored: it writes their entries. -/
theorem rewrite_loop (h : Holds G st m) (hblocks : HasBlocks m blocks)
    (hhash : ∀ b ∈ blocks, b.hash.bytes.length ≠ 0) (tip : Option (Bytes × UInt64)) : blocks.foldlM (Bolt.rewriteBlock G) (st, tip) =
      .ok ({ st with canonB := (blocks.map canonEntry).foldl (fun m e => m.put e.1 e.2) st.canonB },
        (blocks.getLast?.map fun b => (b.hash.bytes, b.height)).or tip) := by
  induction blocks generalizing st tip with
  | nil => rfl
  | cons b blocks ih =>
    have hround : Bolt.rewriteBlock G (st, tip) b = .ok (st.putCanon b, some (b.hash.bytes, b.height)) := by
      unfold Bolt.rewriteBlock
      rw [bind_eq_ok]
      refine ⟨(), failIf_eq_ok.mpr (hhash b (.head _)), ?_⟩
      rw [putNew_of_lookup h (hblocks b (.head _))]
    have hstep : Holds G (st.putCanon b) m := h
    rw [foldlM_cons, hround]
    refine (ih hstep (fun b' hb' => hblocks b' (.tail b hb'))
      (fun b' hb' => hhash b' (.tail b hb')) _).trans ?_
    rw [List.getLast?_cons]
    cases blocks.getLast? with
    | none => rfl
    | some last => rfl

theorem get_setTip (st : Bolt β) (hash : Bytes) (height : UInt64) (hne : key ≠ metaTipHash) (hne' : key ≠ metaTipHeight) :
    (st.setTip hash height).metaB.get key = st.metaB.get key := by
  unfold Bolt.setTip
  rw [OrdMap.get_put_of_ne _ _ hne', OrdMap.get_put_of_ne _ _ hne]

/-! ## What each call leaves -/

theorem update_of_ok {tx : Bolt β → Result (Bolt β)} {st' : Bolt β} (h : tx st = .ok st') : st.update tx = (.ok (), st') := by
  unfold Bolt.update
  rw [h]

theorem putBlock_cases (G : Gob β) (st : Bolt β) (b : Block) :
    (st.putBlock G b).1 ≠ .ok () ∧ (st.putBlock G b).2 = st ∨ st.putBlock G b = (.ok (), st.putNew G b) := by
  unfold Bolt.putBlock
  split
  · exact Or.inl ⟨by simp, rfl⟩
  · exact Or.inr rfl

theorem putBlock_of_lookup (h : Holds G st m) (hb : m.lookup b.hashHex = some b) : (st.putBlock G b).2 = st := by
  rcases putBlock_cases G st b with ⟨-, hsame⟩ | hok
  · exact hsame
  · rw [hok]
    exact putNew_of_lookup h hb

theorem appendCanonical_ok (h : (st.appendCanonical G b).1 = .ok ()) :
    (st.appendCanonical G b).2 = ((st.putNew G b).putCanon b).setTip b.hash.bytes b.height := by
  unfold Bolt.appendCanonical at h ⊢
  split
  · rename_i hnil
    rw [if_pos hnil] at h
    cases h
  · rename_i hhash
    rw [if_neg hhash] at h
    unfold Bolt.update at h ⊢
    rcases Result.ok_or_error ((st.putNew G b).checkAppend b) with ⟨_, hcheck⟩ | ⟨e, hcheck⟩
    · simp only [hcheck, bind, Except.bind]
    · simp only [hcheck, bind, Except.bind] at h
      cases h

theorem holds_append (h : Holds G st m) (hb : b.hashHex ∉ m) (hok : (st.appendCanonical G b).1 = .ok ()) :
    Holds G (st.appendCanonical G b).2 (m.set b.hashHex b) := by
  rw [appendCanonical_ok hok]
  exact holds_putNew h hb

theorem canonB_append (hok : (st.appendCanonical G b).1 = .ok ()) :
    (st.appendCanonical G b).2.canonB = st.canonB.put (u64be b.height) b.hash.bytes := by
  rw [appendCanonical_ok hok, ← putNew_canonB G st b]
  rfl

theorem get_append (hok : (st.appendCanonical G b).1 = .ok ()) (hne : key ≠ metaTipHash)
    (hne' : key ≠ metaTipHeight) : (st.appendCanonical G b).2.metaB.get key = st.metaB.get key := by
  rw [appendCanonical_ok hok, get_setTip _ _ _ hne hne', ← putNew_metaB G st b]
  rfl

theorem rewriteCanonical_eq (h : Holds G st m) {path : Path} (hblocks : HasBlocks m path.1)
    (hhash : ∀ b ∈ path.1, b.hash.bytes.length ≠ 0) : (st.rewriteCanonical G path.1).2 =
      Bolt.setTip { st with canonB := (path.1.map canonEntry).foldl (fun m e => m.put e.1 e.2) st.clearCanon.canonB }
        path.tip.hash.bytes path.tip.height := by
  have hcleared : Holds G st.clearCanon m := h
  refine congrArg Prod.snd (update_of_ok (bind_eq_ok.mpr ⟨_, rewrite_loop hcleared hblocks hhash none, ?_⟩))
  rw [List.getLast?_eq_some_getLast path.2]
  rfl

end BoltAux

/-! ## The invariant -/

structure Persisted {β : Type} (C : Crypto) (G : Gob β) (genesis : Block) (bc : Blockchain (Bolt β)) : Prop where
  blocks : Holds G bc.store bc.blocksByHash
  canonical : bc.blocks.1.length ≤ 2 ^ 64 → bc.store.canonB.entries = bc.blocks.1.map canonEntry
  rulesHash : bc.store.metaB.get metaRulesHash = some (bc.consensus.rulesHash C)
  genesisHash : bc.store.metaB.get metaGenesisHash = some genesis.hash.bytes

namespace BoltAux

open HeaderAux TreeAux PathAux

variable {β : Type} {G : Gob β}

theorem hasBlocks_of_chain {m : GoMap Bytes Block} (hkeys : ∀ k b, m.lookup k = some b → k = b.hashHex) {k : Bytes} {path : List Block}
    (h : ForkTree.ChainTo parentKey m k path) : HasBlocks m path := by
  intro b hb
  obtain ⟨k', hk'⟩ := h.exists_lookup hb
  rw [← hkeys k' b hk']
  exact hk'

variable {C : Crypto} {bc : Blockchain (Bolt β)} {genesis : Block}

theorem persisted_insert (h : Persisted C G genesis bc) (hfresh : b.hashHex ∉ bc.blocksByHash) (hput : (bc.store.putBlock G b).1 = .ok ()) :
    Persisted C G genesis (bc.insert (boltStore G) b) := by
  have hstore : (bc.insert (boltStore G) b).store = bc.store.putNew G b := by
    rcases putBlock_cases G bc.store b with ⟨hfailed, -⟩ | hok
    · exact absurd hput hfailed
    · exact congrArg Prod.snd hok
  refine ⟨?_, ?_, ?_, ?_⟩
  · rw [hstore]
    exact holds_putNew h.blocks hfresh
  · rw [hstore, putNew_canonB]
    exact h.canonical
  · rw [hstore, putNew_metaB]
    exact h.rulesHash
  · rw [hstore, putNew_metaB]
    exact h.genesisHash

/-- Every step keeps the invariant. -/
theorem persisted_step {cfg : GenesisConfig} {handled : List Block} {bc' : Blockchain (Bolt β)}
    {block : Option Block} (hstep : Step C (boltStore G) bc block bc') (htree : TreeInv C handled bc) (hchain : ChainInv C cfg genesis bc)
    (hdist : HeadersDistinct C bc.consensus (handled ++ block.toList)) (h : Persisted C G genesis bc) : Persisted C G genesis bc' := by
  have hchain' := chainInv_step hstep hchain
  have htree' := treeInv_step hstep hdist htree
  rcases step_cases hstep with ⟨st, rfl, hst⟩ | ⟨b, clock, cand, rfl, hv, hput, -, rfl⟩ | ⟨b, clock, cand, rfl, hv, hput, -, rfl⟩ |
    ⟨b, transfers, now, rfl, hm, happend, rfl⟩
  · have hsame : st = bc.store := by
      rcases hst with rfl | ⟨b, -, hfailed, rfl⟩
      · rfl
      · rcases putBlock_cases G bc.store b with ⟨-, hsame⟩ | hok
        · exact hsame
        · exact absurd (congrArg Prod.fst hok) hfailed
    rw [hsame]
    exact h
  · exact persisted_insert h hv.fresh hput
  · -- the new chain is written in full, and all of its blocks are there
    have hinserted := persisted_insert h hv.fresh hput
    have hblocks := hasBlocks_of_chain (fun k b hb => (htree'.stored k b hb).key) (chain_of_candidate hv.computed)
    have hstore : ((boltStore G).rewriteCanonical (bc.insert (boltStore G) b).store cand.path.1).2 = _ :=
      rewriteCanonical_eq hinserted.blocks hblocks fun b' hb' => (hchain'.blocks b' hb').hash
    rw [hstore]
    refine ⟨hinserted.blocks, ?_, ?_, ?_⟩
    · intro hlen
      have hcleared : (bc.insert (boltStore G) b).store.clearCanon.canonB.entries = [] :=
        OrdMap.foldl_delete_entries _ _ fun e he => mem_map_of_mem he
      have hsorted := pairwise_canonEntry hchain'.linked hlen
      refine (OrdMap.foldl_put_entries _ _ ?_).trans ?_
      · rw [hcleared]
        exact hsorted
      · rw [hcleared]
        rfl
    · exact (get_setTip _ _ _ (by decide) (by decide)).trans hinserted.rulesHash
    · exact (get_setTip _ _ _ (by decide) (by decide)).trans hinserted.genesisHash
  · -- a mined block is new, and goes on top
    obtain ⟨hhash, hprev, -⟩ := minedBlock_ok htree.bits hm.mined
    have hfresh := mined_fresh htree hdist hhash hprev
    have hmap := addToIndex_of_hash bc.blocksByHash (by rw [hhash.length]; decide)
    refine ⟨?_, ?_, ?_, ?_⟩
    · have hholds := holds_append h.blocks hfresh happend
      rw [← hmap] at hholds
      exact hholds
    · intro hlen
      have hsnoc : (bc.blocks.1 ++ [b]).length ≤ 2 ^ 64 := hlen
      rw [length_append] at hsnoc
      have hentries := h.canonical (by omega)
      have hsorted : ((bc.blocks.1 ++ [b]).map canonEntry).Pairwise fun e e' => e.1 < e'.1 :=
        pairwise_canonEntry hchain'.linked hlen
      rw [map_append] at hsorted
      change ((boltStore G).appendCanonical bc.store b).2.canonB.entries = (bc.blocks.1 ++ [b]).map canonEntry
      refine (congrArg OrdMap.entries (canonB_append happend)).trans ((OrdMap.entries_put_of_lt _ ?_).trans ?_)
      · intro e he
        rw [hentries] at he
        exact (pairwise_append.mp hsorted).2.2 e he (canonEntry b) (.head _)
      · rw [hentries, map_append]
        rfl
    · exact (get_append happend (by decide) (by decide)).trans h.rulesHash
    · exact (get_append happend (by decide) (by decide)).trans h.genesisHash

/-- Every run keeps the invariant, together with those of the memory. -/
theorem persisted_runs {cfg : GenesisConfig} {before handled : List Block}
    {bc0 : Blockchain (Bolt β)} (hrun : Runs C (boltStore G) bc0 handled bc) (htree : TreeInv C before bc0)
    (hchain : ChainInv C cfg genesis bc0) (hdist : HeadersDistinct C bc.consensus (before ++ handled))
    (h : Persisted C G genesis bc0) : Persisted C G genesis bc := by
  induction hrun with
  | start => exact h
  | step hrun hstep ih =>
    rw [(step_startedWith hstep).1, ← append_assoc] at hdist
    exact persisted_step hstep (treeInv_runs hrun htree hdist.mono) (chainInv_runs hrun hchain) hdist (ih hdist.mono)

/-! ## The start -/

variable {st : Bolt β}

theorem getHash_none (h : st.metaB.get key = none) : st.getHash key = .ok none := by
  unfold Bolt.getHash
  rw [h]

variable {hash : Bytes}

theorem getHash_some (h : st.metaB.get key = some hash) (hlen : hash.length = 32) : st.getHash key = .ok (some hash) := by
  unfold Bolt.getHash
  rw [h]
  exact if_neg (by rw [hlen]; decide)

theorem putHash_eq (name : String) (key : Bytes) (st : Bolt β) (hlen : hash.length = 32) :
    st.putHash name key hash = (.ok (), { st with metaB := st.metaB.put key hash }) :=
  if_neg (not_not.mpr hlen)

theorem checkRulesHash_first (C : Crypto) (p : ConsensusParams) (ignoreRulesHash : Bool) (h : st.metaB.get metaRulesHash = none) :
    checkRulesHash C (boltStore G) p ignoreRulesHash st = .ok { st with metaB := st.metaB.put metaRulesHash (p.rulesHash C) } := by
  have hput : (boltStore G).putRulesHash st (p.rulesHash C) = _ := putHash_eq "rules hash" metaRulesHash st (C.sha256_length _)
  refine bind_eq_ok.mpr ⟨none, getHash_none h, ?_⟩
  simp only [hput]
  rfl

theorem checkRulesHash_again (C : Crypto) (p : ConsensusParams) (ignoreRulesHash : Bool)
    (h : st.metaB.get metaRulesHash = some (p.rulesHash C)) : checkRulesHash C (boltStore G) p ignoreRulesHash st = .ok st := by
  have hlen : (p.rulesHash C).length = 32 := C.sha256_length _
  refine bind_eq_ok.mpr ⟨some (p.rulesHash C), getHash_some h hlen, ?_⟩
  simp [hlen]

theorem checkGenesisHash_first (hlen : hash.length = 32) (h : st.metaB.get metaGenesisHash = none) :
    checkGenesisHash (boltStore G) hash st = .ok { st with metaB := st.metaB.put metaGenesisHash hash } := by
  have hput : (boltStore G).putGenesisHash st hash = _ := putHash_eq "genesis hash" metaGenesisHash st hlen
  refine bind_eq_ok.mpr ⟨none, getHash_none h, ?_⟩
  simp only [hput]
  rfl

theorem checkGenesisHash_again (hlen : hash.length = 32)
    (h : st.metaB.get metaGenesisHash = some hash) : checkGenesisHash (boltStore G) hash st = .ok st := by
  refine bind_eq_ok.mpr ⟨some hash, getHash_some h hlen, ?_⟩
  simp

theorem holds_empty : Holds G Bolt.empty ∅ := fun _ => rfl

theorem persisted_load {chainID : UInt64} {minerAddress : Bytes} {raw : GenesisConfigJSON} {ignoreRulesHash : Bool}
    (l : Loading C (boltStore G) chainID minerAddress raw ignoreRulesHash Bolt.empty bc) :
    ∃ genesis, bc.blocks.1 = [genesis] ∧ bc.blocksByHash = GoMap.set ∅ genesis.hashHex genesis ∧ Persisted C G genesis bc := by
  obtain ⟨cfg, blocks, all, st1, path, st2, genesisHash, first, st3, hcfg, -, -, hblocks, hall, hrules, hgenesis, hfirst, hsame, hinit⟩ := l
  obtain rfl : [] = blocks := Except.ok.inj hblocks
  obtain rfl : ∅ = all := Except.ok.inj hall
  have hg := isGenesis_of_load (validConfig_of_load hcfg) hgenesis
  have hst1 := Except.ok.inj ((checkRulesHash_first C cfg.consensusParams ignoreRulesHash rfl).symm.trans hrules)
  have hholds : Holds G st1 ∅ := by
    rw [← hst1]
    exact holds_empty
  have hcanon : st1.canonB = OrdMap.empty := by
    rw [← hst1]
    rfl
  have hrulesHash : st1.metaB.get metaRulesHash = some (cfg.consensusParams.rulesHash C) := by
    rw [← hst1]
    exact OrdMap.get_put_self _ _ _
  have hnone : st1.metaB.get metaGenesisHash = none := by
    rw [← hst1]
    exact OrdMap.get_put_of_ne _ _ (by decide)
  obtain ⟨g, -, rfl, happend, hst2⟩ := loadGenesis_nil_ok hgenesis
  rw [head_cons] at hg hfirst
  obtain ⟨rfl, rfl⟩ := Prod.mk.inj (Except.ok.inj ((ensureBlockHash_of_hashed hg.hashed).symm.trans hfirst))
  have hi := initChain_ok_iff.mp hinit
  have htree : bc.blocksByHash = GoMap.set ∅ g.hashHex g := hi.blocksByHash.trans (addToIndex_of_hash ∅ hg.hash)
  -- the genesis block is appended, and storing it once more changes nothing
  have hput := holds_append hholds Finmap.notMem_empty happend
  have hagain : st2 = (st1.appendCanonical G g).2 := hst2.trans (putBlock_of_lookup hput (GoMap.lookup_set_self _ _ _))
  have hcanon2 := canonB_append happend
  have hrules2 := get_append happend (show metaRulesHash ≠ metaTipHash by decide) (by decide)
  have hnone2 := get_append happend (show metaGenesisHash ≠ metaTipHash by decide) (by decide)
  change Holds G (st1.appendCanonical G g).2 _ at hput
  rw [← hagain] at hput hcanon2 hrules2 hnone2
  have hst3 := Except.ok.inj ((checkGenesisHash_first hg.hashed.length (hnone2.trans hnone)).symm.trans hsame)
  refine ⟨g, congrArg Subtype.val hi.blocks, htree, ?_, ?_, ?_, ?_⟩
  · rw [hi.store, htree, ← hst3]
    exact hput
  · intro _
    rw [hi.store, hi.blocks, ← hst3, hcanon2, hcanon]
    rfl
  · rw [hi.store, ← hst3, hi.consensus]
    exact (OrdMap.get_put_of_ne _ _ (by decide)).trans (hrules2.trans hrulesHash)
  · rw [hi.store, ← hst3]
    exact OrdMap.get_put_self _ _ _

theorem foldl_addToIndex {m : GoMap Bytes Block} (h : HasBlocks m blocks) : blocks.foldl addToIndex m = m := by
  induction blocks with
  | nil => rfl
  | cons b blocks ih =>
    have hsame : addToIndex m b = m := by
      unfold addToIndex
      split
      · rfl
      · exact GoMap.set_of_lookup (h b (.head _))
    rw [foldl_cons, hsame]
    exact ih fun b' hb' => h b' (.tail b hb')

end BoltAux

open BoltAux TreeAux PathAux HeaderAux

/-! ## The restart -/

/-- After any run from an empty database, it returns the chain in the order of heights and all blocks, and a node loaded from it is the
same node. No two headers share a digest, and the chain is not longer than a slice can be. -/
theorem restart_reproduces {β : Type} (C : Crypto) (G : Gob β) (chainID : UInt64) (minerAddress : Bytes) (raw : GenesisConfigJSON)
    (ignoreRulesHash : Bool) (bc0 bc : Blockchain (Bolt β)) (handled : List Block)
    (hload : loadBlockchain C (boltStore G) chainID minerAddress raw ignoreRulesHash Bolt.empty = some (.ok bc0))
    (hrun : Runs C (boltStore G) bc0 handled bc) (hdist : HeadersDistinct C bc.consensus (bc0.blocks.1 ++ handled))
    (hlen : bc.blocks.1.length < 2 ^ 63) :
    bc.store.readCanonical G = .ok bc.blocks.1 ∧ (∀ (i : Nat) b, bc.blocks.1[i]? = some b → b.height.toNat = i) ∧
      bc.store.readAllBlocks G = .ok bc.blocksByHash ∧
      ∀ ignore, loadBlockchain C (boltStore G) chainID minerAddress raw ignore bc.store = some (.ok bc) := by
  obtain ⟨l⟩ := loadBlockchain_ok_iff.mp hload
  obtain ⟨genesis, hblocks0, htree0, hpersisted0⟩ := persisted_load l
  rw [hblocks0] at hdist
  have htree := treeInv_runs hrun (treeInv_load hload hblocks0 htree0) hdist
  have hchain := chainInv_runs hrun (chainInv_load l hblocks0 htree0)
  have h := persisted_runs hrun (treeInv_load hload hblocks0 htree0) (chainInv_load l hblocks0 htree0) hdist hpersisted0
  have hkeys : ∀ k b, bc.blocksByHash.lookup k = some b → k = b.hashHex := fun k b hb => (htree.stored k b hb).key
  have hhas := hasBlocks_of_chain hkeys htree.best.chain
  have hcanonical := readCanonical_of_entries h.blocks hhas (h.canonical (by omega))
  have hall := readAllBlocks_of_holds h.blocks hkeys
  have hhead : bc.blocks.1.head bc.blocks.2 = genesis := Option.some.inj ((List.head?_eq_some_head bc.blocks.2).symm.trans hchain.head)
  have hpath : bc.blocks.1 = genesis :: bc.blocks.1.tail := by
    rw [← hhead, cons_head_tail]
  have hg := hchain.isGenesis
  refine ⟨hcanonical, ?_, hall, ?_⟩
  · intro i b hb
    obtain ⟨hi, -⟩ := List.getElem?_eq_some_iff.mp hb
    rw [hchain.linked.height hb, UInt64.toNat_ofNat_of_lt' (show i < 2 ^ 64 by omega)]
  · intro ignore
    have hrules := h.rulesHash
    rw [hchain.consensus] at hrules
    refine loadBlockchain_ok_iff.mpr ⟨l.cfg, bc.blocks.1, bc.blocksByHash, bc.store, bc.blocks, bc.store, genesis.hash.bytes, genesis,
      bc.store, l.config, l.sameChain, l.miner, hcanonical, hall, checkRulesHash_again C l.cfg.consensusParams ignore hrules,
      loadGenesis_of_isGenesis (boltStore G) bc.blocks bc.store (by rw [hhead]; exact hg), ?_,
      checkGenesisHash_again hg.hashed.length h.genesisHash, initChain_ok_iff.mpr ?_⟩
    · rw [hhead]
      exact ensureBlockHash_of_hashed hg.hashed
    · have hminer := (runs_startedWith hrun).2.2.trans (initChain_ok_iff.mp l.init).minerAddress
      have heq : bc.blocks = ⟨genesis :: bc.blocks.1.tail, cons_ne_nil genesis _⟩ := Subtype.ext hpath
      rw [← heq]
      exact ⟨hchain.chainID, hminer, hchain.consensus, rfl, rfl, (foldl_addToIndex hhas).symm, (tip_stored htree).key, htree.derived⟩

namespace Sample

def gob : Gob Block := { encode := id, decode := .ok, decode_encode := fun _ => rfl }

def loadedStore : Bolt Block :=
  let st := (Bolt.empty.putRulesHash (params.rulesHash crypto)).2
  ((st.appendCanonical gob genesis).2.putGenesisHash genesis.hash.bytes).2

def boltNode : Blockchain (Bolt Block) :=
  { chainID := 1, minerAddress := minerAddress, consensus := params, blocks := node.blocks, state := afterGenesis
    store := loadedStore, blocksByHash := GoMap.set ∅ genesis.hashHex genesis, bestTipHash := genesis.hashHex, canonicalWork := 2
    txIndex := ∅, addressIndex := ∅ }

theorem boltNode_loads : loadBlockchain crypto (boltStore gob) 1 minerAddress raw false Bolt.empty = some (.ok boltNode) := by
  simp only [crypto, goCrypto_eq, boltNode, loadedStore]
  decide +kernel

def boltNodeNext : Blockchain (Bolt Block) := (addBlock crypto (boltStore gob) boltNode (some emptyBlock) fun _ => 2).chain

end Sample

open Sample

/-- The node that added one block to its genesis block, loaded once more. -/
theorem restart_reproduces_node : boltNodeNext.blocks.1.length = 2 ∧
      loadBlockchain crypto (boltStore gob) 1 minerAddress raw false boltNodeNext.store =
        some (.ok boltNodeNext) := by
  have hstep : Step crypto (boltStore gob) boltNode (some emptyBlock) boltNodeNext :=
    Step.add boltNode (some emptyBlock) fun _ => 2
  have hcons : boltNodeNext.consensus = params := (step_startedWith hstep).1
  have hlen : boltNodeNext.blocks.1.length = 2 := by decide +kernel
  refine ⟨hlen, (restart_reproduces crypto gob 1 minerAddress raw false boltNode
    boltNodeNext [emptyBlock] boltNode_loads (Runs.step Runs.start hstep) ?_ (by rw [hlen]; decide)).2.2.2 false⟩
  rw [hcons]
  exact headers_distinct

end NeoCoin
