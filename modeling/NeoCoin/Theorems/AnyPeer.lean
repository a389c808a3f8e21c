import NeoCoin.Lib.Trace
import NeoCoin.Theorems.HonestPeer

/-!
# Peers that answer anything

All that `SyncOnce` and `EnsureAncestors` do to a node is to hand it the blocks that peers answer with, through `AddBlock`. So whatever
the peers answer, the node loses no block, and leaves its chain only for a better one.
-/

namespace NeoCoin

open GoLib List AncestorAux SyncAux

variable {σ : Type} {C : Crypto} {S : ChainStore σ} {clock : Nat → Nat → Int64} {bc bc' bc'' : Blockchain σ} {w w' : Syncing σ}
  {answers : Block → Prop}

/-- A node has come from another one: it has all of its blocks, and its chain or a better one. -/
structure Advanced (bc bc' : Blockchain σ) : Prop where
  tree : ∀ k b, bc.blocksByHash.lookup k = some b → bc'.blocksByHash.lookup k = some b
  tip : bc'.blocks = bc.blocks ∧ bc'.bestTipHash = bc.bestTipHash ∧ bc'.canonicalWork = bc.canonicalWork ∨
    isBetter bc'.canonicalWork bc'.bestTipHash bc.canonicalWork bc.bestTipHash

theorem Advanced.refl (bc : Blockchain σ) : Advanced bc bc := ⟨fun _ _ h => h, .inl ⟨rfl, rfl, rfl⟩⟩

theorem isBetter_trans {n n' n'' : Nat} {k k' k'' : Bytes} (h : isBetter n k n' k') (h' : isBetter n' k' n'' k'') :
    isBetter n k n'' k'' := by
  rcases h with h | ⟨rfl, h⟩ <;> rcases h' with h' | ⟨rfl, h'⟩
  · exact .inl (h'.trans h)
  · exact .inl h
  · exact .inl h'
  · exact .inr ⟨rfl, List.lt_trans h h'⟩

theorem Advanced.trans (h : Advanced bc bc') (h' : Advanced bc' bc'') : Advanced bc bc'' := by
  refine ⟨fun k b hb => h'.tree k b (h.tree k b hb), ?_⟩
  rcases h'.tip with ⟨hblocks, htip, hwork⟩ | hbetter'
  · rw [hblocks, htip, hwork]
    exact h.tip
  · rcases h.tip with ⟨-, htip, hwork⟩ | hbetter
    · rw [← htip, ← hwork]
      exact .inr hbetter'
    · exact .inr (isBetter_trans hbetter' hbetter)

section

variable (C : Crypto) (S : ChainStore σ) (bc : Blockchain σ)

theorem advanced_chooseTip (b : Block) (cand : Candidate) : Advanced bc (chooseTip C S bc b cand).chain := by
  by_cases hbetter : isBetter cand.work b.hashHex bc.canonicalWork bc.bestTipHash
  · rw [(chooseTip_of_better C S bc b cand hbetter).1]
    exact ⟨fun _ _ h => h, .inr hbetter⟩
  · rw [chooseTip_of_not_better C S bc b cand hbetter]
    exact .refl bc

theorem advanced_addBlock (b : Block) (clock : Nat → Int64) : Advanced bc (addBlock C S bc (some b) clock).chain := by
  rcases addBlock_cases C S bc (some b) clock with ⟨-, hrejected, -⟩ | ⟨b, cand, -, hvalid, -, hadd⟩
  · have hsame := hrejected.sameMemory
    exact ⟨fun _ _ h => hsame.blocksByHash ▸ h, .inl ⟨hsame.blocks, hsame.bestTipHash, hsame.canonicalWork⟩⟩
  · rw [hadd]
    have hinsert : Advanced bc (bc.insert S b) := ⟨fun _ _ h => lookup_set_of_fresh hvalid.fresh h, .inl ⟨rfl, rfl, rfl⟩⟩
    exact hinsert.trans (advanced_chooseTip C S _ b cand)

/-! ## What synchronizing keeps -/

/-- What a call of `AddBlock` with the block makes of the node. -/
def AddsBlock (b : Block) (bc' : Blockchain σ) : Prop :=
  ∃ clock, bc' = (addBlock C S bc (some b) clock).chain

/-- The node has added answers of peers since it was `bc`, and done nothing else. -/
def Fetched (answers : Block → Prop) (w : Syncing σ) : Prop :=
  Advanced bc w.chain ∧ ∃ fetched, Trace (AddsBlock C S) bc fetched w.chain ∧ ∀ b ∈ fetched, answers b

end

theorem fetched_start (w : Syncing σ) : Fetched C S w.chain answers w := ⟨.refl _, [], .start, forall_mem_nil _⟩

theorem Fetched.add (h : Fetched C S bc answers w) {b : Block} (hb : answers b) : Fetched C S bc answers (w.add C S clock b).2 := by
  obtain ⟨hadvanced, fetched, hruns, hall⟩ := h
  exact ⟨hadvanced.trans (advanced_addBlock C S w.chain b _), _, hruns.next ⟨clock w.adds, rfl⟩, forall_mem_concat.mpr ⟨hall, hb⟩⟩

theorem Fetched.ensureAncestors {fetch : Nat → Bytes → Result Block} {maxAncestorDepth : Int64} {calls : Nat} {need : Bytes}
    {r : Result Unit} (hfetch : ∀ n need b, fetch n need = .ok b → answers b) (h : Fetched C S bc answers w)
    (hcall : ensureAncestors C S clock fetch maxAncestorDepth calls need w = some (r, w')) : Fetched C S bc answers w' :=
  ensureAncestors_preserves (fun _ hw => hw) (fun n need b (_ : True) hb => ⟨hfetch n need b hb, fun _ => trivial⟩)
    (fun _ _ hw hb => hw.add hb) trivial h hcall

/-- Some peer answers with the block, at some time and to some request. -/
def PeerAPI.Answers (api : PeerAPI) (b : Block) : Prop := ∃ peer ∈ api.peers, ∃ n hashHex, api.fetchBlockByHash peer n hashHex = .ok b

theorem answers_of_fetchAny {api : PeerAPI} {n : Nat} {hashHex : Bytes} {b : Block} (h : api.fetchAnyBlockByHash n hashHex = .ok b) :
    api.Answers b := by
  have hloop : ∀ peers last, fetchAnyLoop api n hashHex peers last = .ok b →
      ∃ peer ∈ peers, api.fetchBlockByHash peer n hashHex = .ok b := by
    intro peers last h
    induction peers generalizing last with
    | nil => cases last <;> cases h
    | cons peer rest ih =>
      unfold fetchAnyLoop at h
      split at h
      · rename_i hb
        cases h
        exact ⟨peer, .head _, hb⟩
      · obtain ⟨peer', hpeer', hb⟩ := ih _ h
        exact ⟨peer', .tail _ hpeer', hb⟩
  obtain ⟨peer, hpeer, hb⟩ := hloop _ _ h
  exact ⟨peer, hpeer, n, hashHex, hb⟩

/-- What every round keeps, the loop keeps. -/
theorem foldlM_preserves {α β : Type} {P : β → Prop} {f : β → α → Option β} {l : List α} {b b' : β}
    (hf : ∀ a ∈ l, ∀ b b', P b → f b a = some b' → P b') (hb : P b) (h : l.foldlM f b = some b') : P b' := by
  induction l generalizing b with
  | nil =>
    cases h
    exact hb
  | cons a rest ih =>
    rw [foldlM_cons] at h
    obtain ⟨b1, h1, h⟩ := Option.bind_eq_some_iff.mp h
    exact ih (fun a' ha' => hf a' (.tail _ ha')) (hf a (.head _) b b1 hb h1) h

variable {api : PeerAPI} {maxAncestorDepth : Int64} {calls : Nat} {peer : Bytes}

theorem Fetched.syncHeader (hpeer : peer ∈ api.peers) (h : Fetched C S bc api.Answers w) {header : BlockHeader}
    (hsync : syncHeader C S clock api maxAncestorDepth calls peer w header = some w') : Fetched C S bc api.Answers w' := by
  unfold NeoCoin.syncHeader at hsync
  split at hsync
  · cases hsync
    exact h
  · split at hsync
    · cases hsync
      exact h
    · rename_i b hb
      have hanswers : api.Answers b := ⟨peer, hpeer, _, _, hb⟩
      have hadded : Fetched C S bc api.Answers (w.ask.add C S clock b).2 := Fetched.add h hanswers
      simp only at hsync
      split at hsync
      · split at hsync
        · cases hsync
        · rename_i hcall
          cases hsync
          exact hadded.ensureAncestors (fun _ _ _ hb => answers_of_fetchAny hb) hcall
        · rename_i hcall
          cases hsync
          exact (hadded.ensureAncestors (fun _ _ _ hb => answers_of_fetchAny hb) hcall).add hanswers
      · cases hsync
        exact hadded

theorem Fetched.syncPeer {localHeight : UInt64} {localRulesHash localGenesisHash : Bytes} {strictIdentity : Bool} (hpeer : peer ∈ api.peers)
    (h : Fetched C S bc api.Answers w) (hsync : syncPeer C S clock api maxAncestorDepth calls localHeight localRulesHash localGenesisHash
      strictIdentity w peer = some w') : Fetched C S bc api.Answers w' := by
  unfold NeoCoin.syncPeer at hsync
  split at hsync
  · cases hsync
    exact h
  · simp only at hsync
    split at hsync
    · cases hsync
      exact h
    · split at hsync
      · cases hsync
        exact h
      · exact foldlM_preserves (fun header _ _ _ hw hround => hw.syncHeader hpeer hround) h hsync

theorem derived_adds {bs : List Block} (hd : Derived C bc) (h : Trace (AddsBlock C S) bc bs bc') : Derived C bc' := by
  induction h with
  | start => exact hd
  | next _ hadd ih =>
    obtain ⟨clock, rfl⟩ := hadd
    exact derived_step (Step.add _ _ clock) ih

/-- Whatever the peers answer, what `SyncOnce` does is to add blocks that peers answered with: it keeps what the node derives from its
chain, no block is lost or replaced, and the chain is left only for a better one. -/
theorem syncOnce_any_peer {σ : Type} (C : Crypto) (S : ChainStore σ) (clock : Nat → Nat → Int64) (api : PeerAPI) (maxAncestorDepth : Int64)
    (calls : Nat) (strictIdentity : Bool) (bc : Blockchain σ) (w : Syncing σ)
    (h : syncOnce C S clock api maxAncestorDepth calls strictIdentity bc = some w) :
    Advanced bc w.chain ∧ (Derived C bc → Derived C w.chain) ∧
      ∃ fetched, Trace (AddsBlock C S) bc fetched w.chain ∧ ∀ b ∈ fetched, api.Answers b := by
  obtain ⟨hadvanced, fetched, hruns, hall⟩ : Fetched C S bc api.Answers w :=
    foldlM_preserves (fun peer hpeer _ _ hw hround => hw.syncPeer hpeer hround) (fetched_start { chain := bc }) h
  exact ⟨hadvanced, fun hd => derived_adds hd hruns, fetched, hruns, hall⟩

namespace Sample

/-- Two peers that promise a long chain. One answers with an empty block, the other with a block for the node. -/
def twoPeers : PeerAPI where
  peers := [[1], [2]]
  fetchChainInfo := fun _ _ => .ok { chainID := 1, height := 5, latestHash := [], rulesHash := [], genesisHash := [] }
  fetchHeadersFrom := fun _ _ _ _ => .ok [emptyBlock.blockHeader]
  fetchBlockByHash := fun peer _ _ => .ok (if peer = [1] then {} else emptyBlock)

end Sample

open Sample

/-- The block of the second peer becomes the tip. -/
theorem syncOnce_any_peer_two : ∃ w, syncOnce crypto store (fun _ _ => 2) twoPeers 256 1 false Sample.node = some w ∧
    w.chain.bestTipHash = emptyBlock.hashHex ∧ Advanced Sample.node w.chain ∧
      ∃ fetched, Trace (AddsBlock crypto store) Sample.node fetched w.chain ∧ ∀ b ∈ fetched, twoPeers.Answers b := by
  obtain ⟨w, hw, htip⟩ := Option.map_eq_some_iff.mp (show (syncOnce crypto store (fun _ _ => 2) twoPeers 256 1 false Sample.node).map
    (·.chain.bestTipHash) = some emptyBlock.hashHex by decide +kernel)
  obtain ⟨hadvanced, -, hfetched⟩ := syncOnce_any_peer crypto store _ twoPeers 256 1 false Sample.node w hw
  exact ⟨w, hw, htip, hadvanced, hfetched⟩

/-! ## What `EnsureAncestors` says -/

theorem mem_of_added {b : Block} (h : (w.add C S clock b).1 = none) : b.hashHex ∈ (w.add C S clock b).2.chain.blocksByHash := by
  rcases addBlock_cases C S w.chain (some b) (clock w.adds) with ⟨herr, -⟩ | ⟨_, cand, hb, -, -, hadd⟩
  · exact absurd h herr
  · cases hb
    have hkept := (advanced_chooseTip C S (w.chain.insert S b) b cand).tree b.hashHex b (GoMap.lookup_set_self _ _ _)
    rw [← hadd] at hkept
    exact Finmap.mem_of_lookup_eq_some hkept

/-- When the loop succeeds, the hash is known or the block that was fetched for it is. By induction on the rounds. -/
theorem known_of_loop {fetch : Nat → Bytes → Result Block} {recurse : Bytes → Syncing σ → Option (Result Unit × Syncing σ)} {need : Bytes}
    {depth : Nat} {visited : List Bytes} (h : ensureAncestorsLoop C S clock fetch recurse need depth visited w = some (.ok (), w')) :
    need ∈ w'.chain.blocksByHash ∨ ∃ n b, fetch n need = .ok b ∧ b.hashHex ∈ w'.chain.blocksByHash := by
  induction depth generalizing visited w with
  | zero => cases h
  | succ depth ih =>
    unfold ensureAncestorsLoop at h
    split at h
    · rename_i hknown
      cases h
      exact .inl hknown
    · split at h
      · cases h
      · split at h
        · cases h
        · rename_i b hb
          simp only at h
          split at h
          · cases h
          · cases h
          · rename_i w1 _
            unfold ensureAncestorsAdd at h
            split at h
            · rename_i w2 hadd
              cases h
              have hmem : b.hashHex ∈ (w1.add C S clock b).2.chain.blocksByHash := mem_of_added (by rw [hadd])
              rw [hadd] at hmem
              exact .inr ⟨_, b, hb, hmem⟩
            · split at h
              · exact ih h
              · cases h

/-- `EnsureAncestors`, with whatever answers: it adds answers, and the node loses nothing. If the answers have the hashes that were
asked for, its success means that the block is known. -/
theorem ensureAncestors_any_peer {σ : Type} (C : Crypto) (S : ChainStore σ) (clock : Nat → Nat → Int64) (fetch : Nat → Bytes → Result Block)
    (maxAncestorDepth : Int64) (calls : Nat) (need : Bytes) (w w' : Syncing σ) (r : Result Unit)
    (h : ensureAncestors C S clock fetch maxAncestorDepth calls need w = some (r, w')) :
    Advanced w.chain w'.chain ∧
      (∃ fetched, Trace (AddsBlock C S) w.chain fetched w'.chain ∧ ∀ b ∈ fetched, ∃ n hash, fetch n hash = .ok b) ∧
      (r = .ok () → (∀ n b, fetch n need = .ok b → b.hashHex = need) → need ∈ w'.chain.blocksByHash) := by
  obtain ⟨hadvanced, hfetched⟩ : Fetched C S w.chain (fun b => ∃ n hash, fetch n hash = .ok b) w' :=
    (fetched_start w).ensureAncestors (fun n need b hb => ⟨n, need, hb⟩) h
  refine ⟨hadvanced, hfetched, ?_⟩
  rintro rfl hhash
  cases calls with
  | zero => cases h
  | succ calls =>
    rcases known_of_loop h with hknown | ⟨n, b, hb, hknown⟩
    · exact hknown
    · exact hhash n b hb ▸ hknown

/-- The block is fetched, and added to the chain. -/
theorem ensureAncestors_any_peer_new : emptyBlock.hashHex ∉ Sample.node.blocksByHash ∧
    ∃ w, ensureAncestors crypto store (fun _ _ => 2) (fun _ _ => .ok emptyBlock) 256 1 emptyBlock.hashHex { chain := Sample.node } =
        some (.ok (), w) ∧ Advanced Sample.node w.chain ∧ emptyBlock.hashHex ∈ w.chain.blocksByHash := by
  obtain ⟨⟨r, w⟩, hw, hok⟩ := Option.map_eq_some_iff.mp (show (ensureAncestors crypto store (fun _ _ => 2) (fun _ _ => .ok emptyBlock) 256 1
    emptyBlock.hashHex { chain := Sample.node }).map Prod.fst = some (.ok ()) by decide +kernel)
  cases hok
  obtain ⟨hadvanced, -, hknown⟩ := ensureAncestors_any_peer crypto store _ _ 256 1 _ _ w _ hw
  refine ⟨by decide, w, hw, hadvanced, hknown rfl fun _ b hb => ?_⟩
  cases hb
  rfl

end NeoCoin
