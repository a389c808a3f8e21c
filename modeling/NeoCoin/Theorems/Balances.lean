import NeoCoin.Theorems.Database

/-!
# The cache of balances

`Balance` of `internal/blockchain` answers from a cache that keeps no nonces, that mining refreshes for senders and receivers but not for
the miner, and that a new canonical chain leaves as it is.
-/

namespace NeoCoin.Internal

open GoLib List

variable {s : State} {a address : Bytes} {σ : Type} {clock : Nat → Int64}

/-! ## What a block leaves alone -/

def touched (C : Crypto) (b : NeoCoin.Block) : List Bytes :=
  match b.transactions with
  | [] => []
  | cb :: ts => cb.toAddress :: ts.flatMap fun t => [t.toAddress, t.sender C]

theorem lookup_credit {a' : Bytes} (amount : UInt64) (h : a' ≠ a) : (s.credit a amount).lookup a' = s.lookup a' :=
  GoMap.lookup_set_of_ne s _ h

theorem lookup_pay {C : Crypto} {t : Transaction} (s : State) (hto : a ≠ t.toAddress) (hfrom : a ≠ t.sender C) :
    (t.pay C s).lookup a = s.lookup a := by
  rw [Transaction.pay, lookup_credit _ hto, State.debit, GoMap.lookup_set_of_ne _ _ hfrom]

theorem lookup_payAll {C : Crypto} {ts : List Transaction} (s : State)
    (h : a ∉ ts.flatMap fun t => [t.toAddress, t.sender C]) : (payAll C ts s).lookup a = s.lookup a := by
  induction ts generalizing s with
  | nil => rfl
  | cons t ts ih =>
    simp only [flatMap_cons, mem_append, mem_cons, not_mem_nil, or_false, not_or] at h
    obtain ⟨⟨hto, hfrom⟩, hrest⟩ := h
    exact (ih (t.pay C s) hrest).trans (lookup_pay s hto hfrom)

theorem lookup_blockPay {C : Crypto} {b : NeoCoin.Block} (s : State) (h : a ∉ touched C b) : (b.pay C s).lookup a = s.lookup a := by
  unfold touched at h
  unfold NeoCoin.Block.pay
  split
  · rfl
  · rename_i cb ts hb
    rw [hb] at h
    obtain ⟨hto, hrest⟩ := not_or.mp (mt mem_cons.mpr h)
    rw [lookup_payAll _ hrest, lookup_credit _ hto]

theorem lookup_payBlocks {C : Crypto} {blocks : List NeoCoin.Block} (s : State) (h : ∀ b ∈ blocks, a ∉ touched C b) :
    (payBlocks C blocks s).lookup a = s.lookup a := by
  induction blocks generalizing s with
  | nil => rfl
  | cons b blocks ih =>
    exact (ih (b.pay C s) fun b' hb' => h b' (.tail b hb')).trans (lookup_blockPay s (h b (.head _)))

theorem payBlocks_append (C : Crypto) (bs cs : List NeoCoin.Block) (s : State) :
    payBlocks C (bs ++ cs) s = payBlocks C cs (payBlocks C bs s) := by
  simp [payBlocks]

/-! ## What is cached -/

/-- `Balance` returns for every address the account that the state has, and whether it has one. -/
def Transparent {σ : Type} (bc : Blockchain σ) : Prop :=
  ∀ a, (bc.balance a).1 = (bc.state.get a, (bc.state.lookup a).isSome)

/-- Every cached balance is that of an account without a nonce. -/
def Coherent (state : State) (balances : Lru Bytes Int64) : Prop :=
  ∀ a bal, balances.peek a = some bal → state.lookup a = some { balance := bal.toUInt64 }

theorem transparent_of_coherent {bc : Blockchain σ} (h : Coherent bc.state bc.balances) : Transparent bc := by
  intro a
  have hget := bc.balances.get_fst a
  unfold Blockchain.balance
  split
  · rename_i bal balances hcached
    rw [hcached] at hget
    have hstate := h a bal hget.symm
    rw [GoMap.get, hstate]
    rfl
  · split
    · rename_i acct hstate
      rw [GoMap.get, hstate]
      rfl
    · rename_i hstate
      rw [GoMap.get, hstate]
      rfl

theorem Coherent.of_lookup {state state' : State} {balances : Lru Bytes Int64} (h : Coherent state balances)
    (hsame : ∀ a, balances.peek a ≠ none → state'.lookup a = state.lookup a) : Coherent state' balances := by
  intro a bal hbal
  rw [hsame a (by rw [hbal]; simp)]
  exact h a bal hbal

theorem Coherent.balance {bc : Blockchain σ} (h : Coherent bc.state bc.balances)
    (hnonce : (bc.state.get address).nonce = 0) : Coherent bc.state (bc.balance address).2.balances := by
  have hknown := bc.balances.peek_get address
  unfold Blockchain.balance
  split
  · rename_i bal balances hcached
    rw [hcached] at hknown
    intro a bal' hbal'
    exact h a bal' (by rw [← hknown a]; exact hbal')
  · rename_i balances hcached
    rw [hcached] at hknown
    split
    · rename_i acct hacct
      intro a bal' hbal'
      rcases Lru.peek_set hbal' with ⟨rfl, rfl⟩ | ⟨-, hold⟩
      · rw [GoMap.get, hacct] at hnonce
        rw [hacct, UInt64.toUInt64_toInt64]
        cases acct
        simp only [Option.getD_some] at hnonce
        rw [hnonce]
      · exact h a bal' (by rw [← hknown a]; exact hold)
    · intro a bal' hbal'
      exact h a bal' (by rw [← hknown a]; exact hbal')

/-! ## The invariant -/

/-- A balance is asked for while the account has no nonce; a block is mined without transfers, and while the miner is not cached; and no
block that the chain gains or loses through an added block pays to or from a cached account. -/
def CacheSafe {σ : Type} (C : Crypto) (S : ChainStore σ) (bc : Blockchain σ) : Call → Prop
  | .balance address => (bc.state.get address).nonce = 0
  | .mineTransfers transfers _ => ∀ fees,
      checkAllMinable C bc.consensus bc.chainID (bc.blocks.tip.height + 1) transfers 0 = .ok fees →
        transfers = [] ∧ bc.balances.peek bc.minerAddress = none
  | .addBlock block clock => ∀ b path, block = some b → BecomesTip C S bc clock b path →
      ∃ common lost gained, bc.blocks.1 = common ++ lost ∧ path.1 = common ++ gained ∧
        ∀ b' ∈ lost ++ gained, ∀ a, bc.balances.peek a ≠ none → a ∉ touched C b'.toBlock

/-- What holds of a node as long as every call meets the condition. -/
structure CacheInv {β : Type} (C : Crypto) (bc : Blockchain (Bolt β)) : Prop where
  kept : Kept bc
  state : bc.state = payBlocks C (bc.blocks.1.map Block.toBlock) ∅
  coherent : Coherent bc.state bc.balances

theorem applyBlockToState_single {C : Crypto} {p : ConsensusParams} {b : Block} {cb : Transaction} {s' : State} {e : String}
    (hb : b.transactions = [cb]) (h : applyBlockToState C p s b = (.error e, s')) : s' = s := by
  unfold applyBlockToState at h
  split at h
  · exact (Prod.mk.inj h).2.symm
  · rw [hb] at h
    unfold applyTxs at h
    split at h
    · exact (Prod.mk.inj h).2.symm
    · cases (Prod.mk.inj h).1

section

variable {β : Type} {C : Crypto} {G : Gob β} {bc bc' : Blockchain (Bolt β)}

/-- Mining keeps the cached balances right, where it pays no cached account. -/
theorem cacheInv_mine {transfers : List Transaction} (h : CacheInv C bc)
    (hsafe : CacheSafe C (boltStore G) bc (.mineTransfers transfers clock))
    (heffect : MineEffect C (boltStore G) bc transfers clock bc') (hlen : bc'.blocks.1.length < 2 ^ 63) : CacheInv C bc' := by
  have hkept := kept_mine h.kept heffect hlen
  cases heffect with
  | nothing => exact h
  | refused hm hfailed =>
    obtain ⟨fees, hfees, htxs⟩ := hm.transactions
    obtain ⟨rfl, -⟩ := hsafe fees hfees
    obtain rfl := applyBlockToState_single htxs hfailed
    exact ⟨hkept, h.state, h.coherent⟩
  | unstored hm _ _ hfailed => exact absurd (congrArg Prod.fst (h.kept.append hm)) hfailed
  | @mined b _ s _ hm _ happly _ hcommit =>
    obtain ⟨fees, hfees, htxs⟩ := hm.transactions
    obtain ⟨rfl, hminer⟩ := hsafe fees hfees
    obtain rfl := applyBlockToState_pay happly
    -- what the checkpoint and the commitment leave alone
    have hstate : bc'.state = b.toBlock.pay C bc.state := by
      rw [hcommit.same, mineCheckpoint_same]
      rfl
    have hbalances : bc'.balances = bc.balances := by
      rw [hcommit.same, mineCheckpoint_same]
      simp only [Blockchain.extend, htxs]
      rfl
    have hblocks : bc'.blocks.1.map Block.toBlock = bc.blocks.1.map Block.toBlock ++ [b.toBlock] := by
      rw [hcommit.blocks, mineCheckpoint_same]
      simp [Blockchain.extend, Path.snoc]
    refine ⟨hkept, ?_, ?_⟩
    · rw [hstate, hblocks, payBlocks_append, ← h.state]
      rfl
    · rw [hstate, hbalances]
      refine h.coherent.of_lookup fun a ha => lookup_blockPay _ ?_
      rw [touched, htxs]
      intro hmem
      obtain rfl : a = bc.minerAddress := by simpa [mineCoinbase] using hmem
      exact ha hminer

/-- So does `AddBlock`. -/
theorem cacheInv_add {block : Option Block} (h : CacheInv C bc)
    (hsafe : CacheSafe C (boltStore G) bc (.addBlock block clock)) (heffect : AddEffect C (boltStore G) bc block clock bc')
    (hlen : bc'.blocks.1.length < 2 ^ 63) : CacheInv C bc' := by
  have hkept := kept_add h.kept heffect hlen
  cases heffect with
  | rejected hrejected =>
    rw [hrejected.same] at hkept ⊢
    exact ⟨hkept, h.state, h.coherent⟩
  | beside _ _ _ => exact ⟨hkept, h.state, h.coherent⟩
  | @tip b cand hb hacc hbetter =>
    rw [retip_blocks] at hlen
    obtain ⟨st', hrewrite, -, -⟩ := h.kept.rewrite hacc hlen
    obtain ⟨common, lost, gained, hold, hnew, huntouched⟩ :=
      hsafe b cand.path hb (hacc.becomesTip hbetter (congrArg Prod.fst hrewrite))
    have hstate := payBlocks_of_replay hacc.valid.applied
    have hcoherent : Coherent cand.state bc.balances := by
      refine h.coherent.of_lookup fun a ha => ?_
      have hkeep : ∀ blocks : List Block, (∀ b' ∈ blocks, b' ∈ lost ++ gained) →
          ∀ b' ∈ blocks.map Block.toBlock, a ∉ touched C b' := by
        intro blocks hsub b' hb'
        obtain ⟨b'', hb'', rfl⟩ := mem_map.mp hb'
        exact huntouched b'' (hsub b'' hb'') a ha
      rw [hstate, h.state, hold, hnew, map_append, map_append, payBlocks_append, payBlocks_append,
        lookup_payBlocks _ (hkeep gained fun b' hb' => mem_append_right _ hb'),
        lookup_payBlocks _ (hkeep lost fun b' hb' => mem_append_left _ hb')]
    rw [retip_same] at hkept ⊢
    exact ⟨hkept, hstate, hcoherent⟩

theorem cacheInv_balance (h : CacheInv C bc) (hsafe : CacheSafe C (boltStore G) bc (.balance address)) :
    CacheInv C (bc.balance address).2 := by
  have hcoherent := h.coherent.balance hsafe
  have hkept := kept_balance h.kept address
  rw [balance_eq] at hkept ⊢
  exact ⟨hkept, h.state, hcoherent⟩

theorem Started.cacheInv {gcfg : GenesisConfig} {genesis : Block} {cfg : Config} (h : Started C G gcfg genesis cfg bc) : CacheInv C bc := by
  refine ⟨h.kept, ?_, ?_⟩
  · rw [h.blocks]
    exact payBlocks_of_replay h.applied
  · intro a bal hbal
    rw [h.uncached a] at hbal
    cases hbal

end

/-! ## Balances -/

/-- In every state that a node on a new database reaches by calls that meet the condition, `Balance` returns what the state has. -/
theorem balance_of_run {β : Type} (C : Crypto) (G : Gob β) (chainID : UInt64) (minerAddress : Bytes) (raw : GenesisConfigJSON)
    (cfg : Config) (ignoreRulesHash : Bool) (bc0 bc : Blockchain (Bolt β)) (handled : List Block)
    (hload : loadBlockchain C (boltStore G) chainID minerAddress raw cfg ignoreRulesHash Bolt.empty = some (.ok bc0))
    (hrun : Runs C (boltStore G) (CacheSafe C (boltStore G)) bc0 handled bc) : Transparent bc := by
  obtain ⟨gcfg, genesis, hstarted⟩ := started_of_load hload
  have hinv : CacheInv C bc := by
    refine hrun.invariant hstarted.cacheInv ?_ ?_ ?_
    · intro bc bc' transfers clock h hsafe heffect hlen
      exact cacheInv_mine h hsafe heffect hlen
    · intro bc bc' block clock h hsafe heffect hlen
      exact cacheInv_add h hsafe heffect hlen
    · intro bc address h hsafe
      exact cacheInv_balance h hsafe
  exact transparent_of_coherent hinv.coherent

open Internal.Sample
open NeoCoin.Sample (minerAddress)

/-- A node mines its first block and then asks for the balance of its miner. -/
theorem balance_of_run_mined : ∃ bc0 bc handled, loaded = some (.ok bc0) ∧
      Runs crypto (boltStore gob) (CacheSafe crypto (boltStore gob)) bc0 handled bc ∧
      bc.blocks.1.length = 2 ∧ bc.balances.peek minerAddress = some 1050 ∧ Transparent bc := by
  obtain ⟨bc0, hload, hmine⟩ : ∃ bc0, loaded = some (.ok bc0) ∧
      (match mineTransfers crypto (boltStore gob) bc0 [] fun _ => 4 with
        | some (_, bc) => decide (bc.blocks.1.length = 2 ∧ (bc.state.get minerAddress).nonce = 0 ∧
            (bc.balance minerAddress).2.balances.peek minerAddress = some 1050)
        | none => false) = true := by
    refine ⟨Sample.node, node_loads, ?_⟩
    simp only [crypto, goCrypto_eq]
    decide +kernel
  split at hmine
  · rename_i r bc hmined
    obtain ⟨hlen, hnonce, hpeek⟩ := of_decide_eq_true hmine
    obtain ⟨_, _, hstarted⟩ := started_of_load hload
    have hfirst : Runs crypto (boltStore gob) (CacheSafe crypto (boltStore gob)) bc0 _ bc :=
      .step (.mineTransfers [] fun _ => 4) .start (fun fees _ => ⟨rfl, hstarted.uncached _⟩)
        (congrArg (Option.map Prod.snd) hmined) (by simp only [hlen]; decide)
    have hrun := Runs.step (.balance minerAddress) hfirst hnonce rfl (by rw [balance_eq]; simp only [hlen]; decide)
    exact ⟨bc0, _, _, hload, hrun, by rw [balance_eq]; exact hlen, hpeek,
      balance_of_run crypto gob 1 minerAddress raw _ false bc0 _ _ hload hrun⟩
  · cases hmine

/-- A miner that asked for its balance is told the same after it has mined a block. -/
theorem miner_balance_stale : ∃ bc0 bc handled, loaded = some (.ok bc0) ∧
      Runs crypto (boltStore gob) (fun _ _ => True) bc0 handled bc ∧
      (bc.balance minerAddress).1 = ({ balance := 1000 }, true) ∧
      bc.state.get minerAddress = { balance := 1050 } ∧ ¬Transparent bc := by
  obtain ⟨bc0, hload, hmine⟩ : ∃ bc0, loaded = some (.ok bc0) ∧
      (match mineTransfers crypto (boltStore gob) (bc0.balance minerAddress).2 [] fun _ => 4 with
        | some (_, bc) => decide (bc0.blocks.1.length = 1 ∧ bc.blocks.1.length = 2 ∧
            (bc.balance minerAddress).1 = ({ balance := 1000 }, true) ∧
            bc.state.get minerAddress = { balance := 1050 })
        | none => false) = true := by
    refine ⟨node, node_loads, ?_⟩
    simp only [crypto, goCrypto_eq]
    decide +kernel
  split at hmine
  · rename_i r bc hmined
    obtain ⟨hlen0, hlen, hbalance, hstate⟩ := of_decide_eq_true hmine
    have hfirst : Runs crypto (boltStore gob) (fun _ _ => True) bc0 _ (bc0.balance minerAddress).2 :=
      .step (.balance minerAddress) .start trivial rfl (by rw [balance_eq]; simp only [hlen0]; decide)
    have hrun := Runs.step (.mineTransfers [] fun _ => 4) hfirst trivial (congrArg (Option.map Prod.snd) hmined)
      (by simp only [hlen]; decide)
    refine ⟨bc0, bc, _, hload, hrun, hbalance, hstate, fun htransparent => ?_⟩
    have hsame : (1000 : UInt64) = 1050 := by
      have hfst := congrArg (fun r => r.1.balance) (htransparent minerAddress)
      rwa [hbalance, hstate] at hfst
    exact absurd hsame (by decide)
  · cases hmine

end NeoCoin.Internal
