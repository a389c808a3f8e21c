import NeoCoin.Internal.Accounts
import NeoCoin.Theorems.Value

/-!
# Locks on accounts do not wait for themselves

Whoever locks two accounts of one shard one after the other locks one mutex twice, whatever the order is.
-/

namespace NeoCoin.Internal

open GoLib List

def AccountManager.shard (am : AccountManager) (addr : Bytes) : UInt64 := hashToShard addr am.shardMask

/-- By induction on the accounts, for any mutexes held before. -/
theorem lockLoop_isSome_iff (am : AccountManager) (range : List Bytes) (held : List UInt64) :
    (am.lockLoop range held).isSome ↔ (range.map am.shard).Nodup ∧ ∀ addr ∈ range, am.shard addr ∉ held := by
  induction range generalizing held with
  | nil => simp [AccountManager.lockLoop]
  | cons addr rest ih =>
    simp only [AccountManager.lockLoop, AccountManager.lockAccount]
    by_cases hheld : AccountManager.hashToShard addr am.shardMask ∈ held
    · rw [if_pos hheld]
      constructor
      · exact nofun
      · intro h
        exact absurd hheld (h.2 addr (.head _))
    · rw [if_neg hheld]
      change (am.lockLoop rest (am.shard addr :: held)).isSome ↔ _
      rw [ih, map_cons, nodup_cons, forall_mem_cons]
      constructor
      · intro h
        refine ⟨⟨?_, h.1⟩, hheld, fun a ha => fun hmem => h.2 a ha (.tail _ hmem)⟩
        intro hmem
        obtain ⟨a, ha, heq⟩ := mem_map.mp hmem
        exact h.2 a ha (heq ▸ (.head _))
      · rintro ⟨⟨hnot, hnodup⟩, -, hrest⟩
        refine ⟨hnodup, fun a ha hmem => ?_⟩
        rcases mem_cons.mp hmem with heq | hmem
        · exact hnot (heq ▸ mem_map_of_mem ha)
        · exact hrest a ha hmem

theorem lockLoop_ranges_iff (am : AccountManager) {accounts : Finset Bytes} {range : List Bytes} (h : RangesOver accounts range) :
    (am.lockLoop range []).isSome ↔ Set.InjOn am.shard accounts := by
  have hnodup : range.Nodup := by
    rw [← Multiset.coe_nodup, h]
    exact accounts.nodup
  have hmem : ∀ addr, addr ∈ range ↔ addr ∈ accounts := by
    intro addr
    rw [← Multiset.mem_coe, h, Finset.mem_val]
  rw [lockLoop_isSome_iff]
  constructor
  · intro hsome a ha b hb heq
    exact inj_on_of_nodup_map hsome.1 ((hmem a).mpr ha) ((hmem b).mpr hb) heq
  · intro hinj
    refine ⟨hnodup.map_on ?_, fun _ _ => not_mem_nil⟩
    intro a ha b hb heq
    exact hinj ((hmem a).mp ha) ((hmem b).mp hb) heq

theorem exists_rangesOver (accounts : Finset Bytes) : ∃ range, RangesOver accounts range :=
  ⟨accounts.val.toList, Multiset.coe_toList _⟩

/-- The accounts of a block, or any set, are locked without locking a mutex twice, in every order, exactly when no two have one shard. -/
theorem lockAccounts_safe_iff (C : Crypto) (am : AccountManager) :
    (∀ b : Block, (∀ range, RangesOver (AccountManager.collectAccountsForBlock C b) range → (am.lockAccountsForBlock range).isSome) ↔
      Set.InjOn am.shard (AccountManager.collectAccountsForBlock C b)) ∧
    ∀ accounts : Finset Bytes, (∀ range, RangesOver accounts range → (am.lockAccounts range).isSome) ↔ Set.InjOn am.shard accounts := by
  have hall : ∀ accounts : Finset Bytes, (∀ range, RangesOver accounts range → (am.lockLoop range []).isSome) ↔
      Set.InjOn am.shard accounts := by
    intro accounts
    obtain ⟨range, hrange⟩ := exists_rangesOver accounts
    constructor
    · intro h
      exact (lockLoop_ranges_iff am hrange).mp (h range hrange)
    · intro hinj range hrange
      exact (lockLoop_ranges_iff am hrange).mpr hinj
  exact ⟨fun b => hall _, hall⟩

namespace Sample

/-- `NEO0078b37abf24aecb9a7dea23f58120c6257872846a097471296c9947182aa1c875905bc28e`. -/
def neighbourAddress : Bytes :=
  beBytes 40 0x4e454f30303738623337616266323461656362396137646561323366353831323063363235373837 ++
    beBytes 37 0x32383436613039373437313239366339393437313832616131633837353930356263323865

def neighbourBlock : Block :=
  { version := 2, height := 1, timestampUnix := 2, difficultyBits := 1, minerAddress := NeoCoin.Sample.minerAddress
    transactions :=
      [{ type := .coinbase, chainID := 1, toAddress := NeoCoin.Sample.minerAddress, amount := 50 },
        { type := .transfer, chainID := 1, fromPubKey := some (List.replicate 32 23), toAddress := NeoCoin.Sample.payeeAddress
          amount := 1, nonce := 1 }] }

end Sample

/-- The miner locks the accounts of a block and waits for itself, in whatever order. -/
theorem lockAccounts_waits_for_itself :
    ∃ range, RangesOver (AccountManager.collectAccountsForBlock (goCrypto []) Sample.neighbourBlock) range ∧
      (newAccountManager 256).lockAccountsForBlock range = none ∧ (newAccountManager 256).lockAccounts range = none := by
  refine ⟨[NeoCoin.Sample.minerAddress, NeoCoin.Sample.payeeAddress, Sample.neighbourAddress], ?_⟩
  simp only [goCrypto_eq]
  decide +kernel

end NeoCoin.Internal
