import NeoCoin.Theorems.Value

/-!
# Supply and nonces along a chain

The supply changes by what the coinbases create and the fees that no miner receives destroy, modulo `2 ^ 64` (`totalSupply_eq`). The
nonces of an account count its transfers from one (`nonces_sequential`).
-/

namespace NeoCoin

open GoLib List

variable {t : Transaction} {C : Crypto} {p : ConsensusParams} {height : UInt64} {ts : List Transaction}
  {s s' : State} {bs : List Block}

/-! ## Supply -/

namespace SupplyAux

theorem totalSupply_credit (s : State) (a : Bytes) (amount : UInt64) : totalSupply (State.credit s a amount) = totalSupply s + amount := by
  have h := GoMap.sumBy_set (fun acct : Account => acct.balance) rfl s a { s.get a with balance := (s.get a).balance + amount }
  unfold totalSupply State.credit
  grind

theorem totalSupply_debit (s : State) (a : Bytes) (total nonce : UInt64) :
    totalSupply (State.debit s a total nonce) = totalSupply s - total := by
  have h := GoMap.sumBy_set (fun acct : Account => acct.balance) rfl s a
    { balance := (s.get a).balance - total, nonce := nonce }
  unfold totalSupply State.debit
  grind

theorem totalSupply_pay (C : Crypto) (t : Transaction) (s : State) : totalSupply (t.pay C s) = totalSupply s - t.fee := by
  unfold Transaction.pay
  rw [totalSupply_credit, totalSupply_debit]
  grind

theorem transferFees_cons_transfer (ts : List Transaction) (ht : t.type = .transfer) :
    transferFees (t :: ts) = t.fee + transferFees ts := by
  simp [transferFees, ht]

theorem transferFees_cons_coinbase (ts : List Transaction) (ht : t.type = .coinbase) : transferFees (t :: ts) = transferFees ts := by
  simp [transferFees, ht]

theorem totalSupply_payAll (h : TransfersAccepted C p height ts s) : totalSupply (payAll C ts s) = totalSupply s - transferFees ts := by
  induction ts generalizing s with
  | nil => simp [payAll, transferFees]
  | cons t ts ih =>
    obtain ⟨ha, hts⟩ := h
    have hrest := ih hts
    rw [totalSupply_pay] at hrest
    rw [transferFees_cons_transfer ts ha.type]
    unfold payAll at hrest ⊢
    rw [foldl_cons, hrest]
    grind

end SupplyAux

open SupplyAux

def burnedFees (p : ConsensusParams) (b : Block) : UInt64 :=
  transferFees b.transactions - p.monetaryPolicy.minerFeeAmount (transferFees b.transactions)

theorem totalSupply_block {b : Block} {cb : Transaction} (h : BlockAccepted C p b cb ts s) (hpos : b.height > 0) :
    totalSupply (b.pay C s) = totalSupply s + p.monetaryPolicy.blockReward b.height - burnedFees p b := by
  have hamount := (h.economics hpos).2.2
  unfold burnedFees Block.pay
  rw [h.transactions, transferFees_cons_coinbase ts h.type]
  simp only
  rw [totalSupply_payAll h.transfers, totalSupply_credit, hamount]
  unfold expectedCoinbase
  grind

/-- What a chain of accepted blocks above genesis does to the supply, by induction on the chain. -/
theorem totalSupply_applyBlocks (h : applyBlocks C p bs s = (.ok (), s')) (hpos : ∀ b ∈ bs, b.height > 0) :
    totalSupply s' = totalSupply s + (bs.map fun b => p.monetaryPolicy.blockReward b.height).sum -
      (bs.map (burnedFees p)).sum := by
  induction bs generalizing s with
  | nil =>
    simp only [applyBlocks, Prod.mk.injEq, true_and] at h
    simp [h]
  | cons b bs ih =>
    obtain ⟨⟨cb, ts, hb⟩, hbs⟩ := (applyBlocks_cons_ok_iff C p).mp h
    have hrest := ih hbs (fun b' hb' => hpos b' (.tail b hb'))
    rw [totalSupply_block hb (hpos b (.head _))] at hrest
    rw [hrest, map_cons, map_cons, sum_cons, sum_cons]
    grind

theorem genesis_transactions {cfg : GenesisConfig} {g : Block}
    (h : buildGenesisBlock C cfg p = some (.ok g)) : g.transactions = (genesisTemplate C cfg p).transactions := by
  unfold buildGenesisBlock at h
  simp only at h
  split at h
  · nomatch h
  · nomatch h
  · cases h
    rfl

/-- The supply after any chain of accepted blocks: the initial supply and the rewards, less the fees that were not paid out. -/
theorem totalSupply_eq (C : Crypto) (cfg : GenesisConfig) (p : ConsensusParams) (g : Block) (bs : List Block) (s : State)
    (hg : buildGenesisBlock C cfg p = some (.ok g)) (hpos : ∀ b ∈ bs, b.height > 0) (h : applyBlocks C p (g :: bs) ∅ = (.ok (), s)) :
    totalSupply s = cfg.initialSupply + (bs.map fun b => p.monetaryPolicy.blockReward b.height).sum -
      (bs.map (burnedFees p)).sum := by
  obtain ⟨-, hbs⟩ := (applyBlocks_cons_ok_iff C p).mp h
  have hgen : totalSupply (g.pay C ∅) = cfg.initialSupply := by
    unfold Block.pay
    rw [genesis_transactions hg]
    simp only [genesisTemplate, payAll, foldl_nil]
    rw [totalSupply_credit]
    simp [totalSupply]
  rw [totalSupply_applyBlocks hbs hpos, hgen]

open Sample

/-- The chain of two blocks above: one reward, and a fee that goes to the miner. -/
theorem totalSupply_eq_block : totalSupply (block.pay crypto afterGenesis) =
      config.initialSupply + (([block].map fun b => params.monetaryPolicy.blockReward b.height)).sum -
        ([block].map (burnedFees params)).sum :=
  totalSupply_eq crypto config params genesis [block] _ builds (by decide)
    chain_applies

/-! ## Nonces -/

def chainTransfers (bs : List Block) : List Transaction := (bs.flatMap (·.transactions)).filter (·.type = .transfer)

/-- The nonces of the transfers that an address sends, in order. -/
def noncesOf (C : Crypto) (a : Bytes) (ts : List Transaction) : List Nat :=
  (ts.filter (·.sender C = a)).map (·.nonce.toNat)

namespace NonceAux

theorem nonce_credit (s : State) (a a' : Bytes) (amount : UInt64) : ((State.credit s a amount).get a').nonce = (s.get a').nonce := by
  unfold State.credit
  rw [GoMap.get_set]
  split
  · rename_i h
    rw [h]
  · rfl

theorem nonce_pay (C : Crypto) (t : Transaction) (s : State) (a : Bytes) :
    ((t.pay C s).get a).nonce = if a = t.sender C then t.nonce else (s.get a).nonce := by
  unfold Transaction.pay
  rw [nonce_credit]
  unfold State.debit
  rw [GoMap.get_set]
  split
  · rfl
  · rfl

theorem nonce_succ (h : TransferAccepted C p height t s) : t.nonce.toNat = (s.get (t.sender C)).nonce.toNat + 1 := by
  have hlt := (s.get (t.sender C)).nonce.toNat_lt
  have hne : t.nonce.toNat ≠ 0 := fun h0 => h.verified.nonce (UInt64.toNat_inj.mp h0)
  have hn := congrArg UInt64.toNat h.nonce
  rw [UInt64.toNat_add] at hn
  have hone : (1 : UInt64).toNat = 1 := rfl
  rw [hone] at hn
  omega

/-- `ns` counts on from `n`, and `n'` is where it stops. -/
def CountsFrom (n : Nat) (ns : List Nat) (n' : Nat) : Prop := ns = List.range' (n + 1) ns.length ∧ n' = n + ns.length

theorem countsFrom_nil (n : Nat) : CountsFrom n [] n := ⟨rfl, rfl⟩

theorem CountsFrom.append {n n' n'' : Nat} {ns ms : List Nat} (h : CountsFrom n ns n') (h' : CountsFrom n' ms n'') :
    CountsFrom n (ns ++ ms) n'' := by
  obtain ⟨h1, h2⟩ := h
  obtain ⟨h3, h4⟩ := h'
  refine ⟨?_, by rw [h4, h2, length_append]; omega⟩
  have hms : ms = List.range' (n + 1 + ns.length) ms.length := by
    rw [h2] at h3
    rw [show n + 1 + ns.length = n + ns.length + 1 by omega]
    exact h3
  calc ns ++ ms = List.range' (n + 1) ns.length ++ List.range' (n + 1 + ns.length) ms.length := by rw [← h1, ← hms]
    _ = List.range' (n + 1) (ns ++ ms).length := by rw [List.range'_append_1, length_append]

theorem countsFrom_pay (h : TransferAccepted C p height t s) (a : Bytes) :
    CountsFrom (s.get a).nonce.toNat (noncesOf C a [t]) ((t.pay C s).get a).nonce.toNat := by
  rw [nonce_pay]
  by_cases ha : a = t.sender C
  · have hns : noncesOf C a [t] = [t.nonce.toNat] := by simp [noncesOf, ha]
    rw [if_pos ha, hns, ha]
    exact ⟨by rw [nonce_succ h]; rfl, by rw [nonce_succ h]; rfl⟩
  · have hns : noncesOf C a [t] = [] := by simp [noncesOf, Ne.symm ha]
    rw [if_neg ha, hns]
    exact countsFrom_nil _

theorem noncesOf_append (C : Crypto) (a : Bytes) (ts us : List Transaction) :
    noncesOf C a (ts ++ us) = noncesOf C a ts ++ noncesOf C a us := by
  simp [noncesOf]

/-- The transfers of one block, by induction on them with the state generalized. -/
theorem countsFrom_payAll (h : TransfersAccepted C p height ts s) (a : Bytes) :
    CountsFrom (s.get a).nonce.toNat (noncesOf C a ts) ((payAll C ts s).get a).nonce.toNat := by
  induction ts generalizing s with
  | nil => exact countsFrom_nil _
  | cons t ts ih =>
    obtain ⟨ha, hts⟩ := h
    have hcons : noncesOf C a (t :: ts) = noncesOf C a [t] ++ noncesOf C a ts := noncesOf_append C a [t] ts
    rw [hcons]
    exact (countsFrom_pay ha a).append (ih hts)

theorem chainTransfers_cons {b : Block} {cb : Transaction}
    (h : BlockAccepted C p b cb ts s) (bs : List Block) : chainTransfers (b :: bs) = ts ++ chainTransfers bs := by
  have hall : ts.filter (·.type = .transfer) = ts := by
    rw [filter_eq_self]
    intro t ht
    exact decide_eq_true (transfersAccepted_forall h.transfers t ht).1
  unfold chainTransfers
  rw [flatMap_cons, filter_append, h.transactions, filter_cons_of_neg (by simp [h.type]), hall]

/-- A chain of blocks, by induction on it with the state generalized. -/
theorem countsFrom_applyBlocks (h : applyBlocks C p bs s = (.ok (), s')) (a : Bytes) :
    CountsFrom (s.get a).nonce.toNat (noncesOf C a (chainTransfers bs)) (s'.get a).nonce.toNat := by
  induction bs generalizing s with
  | nil =>
    simp only [applyBlocks, Prod.mk.injEq, true_and] at h
    rw [h]
    exact countsFrom_nil _
  | cons b bs ih =>
    obtain ⟨⟨cb, ts, hb⟩, hbs⟩ := (applyBlocks_cons_ok_iff C p).mp h
    have hblock := countsFrom_payAll hb.transfers a
    rw [nonce_credit] at hblock
    have hpay : b.pay C s = payAll C ts (State.credit s cb.toAddress cb.amount) := by rw [Block.pay, hb.transactions]
    rw [chainTransfers_cons hb, noncesOf_append]
    rw [← hpay] at hblock
    exact hblock.append (ih hbs)

theorem nodup_pairs (h : ∀ a, (noncesOf C a ts).Nodup) : (ts.map fun t => (t.sender C, t.nonce)).Nodup := by
  induction ts with
  | nil => exact nodup_nil
  | cons t ts ih =>
    rw [map_cons, nodup_cons]
    refine ⟨fun hmem => ?_, ih fun a => ?_⟩
    · obtain ⟨u, hu, heq⟩ := mem_map.mp hmem
      obtain ⟨hsender, hnonce⟩ := Prod.mk.inj heq
      have hnd := h (t.sender C)
      rw [show noncesOf C (t.sender C) (t :: ts) = t.nonce.toNat :: noncesOf C (t.sender C) ts by simp [noncesOf],
        nodup_cons] at hnd
      refine hnd.1 (mem_map.mpr ⟨u, mem_filter.mpr ⟨hu, ?_⟩, ?_⟩)
      · exact decide_eq_true hsender
      · exact congrArg UInt64.toNat hnonce
    · have hnd := h a
      rw [show noncesOf C a (t :: ts) = noncesOf C a [t] ++ noncesOf C a ts from noncesOf_append C a [t] ts] at hnd
      exact (nodup_append.mp hnd).2.1

theorem pairs_nodup_of_applyBlocks
    (h : applyBlocks C p bs s = (.ok (), s')) : ((chainTransfers bs).map fun t => (t.sender C, t.nonce)).Nodup := by
  refine nodup_pairs fun a => ?_
  rw [(countsFrom_applyBlocks h a).1]
  exact nodup_range'

end NonceAux

open NonceAux

/-- On every accepted chain the nonces of each sender's transfers are `1, 2, …` up to that of its account, and so no transfer occurs
twice. -/
theorem nonces_sequential (C : Crypto) (p : ConsensusParams) (bs : List Block) (s : State) (h : applyBlocks C p bs ∅ = (.ok (), s)) :
    (∀ a, noncesOf C a (chainTransfers bs) = List.range' 1 (s.get a).nonce.toNat) ∧
      ((chainTransfers bs).map fun t => (t.sender C, t.nonce)).Nodup ∧ (chainTransfers bs).Nodup := by
  have hseq : ∀ a, noncesOf C a (chainTransfers bs) = List.range' 1 (s.get a).nonce.toNat := by
    intro a
    obtain ⟨hrange, hlen⟩ := countsFrom_applyBlocks h a
    rw [GoMap.get_empty, Account.default_nonce] at hrange hlen
    have hzero : (0 : UInt64).toNat = 0 := rfl
    rw [hzero, Nat.zero_add] at hrange hlen
    rw [hlen]
    exact hrange
  have hpairs := pairs_nodup_of_applyBlocks h
  exact ⟨hseq, hpairs, hpairs.of_map _⟩

/-- The chain of two blocks above, with one transfer. -/
theorem nonces_sequential_block : (∀ a, noncesOf crypto a (chainTransfers [genesis, block]) =
        List.range' 1 ((block.pay crypto afterGenesis).get a).nonce.toNat) ∧
      ((chainTransfers [genesis, block]).map fun t => (t.sender crypto, t.nonce)).Nodup ∧
        (chainTransfers [genesis, block]).Nodup :=
  nonces_sequential crypto params _ _ chain_applies

end NeoCoin
