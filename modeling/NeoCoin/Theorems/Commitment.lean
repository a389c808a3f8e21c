import NeoCoin.Theorems.Signing

/-!
# What the Merkle root of a block commits to

A Merkle root alone does not determine the list of leaves: repeating the last leaves keeps it. In an accepted block no two transactions
have one signing preimage, and on lists without repetition the root is injective as far as the digest is.
-/

namespace NeoCoin

open GoLib List

variable {cb : Transaction} {s : State} {b : Block} {leaves : List Bytes} {r : Bytes} {t t' : Transaction} {C : Crypto} {pre : Bytes}
  {p : ConsensusParams} {height : UInt64} {ts : List Transaction} {ms : List Bytes}

/-- The messages that are hashed on the way to the Merkle root of a block: the signing preimages, the leaves and the inner nodes. -/
def rootMessages (C : Crypto) (p : ConsensusParams) (b : Block) : List Bytes :=
  let leaves := (signingMessages C p b.height b.transactions).map C.sha256
  signingMessages C p b.height b.transactions ++ leaves.map (fun l => 0x00 :: l) ++
    (Merkle.hashedPairs (hashNode C) leaves.length (leaves.map (hashLeaf C))).map fun q => 0x01 :: q.1 ++ q.2

namespace CommitmentAux

open SigningAux NonceAux

/-! ## One preimage, one sender and nonce -/

theorem signingViewJSON_type (t : Transaction) (fromAddr : Bytes) :
    ∃ rest, signingViewJSON t fromAddr = 0x7b :: (Json.field "type" (Json.string t.type.name) ++ rest) := by
  unfold signingViewJSON Json.object
  simp only [cons_append, nil_append, Json.commaSep_cons_cons, append_assoc]
  exact ⟨_, rfl⟩

theorem signingViewJSON_transfer {fromAddr : Bytes} (hfrom : fromAddr ≠ []) (hnonce : t.nonce ≠ 0) :
    ∃ c rest, ¬isDecimal c ∧ signingViewJSON t fromAddr =
      0x7b :: (Json.field "type" (Json.string t.type.name) ++ Json.comma ::
        (Json.field "chainId" (Json.nat t.chainID.toNat) ++ Json.comma ::
          (Json.field "fromAddr" (Json.string fromAddr) ++ Json.comma ::
            (Json.field "toAddress" (Json.string t.toAddress) ++ Json.comma ::
              (Json.field "amount" (Json.nat t.amount.toNat) ++ Json.comma ::
                (Json.field "fee" (Json.nat t.fee.toNat) ++ Json.comma ::
                  (Json.field "nonce" (Json.nat t.nonce.toNat) ++ c :: rest))))))) := by
  unfold signingViewJSON Json.object omitEmpty
  rw [if_neg hfrom, if_neg hnonce]
  -- what follows the nonce is the data field, or the end of the object
  by_cases hdata : t.data = []
  · rw [if_pos hdata]
    refine ⟨0x7d, [], Json.not_isDecimal_brace, ?_⟩
    simp [Json.commaSep]
  · rw [if_neg hdata]
    refine ⟨Json.comma, Json.field "data" (Json.string t.data) ++ [0x7d], Json.not_isDecimal_comma, ?_⟩
    simp [Json.commaSep]

theorem signingViewJSON_inj {a a' : Bytes} (ha : ∀ b ∈ a, Json.isPlain b = true)
    (ha' : ∀ b ∈ a', Json.isPlain b = true) (hto : ∀ b ∈ t.toAddress, Json.isPlain b = true)
    (hto' : ∀ b ∈ t'.toAddress, Json.isPlain b = true) (hne : a ≠ []) (hne' : a' ≠ []) (hn : t.nonce ≠ 0) (hn' : t'.nonce ≠ 0)
    (htype : t.type = t'.type) (h : signingViewJSON t a = signingViewJSON t' a') : a = a' ∧ t.nonce = t'.nonce := by
  obtain ⟨c, rest, hc, heq⟩ := signingViewJSON_transfer hne hn
  obtain ⟨c', rest', hc', heq'⟩ := signingViewJSON_transfer hne' hn'
  rw [heq, heq', htype] at h
  have h := (List.cons.inj (append_cancel_left (List.cons.inj h).2)).2
  obtain ⟨-, -, h⟩ := decimal_append_inj Json.not_isDecimal_comma Json.not_isDecimal_comma (Json.field_append_inj h)
  obtain ⟨hfrom, h⟩ := Json.string_append_inj ha ha' (Json.field_append_inj h)
  obtain ⟨-, h⟩ := Json.string_append_inj hto hto' (Json.field_append_inj (List.cons.inj h).2)
  obtain ⟨-, -, h⟩ := decimal_append_inj Json.not_isDecimal_comma Json.not_isDecimal_comma (Json.field_append_inj (List.cons.inj h).2)
  obtain ⟨-, -, h⟩ := decimal_append_inj Json.not_isDecimal_comma Json.not_isDecimal_comma (Json.field_append_inj h)
  obtain ⟨hnonce, -, -⟩ := decimal_append_inj hc hc' (Json.field_append_inj h)
  exact ⟨hfrom, UInt64.toNat_inj.mp hnonce⟩

theorem legacyPreimage_of_ok (ht : t.type = .transfer)
    (h : signingPreimageLegacyJSON C t = .ok pre) : pre = signingViewJSON t (t.sender C) := by
  unfold signingPreimageLegacyJSON at h
  rw [if_pos ht] at h
  obtain ⟨addr, haddr, hpre⟩ := bind_eq_ok.mp h
  obtain ⟨-, -, rfl⟩ := (fromAddress_ok_iff C).mp haddr
  exact (Except.ok.inj hpre).symm

theorem transferPreimage_ne_view {dest : Bytes} (h : TransferPreimage t dest pre) (fromAddr : Bytes) :
    pre ≠ signingViewJSON t' fromAddr := by
  intro hview
  obtain ⟨rest, hrest⟩ := signingViewJSON_type t' fromAddr
  have heq := h.eq.symm.trans (hview.trans hrest)
  simp [binaryEncodingVersionV1] at heq

theorem sender_nonce_of_preimage {height' : UInt64}
    (ht : t.type = .transfer) (ht' : t'.type = .transfer) (hv : VerifiedTransfer C t p height)
    (hv' : VerifiedTransfer C t' p height') (h : signingPreimage C t p height = .ok pre)
    (h' : signingPreimage C t' p height' = .ok pre) : t.sender C = t'.sender C ∧ t.nonce = t'.nonce := by
  unfold signingPreimage at h h'
  split at h
  · obtain ⟨dest, hp⟩ := transferPreimage_of_ok ht h
    split at h'
    · obtain ⟨dest', hp'⟩ := transferPreimage_of_ok ht' h'
      obtain ⟨-, hkey, -, -, hnonce, -⟩ := transferPreimage_inj hp hp'
      exact ⟨by rw [Transaction.sender, Transaction.sender, hkey], hnonce⟩
    · exact absurd (legacyPreimage_of_ok ht' h') (transferPreimage_ne_view hp _)
  · have hview := legacyPreimage_of_ok ht h
    split at h'
    · obtain ⟨dest', hp'⟩ := transferPreimage_of_ok ht' h'
      exact absurd hview (transferPreimage_ne_view hp' _)
    · have hplain := fun key => isPlain_of_validateAddress (validateAddress_generateAddress C key)
      exact signingViewJSON_inj (hplain _) (hplain _) (isPlain_of_validateAddress hv.toAddress)
        (isPlain_of_validateAddress hv'.toAddress) (generateAddress_ne_nil C _) (generateAddress_ne_nil C _) hv.nonce hv'.nonce
        (ht.trans ht'.symm) (hview.symm.trans (legacyPreimage_of_ok ht' h'))

theorem preimage_coinbase_ne (hcb : cb.type = .coinbase) (ht : t.type = .transfer) (h : signingPreimage C cb p height = .ok pre)
    (h' : signingPreimage C t p height = .ok pre) : False := by
  unfold signingPreimage at h h'
  split at h
  · rename_i hbin
    rw [if_pos hbin] at h'
    obtain ⟨dest, hp⟩ := transferPreimage_of_ok ht h'
    obtain ⟨dest', hp'⟩ := coinbasePreimage_of_ok hcb h
    exact coinbasePreimage_ne_transfer hp' hp
  · rename_i hbin
    rw [if_neg hbin] at h'
    have hview := legacyPreimage_of_ok ht h'
    unfold signingPreimageLegacyJSON at h
    rw [if_neg (by rw [hcb]; simp)] at h
    have heq := (Except.ok.inj h).trans hview
    obtain ⟨rest, hrest⟩ := signingViewJSON_type cb []
    obtain ⟨rest', hrest'⟩ := signingViewJSON_type t (t.sender C)
    rw [hrest, hrest', hcb, ht] at heq
    have hplain : ∀ b ∈ TransactionType.name .coinbase ++ TransactionType.name .transfer, Json.isPlain b = true := by
      decide +kernel
    have hname := (Json.string_append_inj (fun b hb => hplain b (mem_append_left _ hb))
      (fun b hb => hplain b (mem_append_right _ hb)) (Json.field_append_inj (List.cons.inj heq).2)).1
    exact absurd hname (by decide)

/-! ## The transactions of an accepted block have different preimages -/

theorem transfersAccepted_pairwise
    (h : TransfersAccepted C p height ts s) : ts.Pairwise fun t u => (t.sender C, t.nonce) ≠ (u.sender C, u.nonce) := by
  have hnodup : (ts.map fun t => (t.sender C, t.nonce)).Nodup := by
    refine nodup_pairs fun a => ?_
    rw [(countsFrom_payAll h a).1]
    exact nodup_range'
  exact pairwise_map.mp hnodup

theorem signingMessages_nodup (h : BlockAccepted C p b cb ts s) : (signingMessages C p b.height b.transactions).Nodup := by
  have hts := transfersAccepted_forall h.transfers
  unfold signingMessages
  rw [h.transactions]
  refine pairwise_filterMap.mpr (pairwise_cons.mpr ⟨?_, ?_⟩)
  · intro t ht m hm m' hm' heq
    subst heq
    exact preimage_coinbase_ne h.type (hts t ht).1 (Result.toOption_eq_some.mp hm) (Result.toOption_eq_some.mp hm')
  · refine (transfersAccepted_pairwise h.transfers).imp_of_mem ?_
    intro t u ht hu hne m hm m' hm' heq
    subst heq
    obtain ⟨htype, hverified⟩ := hts t ht
    obtain ⟨htype', hverified'⟩ := hts u hu
    obtain ⟨h1, h2⟩ := sender_nonce_of_preimage htype htype' hverified hverified' (Result.toOption_eq_some.mp hm)
      (Result.toOption_eq_some.mp hm')
    exact hne (by rw [h1, h2])

/-- The signing hashes of a block are the digests of its signing messages, by induction on the transactions. -/
theorem signingHashes_eq (h : (ts.mapM fun tx => txSigningHashForConsensus C tx p height) = .ok leaves) :
    leaves = (signingMessages C p height ts).map C.sha256 := by
  induction ts generalizing leaves with
  | nil =>
    rw [mapM_nil] at h
    exact (Except.ok.inj h).symm
  | cons t ts ih =>
    rw [mapM_cons] at h
    obtain ⟨x, hx, h⟩ := bind_eq_ok.mp h
    obtain ⟨xs, hxs, h⟩ := bind_eq_ok.mp h
    obtain rfl := pure_eq_ok.mp h
    obtain ⟨pre, hpre, rfl⟩ := signingHash_ok_iff.mp hx
    have hcons : signingMessages C p height (t :: ts) = pre :: signingMessages C p height ts := by
      unfold signingMessages
      rw [filterMap_cons, hpre]
      rfl
    rw [hcons, map_cons, ← ih hxs]

theorem merkleRoot_ok (h : merkleRoot C leaves = .ok r) : leaves ≠ [] ∧ Merkle.root (hashNode C) (leaves.map (hashLeaf C)) = some r := by
  unfold merkleRoot at h
  split at h
  · nomatch h
  · split at h
    · nomatch h
    · rename_i r' hr
      cases h
      refine ⟨?_, hr⟩
      rintro rfl
      nomatch hr

/-! ## Trees over two blocks -/

theorem hashedPairs_length (leaves : List Bytes) (n : Nat) :
    ∀ q ∈ Merkle.hashedPairs (hashNode C) n (leaves.map (hashLeaf C)), q.1.length = 32 ∧ q.2.length = 32 := by
  refine Merkle.hashedPairs_forall (P := fun x : Bytes => x.length = 32) (fun _ _ => C.sha256_length _) ?_
  intro x hx
  obtain ⟨l, -, rfl⟩ := mem_map.mp hx
  exact C.sha256_length _

/-- A pair whose message is among `ms`, with parts of 32 bytes. -/
def HashedIn (ms : List Bytes) (q : Bytes × Bytes) : Prop :=
  (0x01 :: q.1 ++ q.2) ∈ ms ∧ q.1.length = 32 ∧ q.2.length = 32

theorem hashNode_inj (hcf : C.CollisionFreeOn ms) (x y x' y' : Bytes) (h : HashedIn ms (x, y))
    (h' : HashedIn ms (x', y')) (heq : hashNode C x y = hashNode C x' y') : x = x' ∧ y = y' := by
  have hm := hcf _ h.1 _ h'.1 heq
  simp only [cons_append, List.cons.injEq, true_and] at hm
  exact append_inj hm (h.2.1.trans h'.2.1.symm)

def LeafIn (C : Crypto) (ms : List Bytes) (x : Bytes) : Prop := ∃ l, x = hashLeaf C l ∧ (0x00 :: l) ∈ ms

theorem hashNode_not_leaf (hcf : C.CollisionFreeOn ms) (x y : Bytes) (h : HashedIn ms (x, y)) : ¬LeafIn C ms (hashNode C x y) := by
  rintro ⟨l, heq, hl⟩
  have hm := hcf _ h.1 _ hl heq
  simp at hm

/-- One side of the comparison: the leaves of a block and what is hashed over them. -/
structure LeavesIn (C : Crypto) (ms leaves : List Bytes) : Prop where
  leaf : ∀ l ∈ leaves, (0x00 :: l) ∈ ms
  pair : ∀ q ∈ Merkle.hashedPairs (hashNode C) leaves.length (leaves.map (hashLeaf C)), (0x01 :: q.1 ++ q.2) ∈ ms

theorem leaves_eq_of_root {l m : List Bytes} (hcf : C.CollisionFreeOn ms) (hl : LeavesIn C ms l)
    (hm : LeavesIn C ms m) (hnl : l.Nodup) (hnm : m.Nodup) (hrl : merkleRoot C l = .ok r) (hrm : merkleRoot C m = .ok r) : l = m := by
  obtain ⟨hne, hroot⟩ := merkleRoot_ok hrl
  obtain ⟨hne', hroot'⟩ := merkleRoot_ok hrm
  have hinj : ∀ a b, (0x00 :: a) ∈ ms → (0x00 :: b) ∈ ms → hashLeaf C a = hashLeaf C b → a = b := by
    intro a b ha hb heq
    exact (List.cons.inj (hcf _ ha _ hb heq)).2
  have hnodup : ∀ {k : List Bytes}, LeavesIn C ms k → k.Nodup → (k.map (hashLeaf C)).Nodup := by
    intro k hk hnk
    exact (nodup_map_iff_inj_on hnk).mpr fun a ha b hb => hinj a b (hk.leaf a ha) (hk.leaf b hb)
  have hleaf : ∀ {k : List Bytes}, LeavesIn C ms k → ∀ x ∈ k.map (hashLeaf C), LeafIn C ms x := by
    intro k hk x hx
    obtain ⟨a, ha, rfl⟩ := mem_map.mp hx
    exact ⟨a, rfl, hk.leaf a ha⟩
  have hpair : ∀ {k : List Bytes}, LeavesIn C ms k →
      ∀ q ∈ Merkle.hashedPairs (hashNode C) (k.map (hashLeaf C)).length (k.map (hashLeaf C)), HashedIn ms q := by
    intro k hk q hq
    rw [length_map] at hq
    exact ⟨hk.pair q hq, hashedPairs_length k _ q hq⟩
  have hmap := Merkle.root_inj (hashNode_inj hcf) (hashNode_not_leaf hcf) (hnodup hl hnl) (hnodup hm hnm) (hleaf hl) (hleaf hm)
    (hpair hl) (hpair hm) (by simpa using hne) (by simpa using hne') (hroot.trans hroot'.symm)
  exact Merkle.map_inj_on (fun a ha b hb => hinj a b (hl.leaf a ha) (hm.leaf b hb)) hmap

theorem leavesIn_of_rootMessages
    (h : ∀ m ∈ rootMessages C p b, m ∈ ms) : LeavesIn C ms ((signingMessages C p b.height b.transactions).map C.sha256) := by
  unfold rootMessages at h
  refine ⟨fun l hl => h _ ?_, fun q hq => h _ ?_⟩
  · exact mem_append_left _ (mem_append_right _ (mem_map_of_mem hl))
  · exact mem_append_right _ (mem_map.mpr ⟨q, hq, rfl⟩)

end CommitmentAux

open CommitmentAux

/-- Two accepted blocks with one Merkle root have the same signing hashes in the same order, if no two of the hashed messages collide. -/
theorem signingHashes_eq_of_root_eq (C : Crypto) (p : ConsensusParams) (b b' : Block) (s s' σ σ' : State) (r : Bytes)
    (hb : applyBlockToState C p s b = (.ok (), σ)) (hb' : applyBlockToState C p s' b' = (.ok (), σ'))
    (hr : b.merkleRootV2ForConsensus C p = .ok r) (hr' : b'.merkleRootV2ForConsensus C p = .ok r)
    (hcf : C.CollisionFreeOn (rootMessages C p b ++ rootMessages C p b')) : b.signingHashes C p = b'.signingHashes C p := by
  obtain ⟨⟨cb, ts, hacc⟩, -⟩ := (applyBlockToState_ok_iff C p).mp hb
  obtain ⟨⟨cb', ts', hacc'⟩, -⟩ := (applyBlockToState_ok_iff C p).mp hb'
  obtain ⟨leaves, hleaves, hroot⟩ := bind_eq_ok.mp hr
  obtain ⟨leaves', hleaves', hroot'⟩ := bind_eq_ok.mp hr'
  have heq := signingHashes_eq hleaves
  have heq' := signingHashes_eq hleaves'
  -- no repetition among the preimages, and so none among their digests
  have hnodup : ∀ {d : Block} {c : Transaction} {us : List Transaction} {ρ : State}, BlockAccepted C p d c us ρ →
      (∀ m ∈ rootMessages C p d, m ∈ rootMessages C p b ++ rootMessages C p b') →
      ((signingMessages C p d.height d.transactions).map C.sha256).Nodup := by
    intro d c us ρ hd hsub
    refine (nodup_map_iff_inj_on (signingMessages_nodup hd)).mpr ?_
    intro m hm m' hm' hsum
    have hmem : ∀ x ∈ signingMessages C p d.height d.transactions, x ∈ rootMessages C p d := by
      intro x hx
      exact mem_append_left _ (mem_append_left _ hx)
    exact hcf m (hsub m (hmem m hm)) m' (hsub m' (hmem m' hm')) hsum
  have hsub : ∀ m ∈ rootMessages C p b, m ∈ rootMessages C p b ++ rootMessages C p b' := fun m => mem_append_left _
  have hsub' : ∀ m ∈ rootMessages C p b', m ∈ rootMessages C p b ++ rootMessages C p b' := fun m => mem_append_right _
  rw [heq] at hroot
  rw [heq'] at hroot'
  have hlist := leaves_eq_of_root hcf (leavesIn_of_rootMessages hsub) (leavesIn_of_rootMessages hsub') (hnodup hacc hsub)
    (hnodup hacc' hsub') hroot hroot'
  rw [hleaves, hleaves', heq, heq', hlist]

namespace Sample

/-- A second block with the transactions of the first, mined a second later. -/
def laterBlock : Block := { block with timestampUnix := 3 }

theorem laterBlock_accepted : applyBlockToState crypto params afterGenesis laterBlock = (.ok (), laterBlock.pay crypto afterGenesis) := by
  apply applyBlockToState_of_fst_ok
  simp only [crypto, goCrypto_eq]
  decide +kernel

def blockRoot : Bytes := beBytes 32 0x8866fc4717162965bd1a80a2246f5c84a53afa67f90148a34225b085530c8bac

theorem block_root : block.merkleRootV2ForConsensus crypto params = .ok blockRoot := by
  simp only [crypto, goCrypto_eq]
  decide +kernel

theorem laterBlock_root : laterBlock.merkleRootV2ForConsensus crypto params = .ok blockRoot := block_root

theorem rootMessages_collisionFree :
    crypto.CollisionFreeOn (rootMessages crypto params block ++ rootMessages crypto params laterBlock) := by
  have hnodup : ((rootMessages crypto params block).map crypto.sha256).Nodup := by
    simp only [crypto, goCrypto_eq]
    decide +kernel
  exact (Crypto.CollisionFreeOn.of_nodup hnodup).mono fun m hm => (mem_append.mp hm).elim id id

end Sample

open Sample

/-- Two blocks with one root, accepted one second apart. -/
theorem signingHashes_eq_of_root_eq_block : block.signingHashes crypto params = laterBlock.signingHashes crypto params :=
  signingHashes_eq_of_root_eq crypto params block laterBlock _ _ _ _ blockRoot
    block_accepted laterBlock_accepted block_root laterBlock_root rootMessages_collisionFree

end NeoCoin
