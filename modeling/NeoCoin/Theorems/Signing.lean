import NeoCoin.Theorems.Accounting

/-!
# What a signing hash commits to

The binary preimage can be read in one way only (`signed_fields_eq`). It holds the 32-byte hash of the recipient and not the text of the
address (`toAddress_eq_iff`).
-/

namespace NeoCoin

open GoLib List

variable {p : ConsensusParams} {height : UInt64} {d d' enc b data : Bytes} {C : Crypto} {t t' : Transaction} {pre dest dest' : Bytes}

/-- The messages whose digests are the signing hashes of these transactions. -/
def signingMessages (C : Crypto) (p : ConsensusParams) (height : UInt64) (ts : List Transaction) : List Bytes :=
  ts.filterMap fun t => (signingPreimage C t p height).toOption

namespace SigningAux

theorem signingHash_ok_iff {h : Bytes} :
    txSigningHashForConsensus C t p height = .ok h ↔ ∃ pre, signingPreimage C t p height = .ok pre ∧ C.sha256 pre = h := by
  unfold txSigningHashForConsensus
  simp only [bind_eq_ok, Except.ok.injEq]

theorem mem_signingMessages {ts : List Transaction}
    (ht : t ∈ ts) (hpre : signingPreimage C t p height = .ok pre) : pre ∈ signingMessages C p height ts := by
  refine mem_filterMap.mpr ⟨t, ht, ?_⟩
  rw [hpre]
  rfl

structure TransferPreimage (t : Transaction) (dest pre : Bytes) : Prop where
  key : t.fromPubKey.bytes.length = 32
  recipient : decodeHex32 t.toAddress = .ok dest
  eq : pre = [binaryEncodingVersionV1, 1] ++ leBytes 8 t.chainID.toNat ++ t.fromPubKey.bytes ++ dest ++ leBytes 8 t.amount.toNat ++
    leBytes 8 t.nonce.toNat ++ leBytes 8 t.fee.toNat ++ writeData t.data

theorem transferPreimage_of_ok (ht : t.type = .transfer)
    (h : txSigningPreimageBinaryV1 t = .ok pre) : ∃ dest, TransferPreimage t dest pre := by
  unfold txSigningPreimageBinaryV1 at h
  simp only [ht, bind_eq_ok, failIf_eq_ok, not_not, Result.orError_eq_ok] at h
  obtain ⟨_, -, _, hkey, dest, hdest, hpre⟩ := h
  exact ⟨dest, hkey, hdest, (Except.ok.inj hpre).symm⟩

theorem transferPreimage_inj (h : TransferPreimage t dest pre) (h' : TransferPreimage t' dest' pre) :
    t.chainID = t'.chainID ∧ t.fromPubKey.bytes = t'.fromPubKey.bytes ∧ dest = dest' ∧ t.amount = t'.amount ∧ t.nonce = t'.nonce ∧
      t.fee = t'.fee ∧ writeData t.data = writeData t'.data := by
  have heq := h.eq.symm.trans h'.eq
  have hd := decodeHex32_length h.recipient
  have hd' := decodeHex32_length h'.recipient
  simp only [append_assoc] at heq
  obtain ⟨-, heq⟩ := append_inj heq rfl
  obtain ⟨hchain, heq⟩ := append_inj heq (by simp only [leBytes_length])
  obtain ⟨hkey, heq⟩ := append_inj heq (h.key.trans h'.key.symm)
  obtain ⟨hdest, heq⟩ := append_inj heq (hd.trans hd'.symm)
  obtain ⟨hamount, heq⟩ := append_inj heq (by simp only [leBytes_length])
  obtain ⟨hnonce, heq⟩ := append_inj heq (by simp only [leBytes_length])
  obtain ⟨hfee, hdata⟩ := append_inj heq (by simp only [leBytes_length])
  exact ⟨leBytes_uint64_inj hchain, hkey, hdest, leBytes_uint64_inj hamount, leBytes_uint64_inj hnonce, leBytes_uint64_inj hfee, hdata⟩

structure CoinbasePreimage (t : Transaction) (dest pre : Bytes) : Prop where
  recipient : decodeHex32 t.toAddress = .ok dest
  eq : pre = [binaryEncodingVersionV1, 0] ++ leBytes 8 t.chainID.toNat ++ dest ++ leBytes 8 t.amount.toNat ++ writeData t.data

theorem coinbasePreimage_of_ok (ht : t.type = .coinbase)
    (h : txSigningPreimageBinaryV1 t = .ok pre) : ∃ dest, CoinbasePreimage t dest pre := by
  unfold txSigningPreimageBinaryV1 at h
  simp only [ht, bind_eq_ok, failIf_eq_ok, Result.orError_eq_ok] at h
  obtain ⟨_, -, dest, hdest, hpre⟩ := h
  exact ⟨dest, hdest, (Except.ok.inj hpre).symm⟩

theorem coinbasePreimage_inj (h : CoinbasePreimage t dest pre) (h' : CoinbasePreimage t' dest' pre) :
    t.chainID = t'.chainID ∧ dest = dest' ∧ t.amount = t'.amount ∧ writeData t.data = writeData t'.data := by
  have heq := h.eq.symm.trans h'.eq
  have hd := decodeHex32_length h.recipient
  have hd' := decodeHex32_length h'.recipient
  simp only [append_assoc] at heq
  obtain ⟨-, heq⟩ := append_inj heq rfl
  obtain ⟨hchain, heq⟩ := append_inj heq (by simp only [leBytes_length])
  obtain ⟨hdest, heq⟩ := append_inj heq (hd.trans hd'.symm)
  obtain ⟨hamount, hdata⟩ := append_inj heq (by simp only [leBytes_length])
  exact ⟨leBytes_uint64_inj hchain, hdest, leBytes_uint64_inj hamount, hdata⟩

theorem coinbasePreimage_ne_transfer (h : CoinbasePreimage t dest pre) (h' : TransferPreimage t' dest' pre) : False := by
  have heq := h.eq.symm.trans h'.eq
  simp [binaryEncodingVersionV1] at heq

theorem type_of_binary_ok (h : txSigningPreimageBinaryV1 t = .ok pre) : t.type = .coinbase ∨ t.type = .transfer := by
  unfold txSigningPreimageBinaryV1 at h
  cases htype : t.type with
  | coinbase => exact Or.inl rfl
  | transfer => exact Or.inr rfl
  | other name => simp [htype] at h

/-! ## The length of the data -/

/-- Bytes of which the last one, and no other, has a clear top bit. -/
inductive Terminated : Bytes → Prop where
  | last {b : UInt8} : b < 0x80 → Terminated [b]
  | more {b : UInt8} {l : Bytes} : ¬b < 0x80 → Terminated l → Terminated (b :: l)

theorem Terminated.append_inj {u u' : Bytes} (h : Terminated u) (h' : Terminated u') (heq : u ++ d = u' ++ d') : d = d' := by
  induction h generalizing u' with
  | last hb =>
    cases h' with
    | last hb' => exact (List.cons.inj heq).2
    | more hb' hl' => exact absurd ((List.cons.inj heq).1 ▸ hb) hb'
  | more hb hl ih =>
    cases h' with
    | last hb' => exact absurd ((List.cons.inj heq).1 ▸ hb') hb
    | more hb' hl' => exact ih hl' (List.cons.inj heq).2

theorem toNat_shiftRight_seven (n : UInt64) : (n >>> 7).toNat = n.toNat / 128 := by
  rw [UInt64.toNat_shiftRight]
  exact Nat.shiftRight_eq_div_pow n.toNat 7

theorem group_lt (n : UInt64) : (n &&& 0x7f).toUInt8 < 0x80 := by
  have hle : n.toNat &&& 127 ≤ 127 := Nat.and_le_right
  rw [UInt8.lt_iff_toNat_lt, UInt64.toNat_toUInt8, UInt64.toNat_and]
  exact Nat.lt_of_le_of_lt (Nat.mod_le _ _) (Nat.lt_of_le_of_lt hle (by decide))

theorem not_or_lt (b : UInt8) : ¬b ||| 0x80 < 0x80 := by
  have hle : (0x80 : UInt8).toNat ≤ b.toNat ||| (0x80 : UInt8).toNat := Nat.right_le_or
  rw [UInt8.not_lt, UInt8.le_iff_toNat_le, UInt8.toNat_or]
  exact hle

theorem terminated_writeULEB128Loop (k : Nat) (n : UInt64) (hn : n.toNat < 128 ^ (k + 1)) : Terminated (writeULEB128Loop (k + 1) n) := by
  induction k generalizing n with
  | zero =>
    have hzero : n >>> 7 = 0 := by
      rw [← UInt64.toNat_inj, toNat_shiftRight_seven]
      exact Nat.div_eq_of_lt (by simpa using hn)
    simp only [writeULEB128Loop, hzero, ne_eq, not_true_eq_false, if_false]
    exact .last (group_lt n)
  | succ k ih =>
    rw [writeULEB128Loop]
    split
    · refine .more (not_or_lt _) (ih _ ?_)
      rw [toNat_shiftRight_seven]
      exact Nat.div_lt_of_lt_mul (by rw [Nat.mul_comm, ← Nat.pow_succ]; exact hn)
    · exact .last (group_lt n)

theorem terminated_writeULEB128 (n : UInt64) : Terminated (writeULEB128 n) :=
  terminated_writeULEB128Loop 9 n (Nat.lt_of_lt_of_le n.toNat_lt (by decide))

theorem writeData_inj (h : writeData d = writeData d') : d = d' :=
  (terminated_writeULEB128 _).append_inj (terminated_writeULEB128 _) h

end SigningAux

open SigningAux

/-! ## The fields that are signed -/

/-- Two transactions agree in everything that their binary preimages hold. -/
structure SameSigned (t t' : Transaction) : Prop where
  type : t.type = t'.type
  chainID : t.chainID = t'.chainID
  recipient : ∃ dest, decodeHex32 t.toAddress = .ok dest ∧ decodeHex32 t'.toAddress = .ok dest
  amount : t.amount = t'.amount
  data : t.data = t'.data
  transfer : t.type = .transfer → t.fromPubKey = t'.fromPubKey ∧ t.nonce = t'.nonce ∧ t.fee = t'.fee

theorem SigningAux.slice_eq_of_bytes {s s' : GoSlice} (hlen : s.bytes.length = 32) (h : s.bytes = s'.bytes) : s = s' := by
  cases s with
  | none => simp at hlen
  | some b =>
    cases s' with
    | none =>
      rw [h] at hlen
      simp at hlen
    | some b' => exact congrArg some h

theorem SigningAux.sameSigned_of_binary (h : txSigningPreimageBinaryV1 t = .ok pre)
    (h' : txSigningPreimageBinaryV1 t' = .ok pre) : SameSigned t t' := by
  rcases type_of_binary_ok h with ht | ht
  · obtain ⟨dest, hp⟩ := coinbasePreimage_of_ok ht h
    rcases type_of_binary_ok h' with ht' | ht'
    · obtain ⟨dest', hp'⟩ := coinbasePreimage_of_ok ht' h'
      obtain ⟨hchain, rfl, hamount, hdata⟩ := coinbasePreimage_inj hp hp'
      refine ⟨ht.trans ht'.symm, hchain, ⟨dest, hp.recipient, hp'.recipient⟩, hamount, writeData_inj hdata, ?_⟩
      intro htransfer
      rw [ht] at htransfer
      cases htransfer
    · obtain ⟨dest', hp'⟩ := transferPreimage_of_ok ht' h'
      exact (coinbasePreimage_ne_transfer hp hp').elim
  · obtain ⟨dest, hp⟩ := transferPreimage_of_ok ht h
    rcases type_of_binary_ok h' with ht' | ht'
    · obtain ⟨dest', hp'⟩ := coinbasePreimage_of_ok ht' h'
      exact (coinbasePreimage_ne_transfer hp' hp).elim
    · obtain ⟨dest', hp'⟩ := transferPreimage_of_ok ht' h'
      obtain ⟨hchain, hkey, rfl, hamount, hnonce, hfee, hdata⟩ := transferPreimage_inj hp hp'
      exact ⟨ht.trans ht'.symm, hchain, ⟨dest, hp.recipient, hp'.recipient⟩, hamount, writeData_inj hdata,
        fun _ => ⟨slice_eq_of_bytes hp.key hkey, hnonce, hfee⟩⟩

/-- Two transactions with one binary preimage agree in everything it holds. So do two with one signing hash at a height with binary
encoding, where the digest keeps their preimages apart. -/
theorem signed_fields_eq (t t' : Transaction) (pre pre' : Bytes) (h : txSigningPreimageBinaryV1 t = .ok pre)
    (h' : txSigningPreimageBinaryV1 t' = .ok pre') : (pre = pre' → SameSigned t t') ∧
      ∀ (C : Crypto) (p : ConsensusParams) (height : UInt64), p.binaryEncodingActive height = true → C.CollisionFreeOn [pre, pre'] →
        txSigningHashForConsensus C t p height = txSigningHashForConsensus C t' p height → SameSigned t t' := by
  have hsame : pre = pre' → SameSigned t t' := by
    rintro rfl
    exact sameSigned_of_binary h h'
  refine ⟨hsame, ?_⟩
  intro C p height hbin hfree hhash
  have hpre : signingPreimage C t p height = .ok pre := by rw [signingPreimage, if_pos hbin, h]
  have hpre' : signingPreimage C t' p height = .ok pre' := by rw [signingPreimage, if_pos hbin, h']
  rw [signingHash_ok_iff.mpr ⟨pre, hpre, rfl⟩, signingHash_ok_iff.mpr ⟨pre', hpre', rfl⟩] at hhash
  exact hsame (hfree pre (by simp) pre' (by simp) (Except.ok.inj hhash))

open Sample

/-- The transfer of the sample with the letters of its recipient in upper case. -/
def Sample.respelled : Transaction :=
  { overspend with
    toAddress := str "NEO00B62E867FA2F33AFE62D5D6B1642E1621D543307846B2A57B897E710919B767098ED28EBA" }

/-- Two spellings of one transfer. -/
theorem signed_fields_eq_respelled : overspend.toAddress ≠ respelled.toAddress ∧ SameSigned overspend respelled := by
  have hsame : txSigningPreimageBinaryV1 respelled = txSigningPreimageBinaryV1 overspend := by decide +kernel
  have hok : (txSigningPreimageBinaryV1 overspend).isOk := by decide +kernel
  cases hpre : txSigningPreimageBinaryV1 overspend with
  | error e =>
    rw [hpre] at hok
    cases hok
  | ok pre => exact ⟨by decide, (signed_fields_eq _ _ pre pre hpre (hsame.trans hpre)).1 rfl⟩

/-! ## The spelling of an address -/

def addressBytes (addr : Bytes) : Bytes := ((hexDecode (addr.drop addressPrefix.length)).toOption).getD []

/-- Two addresses are spelled alike: equally long, with the same first byte (the version of a long address) and with the same
letters in upper case. -/
structure SameSpelling (a b : Bytes) : Prop where
  length : a.length = b.length
  version : (addressBytes a).head? = (addressBytes b).head?
  letterCase : a.map isUpperHex = b.map isUpperHex

instance (a b : Bytes) : Decidable (SameSpelling a b) :=
  decidable_of_iff (a.length = b.length ∧ (addressBytes a).head? = (addressBytes b).head? ∧ a.map isUpperHex = b.map isUpperHex)
    ⟨fun h => ⟨h.1, h.2.1, h.2.2⟩, fun h => ⟨h.1, h.2, h.3⟩⟩

namespace SigningAux

theorem trimAddressPrefix_append (enc : Bytes) : trimAddressPrefix (addressPrefix ++ enc) = enc := by
  unfold trimAddressPrefix
  rw [if_pos (prefix_append _ _), drop_left]

theorem addressBytes_append (h : hexDecode enc = .ok b) : addressBytes (addressPrefix ++ enc) = b := by
  unfold addressBytes
  rw [drop_left, h]
  rfl

theorem decodeHex32_append (hb : hexDecode enc = .ok b) (hd : decodeHex32 (addressPrefix ++ enc) = .ok dest) :
    (b.length = 37 ∧ dest = (b.drop 1).take 32) ∨ (b.length = 32 ∧ dest = b) := by
  unfold decodeHex32 at hd
  rw [trimAddressPrefix_append, hb] at hd
  obtain ⟨_, hok, hd⟩ := bind_eq_ok.mp hd
  cases hok
  split at hd
  · rename_i h37
    exact Or.inl ⟨h37, (Except.ok.inj hd).symm⟩
  · split at hd
    · rename_i h32
      exact Or.inr ⟨h32, (Except.ok.inj hd).symm⟩
    · nomatch hd

theorem data_of_long (h : (data ++ (C.sha256 data).take checksumLen).length = 37) : data.length = 33 := by
  rw [length_append, length_take, C.sha256_length] at h
  simp only [checksumLen] at h
  omega

theorem bytes_of_long {data' : Bytes} (hl : data.length = 33) (hl' : data'.length = 33)
    (hversion : (data ++ (C.sha256 data).take checksumLen).head? = (data' ++ (C.sha256 data').take checksumLen).head?)
    (hhash : ((data ++ (C.sha256 data).take checksumLen).drop 1).take 32 =
      ((data' ++ (C.sha256 data').take checksumLen).drop 1).take 32) : data = data' := by
  cases data with
  | nil => exact absurd hl (by simp)
  | cons v hash =>
    cases data' with
    | nil => exact absurd hl' (by simp)
    | cons v' hash' =>
      have hl : hash.length = 32 := Nat.succ.inj hl
      have hl' : hash'.length = 32 := Nat.succ.inj hl'
      simp only [cons_append, List.head?_cons, Option.some.injEq] at hversion
      simp only [cons_append, drop_succ_cons, drop_zero] at hhash
      rw [take_left' hl, take_left' hl'] at hhash
      rw [hversion, hhash]

theorem address_eq_of_sameSpelling {a a' : Bytes} (ha : validateAddress C a = .ok ())
    (ha' : validateAddress C a' = .ok ()) (hd : decodeHex32 a = .ok dest) (hd' : decodeHex32 a' = .ok dest)
    (h : SameSpelling a a') : a = a' := by
  obtain ⟨enc, data, rfl, -, hdec⟩ := (validateAddress_ok_iff C a).mp ha
  obtain ⟨enc', data', rfl, -, hdec'⟩ := (validateAddress_ok_iff C a').mp ha'
  have hlen := h.length
  have hversion := h.version
  have hcase := h.letterCase
  rw [length_append, length_append, hexDecode_length hdec, hexDecode_length hdec'] at hlen
  rw [addressBytes_append hdec, addressBytes_append hdec'] at hversion
  rw [map_append, map_append] at hcase
  have hbytes : data ++ (C.sha256 data).take checksumLen = data' ++ (C.sha256 data').take checksumLen := by
    rcases decodeHex32_append hdec hd with ⟨h37, hdest⟩ | ⟨h32, hdest⟩
    · rcases decodeHex32_append hdec' hd' with ⟨h37', hdest'⟩ | ⟨h32', -⟩
      · rw [bytes_of_long (data_of_long h37) (data_of_long h37') hversion (hdest.symm.trans hdest')]
      · omega
    · rcases decodeHex32_append hdec' hd' with ⟨h37', -⟩ | ⟨h32', hdest'⟩
      · omega
      · exact hdest.symm.trans hdest'
  rw [← hbytes] at hdec'
  rw [hexDecode_inj hdec hdec' (append_cancel_left hcase)]

end SigningAux

/-- At a height with binary encoding, two verified transfers with one signing hash credit the same account if and only if their
recipients are spelled alike. -/
theorem toAddress_eq_iff (C : Crypto) (p : ConsensusParams) (height : UInt64) (t t' : Transaction) (h : Bytes)
    (hbin : p.binaryEncodingActive height = true) (ht : t.type = .transfer) (ht' : t'.type = .transfer)
    (hv : t.verifyForConsensus C p height = .ok ()) (hv' : t'.verifyForConsensus C p height = .ok ())
    (hh : txSigningHashForConsensus C t p height = .ok h) (hh' : txSigningHashForConsensus C t' p height = .ok h)
    (hcf : C.CollisionFreeOn (signingMessages C p height [t, t'])) :
    t.toAddress = t'.toAddress ↔ SameSpelling t.toAddress t'.toAddress := by
  constructor
  · intro heq
    rw [heq]
    exact ⟨rfl, rfl, rfl⟩
  · intro hsame
    obtain ⟨pre, hpre, hsum⟩ := signingHash_ok_iff.mp hh
    obtain ⟨pre', hpre', hsum'⟩ := signingHash_ok_iff.mp hh'
    have ht2 : t ∈ [t, t'] := by simp
    have ht2' : t' ∈ [t, t'] := by simp
    have hmem := mem_signingMessages ht2 hpre
    have hmem' := mem_signingMessages ht2' hpre'
    obtain rfl := hcf pre hmem pre' hmem' (hsum.trans hsum'.symm)
    unfold signingPreimage at hpre hpre'
    rw [if_pos hbin] at hpre hpre'
    obtain ⟨dest, hp⟩ := transferPreimage_of_ok ht hpre
    obtain ⟨dest', hp'⟩ := transferPreimage_of_ok ht' hpre'
    obtain ⟨-, -, rfl, -⟩ := transferPreimage_inj hp hp'
    have hval := ((verifyForConsensus_transfer_iff C p height ht).mp hv).toAddress
    have hval' := ((verifyForConsensus_transfer_iff C p height ht').mp hv').toAddress
    exact address_eq_of_sameSpelling hval hval' hp.recipient hp'.recipient hsame

namespace Sample

/-- Both spellings verify, under one signing hash. -/
theorem spellings_verified : (overspend.verifyForConsensus crypto params 1 = .ok () ∧
      respelled.verifyForConsensus crypto params 1 = .ok ()) ∧
    txSigningHashForConsensus crypto overspend params 1 = .ok overspendHash ∧
      txSigningHashForConsensus crypto respelled params 1 = .ok overspendHash := by
  simp only [crypto, goCrypto_eq]
  decide +kernel

theorem spellings_collisionFree : crypto.CollisionFreeOn (signingMessages crypto params 1 [overspend, respelled]) := by
  obtain ⟨hone, hlen⟩ : signingMessages crypto params 1 [respelled] = signingMessages crypto params 1 [overspend] ∧
      (signingMessages crypto params 1 [overspend]).length = 1 := by
    simp only [crypto, goCrypto_eq]
    decide +kernel
  obtain ⟨pre, hpre⟩ := length_eq_one_iff.mp hlen
  have hall : signingMessages crypto params 1 [overspend, respelled] = [pre, pre] := by
    have happ : signingMessages crypto params 1 ([overspend] ++ [respelled]) =
        signingMessages crypto params 1 [overspend] ++ signingMessages crypto params 1 [respelled] := filterMap_append
    rw [hone, hpre] at happ
    exact happ
  rw [hall]
  intro m hm m' hm' _
  simp only [mem_cons, not_mem_nil, or_false, or_self] at hm hm'
  rw [hm, hm']

end Sample

/-- A signed transfer and its respelling: both pass with one signature and one signing hash, and credit two accounts. -/
theorem respelled_credits_other_account : params.binaryEncodingActive 1 = true ∧
      overspend.verifyForConsensus crypto params 1 = .ok () ∧
      respelled.verifyForConsensus crypto params 1 = .ok () ∧
      txSigningHashForConsensus crypto overspend params 1 =
        txSigningHashForConsensus crypto respelled params 1 ∧
      crypto.CollisionFreeOn (signingMessages crypto params 1 [overspend, respelled]) ∧
      overspend.signature = respelled.signature ∧ overspend.toAddress ≠ respelled.toAddress :=
  have ⟨hverified, hhash⟩ := spellings_verified
  ⟨rfl, hverified.1, hverified.2, hhash.1.trans hhash.2.symm, spellings_collisionFree, rfl, by decide⟩

/-- The equivalence on the two spellings. -/
theorem toAddress_eq_iff_respelled : overspend.toAddress = respelled.toAddress ↔
      SameSpelling overspend.toAddress respelled.toAddress :=
  have ⟨hverified, hhash⟩ := spellings_verified
  toAddress_eq_iff crypto params 1 overspend respelled overspendHash rfl rfl rfl
    hverified.1 hverified.2 hhash.1 hhash.2 spellings_collisionFree

end NeoCoin
