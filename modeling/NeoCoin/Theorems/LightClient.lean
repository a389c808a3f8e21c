import NeoCoin.Internal.LightClient

/-!
# What a light client accepts

For every difficulty a node uses, the bytes of the target of a light client are all zero, and from 2048 on computing it panics. The headers
a client stores are linked by their hashes, but nothing relates their heights.
-/

namespace NeoCoin.Internal

open GoLib List

variable {batch : List (Option SPVHeader)} {batches : List (List (Option SPVHeader))}

/-! ## The target -/

/-- The exponent of `calcTarget`, after it was cut to its range. -/
def targetExp (difficulty : Int64) : Int64 :=
  let exp := 256 - (if difficulty ≤ 0 then 1 else difficulty) / 8
  let exp := if exp < 0 then 0 else exp
  if exp > 256 then 256 else exp

theorem calcTarget_eq (difficulty : Int64) : calcTarget difficulty =
    if targetExp difficulty < 32 then
      if (32 - targetExp difficulty).toInt.toNat < 32 then
        some ((List.replicate 32 0).set (32 - targetExp difficulty).toInt.toNat 1)
      else none
    else some ((List.replicate 32 0).set 0 (UInt8.ofNat (2 ^ (targetExp difficulty - 32).toInt.toNat))) := rfl

theorem bmod_of_small {z : Int} (h : -2 ^ 62 ≤ z) (h' : z ≤ 2 ^ 62) : z.bmod (2 ^ 64) = z :=
  Int.bmod_eq_of_le (by omega) (by omega)

theorem targetExp_toInt (difficulty : Int64) : (targetExp difficulty).toInt = max 0 (256 - max 1 difficulty.toInt / 8) := by
  have hpos : (if difficulty ≤ 0 then 1 else difficulty).toInt = max 1 difficulty.toInt := by
    split
    · rename_i h
      have h0 : difficulty.toInt ≤ 0 := Int64.le_iff_toInt_le.mp h
      rw [max_eq_left (by omega)]
      rfl
    · rename_i h
      have h0 : 0 < difficulty.toInt := Int64.lt_iff_toInt_lt.mp (Int64.not_le.mp h)
      rw [max_eq_right (by omega)]
  have hlt : difficulty.toInt < 2 ^ 63 := difficulty.toInt_lt
  unfold targetExp
  simp only
  generalize (if difficulty ≤ 0 then 1 else difficulty) = d at hpos ⊢
  have hdiv : (d / 8).toInt = max 1 difficulty.toInt / 8 := by
    rw [Int64.toInt_div, hpos, show (8 : Int64).toInt = 8 from rfl, Int.tdiv_eq_ediv_of_nonneg (by omega),
      bmod_of_small (by omega) (by omega)]
  have hexp : (256 - d / 8).toInt = 256 - max 1 difficulty.toInt / 8 := by
    rw [Int64.toInt_sub, hdiv, show (256 : Int64).toInt = 256 from rfl, bmod_of_small (by omega) (by omega)]
  have hcut : (if 256 - d / 8 < 0 then 0 else 256 - d / 8).toInt = max 0 (256 - max 1 difficulty.toInt / 8) := by
    split
    · rename_i h
      have h0 := Int64.lt_iff_toInt_lt.mp h
      rw [hexp, show (0 : Int64).toInt = 0 from rfl] at h0
      rw [show (0 : Int64).toInt = 0 from rfl]
      omega
    · rename_i h
      have h0 := Int64.le_iff_toInt_le.mp (Int64.not_lt.mp h)
      rw [hexp, show (0 : Int64).toInt = 0 from rfl] at h0
      rw [hexp]
      omega
  rw [if_neg ?_]
  · exact hcut
  · rw [gt_iff_lt, Int64.not_lt, Int64.le_iff_toInt_le, hcut, show (256 : Int64).toInt = 256 from rfl]
    omega

theorem calcTarget_of_le {difficulty : Int64} (h : difficulty.toInt ≤ 256) : calcTarget difficulty = some (List.replicate 32 0) := by
  have hexp := targetExp_toInt difficulty
  have hlow : ¬targetExp difficulty < 32 := by
    rw [Int64.not_lt, Int64.le_iff_toInt_le, hexp, show (32 : Int64).toInt = 32 from rfl]
    omega
  have hshift : (targetExp difficulty - 32).toInt = (targetExp difficulty).toInt - 32 := by
    rw [Int64.toInt_sub, show (32 : Int64).toInt = 32 from rfl, bmod_of_small (by omega) (by omega)]
  have hbyte : UInt8.ofNat (2 ^ (targetExp difficulty - 32).toInt.toNat) = 0 := by
    obtain ⟨k, hk⟩ : ∃ k, (targetExp difficulty - 32).toInt.toNat = 8 + k := Nat.exists_eq_add_of_le (by rw [hshift, hexp]; omega)
    rw [hk, Nat.pow_add, ← UInt8.toNat_inj, UInt8.toNat_ofNat']
    exact Nat.mul_mod_right 256 (2 ^ k)
  rw [calcTarget_eq, if_neg hlow, hbyte]
  rfl

theorem calcTarget_eq_none_iff (difficulty : Int64) : calcTarget difficulty = none ↔ 2048 ≤ difficulty.toInt := by
  have hexp := targetExp_toInt difficulty
  have hlt : difficulty.toInt < 2 ^ 63 := difficulty.toInt_lt
  have hsub : (32 - targetExp difficulty).toInt = 32 - (targetExp difficulty).toInt := by
    rw [Int64.toInt_sub, show (32 : Int64).toInt = 32 from rfl, bmod_of_small (by omega) (by omega)]
  rw [calcTarget_eq]
  split
  · rename_i hlow
    split
    · rename_i hin
      rw [hsub] at hin
      simp only [reduceCtorEq, false_iff]
      omega
    · rename_i hout
      rw [hsub] at hout
      simp only [true_iff]
      omega
  · rename_i hhigh
    rw [Int64.not_lt, Int64.le_iff_toInt_le, show (32 : Int64).toInt = 32 from rfl] at hhigh
    simp only [reduceCtorEq, false_iff]
    omega

theorem beNat_eq_zero_iff (b : Bytes) : beNat b = 0 ↔ ∀ c ∈ b, c = 0 := by
  have hfold : ∀ (b : Bytes) (a : Nat), b.foldl (fun n x => n * 256 + x.toNat) a = 0 ↔ a = 0 ∧ ∀ c ∈ b, c = 0 := by
    intro b
    induction b with
    | nil => intro a; simp
    | cons c rest ih =>
      intro a
      have hc : c.toNat = 0 ↔ c = 0 := UInt8.toNat_inj (b := 0)
      rw [foldl_cons, ih, forall_mem_cons, ← hc, Nat.add_eq_zero_iff, Nat.mul_eq_zero]
      simp [and_assoc]
  rw [beNat, hfold]
  simp

theorem bytesCompareLoop_zero_iff (b : Bytes) : bytesCompareLoop b (List.replicate b.length 0) ≤ 0 ↔ ∀ c ∈ b, c = 0 := by
  induction b with
  | nil => simp [bytesCompareLoop]
  | cons c rest ih =>
    rw [length_cons, replicate_succ, bytesCompareLoop, forall_mem_cons]
    by_cases hc : c = 0
    · simp [hc, ih]
    · have hnot : ¬c < 0 := UInt8.not_lt.mpr (UInt8.zero_le)
      simp [hc, hnot]

theorem ne_nil_of_hexDecode {s b : Bytes} (h : hexDecode s = .ok b) (hlen : b.length = 32) : s ≠ [] := by
  rintro rfl
  cases h
  cases hlen

theorem validatePoW_of_le {h : SPVHeader} {hash : Bytes} (hhash : hexDecode h.hash = .ok hash) (hlen : hash.length = 32)
    (hdiff : h.difficulty.toInt ≤ 256) : h.validatePoW = some (decide (beNat hash = 0)) := by
  have hne := ne_nil_of_hexDecode hhash hlen
  have hsame : bytesToUint256 hash = hash := by
    rw [bytesToUint256, if_neg (by omega), take_of_length_le (by omega)]
  have hcompare : bytesCompare hash (List.replicate 32 0) ≤ 0 ↔ beNat hash = 0 := by
    rw [bytesCompare, if_neg (by simp [hlen]), ← hlen, bytesCompareLoop_zero_iff, beNat_eq_zero_iff]
  simp only [SPVHeader.validatePoW, hne, hhash, hlen, calcTarget_of_le hdiff, hsame, if_false, ne_eq, not_true_eq_false, Option.map_some,
    hcompare]

theorem validatePoW_eq_none_iff (h : SPVHeader) :
    h.validatePoW = none ↔ 2048 ≤ h.difficulty.toInt ∧ ∃ hash, hexDecode h.hash = .ok hash ∧ hash.length = 32 := by
  constructor
  · intro hnone
    unfold SPVHeader.validatePoW at hnone
    split at hnone
    · cases hnone
    · split at hnone
      · cases hnone
      · rename_i hash hhash
        split at hnone
        · cases hnone
        · rename_i hlen
          exact ⟨(calcTarget_eq_none_iff _).mp (Option.map_eq_none_iff.mp hnone), hash, hhash, not_not.mp hlen⟩
  · rintro ⟨hdiff, hash, hhash, hlen⟩
    have hne := ne_nil_of_hexDecode hhash hlen
    simp only [SPVHeader.validatePoW, hne, hhash, hlen, (calcTarget_eq_none_iff _).mpr hdiff, if_false, ne_eq, not_true_eq_false,
      Option.map_none]

/-- For 1 to 256 bits a light client and a node agree on a hash exactly when it is zero or no solution at all. Checking panics exactly
for a hash of 32 bytes with a difficulty of 2048 or more. -/
theorem validatePoW_agrees_iff (h : SPVHeader) : (∀ (b : Block) (hash : Bytes), hexDecode h.hash = .ok hash → hash.length = 32 →
      h.difficulty.toInt = b.difficultyBits.toNat → 1 ≤ b.difficultyBits.toNat → b.difficultyBits.toNat ≤ 256 →
      powTarget b.toBlock = 2 ^ (256 - b.difficultyBits.toNat) ∧
      ((h.validatePoW = some true ↔ beNat hash < powTarget b.toBlock) ↔ beNat hash = 0 ∨ powTarget b.toBlock ≤ beNat hash)) ∧
    (h.validatePoW = none ↔ 2048 ≤ h.difficulty.toInt ∧ ∃ hash, hexDecode h.hash = .ok hash ∧ hash.length = 32) := by
  refine ⟨?_, validatePoW_eq_none_iff h⟩
  intro b hash hhash hlen hdiff _ hmax
  have htarget : powTarget b.toBlock = 2 ^ (256 - b.difficultyBits.toNat) := by
    have hle : b.difficultyBits ≤ 256 := UInt32.le_iff_toNat_le.mpr hmax
    rw [powTarget, UInt32.toNat_sub_of_le _ _ hle]
    rfl
  have hpos : 0 < powTarget b.toBlock := by
    rw [htarget]
    exact Nat.two_pow_pos _
  refine ⟨htarget, ?_⟩
  rw [validatePoW_of_le hhash hlen (by omega), Option.some.injEq, decide_eq_true_eq]
  omega

/-- The hash one solves one bit for a node and not for a light client, and a difficulty of 2048 panics. -/
theorem validatePoW_disagrees : (∀ b : Block, b.difficultyBits = 1 → beNat (beBytes 32 1) < powTarget b.toBlock) ∧
      SPVHeader.validatePoW { hash := hexEncode (beBytes 32 1), difficulty := 1 } = some false ∧
      SPVHeader.validatePoW { hash := hexEncode (beBytes 32 1), difficulty := 2048 } = none := by
  refine ⟨?_, by decide, by decide⟩
  intro b hb
  rw [powTarget, hb]
  decide

/-! ## One header -/

namespace LightClient

variable {lc lc' : LightClient} {header : SPVHeader} {e : Option String}

theorem verifyDifficulty_eq_none_iff (header : SPVHeader) (headers : List SPVHeader) :
    verifyDifficulty header headers = none ↔ headers.length = 2015 := by
  unfold verifyDifficulty
  split
  · simp only [reduceCtorEq, false_iff]
    omega
  · split
    · simp only [true_iff]
      omega
    · rename_i hlong
      rw [List.getElem?_eq_getElem (by omega), List.getElem?_eq_getElem (by omega)]
      simp only [reduceCtorEq, false_iff]
      omega

def retargets (lc : LightClient) (header : SPVHeader) : Option Bool :=
  if header.atRetarget then verifyDifficulty header lc.headers else some true

/-- The three checks accept a header: its proof of work, its link to the last header, and its difficulty at a new window. -/
def Passes (lc : LightClient) (header : SPVHeader) : Prop :=
  header.validatePoW = some true ∧ lc.linkError header = none ∧ lc.retargets header = some true

instance decidablePasses (lc : LightClient) (header : SPVHeader) : Decidable (lc.Passes header) := inferInstanceAs (Decidable (_ ∧ _ ∧ _))

/-- A header panics in a check, is refused by one, or is stored. -/
theorem addHeader_cases (lc : LightClient) (header : SPVHeader) : (lc.addHeader (some header) = none ∧ (header.validatePoW = none ∨
      header.validatePoW = some true ∧ lc.linkError header = none ∧ lc.retargets header = none)) ∨
    (∃ msg, lc.addHeader (some header) = some (some msg, lc) ∧ ¬lc.Passes header) ∨
    (lc.addHeader (some header) = some (none, lc.store header) ∧ lc.Passes header) := by
  unfold Passes
  rcases hpow : header.validatePoW with _ | _ | _
  · exact Or.inl ⟨by simp only [addHeader, hpow], Or.inl rfl⟩
  · exact Or.inr (Or.inl ⟨_, by simp only [addHeader, hpow]; rfl, by simp⟩)
  · rcases hlink : lc.linkError header with _ | msg
    · rcases hat : lc.retargets header with _ | _ | _
      · refine Or.inl ⟨?_, Or.inr ⟨rfl, rfl, rfl⟩⟩
        unfold retargets at hat
        simp only [addHeader, hpow, hlink, hat]
      · refine Or.inr (Or.inl ⟨s!"difficulty adjustment failed at {header.height}", ?_, by simp⟩)
        unfold retargets at hat
        simp only [addHeader, hpow, hlink, hat]
      · refine Or.inr (Or.inr ⟨?_, rfl, rfl, rfl⟩)
        unfold retargets at hat
        simp only [addHeader, hpow, hlink, hat]
    · exact Or.inr (Or.inl ⟨msg, by simp only [addHeader, hpow, hlink], by simp⟩)

theorem retargets_eq_none_iff : lc.retargets header = none ↔ header.atRetarget ∧ lc.headers.length = 2015 := by
  unfold retargets
  split
  · rename_i hat
    rw [verifyDifficulty_eq_none_iff, and_iff_right hat]
  · rename_i hat
    simp [hat]

@[simp] theorem headers_store (lc : LightClient) (header : SPVHeader) : (lc.store header).headers = lc.headers ++ [header] := by
  unfold store
  simp only
  split
  · rfl
  · rfl

/-! ## All headers -/

def Linked (headers : List SPVHeader) : Prop := headers.IsChain fun prev header => header.prevBlock = prev.hash

def Rising (headers : List SPVHeader) : Prop := headers.IsChain fun prev header => header.height.toInt = prev.height.toInt + 1

instance (headers : List SPVHeader) : Decidable (Rising headers) := inferInstanceAs (Decidable (List.IsChain _ _))

theorem isChain_snoc_iff {R : SPVHeader → SPVHeader → Prop} {headers : List SPVHeader} {header : SPVHeader} :
    (headers ++ [header]).IsChain R ↔ headers.IsChain R ∧ ∀ prev, headers.getLast? = some prev → R prev header := by
  rw [isChain_append]
  simp

/-- A header that a client can read: the target and the window are there, and if the checks accept it, it is one higher than the last
one. -/
structure Harmless (lc : LightClient) (header : SPVHeader) : Prop where
  target : ∀ hash, hexDecode header.hash = .ok hash → hash.length = 32 → header.difficulty.toInt < 2048
  window : header.validatePoW = some true → lc.linkError header = none → header.atRetarget → lc.headers.length ≠ 2015
  height : lc.Passes header → ∀ prev, lc.headers.getLast? = some prev → header.height.toInt = prev.height.toInt + 1

/-- Every header of a batch that is read is there and harmless. A batch is read as long as the checks accept its headers. -/
def BatchHarmless : List (Option SPVHeader) → LightClient → Prop
  | [], _ => True
  | none :: _, _ => False
  | some header :: rest, lc => lc.Harmless header ∧ (lc.Passes header → BatchHarmless rest (lc.store header))

/-- The client with the headers of a batch that the checks accept, up to the first that they do not. -/
def afterBatch : List (Option SPVHeader) → LightClient → LightClient
  | [], lc => lc
  | none :: _, lc => lc
  | some header :: rest, lc => if lc.Passes header then afterBatch rest (lc.store header) else lc

/-- Every header that is read from the batches is there and harmless. -/
def AllHarmless : List (List (Option SPVHeader)) → LightClient → Prop
  | [], _ => True
  | batch :: rest, lc => BatchHarmless batch lc ∧ AllHarmless rest (afterBatch batch lc)

theorem harmless_iff : lc.Harmless header ↔ lc.addHeader (some header) ≠ none ∧
    (lc.Passes header → ∀ prev, lc.headers.getLast? = some prev → header.height.toInt = prev.height.toInt + 1) := by
  have htarget := validatePoW_eq_none_iff header
  constructor
  · intro h
    refine ⟨?_, h.height⟩
    rcases addHeader_cases lc header with ⟨-, hpow | ⟨hpow, hlink, hat⟩⟩ | ⟨msg, hadd, -⟩ | ⟨hadd, -⟩
    · obtain ⟨hdiff, hash, hhash, hlen⟩ := htarget.mp hpow
      have := h.target hash hhash hlen
      omega
    · obtain ⟨hat, hwindow⟩ := retargets_eq_none_iff.mp hat
      exact absurd hwindow (h.window hpow hlink hat)
    · simp [hadd]
    · simp [hadd]
  · rintro ⟨hadd, hheight⟩
    refine ⟨?_, ?_, hheight⟩
    · intro hash hhash hlen
      by_contra hdiff
      have hpow := htarget.mpr ⟨by omega, hash, hhash, hlen⟩
      exact hadd (by simp only [addHeader, hpow])
    · intro hpow hlink hat hwindow
      have hnone := retargets_eq_none_iff.mpr ⟨hat, hwindow⟩
      unfold retargets at hnone
      exact hadd (by simp only [addHeader, hpow, hlink, hnone])

theorem prevBlock_of_linkError (h : lc.linkError header = none) {prev : SPVHeader} (hprev : lc.headers.getLast? = some prev) :
    header.prevBlock = prev.hash := by
  unfold linkError at h
  rw [hprev] at h
  by_contra hne
  simp [hne] at h

theorem linked_store (hlinked : Linked lc.headers) (hlink : lc.linkError header = none) : Linked (lc.store header).headers := by
  rw [headers_store]
  exact isChain_snoc_iff.mpr ⟨hlinked, fun prev hprev => prevBlock_of_linkError hlink hprev⟩

/-- What one call does: it stores the headers that pass behind those it has, and keeps the links. By induction on the batch. -/
theorem validateAndAddHeaders_grows (hlinked : Linked lc.headers) (h : lc.validateAndAddHeaders batch = some (e, lc')) :
    lc' = afterBatch batch lc ∧ lc.headers <+: lc'.headers ∧ Linked lc'.headers := by
  induction batch generalizing lc with
  | nil =>
    cases h
    exact ⟨rfl, prefix_refl _, hlinked⟩
  | cons header rest ih =>
    cases header with
    | none => cases h
    | some header =>
      unfold validateAndAddHeaders at h
      unfold afterBatch
      rcases addHeader_cases lc header with ⟨hadd, -⟩ | ⟨msg, hadd, hnot⟩ | ⟨hadd, hpasses⟩
      · rw [hadd] at h
        cases h
      · rw [hadd] at h
        cases h
        exact ⟨(if_neg hnot).symm, prefix_refl _, hlinked⟩
      · rw [hadd] at h
        obtain ⟨hafter, hgrows, hlinked'⟩ := ih (linked_store hlinked hpasses.2.1) h
        rw [headers_store] at hgrows
        exact ⟨hafter.trans (if_pos hpasses).symm, (prefix_append _ _).trans hgrows, hlinked'⟩

/-- One call keeps the heights rising exactly if every header it reads is harmless. By induction on the batch. -/
theorem validateAndAddHeaders_iff (hlinked : Linked lc.headers) (hrising : Rising lc.headers) :
    (∃ e lc', lc.validateAndAddHeaders batch = some (e, lc') ∧ Rising lc'.headers) ↔ BatchHarmless batch lc := by
  induction batch generalizing lc with
  | nil => exact ⟨fun _ => trivial, fun _ => ⟨none, lc, rfl, hrising⟩⟩
  | cons header rest ih =>
    cases header with
    | none => simp [validateAndAddHeaders, addHeader, BatchHarmless]
    | some header =>
      rw [BatchHarmless, harmless_iff, validateAndAddHeaders]
      rcases addHeader_cases lc header with ⟨hadd, -⟩ | ⟨msg, hadd, hnot⟩ | ⟨hadd, hpasses⟩
      · simp [hadd]
      · simp [hadd, hrising, hnot]
      · have hrises : Rising (lc.store header).headers ↔
            ∀ prev, lc.headers.getLast? = some prev → header.height.toInt = prev.height.toInt + 1 := by
          rw [headers_store]
          exact isChain_snoc_iff.trans (and_iff_right hrising)
        have hlinked' := linked_store hlinked hpasses.2.1
        rw [hadd]
        simp only [ne_eq, reduceCtorEq, not_false_eq_true, true_and, hpasses, forall_const]
        constructor
        · rintro ⟨e, lc', hrest, hrising'⟩
          have hheight := hrising'.prefix (validateAndAddHeaders_grows hlinked' hrest).2.1
          exact ⟨hrises.mp hheight, (ih hlinked' hheight).mp ⟨e, lc', hrest, hrising'⟩⟩
        · rintro ⟨hheight, hrest⟩
          exact (ih hlinked' (hrises.mpr hheight)).mpr hrest

theorem receive_grows (hlinked : Linked lc.headers) (h : lc.receive batches = some lc') :
    lc.headers <+: lc'.headers ∧ Linked lc'.headers := by
  induction batches generalizing lc with
  | nil =>
    cases h
    exact ⟨prefix_refl _, hlinked⟩
  | cons batch rest ih =>
    unfold receive at h
    split at h
    · cases h
    · rename_i e lc₁ hbatch
      obtain ⟨-, hgrows, hlinked₁⟩ := validateAndAddHeaders_grows hlinked hbatch
      obtain ⟨hgrows', hlinked'⟩ := ih hlinked₁ h
      exact ⟨hgrows.trans hgrows', hlinked'⟩

/-- A run over any batches keeps the heights rising exactly if every header it reads is harmless. By induction on the batches. -/
theorem receive_iff (hlinked : Linked lc.headers) (hrising : Rising lc.headers) :
    (∃ lc', lc.receive batches = some lc' ∧ Rising lc'.headers) ↔ AllHarmless batches lc := by
  induction batches generalizing lc with
  | nil => exact ⟨fun _ => trivial, fun _ => ⟨lc, rfl, hrising⟩⟩
  | cons batch rest ih =>
    rw [AllHarmless, ← validateAndAddHeaders_iff hlinked hrising, receive]
    rcases hbatch : lc.validateAndAddHeaders batch with _ | ⟨e, lc₁⟩
    · simp
    · obtain ⟨hafter, -, hlinked₁⟩ := validateAndAddHeaders_grows hlinked hbatch
      rw [← hafter]
      constructor
      · rintro ⟨lc', hrest, hrising'⟩
        have hrising₁ := hrising'.prefix (receive_grows hlinked₁ hrest).1
        exact ⟨⟨e, lc₁, rfl, hrising₁⟩, (ih hlinked₁ hrising₁).mp ⟨lc', hrest, hrising'⟩⟩
      · rintro ⟨⟨_, _, heq, hrising₁⟩, hrest⟩
        cases heq
        exact (ih hlinked₁ hrising₁).mpr hrest

end LightClient

open LightClient

/-- A client receives batches without a panic, and its headers are linked and rise by one, exactly when every header it reads is there
and harmless. -/
theorem headerSync_safe_iff (trusted : Option Block) (batches : List (List (Option SPVHeader))) :
    (∃ lc, LightClient.receive batches { trustedBlock := trusted } = some lc ∧ Linked lc.headers ∧ Rising lc.headers) ↔
      AllHarmless batches { trustedBlock := trusted } := by
  have hlinked : Linked ({ trustedBlock := trusted } : LightClient).headers := List.IsChain.nil
  rw [← receive_iff hlinked List.IsChain.nil]
  constructor
  · rintro ⟨lc, hreceive, -, hrising⟩
    exact ⟨lc, hreceive, hrising⟩
  · rintro ⟨lc, hreceive, hrising⟩
    exact ⟨lc, hreceive, (receive_grows hlinked hreceive).2, hrising⟩

namespace Sample

def zeroHeader (height : Int64) : SPVHeader := { hash := hexEncode (beBytes 32 0), prevBlock := hexEncode (beBytes 32 0), height }

theorem zeroHeader_validatePoW (height : Int64) : (zeroHeader height).validatePoW = some true := by
  have hdiff : (zeroHeader height).difficulty.toInt ≤ 256 := show (0 : Int64).toInt ≤ 256 by decide
  rw [validatePoW_of_le (hexDecode_hexEncode (beBytes 32 0)) (beBytes_length 32 0) hdiff, decide_eq_true (beNat_beBytes (by decide))]

theorem zeroHeader_linkError {lc : LightClient} (hzero : ∀ h ∈ lc.headers, h.hash = hexEncode (beBytes 32 0))
    (hnone : lc.trustedBlock = none) (height : Int64) : lc.linkError (zeroHeader height) = none := by
  unfold linkError
  rw [hnone]
  rcases hlast : lc.headers.getLast? with _ | prev
  · rfl
  · simp [zeroHeader, hzero prev (mem_of_getLast? hlast)]

theorem zeroHeader_added {lc : LightClient} (hzero : ∀ h ∈ lc.headers, h.hash = hexEncode (beBytes 32 0)) (hnone : lc.trustedBlock = none) :
    lc.addHeader (some (zeroHeader 1)) = some (none, lc.store (zeroHeader 1)) := by
  have hat : ¬(zeroHeader 1).atRetarget := by decide
  simp only [addHeader, zeroHeader_validatePoW, zeroHeader_linkError hzero hnone, hat, if_false]

theorem zeroHeaders_added (n : Nat) {lc : LightClient} (hzero : ∀ h ∈ lc.headers, h.hash = hexEncode (beBytes 32 0))
    (hnone : lc.trustedBlock = none) (rest : List (Option SPVHeader)) :
    ∃ lc' : LightClient, (∀ h ∈ lc'.headers, h.hash = hexEncode (beBytes 32 0)) ∧ lc'.trustedBlock = none ∧
      lc'.headers.length = lc.headers.length + n ∧
      lc.validateAndAddHeaders (List.replicate n (some (zeroHeader 1)) ++ rest) = lc'.validateAndAddHeaders rest := by
  induction n generalizing lc with
  | zero => exact ⟨lc, hzero, hnone, rfl, rfl⟩
  | succ n ih =>
    have hstored : ∀ h ∈ (lc.store (zeroHeader 1)).headers, h.hash = hexEncode (beBytes 32 0) := by
      rw [headers_store]
      exact forall_mem_concat.mpr ⟨hzero, rfl⟩
    have htrusted : (lc.store (zeroHeader 1)).trustedBlock = none := by
      unfold LightClient.store
      simp only
      split
      · exact hnone
      · exact hnone
    obtain ⟨lc', hzero', hnone', hlength, hrun⟩ := ih hstored htrusted
    refine ⟨lc', hzero', hnone', ?_, ?_⟩
    · rw [hlength, headers_store, length_append, length_singleton]
      omega
    · rw [replicate_succ, cons_append, validateAndAddHeaders, zeroHeader_added hzero hnone]
      exact hrun

end Sample

open Internal.Sample

/-- Two linked headers are stored with heights that do not follow each other. A header at a new window panics behind 2015 others, and so
does one with a difficulty of 2048. -/
theorem headerSync_unsafe : (∃ lc, LightClient.receive [[some (zeroHeader 1), some (zeroHeader 7)]] {} = some lc ∧ ¬Rising lc.headers) ∧
      LightClient.receive [List.replicate 2015 (some (zeroHeader 1)) ++ [some (zeroHeader 2016)]] {} = none ∧
      LightClient.receive [[some { zeroHeader 1 with difficulty := 2048 }]] {} = none := by
  refine ⟨⟨_, rfl, by decide⟩, ?_, rfl⟩
  obtain ⟨lc, hzero, hnone, hlength, hrun⟩ := @zeroHeaders_added 2015 {} (fun _ h => absurd h not_mem_nil) rfl
    [some (zeroHeader 2016)]
  have hat : (zeroHeader 2016).atRetarget := by decide
  have hnone : lc.addHeader (some (zeroHeader 2016)) = none := by
    simp only [addHeader, zeroHeader_validatePoW, zeroHeader_linkError hzero hnone, hat, if_true,
      (verifyDifficulty_eq_none_iff _ _).mpr (hlength.trans (Nat.zero_add 2015))]
  rw [receive, hrun, validateAndAddHeaders, hnone]

end NeoCoin.Internal
