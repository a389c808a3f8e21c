import NeoCoin.Internal.Codec

/-!
# Round trip of the codec

A compressed frame is never read back: `Decode` takes the marker off and asks `decompress` to look for it again, and puts a zero byte
before what it has.
-/

namespace NeoCoin.Internal.ProtobufCodec

open GoLib List

variable {gz : Gzip} {payload : Bytes}

/-! ## Frames -/

theorem length_frame (payload : Bytes) : (frame payload).length = payload.length + 14 := by
  simp only [frame, length_append, leBytes_length]
  omega

theorem leNat_field {framed : Bytes} {i k n : Nat} (front rest : Bytes) (hframed : framed = front ++ leBytes k n ++ rest)
    (hi : front.length = i) (hn : n < 256 ^ k) : leNat ((framed.drop i).take k) = n := by
  have htake : ((framed.drop i).take k) = leBytes k n := by
    rw [hframed, ← hi, append_assoc, drop_left]
    exact take_left' (leBytes_length k n)
  rw [htake, leNat_leBytes hn]

/-- A frame is taken apart into what it was made of. -/
theorem unframe_frame (h : payload.length ≤ pbMaxPayloadSize) : unframe (frame payload) = .ok ("", payload) := by
  have hmagic : leNat (((frame payload).drop 0).take 4) = pbMagicBytes :=
    leNat_field [] (leBytes 2 pbProtocolVersion ++ leBytes 4 payload.length ++ leBytes 4 (pbxorChecksum payload).toNat ++ payload)
      (by simp [frame]) rfl (by decide)
  rw [drop_zero] at hmagic
  have hversion : leNat (((frame payload).drop 4).take 2) = pbProtocolVersion :=
    leNat_field (leBytes 4 pbMagicBytes) (leBytes 4 payload.length ++ leBytes 4 (pbxorChecksum payload).toNat ++ payload)
      (by simp [frame]) (by simp) (by decide)
  have hlength : leNat (((frame payload).drop 6).take 4) = payload.length :=
    leNat_field (leBytes 4 pbMagicBytes ++ leBytes 2 pbProtocolVersion) (leBytes 4 (pbxorChecksum payload).toNat ++ payload)
      (by simp [frame]) (by simp) (by unfold pbMaxPayloadSize at h; omega)
  have hchecksum : leNat (((frame payload).drop 10).take 4) = (pbxorChecksum payload).toNat :=
    leNat_field (leBytes 4 pbMagicBytes ++ leBytes 2 pbProtocolVersion ++ leBytes 4 payload.length) payload
      rfl (by simp) (UInt32.toNat_lt _)
  have hpayload : ((frame payload).drop 14).take payload.length = payload := by
    rw [frame, drop_left' (by simp), take_length]
  have htotal := length_frame payload
  unfold unframe
  simp only [hmagic, hversion, hlength, hchecksum, hpayload, htotal]
  rw [if_neg (by omega), if_neg (by simp), if_neg (by simp), if_neg (by omega), if_neg (by omega), if_neg (by simp)]

/-- What starts with a zero byte is not a frame. -/
theorem unframe_zero (rest : Bytes) : ∃ e, unframe (0 :: rest) = .error e := by
  unfold unframe
  split
  · exact ⟨_, rfl⟩
  have hmagic : leNat ((0 :: rest).take 4) ≠ pbMagicBytes := by
    simp only [take_succ_cons, leNat, pbMagicBytes]
    simp only [UInt8.toNat_zero]
    omega
  rw [if_pos hmagic]
  exact ⟨_, rfl⟩

theorem decode_marked (gz : Gzip) (data : Bytes) : ∃ e, decode gz (1 :: data) = .error e := by
  simp only [decode, if_pos]
  rcases decompress gz data with e | d
  · exact ⟨e, rfl⟩
  · exact unframe_zero d

/-! ## Round trip -/

theorem encode_eq {M : Type} {P : Proto M} {msg : M} {t : PBType} (htype : P.type msg = .inl t) (hmarshal : P.marshal msg = .ok payload)
    (hlength : payload.length ≤ pbMaxPayloadSize) (c : ProtobufCodec) (msgType : String) : c.encode P gz msgType msg =
      .ok (if c.enableCompress && (frame payload).length > pbCompressionThreshold then compress gz (frame payload) else frame payload) := by
  have hmarshal : marshal P msg = .ok payload := by
    rw [marshal, htype, hmarshal]
    rfl
  simp only [encode, hmarshal, bind, Except.bind]
  rw [if_neg (Nat.not_lt.mpr hlength)]
  split <;> rfl

theorem decode_frame (payload : Bytes) : decode gz (frame payload) = unframe (frame payload) := by
  have hfirst : ∃ rest, frame payload = 0x43 :: rest := ⟨_, rfl⟩
  obtain ⟨rest, hrest⟩ := hfirst
  rw [hrest]
  rfl

/-- `Decode` returns the payload that `Encode` was given exactly when the frame was not compressed. -/
theorem round_trip_iff {M : Type} {P : Proto M} {c : ProtobufCodec} {msgType : String} {msg : M} {t : PBType} (htype : P.type msg = .inl t)
    (hmarshal : P.marshal msg = .ok payload) (hlength : payload.length ≤ pbMaxPayloadSize) :
    (∃ b, c.encode P gz msgType msg = .ok b ∧ decode gz b = .ok ("", payload)) ↔
      (c.enableCompress = true → payload.length + 14 ≤ pbCompressionThreshold) := by
  rw [encode_eq htype hmarshal hlength, length_frame]
  split
  · rename_i hcompressed
    rw [Bool.and_eq_true, decide_eq_true_iff] at hcompressed
    constructor
    · rintro ⟨b, hb, hdecode⟩
      obtain ⟨e, he⟩ := decode_marked gz (gz.compress (frame payload))
      rw [← Except.ok.inj hb, compress, he] at hdecode
      cases hdecode
    · intro h
      exact absurd hcompressed.2 (Nat.not_lt.mpr (h hcompressed.1))
  · rename_i hplain
    rw [Bool.and_eq_true, decide_eq_true_iff, not_and, Nat.not_lt] at hplain
    constructor
    · intro _
      exact hplain
    · intro _
      exact ⟨_, rfl, by rw [decode_frame, unframe_frame hlength]⟩

def Sample.raw : Proto Bytes where
  type _ := .inl .block
  marshal := .ok

/-- A compressor that puts the magic number of gzip before the data. -/
def Sample.gzip : Gzip where
  compress b := 0x1f :: 0x8b :: b
  decompress
    | 0x1f :: 0x8b :: b => .ok b
    | _ => .error "gzip: invalid header"
  decompress_compress _ := rfl

/-- A message of three bytes comes back. -/
theorem round_trip_short :
    ∃ b, ProtobufCodec.encode Sample.raw Sample.gzip {} "block" [1, 2, 3] = .ok b ∧ decode Sample.gzip b = .ok ("", [1, 2, 3]) :=
  (round_trip_iff rfl rfl (by decide)).mpr (by decide)

/-- A message of 1011 bytes is compressed, and what `Encode` makes of it is rejected. -/
theorem round_trip_fails : ∃ b, ProtobufCodec.encode Sample.raw Sample.gzip {} "block" (List.replicate 1011 0) = .ok b ∧
      decode Sample.gzip b = .error "invalid magic: 0x438b1f00" := by
  refine ⟨_, encode_eq rfl rfl (by rw [length_replicate]; decide) _ _, ?_⟩
  decide +kernel

end NeoCoin.Internal.ProtobufCodec
