import NeoCoin.Internal.Message

/-!
# What the message codec reads back

The header has the length of the payload, and what follows it is a frame in JSON, which is longer. So `Decode` reads the beginning of a
frame, and no message is ever read back (`codec_roundTrip_iff`).
-/

namespace NeoCoin.Internal

open GoLib List

namespace Codec

variable {C : Crypto} {J : FrameJSON} {c : Codec} {msg : Message} {w rest : Bytes}

theorem payload_length_lt (f : FramedMessage) : f.payload.bytes.length < f.json.length := by
  have hpayload : f.payload.bytes.length ≤ (Json.goSlice f.payload).length := by
    cases f.payload with
    | none => exact Nat.zero_le _
    | some b =>
      rw [Json.goSlice_length, GoSlice.bytes_some]
      omega
  rw [FramedMessage.json, Json.object_length]
  simp only [map_cons, map_nil, sum_cons, Json.field_length]
  omega

theorem header_length (f : FramedMessage) : (header f).length = 9 := by
  simp [header, f.checksum.2]

theorem readFull_append {n : Nat} {a b : Bytes} (h : a.length = n) : readFull n (a ++ b) = .ok (a, b) := by
  rw [readFull, if_pos (by rw [length_append]; omega), ← h, take_left, drop_left]

/-- What `Decode` takes for the payload: the first bytes of the frame. -/
def cut (C : Crypto) (msg : Message) : Bytes := (frame C msg).json.take (frame C msg).length.toNat

theorem cut_length_lt (C : Crypto) (msg : Message) : (frame C msg).length.toNat < (frame C msg).json.length := by
  have hle : (frame C msg).length.toNat ≤ msg.payload.bytes.length := by
    rw [frame, UInt32.toNat_ofNat']
    exact Nat.mod_le _ _
  exact hle.trans_lt (payload_length_lt (frame C msg))

theorem decode_encode (h : c.encode C msg = .ok w) (rest : Bytes) : c.decode C J (w ++ rest) =
    if frameChecksum C (cut C msg) ≠ frameChecksum C msg.payload.bytes then .error "invalid checksum"
    else (J.unmarshal (cut C msg)).map fun f => (⟨f.type, f.payload⟩, (frame C msg).json.drop (frame C msg).length.toNat ++ rest) := by
  rw [encode] at h
  split at h
  · exact absurd h nofun
  · rename_i hsize
    cases h
    have hlt := (cut_length_lt C msg).le
    have hlength : UInt32.ofNat (beNat (beBytes 4 (frame C msg).length.toNat)) = (frame C msg).length := by
      rw [beNat_beBytes (frame C msg).length.toNat_lt, UInt32.ofNat_toNat]
    have hread : readFull (frame C msg).length.toNat ((frame C msg).json ++ rest) =
        .ok (cut C msg, (frame C msg).json.drop (frame C msg).length.toNat ++ rest) := by
      rw [readFull, if_pos (by rw [length_append]; omega), take_append_of_le_length hlt, drop_append_of_le_length hlt, cut]
    have hversion : (header (frame C msg)).headD 0 = 1 := rfl
    have htake : ((header (frame C msg)).drop 1).take 4 = beBytes 4 (frame C msg).length.toNat := take_left' (beBytes_length 4 _)
    have hdrop : (header (frame C msg)).drop 5 = (frameChecksum C msg.payload.bytes).val := drop_left' (beBytes_length 4 _)
    rw [decode, append_assoc, readFull_append (header_length _)]
    simp only [bind, Except.bind, hversion, htake, hdrop, hlength, hread]
    by_cases hchecksum : frameChecksum C (cut C msg) = frameChecksum C msg.payload.bytes
    · cases hjson : J.unmarshal (cut C msg) with
      | error e => simp [hchecksum, hsize, Except.map]
      | ok f => simp [hchecksum, hsize, Except.map, pure, Except.pure]
    · have hval : (frameChecksum C (cut C msg)).val ≠ (frameChecksum C msg.payload.bytes).val := fun heq => hchecksum (Subtype.ext heq)
      simp [hchecksum, hval, hsize]

theorem decode_encode_error (h : c.encode C msg = .ok w) (rest : Bytes) : ∃ e, c.decode C J (w ++ rest) = .error e := by
  obtain ⟨e, he⟩ := J.unmarshal_cut (frame C msg) _ (cut_length_lt C msg)
  rw [decode_encode h, cut, he]
  split
  · exact ⟨_, rfl⟩
  · exact ⟨e, rfl⟩

end Codec

/-! ## Frames can be read -/

section Frames

open Json

theorem commaSep_nat_inj {d : UInt8} (hd : ¬isDecimal d) {ms ns : List Nat} {r r' : Bytes} (hlen : ms.length = ns.length)
    (h : commaSep (ms.map nat) ++ d :: r = commaSep (ns.map nat) ++ d :: r') : ms = ns ∧ r = r' := by
  induction ms generalizing ns with
  | nil =>
    obtain rfl := eq_nil_of_length_eq_zero hlen.symm
    exact ⟨rfl, (List.cons.inj h).2⟩
  | cons m ms ih =>
    obtain ⟨n, ns, rfl⟩ := exists_cons_of_length_eq_add_one hlen.symm
    cases ms with
    | nil =>
      obtain rfl := eq_nil_of_length_eq_zero (Nat.succ.inj hlen).symm
      obtain ⟨rfl, -, hr⟩ := decimal_append_inj hd hd h
      exact ⟨rfl, hr⟩
    | cons m' ms =>
      obtain ⟨n', ns, rfl⟩ := exists_cons_of_length_eq_add_one (Nat.succ.inj hlen).symm
      rw [map_cons, map_cons, commaSep_cons_cons, map_cons, map_cons, commaSep_cons_cons, append_assoc,
        append_assoc] at h
      obtain ⟨rfl, -, hrest⟩ := decimal_append_inj not_isDecimal_comma not_isDecimal_comma h
      obtain ⟨hms, hr⟩ := ih (Nat.succ.inj hlen) hrest
      exact ⟨congrArg (m :: ·) hms, hr⟩

theorem goSlice_brace_inj {s s' : GoSlice} (h : goSlice s ++ [0x7d] = goSlice s' ++ [0x7d]) : s = s' := by
  have hplain : ∀ b : Bytes, ∀ c ∈ base64Encode b, isPlain c = true := fun b c hc => isPlain_of_isBase64 (base64Encode_chars b c hc)
  have hhead : ∀ b : Bytes, (goSlice (some b)).head? = some quote := fun b => by rw [goSlice, string_of_isPlain (hplain b)]; rfl
  have heq := append_cancel_right h
  cases s with
  | none =>
    cases s' with
    | none => rfl
    | some b' => exact absurd ((congrArg List.head? heq).trans (hhead b')) (by decide)
  | some b =>
    cases s' with
    | none => exact absurd ((congrArg List.head? heq).symm.trans (hhead b)) (by decide)
    | some b' =>
      obtain ⟨hb, -⟩ := @string_append_inj _ _ [] [] (hplain b) (hplain b') (by simpa [goSlice] using heq)
      rw [base64Encode_inj hb]

theorem json_inj {f f' : FramedMessage} (h : f.json = f'.json) : f = f' := by
  obtain ⟨version, length, checksum, type, payload⟩ := f
  obtain ⟨version', length', checksum', type', payload'⟩ := f'
  simp only [FramedMessage.json, object, commaSep, array, append_assoc, cons_append, List.cons.injEq, true_and] at h
  obtain ⟨hversion, -, h⟩ := decimal_append_inj not_isDecimal_comma not_isDecimal_comma (field_append_inj h)
  obtain ⟨hlength, -, h⟩ := decimal_append_inj not_isDecimal_comma not_isDecimal_comma (field_append_inj h)
  have h := field_append_inj h
  simp only [append_assoc, cons_append, nil_append, List.cons.injEq, true_and] at h
  have hbracket : ¬isDecimal 0x5d := by
    unfold isDecimal
    decide
  have hmap : ∀ b : Bytes, (b.map fun x => nat x.toNat) = (b.map UInt8.toNat).map nat := fun b => by rw [map_map]; rfl
  rw [hmap, hmap] at h
  obtain ⟨hchecksum, h⟩ := commaSep_nat_inj hbracket (by simp [checksum.2, checksum'.2]) h
  have h := (List.cons.inj h).2
  obtain ⟨htype, -, h⟩ := decimal_append_inj not_isDecimal_comma not_isDecimal_comma (field_append_inj h)
  have hpayload := goSlice_brace_inj (field_append_inj h)
  have hbytes : Function.Injective UInt8.toNat := fun _ _ => UInt8.toNat_inj.mp
  rw [UInt8.toNat_inj.mp hversion, UInt32.toNat_inj.mp hlength, Subtype.ext (map_injective_iff.mpr hbytes hchecksum),
    UInt8.toNat_inj.mp htype, hpayload]

theorem forall_commaSep {P : UInt8 → Prop} (hcomma : P comma) {xs : List Bytes} (h : ∀ x ∈ xs, ∀ b ∈ x, P b) : ∀ b ∈ commaSep xs, P b := by
  fun_induction commaSep xs with
  | case1 => exact fun b hb => absurd hb not_mem_nil
  | case2 x => exact h x (.head _)
  | case3 x xs hxs ih =>
    exact forall_mem_append.mpr ⟨h x (.head _), forall_mem_cons.mpr ⟨hcomma, ih fun y hy => h y (.tail _ hy)⟩⟩

theorem field_no_brace {name : String} {value : Bytes} (hname : ∀ b ∈ string (str name), b ≠ 0x7d) (hvalue : ∀ b ∈ value, b ≠ 0x7d) :
    ∀ b ∈ field name value, b ≠ 0x7d :=
  forall_mem_append.mpr ⟨hname, forall_mem_cons.mpr ⟨by decide, hvalue⟩⟩

theorem nat_no_brace (n : Nat) : ∀ b ∈ nat n, b ≠ 0x7d := by
  rintro b hb rfl
  exact not_isDecimal_brace (decimal_digits n _ hb)

theorem goSlice_no_brace (s : GoSlice) : ∀ b ∈ goSlice s, b ≠ 0x7d := by
  cases s with
  | none => decide +kernel
  | some bytes =>
    have hplain : ∀ c ∈ base64Encode bytes, isPlain c = true := fun c hc => isPlain_of_isBase64 (base64Encode_chars bytes c hc)
    have hbase : ∀ c : UInt8, isBase64 c = true → c ≠ 0x7d := forall_byte (by decide +kernel)
    rw [goSlice, string_of_isPlain hplain]
    exact forall_mem_concat.mpr ⟨forall_mem_cons.mpr ⟨by decide, fun b hb => hbase b (base64Encode_chars bytes b hb)⟩, by decide⟩

theorem json_eq_concat (f : FramedMessage) : ∃ body, f.json = body ++ [0x7d] ∧ (0x7d : UInt8) ∉ body := by
  refine ⟨_, rfl, fun hmem => ?_⟩
  rcases mem_cons.mp hmem with hmem | hmem
  · exact absurd hmem (by decide)
  · refine forall_commaSep (P := fun b => b ≠ 0x7d) (by decide) ?_ _ hmem rfl
    have harray : ∀ b ∈ array (f.checksum.val.map fun x => nat x.toNat), b ≠ 0x7d := by
      refine forall_mem_concat.mpr ⟨forall_mem_cons.mpr ⟨by decide, forall_commaSep (by decide) fun x hx => ?_⟩, by decide⟩
      obtain ⟨y, -, rfl⟩ := mem_map.mp hx
      exact nat_no_brace y.toNat
    simp only [forall_mem_cons]
    exact ⟨field_no_brace (by decide +kernel) (nat_no_brace _), field_no_brace (by decide +kernel) (nat_no_brace _),
      field_no_brace (by decide +kernel) harray, field_no_brace (by decide +kernel) (nat_no_brace _),
      field_no_brace (by decide +kernel) (goSlice_no_brace _), forall_mem_nil _⟩

open Classical in
/-- The reader that accepts the text of a frame and nothing else. -/
noncomputable def exactJSON : FrameJSON where
  unmarshal data := if h : ∃ f : FramedMessage, f.json = data then .ok h.choose else .error "unexpected end of JSON input"
  unmarshal_json f := by
    have h : ∃ f' : FramedMessage, f'.json = f.json := ⟨f, rfl⟩
    rw [dif_pos h, json_inj h.choose_spec]
  unmarshal_cut f n hn := by
    refine ⟨_, dif_neg ?_⟩
    rintro ⟨f', hf'⟩
    obtain ⟨body, hbody, hnone⟩ := json_eq_concat f
    obtain ⟨body', hbody', -⟩ := json_eq_concat f'
    rw [hbody, length_append, length_singleton] at hn
    rw [hbody, hbody', take_append_of_le_length (by omega)] at hf'
    have hmem : (0x7d : UInt8) ∈ body.take n := hf' ▸ mem_append_right _ (mem_singleton_self _)
    exact hnone (mem_of_mem_take hmem)

end Frames

/-- Encoding messages and reading them back gives the messages exactly when there are none. -/
theorem codec_roundTrip_iff (C : Crypto) (J : FrameJSON) (n : Int64) (msgs : List Message) :
    (∃ stream, (newCodec n).encodeAll C msgs = .ok stream ∧ (newCodec n).decodeAll C J msgs.length stream = .ok msgs) ↔ msgs = [] := by
  constructor
  · rintro ⟨stream, hencode, hdecode⟩
    cases msgs with
    | nil => rfl
    | cons msg rest =>
      simp only [Codec.encodeAll, bind_eq_ok, pure_eq_ok] at hencode
      obtain ⟨w, hw, rest', -, rfl⟩ := hencode
      obtain ⟨e, herror⟩ := @Codec.decode_encode_error _ J _ _ _ hw rest'
      simp only [length_cons, Codec.decodeAll, herror] at hdecode
      cases hdecode
  · rintro rfl
    exact ⟨[], rfl, rfl⟩

/-- A message of one byte: the byte that is read for it is the brace its frame starts with. -/
theorem codec_refuses_message : ∃ stream, (newCodec 0).encodeAll (goCrypto []) [⟨1, some [0x61]⟩] = .ok stream ∧
    (newCodec 0).decodeAll (goCrypto []) exactJSON 1 stream = .error "invalid checksum" := by
  have hencode : (newCodec 0).encode (goCrypto []) ⟨1, some [0x61]⟩ = .ok _ := if_neg (by decide)
  have hcut : Codec.cut (goCrypto []) ⟨1, some [0x61]⟩ = [0x7b] := rfl
  have hchecksum : frameChecksum (goCrypto []) [0x7b] ≠ frameChecksum (goCrypto []) [0x61] := by
    rw [goCrypto_eq]
    decide
  refine ⟨_, by rw [Codec.encodeAll, hencode]; rfl, ?_⟩
  rw [Codec.decodeAll, Codec.decode_encode hencode, hcut, GoSlice.bytes_some, if_pos hchecksum]
  rfl

/-! ## Streams of frames -/

section Streams

variable (errTooLarge : String) (maxBytes : Int64)

/-- What the reader is told of a value: the value, or that it is too long. -/
def delivered (b : Bytes) : Result Bytes :=
  if 0 < maxBytes ∧ maxBytes.toInt < b.length then .error errTooLarge else .ok b

/-- However the bytes are cut into chunks, the calls of `Read` take the first of them. -/
theorem readChunks_spec (n : Nat) (r : List Bytes) :
    (readChunks n r).1 = r.flatten.take n ∧ (readChunks n r).2.flatten = r.flatten.drop n := by
  induction r generalizing n with
  | nil => simp [readChunks]
  | cons c r ih =>
    obtain ⟨htaken, hleft⟩ := ih (n - c.length)
    unfold readChunks
    split
    · rename_i hle
      simp [take_append_of_le_length hle, drop_append_of_le_length hle]
    · rename_i hlt
      have hle : c.length ≤ n := Nat.le_of_not_le hlt
      simp [htaken, hleft, take_append, drop_append, take_of_length_le hle, drop_of_length_le hle]

theorem readFullChunks_append {r : List Bytes} {a b : Bytes} {n : Nat} (hn : a.length = n) (h : r.flatten = a ++ b) :
    ∃ r', readFullChunks n r = (.ok a, r') ∧ r'.flatten = b := by
  obtain ⟨htaken, hleft⟩ := readChunks_spec n r
  rw [h] at htaken hleft
  refine ⟨(readChunks n r).2, ?_, by rw [hleft, drop_left' hn]⟩
  rw [readFullChunks, htaken, take_left' hn, ← append_nil a, Codec.readFull_append hn, append_nil]
  rfl

theorem readFrame_writeJSON {b rest : Bytes} {r : List Bytes} (hb : b ≠ []) (hlen : b.length < 2 ^ 32)
    (h : r.flatten = writeJSON b ++ rest) :
    ∃ r', readFrame errTooLarge maxBytes r = (delivered errTooLarge maxBytes b, r') ∧ r'.flatten = rest := by
  have hlength : (UInt32.ofNat b.length).toNat = b.length := UInt32.toNat_ofNat_of_lt' hlen
  have hpos : ¬b.length ≤ 0 := fun h => hb (length_eq_zero_iff.mp (Nat.le_zero.mp h))
  rw [writeJSON, hlength, append_assoc] at h
  obtain ⟨r1, hsize, hr1⟩ := readFullChunks_append (beBytes_length 4 _) h
  simp only [readFrame, hsize, beNat_beBytes (k := 4) hlen, if_neg hpos, delivered]
  split
  · exact ⟨_, rfl, by rw [(readChunks_spec _ _).2, hr1, drop_left]⟩
  · exact readFullChunks_append rfl hr1

/-- Values that are written one after another are delivered one by one, however the connection cuts the bytes into chunks, and what follows
them is left. A value that is too long costs the reader this value and no other. By induction on the values. -/
theorem readAll_aligned (errTooLarge : String) (maxBytes : Int64) (values : List Bytes) (rest : Bytes) (r : List Bytes)
    (h : ∀ b ∈ values, b ≠ [] ∧ b.length < 2 ^ 32) (hr : r.flatten = values.flatMap writeJSON ++ rest) :
    ∃ r', readAll (readFrame errTooLarge maxBytes) values.length r = (values.map (delivered errTooLarge maxBytes), r') ∧
      r'.flatten = rest := by
  induction values generalizing r with
  | nil => exact ⟨r, rfl, hr⟩
  | cons b values ih =>
    obtain ⟨hb, hlen⟩ := h b (.head _)
    rw [flatMap_cons, append_assoc] at hr
    obtain ⟨r1, hread, hr1⟩ := readFrame_writeJSON errTooLarge maxBytes hb hlen hr
    obtain ⟨r', hall, hr'⟩ := ih r1 (fun b' hb' => h b' (.tail _ hb')) hr1
    refine ⟨r', ?_, hr'⟩
    simp only [length_cons, readAll, hread, hall, map_cons]

/-- The chunks start in the middle of a length and of a value. -/
theorem readAll_aligned_three : let stream := [str "1", str "234", str "5"].flatMap writeJSON ++ str "6"
    ∃ r', readAll (p2pReadJSON 2) 3 [stream.take 3, (stream.drop 3).take 8, stream.drop 11] =
      ([.ok (str "1"), .error "p2p message too large", .ok (str "5")], r') ∧ r'.flatten = str "6" := by
  intro stream
  rw [show [.ok (str "1"), .error "p2p message too large", .ok (str "5")] =
    [str "1", str "234", str "5"].map (delivered "p2p message too large" 2) by decide]
  exact readAll_aligned _ 2 [str "1", str "234", str "5"] (str "6") _ (by decide) (by decide)

end Streams

end NeoCoin.Internal
