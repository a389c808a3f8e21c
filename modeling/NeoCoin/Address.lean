import NeoCoin.Lib.Json
import NeoCoin.Types

/-!
# Addresses

`blockchain/address.go`. `GenerateAddress` writes an address one way; `ValidateAddress` accepts more: upper-case digits, any version byte
and any length, as long as the last four bytes are the checksum of the rest.
-/

namespace NeoCoin

open GoLib List

/-- `AddressPrefix`, the text every address starts with. -/
def addressPrefix : Bytes := str "NEO"

def addressVersion : UInt8 := 0x00

def checksumLen : Nat := 4

def hashLen : Nat := 32

variable (C : Crypto)

/-- The text of an address over some data: the data and its checksum, in hexadecimal. -/
def encodeAddress (addressData : Bytes) : Bytes :=
  addressPrefix ++ hexEncode (addressData ++ (C.sha256 addressData).take checksumLen)

def generateAddress (pubKey : Bytes) : Bytes :=
  encodeAddress C (addressVersion :: (C.sha256 pubKey).take hashLen)

def validateAddress (addr : Bytes) : Result Unit := do
  failIf (addr.length < addressPrefix.length + 10) "address too short"
  failIf (addr.take addressPrefix.length ≠ addressPrefix) s!"invalid prefix, expected {text addressPrefix}"
  let decoded ← (hexDecode (addr.drop addressPrefix.length)).wrap "invalid hex: "
  failIf (decoded.length < checksumLen + 1) "invalid encoded length"
  let addressData := decoded.take (decoded.length - checksumLen)
  let storedChecksum := decoded.drop (decoded.length - checksumLen)
  failIf (storedChecksum ≠ (C.sha256 addressData).take checksumLen) "checksum mismatch"

def generateAddressFromRawHex (rawHex : Bytes) : Bytes :=
  match hexDecode rawHex with
  | .error _ => rawHex
  | .ok b => if b.length ≠ 32 then rawHex else encodeAddress C (addressVersion :: b)

/-! ## What a valid address is -/

@[simp] theorem addressPrefix_length : addressPrefix.length = 3 := by decide

theorem validateAddress_ok_iff (addr : Bytes) :
    validateAddress C addr = .ok () ↔ ∃ enc data, addr = addressPrefix ++ enc ∧ data ≠ [] ∧
      hexDecode enc = .ok (data ++ (C.sha256 data).take checksumLen) := by
  constructor
  · intro h
    simp only [validateAddress, bind_eq_ok, failIf_eq_ok, Result.wrap_eq_ok, not_not, not_lt] at h
    obtain ⟨_, hlen, _, hpre, decoded, hdec, _, hdl, hsum⟩ := h
    refine ⟨addr.drop addressPrefix.length, decoded.take (decoded.length - checksumLen), ?_, ?_, ?_⟩
    · conv_lhs => rw [← take_append_drop addressPrefix.length addr, hpre]
    · rw [← length_pos_iff, length_take]
      omega
    · rw [← hsum, take_append_drop]
      exact hdec
  · rintro ⟨enc, data, rfl, hne, hdec⟩
    have hpos := length_pos_iff.mpr hne
    have hlen := hexDecode_length hdec
    have hsum : ((C.sha256 data).take checksumLen).length = checksumLen := by
      rw [length_take, C.sha256_length]
      rfl
    simp only [validateAddress, bind_eq_ok, failIf_eq_ok, Result.wrap_eq_ok, not_not, not_lt]
    rw [length_append, hsum] at hlen
    refine ⟨(), ?_, (), ?_, data ++ (C.sha256 data).take checksumLen, ?_, (), ?_, ?_⟩
    · rw [length_append, addressPrefix_length, hlen]
      simp only [checksumLen]
      omega
    · rw [take_left]
    · rw [drop_left]
      exact hdec
    · rw [length_append, hsum]
      omega
    · rw [length_append, hsum, Nat.add_sub_cancel, drop_left, take_left]

theorem validateAddress_encodeAddress {data : Bytes} (h : data ≠ []) : validateAddress C (encodeAddress C data) = .ok () :=
  (validateAddress_ok_iff C _).mpr ⟨_, data, rfl, h, hexDecode_hexEncode _⟩

theorem validateAddress_generateAddress (pubKey : Bytes) : validateAddress C (generateAddress C pubKey) = .ok () :=
  validateAddress_encodeAddress C (cons_ne_nil _ _)

theorem prefix_of_validateAddress {C : Crypto} {addr : Bytes} (h : validateAddress C addr = .ok ()) : addressPrefix <+: addr := by
  obtain ⟨enc, data, rfl, -, -⟩ := (validateAddress_ok_iff C addr).mp h
  exact prefix_append _ _

theorem isPlain_addressPrefix : ∀ b ∈ addressPrefix, Json.isPlain b = true := by
  decide +kernel

theorem isPlain_of_validateAddress {C : Crypto} {addr : Bytes} (h : validateAddress C addr = .ok ()) :
    ∀ b ∈ addr, Json.isPlain b = true := by
  obtain ⟨enc, data, rfl, _, hdec⟩ := (validateAddress_ok_iff C addr).mp h
  intro b hb
  rcases mem_append.mp hb with hb | hb
  · exact isPlain_addressPrefix b hb
  · exact Json.isPlain_of_fromHexChar (hexDecode_digits hdec b hb)

theorem generateAddress_ne_nil (pubKey : Bytes) : generateAddress C pubKey ≠ [] := by
  simp [generateAddress, encodeAddress, addressPrefix, str]

end NeoCoin
