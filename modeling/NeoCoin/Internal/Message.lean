import NeoCoin.Lib.Conn
import NeoCoin.Lib.Json
import NeoCoin.Types

/-!
# The message codec

`Codec` of `internal/networking/message.go`. The frame is written as `encoding/json` writes it, and reading one is a parameter: it inverts
the writing, and a frame that is cut off is an error.
-/

namespace NeoCoin.Internal

open GoLib

def maxMessageSize : Int64 := 4 * 2 ^ 20

structure Message where
  type : UInt8
  payload : GoSlice
  deriving DecidableEq

structure FramedMessage where
  version : UInt8
  length : UInt32
  checksum : ByteArr 4
  type : UInt8
  payload : GoSlice
  deriving DecidableEq

/-- `json.Marshal` of a frame. An array of bytes is written as numbers, a slice as base64. -/
def FramedMessage.json (f : FramedMessage) : Bytes :=
  Json.object [Json.field "Version" (Json.nat f.version.toNat), Json.field "Length" (Json.nat f.length.toNat),
    Json.field "Checksum" (Json.array (f.checksum.val.map fun b => Json.nat b.toNat)), Json.field "Type" (Json.nat f.type.toNat),
    Json.field "Payload" (Json.goSlice f.payload)]

/-- `json.Unmarshal` into a frame. -/
structure FrameJSON where
  unmarshal : Bytes → Result FramedMessage
  unmarshal_json : ∀ f : FramedMessage, unmarshal f.json = .ok f
  unmarshal_cut : ∀ (f : FramedMessage) (n : Nat), n < f.json.length → ∃ e, unmarshal (f.json.take n) = .error e

structure Codec where
  maxMessageSize : Int64

def newCodec (n : Int64) : Codec := ⟨if n ≤ 0 then maxMessageSize else n⟩

def frameChecksum (C : Crypto) (payload : Bytes) : ByteArr 4 :=
  ⟨(C.sha256 (C.sha256 payload)).take 4, by rw [List.length_take, C.sha256_length]; rfl⟩

/-- `io.ReadFull`, with what is left. -/
def readFull (n : Nat) (r : Bytes) : Result (Bytes × Bytes) :=
  if n ≤ r.length then .ok (r.take n, r.drop n) else .error (if r = [] then "EOF" else "unexpected EOF")

namespace Codec

/-- `uint32(c.maxMessageSize)`. -/
def sizeLimit (c : Codec) : UInt32 := c.maxMessageSize.toUInt64.toUInt32

def frame (C : Crypto) (msg : Message) : FramedMessage where
  version := 1
  length := UInt32.ofNat msg.payload.bytes.length
  checksum := frameChecksum C msg.payload.bytes
  type := msg.type
  payload := msg.payload

def header (f : FramedMessage) : Bytes := f.version :: (beBytes 4 f.length.toNat ++ f.checksum.val)

def encode (C : Crypto) (c : Codec) (msg : Message) : Result Bytes :=
  if (frame C msg).length > c.sizeLimit then .error "message too large" else .ok (header (frame C msg) ++ (frame C msg).json)

/-- `Decode`, with what is left to read. -/
def decode (C : Crypto) (J : FrameJSON) (c : Codec) (r : Bytes) : Result (Message × Bytes) := do
  let (header, r) ← readFull 9 r
  let version := header.headD 0
  if version ≠ 1 then .error ("unsupported protocol version: " ++ toString version.toNat)
  let length := UInt32.ofNat (beNat ((header.drop 1).take 4))
  if length > c.sizeLimit then .error "message too large"
  let expectedChecksum := header.drop 5
  let (payload, r) ← readFull length.toNat r
  if (frameChecksum C payload).val ≠ expectedChecksum then .error "invalid checksum"
  let frame ← J.unmarshal payload
  return (⟨frame.type, frame.payload⟩, r)

def encodeAll (C : Crypto) (c : Codec) : List Message → Result Bytes
  | [] => .ok []
  | msg :: rest => do return (← c.encode C msg) ++ (← encodeAll C c rest)

def decodeAll (C : Crypto) (J : FrameJSON) (c : Codec) : Nat → Bytes → Result (List Message)
  | 0, _ => .ok []
  | n + 1, r => do
    let (msg, r) ← c.decode C J r
    return msg :: (← decodeAll C J c n r)

end Codec

/-! ## Frames with their length only -/

/-- `WriteJSON`, of what `json.Marshal` gives. -/
def writeJSON (b : Bytes) : Bytes := beBytes 4 (UInt32.ofNat b.length).toNat ++ b

/-- Calls of `Read` until there are `n` bytes, each of which gets bytes of one chunk, with the chunks that are left. -/
def readChunks : Nat → List Bytes → Bytes × List Bytes
  | _, [] => ([], [])
  | n, c :: r =>
    if n ≤ c.length then (c.take n, c.drop n :: r)
    else
      let (b, r) := readChunks (n - c.length) r
      (c ++ b, r)

/-- `io.ReadFull` on a connection that delivers chunks. -/
def readFullChunks (n : Nat) (r : List Bytes) : Result Bytes × List Bytes :=
  ((readFull n (readChunks n r).1).map Prod.fst, (readChunks n r).2)

/-- The three copies of `ReadJSON`, on a connection that delivers chunks, with what is left to read. -/
def readFrame (errTooLarge : String) (maxBytes : Int64) (r : List Bytes) : Result Bytes × List Bytes :=
  match readFullChunks 4 r with
  | (.error e, r) => (.error e, r)
  | (.ok lenBuf, r) =>
    let n := beNat lenBuf
    if n ≤ 0 then (.error "unexpected EOF", r)
    else if 0 < maxBytes ∧ maxBytes.toInt < n then (.error errTooLarge, (readChunks n r).2)
    else readFullChunks n r

/-- Of `blockchain/p2p_codec.go`. -/
def p2pReadJSON : Int64 → List Bytes → Result Bytes × List Bytes := readFrame "p2p message too large"

/-- Of `Codec`, and of `internal/networking/manager.go`. -/
def readJSON : Int64 → List Bytes → Result Bytes × List Bytes := readFrame "message too large"

def readAll (read : List Bytes → Result Bytes × List Bytes) : Nat → List Bytes → List (Result Bytes) × List Bytes
  | 0, r => ([], r)
  | n + 1, r =>
    let (b, r) := read r
    let (bs, r) := readAll read n r
    (b :: bs, r)

end NeoCoin.Internal
