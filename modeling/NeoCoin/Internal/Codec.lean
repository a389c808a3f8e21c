import NeoCoin.Lib.Bytes

/-!
# The protobuf codec

`ProtobufCodec` of `internal/networking/codec.go`. `proto.Marshal` and gzip are parameters; gzip is inverted by its decompressor.
-/

namespace NeoCoin.Internal

open GoLib

def pbMagicBytes : Nat := 0x4E454F43

def pbMaxPayloadSize : Nat := 32 * 1024 * 1024

def pbProtocolVersion : Nat := 1

def pbCompressionThreshold : Nat := 1024

/-- `compressGzip` and `decompressGzip`. -/
structure Gzip where
  compress : Bytes → Bytes
  decompress : Bytes → Result Bytes
  decompress_compress : ∀ b, decompress (compress b) = .ok b

inductive PBType where
  | block | header | transaction | ping | pong | getHeaders | headers | getBlocks | getTransactions | inv | getData | notFound
  | version | verack | reject | p2pMessage | hello
  deriving DecidableEq, Repr

/-- What `Encode` asks of a message: its dynamic type, which is one that it knows or has another name, and how it is marshalled. -/
structure Proto (M : Type) where
  type : M → PBType ⊕ String
  /-- `proto.Marshal`. -/
  marshal : M → Result Bytes

structure ProtobufCodec where
  enableCompress : Bool := true

def pbxorLoop (sum : UInt32) : Bytes → UInt32
  | a :: b :: c :: d :: rest => pbxorLoop (sum ^^^ UInt32.ofNat (leNat [a, b, c, d])) rest
  | [a, b, c] => sum ^^^ (a.toUInt32 ||| b.toUInt32 <<< 8 ||| c.toUInt32 <<< 16)
  | [a, b] => sum ^^^ (a.toUInt32 ||| b.toUInt32 <<< 8)
  | [a] => sum ^^^ a.toUInt32
  | [] => sum

def pbxorChecksum (data : Bytes) : UInt32 := pbxorLoop 0 data

namespace ProtobufCodec

def frame (payload : Bytes) : Bytes :=
  leBytes 4 pbMagicBytes ++ leBytes 2 pbProtocolVersion ++ leBytes 4 payload.length ++ leBytes 4 (pbxorChecksum payload).toNat ++ payload

def compress (gz : Gzip) (data : Bytes) : Bytes := 1 :: gz.compress data

def decompress (gz : Gzip) (data : Bytes) : Result Bytes :=
  match data with
  | [] => .ok []
  | first :: rest => if first = 1 then gz.decompress rest else .ok data

def marshal {M : Type} (P : Proto M) (msg : M) : Result Bytes :=
  match P.type msg with
  | .inr name => .error s!"unknown message type: {name}"
  | .inl _ => Result.wrap "proto marshal: " (P.marshal msg)

/-- `Encode`. The name of the message type is not used. -/
def encode {M : Type} (P : Proto M) (gz : Gzip) (c : ProtobufCodec) (_msgType : String) (msg : M) : Result Bytes := do
  let payload ← marshal P msg
  if payload.length > pbMaxPayloadSize then .error s!"payload too large: {payload.length} > {pbMaxPayloadSize}"
  else
    let framed := frame payload
    if c.enableCompress && framed.length > pbCompressionThreshold then .ok (compress gz framed) else .ok framed

def unframe (framed : Bytes) : Result (String × Bytes) :=
  if framed.length < 14 then .error "incomplete frame"
  else
    let magic := leNat (framed.take 4)
    if magic ≠ pbMagicBytes then .error ("invalid magic: 0x" ++ text (hexEncode (beBytes 4 magic)))
    else
      let version := leNat ((framed.drop 4).take 2)
      if version ≠ pbProtocolVersion then .error s!"unsupported protocol version: {version}"
      else
        let length := leNat ((framed.drop 6).take 4)
        if length > pbMaxPayloadSize then .error s!"payload too large: {length}"
        else
          let checksum := leNat ((framed.drop 10).take 4)
          if framed.length < 14 + length then .error "incomplete payload"
          else
            let payload := (framed.drop 14).take length
            if (pbxorChecksum payload).toNat ≠ checksum then .error "checksum mismatch" else .ok ("", payload)

/-- `Decode`, on all the bytes that the reader has. -/
def decode (gz : Gzip) : Bytes → Result (String × Bytes)
  | [] => .error "EOF"
  | header :: rest =>
    let framed := if header = 1 then (decompress gz rest).map fun decompressed => 0 :: decompressed else .ok (header :: rest)
    framed >>= unframe

end ProtobufCodec

end NeoCoin.Internal
