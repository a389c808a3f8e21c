import NeoCoin.Lib.Conn
import NeoCoin.Types

/-!
# The secure channel

`SecureChannel` of `internal/networking/secure_channel.go`, as programs on a connection. The random bytes are parameters, and so is
AES-GCM, an ideal authenticated cipher. `SendEncrypted` and `RecvEncrypted` hold the lock of their channel throughout. Each use of `Seal`
is reported, with its key and its nonce.
-/

namespace NeoCoin.Internal

open GoLib

def secureChannelVersion : UInt8 := 1

def maxSecureMessageSize : Nat := 4 * 2 ^ 20

/-- An authenticated cipher that opens exactly what it has sealed. -/
structure AEAD where
  /-- `Seal`. -/
  aeadSeal : ByteArr 32 → ByteArr 12 → Bytes → Bytes
  /-- `Open`. -/
  aeadOpen : ByteArr 32 → ByteArr 12 → Bytes → Option Bytes
  aeadOpen_eq_some : ∀ key nonce sealed msg, aeadOpen key nonce sealed = some msg ↔ sealed = aeadSeal key nonce msg
  /-- The tag has 16 bytes. -/
  length_aeadSeal : ∀ key nonce msg, (aeadSeal key nonce msg).length = msg.length + 16

theorem length_zeros : (List.replicate 32 (0 : UInt8)).length = 32 := by simp

structure SecureChannel where
  key : ByteArr 32
  peerKey : ByteArr 32 := ⟨List.replicate 32 0, length_zeros⟩
  isInitiator : Bool
  nonce : UInt64 := 0
  closed : Bool := false
  deriving DecidableEq

def newSecureChannel (key : Bytes) (isInitiator : Bool) : Result SecureChannel :=
  if h : key.length = 32 then .ok { key := ⟨key, h⟩, isInitiator } else .error "invalid key size"

/-! ## The handshake -/

/-- A message of the handshake: a version, a key and a nonce. -/
structure Hello where
  version : UInt8
  key : ByteArr 32
  nonce : ByteArr 12
  deriving DecidableEq

def Hello.bytes (m : Hello) : ByteArr 45 := ⟨m.version :: (m.key.val ++ m.nonce.val), by simp [m.key.2, m.nonce.2]⟩

/-- The parts of a message: `msg[0]`, `msg[1:1+KeySize]` and `msg[1+KeySize:]`. -/
def Hello.ofBytes (b : ByteArr 45) : Hello where
  version := b.val.headD 0
  key := ⟨(b.val.drop 1).take 32, by simp [b.2]⟩
  nonce := ⟨b.val.drop 33, by simp [b.2]⟩

/-- The random bytes that a side draws: a key and a nonce. -/
structure Draw where
  key : ByteArr 32
  nonce : ByteArr 12
  deriving DecidableEq

def Draw.hello (d : Draw) : Hello := ⟨secureChannelVersion, d.key, d.nonce⟩

/-- `sha256.Sum256`, as an array. -/
def sum256 (C : Crypto) (m : Bytes) : ByteArr 32 := ⟨C.sha256 m, C.sha256_length m⟩

namespace SecureChannel

variable {E : Type}

section

variable (C : Crypto) (sc : SecureChannel) (drawn : Draw)

def initiatorHandshake : Proc E (Result SecureChannel) :=
  .write drawn.hello.bytes.val <|
  .read 45 fun resp =>
    let resp := Hello.ofBytes resp
    if resp.version ≠ secureChannelVersion then .done (.error "version mismatch")
    else .done (.ok { sc with peerKey := resp.key, key := sum256 C (sc.key.val ++ resp.nonce.val) })

/-- `responderHandshake`. The `append` of the last lines writes over the nonce of the response, which has been sent by then. -/
def responderHandshake : Proc E (Result SecureChannel) :=
  .read 45 fun msg =>
    let msg := Hello.ofBytes msg
    if msg.version ≠ secureChannelVersion then .done (.error "version mismatch")
    else
      .write drawn.hello.bytes.val <|
      .done (.ok { sc with peerKey := msg.key, key := sum256 C (drawn.key.val ++ msg.nonce.val) })

def handshake : Proc E (Result SecureChannel) :=
  if sc.isInitiator then sc.initiatorHandshake C drawn else sc.responderHandshake C drawn

end

/-! ## Messages -/

/-- `nonceArr`: four zero bytes, and the counter. -/
def nonceArr (n : Nat) : ByteArr 12 := ⟨List.replicate 4 0 ++ beBytes 8 n, by simp⟩

def sendEncrypted (A : AEAD) (sc : SecureChannel) (msg : Bytes) : Proc (ByteArr 32 × ByteArr 12) (Result Unit × SecureChannel) :=
  if sc.closed then .done (.error "channel closed", sc)
  else if msg.length > maxSecureMessageSize then .done (.error "message too large", sc)
  else
    let nonce := nonceArr sc.nonce.toNat
    let ciphertext := A.aeadSeal sc.key nonce msg
    .emit (sc.key, nonce) <|
    .write (beBytes 4 ciphertext.length) <|
    .write ciphertext <|
    .done (.ok (), { sc with nonce := sc.nonce + 1 })

def recvEncrypted (A : AEAD) (sc : SecureChannel) : Proc (ByteArr 32 × ByteArr 12) (Result Bytes × SecureChannel) :=
  if sc.closed then .done (.error "channel closed", sc)
  else
    .read 4 fun header =>
      let length := beNat header.val
      if length > maxSecureMessageSize then .done (.error "message too large", sc)
      else
        .read length fun ciphertext =>
          let sc' := { sc with nonce := sc.nonce + 1 }
          match A.aeadOpen sc.key (nonceArr sc.nonce.toNat) ciphertext.val with
          | none => .done (.error "decryption failed: cipher: message authentication failed", sc')
          | some plaintext => .done (.ok plaintext, sc')

end SecureChannel

/-! ## Two endpoints -/

inductive Side where
  | left
  | right
  deriving DecidableEq, Repr

def Side.other : Side → Side
  | .left => .right
  | .right => .left

inductive ChannelCall where
  | send (msg : Bytes)
  | recv
  deriving DecidableEq, Repr

/-- Two channels on one connection, with what has been sent and received over it. -/
structure Endpoints where
  chan : Side → SecureChannel
  /-- The bytes that an end has written and the other one has not read. -/
  wire : Side → Bytes
  /-- The messages that `SendEncrypted` has accepted. -/
  sent : Side → List Bytes
  /-- What `RecvEncrypted` has returned. -/
  received : Side → List (Result Bytes)
  /-- The key and the nonce of every use of `Seal`. -/
  seals : List (ByteArr 32 × ByteArr 12)

namespace Endpoints

def start (key : ByteArr 32) : Endpoints where
  chan s := { key, isInitiator := s = .left }
  wire _ := []
  sent _ := []
  received _ := []
  seals := []

/-- A program that runs at an endpoint: `none` if it waits for bytes that are not there yet. -/
def perform {R : Type} (w : Endpoints) (s : Side) (p : Proc (ByteArr 32 × ByteArr 12) R) : Option (R × Endpoints) :=
  (p.exec (w.wire s.other)).map fun o =>
    (o.result, { w with wire := fun s' => if s' = s then w.wire s ++ o.written else o.rest, seals := w.seals ++ o.events })

def call (A : AEAD) (w : Endpoints) (s : Side) : ChannelCall → Option Endpoints
  | .send msg =>
    (w.perform s ((w.chan s).sendEncrypted A msg)).map fun ((r, sc), w) =>
      { w with
        chan := Function.update w.chan s sc
        sent := match r with
          | .ok () => Function.update w.sent s (w.sent s ++ [msg])
          | .error _ => w.sent }
  | .recv =>
    (w.perform s ((w.chan s).recvEncrypted A)).map fun ((r, sc), w) =>
      { w with chan := Function.update w.chan s sc, received := Function.update w.received s (w.received s ++ [r]) }

def run (A : AEAD) (w : Endpoints) : List (Side × ChannelCall) → Option Endpoints
  | [] => some w
  | (s, c) :: rest => (w.call A s c).bind fun w => w.run A rest

end Endpoints

end NeoCoin.Internal
