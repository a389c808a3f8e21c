import NeoCoin.Block
import NeoCoin.Lib.Interleaving

/-!
# Requests to a peer

`FetchBlockByHash` and `readPeerLoop` of `internal/networking/sync.go` on one connection, whose peer answers in order. A `WriteJSON` is
one step and so is a `ReadJSON`, which waits for an answer.
-/

namespace NeoCoin.Internal.PeerAPI

open GoLib

/-- A peer that answers a hash with the block of that hash, if it has one. -/
structure HonestPeer where
  block : Bytes → Option NeoCoin.Block
  hash_eq : ∀ h b, block h = some b → hexEncode b.hash.bytes = h

/-- What `FetchBlockByHash` returns for the answer that it reads. -/
def received (peer : HonestPeer) (hashHex answered : Bytes) : Result NeoCoin.Block :=
  match peer.block answered with
  | none => .error s!"block not found: {text hashHex}"
  | some b => .ok b

/-- The goroutines on a connection: a call of `FetchBlockByHash` before its request, before its answer and after it, and the loop. -/
inductive Task where
  | request (hashHex : Bytes)
  | await (hashHex : Bytes)
  | returned (hashHex : Bytes) (r : Result NeoCoin.Block)
  | readPeerLoop

/-- A step of a goroutine. The loop has no case for the answer to a request. -/
inductive Step (peer : HonestPeer) : List Bytes → Task → List Bytes → Task → Prop where
  | write (conn : List Bytes) (h : Bytes) : Step peer conn (.request h) (conn ++ [h]) (.await h)
  | read (conn : List Bytes) (h answered : Bytes) : Step peer (answered :: conn) (.await h) conn (.returned h (received peer h answered))
  | drop (conn : List Bytes) (answered : Bytes) : Step peer (answered :: conn) .readPeerLoop conn .readPeerLoop

def calls (hashes : List Bytes) : World (List Bytes) Task := ⟨[], .readPeerLoop :: hashes.map .request⟩

end NeoCoin.Internal.PeerAPI
