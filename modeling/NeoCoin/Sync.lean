import NeoCoin.Forks

/-!
# Synchronization

`HeadersFrom` of `blockchain/forks.go`, `EnsureAncestors` of `blockchain/peers.go` and `blockchain/p2p_manager.go`, and `SyncOnce` of
`blockchain/sync.go`. What a peer answers is a parameter, and may depend on how many blocks have been asked for. `EnsureAncestors` is
given a number of calls to nest, and is `none` beyond it.
-/

namespace NeoCoin

open GoLib

/-! ## What is asked for and answered -/

structure BlockHeader where
  height : UInt64
  timestampUnix : Int64
  prevHashHex : Bytes
  hashHex : Bytes
  nonce : UInt64
  difficultyBits : UInt32
  minerAddress : Bytes
  txCount : Nat
  deriving DecidableEq, Repr

def Block.blockHeader (b : Block) : BlockHeader :=
  { height := b.height, timestampUnix := b.timestampUnix, prevHashHex := b.prevHashHex, hashHex := b.hashHex, nonce := b.nonce
    difficultyBits := b.difficultyBits, minerAddress := b.minerAddress, txCount := b.transactions.length }

def headersFrom (blocks : List Block) (height : UInt64) (count : Int64) : List BlockHeader :=
  let count := if count ≤ 0 then 100 else count
  if height ≥ UInt64.ofNat blocks.length then []
  else
    let stop := height + count.toUInt64
    let stop := if stop > UInt64.ofNat blocks.length then UInt64.ofNat blocks.length else stop
    ((blocks.take stop.toNat).drop height.toNat).map Block.blockHeader

structure ChainInfo where
  chainID : UInt64
  height : UInt64
  latestHash : Bytes
  rulesHash : Bytes
  genesisHash : Bytes
  deriving DecidableEq, Repr

def rulesHashHex (C : Crypto) (p : ConsensusParams) : Bytes :=
  if p.rulesHash C = List.replicate 32 0 then [] else hexEncode (p.rulesHash C)

/-- `PeerAPI`: the peers, and what each of them answers when so many blocks have been asked for. -/
structure PeerAPI where
  peers : List Bytes
  fetchChainInfo : Bytes → Nat → Result ChainInfo
  fetchHeadersFrom : Bytes → Nat → UInt64 → Int64 → Result (List BlockHeader)
  fetchBlockByHash : Bytes → Nat → Bytes → Result Block

/-- The loop of `FetchAnyBlockByHash`, with the last error so far. -/
def fetchAnyLoop (api : PeerAPI) (n : Nat) (hashHex : Bytes) : List Bytes → Option String → Result Block
  | [], none => .error "no peers configured"
  | [], some lastErr => .error lastErr
  | peer :: peers, _ =>
    match api.fetchBlockByHash peer n hashHex with
    | .ok b => .ok b
    | .error e => fetchAnyLoop api n hashHex peers (some e)

def PeerAPI.fetchAnyBlockByHash (api : PeerAPI) (n : Nat) (hashHex : Bytes) : Result Block := fetchAnyLoop api n hashHex api.peers none

/-! ## Ancestors -/

/-- A node that is synchronizing: its chain, how many blocks it has asked for, and how many it has tried to add. -/
structure Syncing (σ : Type) where
  chain : Blockchain σ
  requests : Nat := 0
  adds : Nat := 0

def Syncing.ask {σ : Type} (w : Syncing σ) : Syncing σ := { w with requests := w.requests + 1 }

section

variable {σ : Type} (C : Crypto) (S : ChainStore σ) (clock : Nat → Nat → Int64)

/-- A call of `AddBlock`: its error, and what it leaves. `clock n` are the readings of the clock in call `n`. -/
def Syncing.add (w : Syncing σ) (b : Block) : Option String × Syncing σ :=
  let r := addBlock C S w.chain (some b) (clock w.adds)
  (r.err, { w with chain := r.chain, adds := w.adds + 1 })

/-- `errors.Is(err, ErrUnknownParent)`, by the text of the error. -/
def isUnknownParent (err : Option String) : Prop := err = some "unknown parent"

instance (err : Option String) : Decidable (isUnknownParent err) := inferInstanceAs (Decidable (_ = _))

/-- The end of a round of `EnsureAncestors`: the block is added, and if its parent is unknown there is another round. -/
def ensureAncestorsAdd (b : Block) (retry : Syncing σ → Option (Result Unit × Syncing σ)) (w : Syncing σ) :
    Option (Result Unit × Syncing σ) :=
  match w.add C S clock b with
  | (none, w) => some (.ok (), w)
  | (some e, w) => if isUnknownParent (some e) then retry w else some (.error e, w)

-- named, so that the definitions below do not each hold a proof of it
local instance : LawfulBEq Bytes := inferInstance

section

variable (fetch : Nat → Bytes → Result Block)

/-- The loop of `EnsureAncestors`, with the rounds that are left and the hashes it has visited. `recurse` is the call for a parent. -/
def ensureAncestorsLoop (recurse : Bytes → Syncing σ → Option (Result Unit × Syncing σ))
    (need : Bytes) : Nat → List Bytes → Syncing σ → Option (Result Unit × Syncing σ)
  | 0, _, w => some (.error "max ancestor depth exceeded", w)
  | depth + 1, visited, w =>
    if need ∈ w.chain.blocksByHash then some (.ok (), w)
    else if need ∈ visited then some (.error "ancestor fetch cycle", w)
    else
      match fetch w.requests need with
      | .error e => some (.error e, w.ask)
      | .ok b =>
        let parent :=
          if b.prevHash.bytes.length ≠ 0 ∧ b.prevHashHex ∉ w.chain.blocksByHash then recurse b.prevHashHex w.ask
          else some (.ok (), w.ask)
        match parent with
        | none => none
        | some (.error e, w) => some (.error e, w)
        | some (.ok (), w) =>
          ensureAncestorsAdd C S clock b (fun w => ensureAncestorsLoop recurse need depth (need :: visited) w) w

/-- `PeerManager.EnsureAncestors`, for at most `calls` nested calls. -/
def ensureAncestors (maxAncestorDepth : Int64) (calls : Nat) (missingHashHex : Bytes) (w : Syncing σ) : Option (Result Unit × Syncing σ) :=
  match calls with
  | 0 => none
  | calls + 1 =>
    ensureAncestorsLoop C S clock fetch (ensureAncestors maxAncestorDepth calls) missingHashHex maxAncestorDepth.toInt.toNat [] w

/-- `P2PPeerManager.EnsureAncestors`, whose bound is fixed. -/
def p2pEnsureAncestors (calls : Nat) (missingHashHex : Bytes) (w : Syncing σ) : Option (Result Unit × Syncing σ) :=
  ensureAncestors C S clock fetch 256 calls missingHashHex w

end

/-! ## One round of synchronization -/

/-- `SyncLoop.window`. -/
def syncWindow : UInt64 := 200

/-- The checks of `SyncOnce` on what a peer says about its chain: those it skips the peer for. `localHeight` is from the start of
the round. -/
def skipsPeer (bc : Blockchain σ) (localHeight : UInt64) (localRulesHash localGenesisHash : Bytes) (strictIdentity : Bool)
    (info : ChainInfo) : Prop :=
  info.chainID ≠ bc.chainID ∨ strictIdentity = true ∧ (info.rulesHash = [] ∨ info.genesisHash = []) ∨
    info.rulesHash ≠ [] ∧ localRulesHash ≠ [] ∧ info.rulesHash ≠ localRulesHash ∨
    info.genesisHash ≠ [] ∧ localGenesisHash ≠ [] ∧ info.genesisHash ≠ localGenesisHash ∨ info.height ≤ localHeight

instance (bc : Blockchain σ) (localHeight : UInt64) (localRulesHash localGenesisHash : Bytes) (strictIdentity : Bool)
    (info : ChainInfo) : Decidable (skipsPeer bc localHeight localRulesHash localGenesisHash strictIdentity info) :=
  inferInstanceAs (Decidable (_ ∨ _))

variable (api : PeerAPI) (maxAncestorDepth : Int64) (calls : Nat)

/-- One round of the loop of `SyncOnce` over the headers of a peer. -/
def syncHeader (peer : Bytes) (w : Syncing σ) (h : BlockHeader) : Option (Syncing σ) :=
  if h.hashHex ∈ w.chain.blocksByHash then some w
  else
    match api.fetchBlockByHash peer w.requests h.hashHex with
    | .error _ => some w.ask
    | .ok b =>
      match w.ask.add C S clock b with
      | (err, w) =>
        if isUnknownParent err then
          -- fetch parent chain then retry once
          match ensureAncestors C S clock api.fetchAnyBlockByHash maxAncestorDepth calls h.prevHashHex w with
          | none => none
          | some (.error _, w) => some w
          | some (.ok (), w) => some (w.add C S clock b).2
        else some w

def syncPeer (localHeight : UInt64) (localRulesHash localGenesisHash : Bytes) (strictIdentity : Bool) (w : Syncing σ) (peer : Bytes) :
    Option (Syncing σ) :=
  match api.fetchChainInfo peer w.requests with
  | .error _ => some w
  | .ok info =>
    if skipsPeer w.chain localHeight localRulesHash localGenesisHash strictIdentity info then some w
    else
      let start := if info.height > syncWindow then info.height - syncWindow else 0
      match api.fetchHeadersFrom peer w.requests start syncWindow.toInt64 with
      | .error _ => some w
      | .ok headers => headers.foldlM (syncHeader C S clock api maxAncestorDepth calls peer) w

def syncOnce (strictIdentity : Bool) (bc : Blockchain σ) : Option (Syncing σ) :=
  api.peers.foldlM
    (syncPeer C S clock api maxAncestorDepth calls bc.blocks.tip.height (rulesHashHex C bc.consensus)
      (bc.blocks.1.head bc.blocks.2).hashHex strictIdentity)
    { chain := bc }

end

end NeoCoin
