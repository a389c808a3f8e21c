import NeoCoin.Internal.Forks
import NeoCoin.Lib.WorkerPool

/-!
# Parallel download

`DownloadBlocks` and `downloadWorker` of `internal/networking/parallel_sync.go`, as goroutines on bounded channels. The two requests of a
peer are those of `peer.go`, which return nil. The peers are a pattern that says of each range whether `selectBestPeer` may find one, and
whether it may find none.
-/

namespace NeoCoin.Internal

open GoLib

structure BlockRange where
  start : Int64
  last : Int64
  deriving DecidableEq, Repr

structure BlockDownloadResult where
  blocks : List Block
  err : Option String
  deriving DecidableEq

/-- `ParallelSync`: the number of workers, of which there is one at least. -/
structure ParallelSync where
  workers : Nat
  workers_pos : 0 < workers

theorem toNat_pos_of_pos {n : Int64} (h : n > 0) : 0 < n.toInt.toNat := by
  have htoInt := Int64.lt_iff_toInt_lt.mp h
  rw [Int64.toInt_zero] at htoInt
  omega

/-- `NewParallelSync`, given `SyncWorkers` of the configuration if there is one. -/
def newParallelSync : Option Int64 → ParallelSync
  | some n => if h : n > 0 then ⟨n.toInt.toNat, toNat_pos_of_pos h⟩ else ⟨8, by decide⟩
  | none => ⟨8, by decide⟩

namespace ParallelSync

/-! ## What a peer sends -/

/-- `RequestHeaders` of `peer.go`: nil, and no error. Of a header only the hash is used. -/
def requestHeaders (_startHeight _endHeight : Int64) : Result (List Bytes) := .ok []

/-- `RequestBlocks` of `peer.go`: nil, and no error. -/
def requestBlocks (_hashes : List Bytes) : Result (List (Option Block)) := .ok []

/-- What the goroutine of `downloadRangeFromPeer` sends, for the headers in batches of 50, and the error that it ends with. -/
def requestBatches : List (List Bytes) → List (Option Block) × Option String
  | [] => ([], none)
  | batch :: batches =>
    match requestBlocks (batch.map hexEncode) with
    | .error err => ([], some err)
    | .ok blocks => (blocks ++ (requestBatches batches).1, (requestBatches batches).2)

/-- What `downloadRangeFromPeer` may return. The caller reads up to the first nil, which it also gets from the closed channel. It may see
the error of a request or that the context is cancelled before that; a cancelled context may also cut short what is sent. -/
inductive DownloadRangeFromPeer (task : BlockRange) : BlockDownloadResult → Prop where
  | headersFailed {err : String} : requestHeaders task.start task.last = .error err → DownloadRangeFromPeer task ⟨[], some err⟩
  | noHeaders : requestHeaders task.start task.last = .ok [] → DownloadRangeFromPeer task ⟨[], some "no headers returned"⟩
  | done {headers : List Bytes} : requestHeaders task.start task.last = .ok headers → headers ≠ [] →
      DownloadRangeFromPeer task ⟨((requestBatches (headers.toChunks 50)).1.takeWhile Option.isSome).reduceOption, none⟩
  | failed {headers : List Bytes} {err : String} (received : Nat) : requestHeaders task.start task.last = .ok headers → headers ≠ [] →
      (requestBatches (headers.toChunks 50)).2 = some err →
      DownloadRangeFromPeer task
        ⟨((requestBatches (headers.toChunks 50)).1.takeWhile Option.isSome).reduceOption.take received, some err⟩
  | cancelled {headers : List Bytes} (received : Nat) (seen : Bool) : requestHeaders task.start task.last = .ok headers → headers ≠ [] →
      DownloadRangeFromPeer task
        ⟨((requestBatches (headers.toChunks 50)).1.takeWhile Option.isSome).reduceOption.take received,
          if seen then some "context canceled" else none⟩

theorem err_of_downloadRange {task : BlockRange} {result : BlockDownloadResult} (h : DownloadRangeFromPeer task result) :
    result.err = some "no headers returned" := by
  cases h with
  | noHeaders => rfl
  | headersFailed hheaders => cases hheaders
  | done hheaders hne | failed _ hheaders hne | cancelled _ _ hheaders hne =>
    cases hheaders
    exact absurd rfl hne

/-! ## The goroutines -/

/-- One round of the loop that hands out ranges. The sums wrap around. -/
def nextRange (endHeight height : Int64) : Option (BlockRange × Int64) :=
  if height ≤ endHeight then
    let batchEnd := height + 100 - 1
    let batchEnd := if batchEnd > endHeight then endHeight else batchEnd
    some (⟨height, batchEnd⟩, batchEnd + 1)
  else none

/-- The chain, and what the caller counts. -/
structure Collected (σ : Type) where
  chain : Blockchain σ
  blocksAdded : Nat := 0
  lastErr : Option String := none

def Collected.err {σ : Type} (c : Collected σ) : Option String := if c.blocksAdded = 0 then c.lastErr else none

section

variable {σ : Type} (C : Crypto) (S : ChainStore σ)

/-- The loop over the blocks of a result, if every call of `AddBlock` returns. -/
inductive AddBlocks : List Block → Collected σ → Collected σ → Prop where
  | nil (c : Collected σ) : AddBlocks [] c c
  | refused {b : Block} {blocks : List Block} {c c' : Collected σ} {clock : Nat → Int64} {r : AddResult σ} {err : String} :
      addBlock C S c.chain (some b) clock = some r → r.err = some err →
      AddBlocks blocks { c with chain := r.chain, lastErr := some err } c' → AddBlocks (b :: blocks) c c'
  | added {b : Block} {blocks : List Block} {c c' : Collected σ} {clock : Nat → Int64} {r : AddResult σ} :
      addBlock C S c.chain (some b) clock = some r → r.err = none →
      AddBlocks blocks { c with chain := r.chain, blocksAdded := c.blocksAdded + 1 } c' → AddBlocks (b :: blocks) c c'

/-- The body of the loop over the results. -/
inductive Collect (c : Collected σ) (result : BlockDownloadResult) : Collected σ → Prop where
  | failed {err : String} : result.err = some err → Collect c result { c with lastErr := some err }
  | blocks {c' : Collected σ} : result.err = none → AddBlocks C S result.blocks c c' → Collect c result c'

/-- Of which ranges `selectBestPeer` may find a peer, and of which it may find none. Peers come and go, so that both may be. -/
structure Peers where
  available : BlockRange → Bool
  missing : BlockRange → Bool
  one : ∀ task, available task = true ∨ missing task = true

def pool (ps : ParallelSync) (peers : Peers) (endHeight : Int64) :
    WorkerPool.Pool Int64 BlockRange BlockDownloadResult String (Collected σ) where
  next := nextRange endHeight
  workers := ps.workers
  taskCap := ps.workers
  resultCap := ps.workers * 2
  errorCap := ps.workers
  workers_pos := ps.workers_pos
  taskCap_pos := ps.workers_pos
  resultCap_pos := Nat.mul_pos ps.workers_pos (by decide)
  yields task result := peers.available task = true ∧ DownloadRangeFromPeer task result
  fails task err := peers.missing task = true ∧ err = s!"no available peers for height {task.start}"
  ends task := (peers.one task).imp (fun h => ⟨_, h, .noHeaders rfl⟩) fun h => ⟨_, h, rfl⟩
  mayFail := peers.missing
  mayFail_iff _ := ⟨fun h => ⟨_, h, rfl⟩, fun ⟨_, h, _⟩ => h⟩
  collects := Collect C S
  collects_total _ _ h _ := ⟨_, .failed (err_of_downloadRange h.2)⟩
  notes c err := { c with lastErr := some err }

/-- The goroutines of a call of `DownloadBlocks`. -/
abbrev Download (σ : Type) := WorkerPool.State Int64 BlockRange BlockDownloadResult String (Collected σ)

/-- The start of `DownloadBlocks`: an error, or the goroutines before their first step. -/
def downloadBlocks (ps : ParallelSync) (peers : Peers) (chain : Blockchain σ) (startHeight endHeight : Int64) : String ⊕ Download σ :=
  if endHeight ≤ startHeight then .inl s!"invalid range: {startHeight} to {endHeight}"
  else .inr (WorkerPool.initial (pool C S ps peers endHeight) startHeight { chain })

end

end ParallelSync

end NeoCoin.Internal
