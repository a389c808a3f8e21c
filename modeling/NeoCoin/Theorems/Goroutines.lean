import NeoCoin.Internal.Goroutines
import NeoCoin.Lib.Interleaving
import NeoCoin.Theorems.Branches

/-!
# Mining without the lock

While `mineOneBlock` of `internal/blockchain` looks for a nonce, other goroutines may change the chain, and change it back. The block is
appended only on the tip that its template was built on: if block hashes identify chains, the whole chain is the one it was built from.
-/

namespace NeoCoin.Internal

open GoLib List

/-! ## A call that nothing comes between -/

section

variable {σ : Type} {C : Crypto} {S : ChainStore σ} {bc bc' : Blockchain σ}

theorem Goroutine.run_returned (n : Nat) (bc : Blockchain σ) (b : Option NeoCoin.Block) :
    Goroutine.run C S n (.returned b) bc = some (bc, .returned b) := by
  induction n with
  | zero => rfl
  | succ n ih => exact ih

/-- The steps after a block was appended. -/
theorem Goroutine.run_checkpointed (bc : Blockchain σ) (b : Block) : Goroutine.run C S 3 (.checkpointed b) bc =
      (computeAndStoreCommitment C S bc .unlocked b.height).map fun r => (r.2, .returned (some b.toBlock)) := by
  unfold computeAndStoreCommitment
  rw [Goroutine.run, Goroutine.step]
  by_cases hcommit : shouldCommit b.height
  · simp only [hcommit, not_true_eq_false, if_false]
    cases computeStateCommitment C bc .unlocked b.height.toInt64 with
    | none => rfl
    | some r =>
      cases r with
      | error e => exact run_returned ..
      | ok c =>
        simp only [Goroutine.run, Goroutine.step]
        rcases S.writeCommitment bc.store c with ⟨r, store⟩
        cases r with
        | error e => rfl
        | ok _ => rfl
  · simp only [hcommit, not_false_eq_true, if_true]
    exact run_returned ..

theorem mineAppend_tip {b : Block} (h : mineAppend C S bc b = some (.ok true, bc')) : bc'.blocks.tip = b := by
  cases mineAppend_effect h with
  | appended => exact getLast_concat

theorem mineAppend_consensus {b : Block} {r : Result Bool} (h : mineAppend C S bc b = some (r, bc')) : bc'.consensus = bc.consensus := by
  cases mineAppend_effect h with
  | _ => rfl

/-- A goroutine that runs alone comes to what `mineOneBlock` does. -/
theorem run_eq_mineOneBlock (C : Crypto) (S : ChainStore σ) (bc : Blockchain σ) (transfers : List Transaction) (now : Int64) :
    Goroutine.run C S 6 (.mineOneBlock transfers now) bc =
      (mineOneBlock C S bc transfers now).map fun r => (r.2, .returned ((r.1.toOption.bind id).map Block.toBlock)) := by
  unfold mineOneBlock
  rw [Goroutine.run, Goroutine.step]
  cases checkAllMinable C bc.consensus bc.chainID (bc.blocks.tip.height + 1) transfers 0 with
  | error e => exact Goroutine.run_returned ..
  | ok fees =>
    simp only
    rw [Goroutine.run, Goroutine.step]
    rcases powRun C bc.consensus (mineTemplate bc transfers fees now) with _ | (e | ⟨nonce, hash⟩)
    · rfl
    · exact Goroutine.run_returned ..
    · simp only
      rcases happend : mineAppend C S bc { mineTemplate bc transfers fees now with nonce := nonce, hash := some hash } with
        _ | ⟨e | _ | _, bc'⟩
      · rfl
      · exact Goroutine.run_returned ..
      · exact Goroutine.run_returned ..
      · simp only
        rw [Goroutine.run, Goroutine.step]
        simp only
        rw [Goroutine.run_checkpointed]
        obtain ⟨r, bc'', hcommit, hcommitted⟩ := computeAndStoreCommitment_unlocked C S
          (mineCheckpoint C S bc' (mineTemplate bc transfers fees now).height) (mineTemplate bc transfers fees now).height
        rw [hcommit]
        have htip := hcommitted.tip
        rw [mineCheckpoint_same] at htip
        simp only [Option.map_some, Except.toOption, Option.bind_some, id_eq, htip, mineAppend_tip happend]

end

/-! ## Calls among others -/

/-- A chain, and the chains it was before, without the roots of their blocks. -/
structure History (σ : Type) where
  bc : Blockchain σ
  chains : List NeoCoin.Path

def History.start {σ : Type} (bc : Blockchain σ) : History σ := { bc, chains := [bc.blocks.bare] }

/-- A step of one goroutine, which the history records. -/
structure ChainStep {σ : Type} (C : Crypto) (S : ChainStore σ) (h : History σ) (g : Goroutine) (h' : History σ) (g' : Goroutine) :
    Prop where
  step : g.step C S h.bc = some (h'.bc, g')
  chains : h'.chains = h.chains ++ [h'.bc.blocks.bare]

def HashesIdentify (chains : List NeoCoin.Path) : Prop := ∀ c ∈ chains, ∀ c' ∈ chains, c.tip.hash.bytes = c'.tip.hash.bytes → c = c'

structure OnTip {σ : Type} (bc : Blockchain σ) (b : Block) : Prop where
  prevHash : b.prevHash.bytes = bc.blocks.tip.hash.bytes
  height : b.height.toNat = bc.blocks.tip.height.toNat + 1
  difficultyBits : b.difficultyBits = nextDifficultyBitsFromPath bc.consensus bc.blocks.bare.1
  timestamp : bc.blocks.tip.timestampUnix < b.timestampUnix

structure BuiltOn (p : ConsensusParams) (chain : NeoCoin.Path) (b : Block) : Prop where
  prevHash : b.prevHash.bytes = chain.tip.hash.bytes
  height : b.height = chain.tip.height + 1
  difficultyBits : b.difficultyBits = nextDifficultyBitsFromPath p chain.1
  timestamp : ∃ now, b.timestampUnix = mineTimestamp chain.tip now

/-- A goroutine that looks for a nonce has a template for a chain that there was. -/
def Goroutine.Templated (p : ConsensusParams) (chains : List NeoCoin.Path) : Goroutine → Prop
  | .searching template => ∃ chain ∈ chains, BuiltOn p chain template
  | _ => True

section

variable {σ : Type} {C : Crypto} {S : ChainStore σ} {bc bc' : Blockchain σ}

theorem mineTemplate_builtOn (bc : Blockchain σ) (transfers : List Transaction) (fees : UInt64) (now : Int64) :
    BuiltOn bc.consensus bc.blocks.bare (mineTemplate bc transfers fees now) := by
  refine ⟨?_, ?_, rfl, now, ?_⟩
  · rw [Path.tip_bare]
    exact GoSlice.bytes_copy _
  · rw [Path.tip_bare]
    rfl
  · rw [Path.tip_bare]
    rfl

/-- A step leaves the parameters as they are, and a template is made from the chain as it is. -/
theorem step_effect {g g' : Goroutine} (h : g.step C S bc = some (bc', g')) :
    bc'.consensus = bc.consensus ∧ g'.Templated bc.consensus [bc.blocks.bare] := by
  cases g with
  | mineOneBlock transfers now =>
    simp only [Goroutine.step] at h
    split at h
    · cases h
      exact ⟨rfl, trivial⟩
    · cases h
      exact ⟨rfl, _, mem_singleton_self _, mineTemplate_builtOn ..⟩
  | searching template =>
    simp only [Goroutine.step] at h
    split at h
    · cases h
    · cases h
      exact ⟨rfl, trivial⟩
    · split at h
      · cases h
      · rename_i happend
        cases h
        exact ⟨mineAppend_consensus happend, trivial⟩
      · rename_i happend
        cases h
        exact ⟨mineAppend_consensus happend, trivial⟩
      · rename_i happend
        cases h
        exact ⟨mineAppend_consensus happend, trivial⟩
  | appended b =>
    cases h
    rw [mineCheckpoint_same]
    exact ⟨rfl, trivial⟩
  | checkpointed b =>
    simp only [Goroutine.step] at h
    split at h
    · cases h
      exact ⟨rfl, trivial⟩
    · split at h
      · cases h
      · cases h
        exact ⟨rfl, trivial⟩
      · cases h
        exact ⟨rfl, trivial⟩
  | computed b c =>
    simp only [Goroutine.step] at h
    split at h
    · cases h
      exact ⟨rfl, trivial⟩
    · cases h
      exact ⟨rfl, trivial⟩
  | written b c =>
    cases h
    rw [setRoots_eq]
    exact ⟨rfl, trivial⟩
  | addBlock block clock =>
    simp only [Goroutine.step] at h
    split at h
    · cases h
    · rename_i r hadd
      cases h
      exact ⟨(addBlock_effect hadd).consensus, trivial⟩
  | returned b =>
    cases h
    exact ⟨rfl, trivial⟩

theorem Goroutine.Templated.mono {p : ConsensusParams} {chains chains' : List NeoCoin.Path} {g : Goroutine} (h : g.Templated p chains)
    (hsub : chains ⊆ chains') : g.Templated p chains' := by
  cases g with
  | searching template =>
    obtain ⟨chain, hmem, hbuilt⟩ := h
    exact ⟨chain, hsub hmem, hbuilt⟩
  | mineOneBlock | appended | checkpointed | computed | written | addBlock | returned => trivial

theorem interleaved_templated {calls : List Goroutine} (hcalls : ∀ g ∈ calls, g.IsCall) {w : World (History σ) Goroutine}
    (hrun : Interleaving (ChainStep C S) ⟨.start bc, calls⟩ w) :
    (w.shared.bc.consensus = bc.consensus ∧ w.shared.bc.blocks.bare ∈ w.shared.chains) ∧
      ∀ g ∈ w.tasks, g.Templated bc.consensus w.shared.chains := by
  refine hrun.invariant_stable (fun h => h.bc.consensus = bc.consensus ∧ h.bc.blocks.bare ∈ h.chains)
    (fun h g => g.Templated bc.consensus h.chains) ?_ ?_ ⟨rfl, mem_singleton_self _⟩ ?_
  · intro h h' g g' hinv _ hstep
    obtain ⟨hcons, htemplated⟩ := step_effect hstep.step
    rw [hinv.1] at hcons htemplated
    rw [hstep.chains]
    refine ⟨⟨hcons, mem_append_right _ (mem_singleton_self _)⟩, htemplated.mono ?_⟩
    exact cons_subset.mpr ⟨mem_append_left _ hinv.2, nil_subset _⟩
  · intro h h' g g' u hstep hu
    rw [hstep.chains]
    exact hu.mono (subset_append_left _ _)
  · intro g hg
    have hcall := hcalls g hg
    cases g with
    | searching => exact hcall.elim
    | mineOneBlock | appended | checkpointed | computed | written | addBlock | returned => trivial

end

theorem lt_mineTimestamp_iff (latest : NeoCoin.Block) (now : Int64) :
    latest.timestampUnix < mineTimestamp latest now ↔ latest.timestampUnix ≠ Int64.maxValue := by
  have hhigh := latest.timestampUnix.toInt_lt
  have hone := PathAux.toInt_add_drift latest.timestampUnix (show (0 : Int64) < 1 by decide)
  rw [show (1 : Int64).toInt = 1 from rfl] at hone
  have hmax : latest.timestampUnix = Int64.maxValue ↔ latest.timestampUnix.toInt = 2 ^ 63 - 1 := by
    rw [← Int64.toInt_inj]
    rfl
  rw [Int64.lt_iff_toInt_lt, ne_eq, hmax, mineTimestamp]
  split
  · split at hone
    · omega
    · omega
  · rename_i hlater
    have hlater := Int64.lt_iff_toInt_lt.mp (Int64.not_le.mp hlater)
    have hnow := now.toInt_lt
    omega

theorem searching_appended {σ : Type} {C : Crypto} {S : ChainStore σ} {bc bc' : Blockchain σ} {template b : Block}
    (h : (Goroutine.searching template).step C S bc = some (bc', .appended b)) :
    (∃ nonce hash, b = { template with nonce := nonce, hash := some hash }) ∧ mineAppend C S bc b = some (.ok true, bc') := by
  simp only [Goroutine.step] at h
  split at h
  · cases h
  · cases h
  · split at h
    · cases h
    · cases h
    · cases h
    · rename_i happend
      obtain ⟨rfl, hb⟩ := Prod.mk.inj (Option.some.inj h)
      obtain rfl := Goroutine.appended.inj hb
      exact ⟨⟨_, _, rfl⟩, happend⟩

/-- Among any concurrent calls, an appended block fits the tip exactly if the time of the tip is not the last there is. -/
theorem appended_onTip_iff {σ : Type} {C : Crypto} {S : ChainStore σ} {bc bc' : Blockchain σ} {calls : List Goroutine}
    (hcalls : ∀ g ∈ calls, g.IsCall) {w : World (History σ) Goroutine} (hrun : Interleaving (ChainStep C S) ⟨.start bc, calls⟩ w)
    (hident : HashesIdentify w.shared.chains) {i : Nat} {template b : Block} (hg : w.tasks[i]? = some (.searching template))
    (hstep : (Goroutine.searching template).step C S w.shared.bc = some (bc', .appended b)) :
    OnTip w.shared.bc b ↔ w.shared.bc.blocks.tip.timestampUnix ≠ Int64.maxValue := by
  obtain ⟨⟨hcons, hcurrent⟩, htemplated⟩ := interleaved_templated hcalls hrun
  obtain ⟨chain, hchain, hbuilt⟩ := htemplated _ (mem_of_getElem? hg)
  obtain ⟨⟨nonce, hash, rfl⟩, happend⟩ := searching_appended hstep
  cases mineAppend_effect happend with
  | appended hheight hhash _ _ =>
    -- the tip has the hash of the tip that the template was built on, so the chain is the same
    have hsame : chain = w.shared.bc.blocks.bare := by
      apply hident chain hchain _ hcurrent
      rw [Path.tip_bare, hhash]
      exact hbuilt.prevHash.symm
    obtain ⟨-, hnext, hbits, now, htime⟩ := hsame ▸ hbuilt
    rw [Path.tip_bare] at hnext htime
    rw [← lt_mineTimestamp_iff w.shared.bc.blocks.tip.toBlock now]
    constructor
    · intro h
      exact htime ▸ h.timestamp
    · intro h
      refine ⟨hhash.symm, ?_, hcons ▸ hbits, htime ▸ h⟩
      have hlt : w.shared.bc.blocks.tip.height.toNat < template.height.toNat := UInt64.lt_iff_toNat_lt.mp hheight
      have hsum := congrArg UInt64.toNat hnext
      rw [UInt64.toNat_add, show (1 : UInt64).toNat = 1 from rfl] at hsum
      have hbound := w.shared.bc.blocks.tip.height.toNat_lt
      change template.height.toNat = _
      omega

namespace Sample

/-- Two goroutines that mine an empty block and have both built their templates. -/
def twoMiners {σ : Type} (bc : Blockchain σ) (now : Int64) : World (History σ) Goroutine :=
  { shared := { bc, chains := [bc.blocks.bare, bc.blocks.bare, bc.blocks.bare] }
    tasks := [.searching (mineTemplate bc [] 0 now), .searching (mineTemplate bc [] 0 now)] }

theorem twoMiners_reached {σ : Type} (C : Crypto) (S : ChainStore σ) (bc : Blockchain σ) (now : Int64) :
    Interleaving (ChainStep C S) ⟨.start bc, [.mineOneBlock [] now, .mineOneBlock [] now]⟩ (twoMiners bc now) := by
  have hstep : (Goroutine.mineOneBlock [] now).step C S bc = some (bc, .searching (mineTemplate bc [] 0 now)) := rfl
  have hfirst : Interleaving (ChainStep C S) ⟨.start bc, [.mineOneBlock [] now, .mineOneBlock [] now]⟩
      ⟨⟨bc, [bc.blocks.bare, bc.blocks.bare]⟩, [.searching (mineTemplate bc [] 0 now), .mineOneBlock [] now]⟩ :=
    Interleaving.start.next (i := 0) rfl ⟨hstep, rfl⟩
  exact hfirst.next (i := 1) rfl ⟨hstep, rfl⟩

theorem twoMiners_identified {σ : Type} (bc : Blockchain σ) (now : Int64) : HashesIdentify (twoMiners bc now).shared.chains := by
  intro c hc c' hc' _
  simp only [twoMiners, mem_cons, not_mem_nil, or_false, or_self] at hc hc'
  rw [hc, hc']

def lateRaw : GenesisConfigJSON := { raw with timestamp := Int64.maxValue }

/-- A step has appended a block that passes the test. -/
def appends {σ : Type} (r : Option (Blockchain σ × Goroutine)) (test : Block → Bool) : Bool :=
  match r with
  | some (_, .appended b) => test b
  | _ => false

theorem exists_of_appends {σ : Type} {r : Option (Blockchain σ × Goroutine)} {test : Block → Bool} (h : appends r test = true) :
    ∃ bc b, r = some (bc, .appended b) ∧ test b = true := by
  unfold appends at h
  split at h
  · exact ⟨_, _, rfl, h⟩
  · cases h

end Sample

open Internal.Sample
open NeoCoin.Sample (minerAddress)

/-- Two goroutines mine at once: the block that comes first follows the tip. -/
theorem appended_onTip_miners : ∃ bc bc' b, loaded = some (.ok bc) ∧
      (Goroutine.searching (mineTemplate bc [] 0 4)).step crypto (boltStore gob) bc = some (bc', .appended b) ∧ OnTip bc b := by
  obtain ⟨bc, hload, hrun⟩ : ∃ bc, loaded = some (.ok bc) ∧
      appends ((Goroutine.searching (mineTemplate bc [] 0 4)).step crypto (boltStore gob) bc)
        (fun _ => decide (bc.blocks.tip.timestampUnix ≠ Int64.maxValue)) = true := by
    refine ⟨node, node_loads, ?_⟩
    simp only [crypto, goCrypto_eq]
    decide +kernel
  obtain ⟨bc', b, hstep, hrun⟩ := exists_of_appends hrun
  refine ⟨bc, bc', b, hload, hstep, ?_⟩
  exact (appended_onTip_iff (by simp [Goroutine.IsCall]) (twoMiners_reached _ _ bc 4) (twoMiners_identified bc 4)
    (i := 0) rfl hstep).mpr (of_decide_eq_true hrun)

/-- On a genesis block dated at the end of time the next time wraps around: a block is appended that is dated before its tip. -/
theorem appended_before_tip : ∃ bc bc' b, loadBlockchain crypto (boltStore gob) 1 minerAddress lateRaw {} false Bolt.empty =
        some (.ok bc) ∧
      Interleaving (ChainStep crypto (boltStore gob)) ⟨.start bc, [.mineOneBlock [] 4, .mineOneBlock [] 4]⟩
        (twoMiners bc 4) ∧
      HashesIdentify (twoMiners bc 4).shared.chains ∧
      (Goroutine.searching (mineTemplate bc [] 0 4)).step crypto (boltStore gob) bc = some (bc', .appended b) ∧
      b.timestampUnix < bc.blocks.tip.timestampUnix := by
  have hrun : ((loadBlockchain crypto (boltStore gob) 1 minerAddress lateRaw {} false Bolt.empty).any fun r => r.toOption.any fun bc =>
      appends ((Goroutine.searching (mineTemplate bc [] 0 4)).step crypto (boltStore gob) bc) fun b =>
        decide (b.timestampUnix < bc.blocks.tip.timestampUnix)) = true := by
    simp only [crypto, goCrypto_eq]
    decide +kernel
  obtain ⟨r, hload, hrun⟩ := (Option.any_eq_true _ _).mp hrun
  cases r with
  | error e => cases hrun
  | ok bc =>
    obtain ⟨bc', b, hstep, hrun⟩ := exists_of_appends hrun
    exact ⟨bc, bc', b, hload, twoMiners_reached _ _ bc 4, twoMiners_identified bc 4, hstep, of_decide_eq_true hrun⟩

end NeoCoin.Internal
