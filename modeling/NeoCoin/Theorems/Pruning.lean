import NeoCoin.Internal.Pruner
import NeoCoin.Theorems.Database

/-!
# Pruning

`AutoPrune` deletes the canonical blocks below a height, which is the latest checkpoint before `PruneDepth` blocks below the tip only if
that checkpoint is itself not below `PruneDepth`. Otherwise blocks above the last checkpoint go as well.
-/

namespace NeoCoin.Internal

open GoLib List

variable {b : Block} {j c : UInt64} {t i : Nat} {checkpoints : List Int64}

/-! ## What can be rebuilt -/

section

variable {β : Type}

def StoredAt (G : Gob β) (st : Bolt β) (h : UInt64) : Prop :=
  ∃ hash b, st.canonB.get (u64be h) = some hash ∧ st.readBlock G hash = .ok b

def CheckpointAt (st : Bolt β) (h : UInt64) : Prop := st.checkpointsB.get (u64be h) ≠ none

instance (st : Bolt β) (h : UInt64) : Decidable (CheckpointAt st h) := inferInstanceAs (Decidable (¬_ = _))

/-- There is a checkpoint at or below a height, and all blocks above the checkpoint up to the height are stored. -/
def Rebuildable (G : Gob β) (st : Bolt β) (h : UInt64) : Prop :=
  ∃ c ≤ h, CheckpointAt st c ∧ ∀ j, c < j → j ≤ h → StoredAt G st j

/-- A store with a canonical chain from height zero on, without gaps and linked, and checkpoints up to its tip. -/
structure FullStore (G : Gob β) (st : Bolt β) (blocks : Path) : Prop where
  entries : st.canonB.entries = (blocks.1.map Block.toBlock).map canonEntry
  stored : ∀ b ∈ blocks.1, st.readBlock G b.hash.bytes = .ok b
  heights : ∀ (i : Nat) (b : Block), blocks.1[i]? = some b → b.height.toNat = i
  linked : ∀ (i : Nat) (b b' : Block), blocks.1[i]? = some b → blocks.1[i + 1]? = some b' → b'.prevHash.bytes = b.hash.bytes
  bounded : blocks.1.length < 2 ^ 63
  checkpoints : ∀ e ∈ st.checkpointsB.entries, ∃ c : UInt64, e.1 = u64be c ∧ c.toNat < blocks.1.length

end

/-! ## The database below a height -/

section

variable {β : Type} {G : Gob β} {st : Bolt β} {blocks : Path}

theorem FullStore.height_lt (h : FullStore G st blocks) (hb : b ∈ blocks.1) : b.height.toNat < blocks.1.length := by
  obtain ⟨i, hi, rfl⟩ := getElem_of_mem hb
  rw [h.heights i _ (List.getElem?_eq_getElem hi)]
  exact hi

theorem FullStore.tip_height (h : FullStore G st blocks) : blocks.tip.height.toNat + 1 = blocks.1.length := by
  have hpos : 0 < blocks.1.length := length_pos_iff.mpr blocks.2
  have htip := h.heights (blocks.1.length - 1) blocks.tip (by rw [Path.tip, getLast_eq_getElem, List.getElem?_eq_getElem])
  omega

theorem FullStore.eq_of_hash (h : FullStore G st blocks) {b' : Block} (hb : b ∈ blocks.1) (hb' : b' ∈ blocks.1)
    (hhash : b.hash.bytes = b'.hash.bytes) : b = b' := by
  have hread := h.stored b hb
  rw [hhash, h.stored b' hb'] at hread
  exact (Except.ok.inj hread).symm

theorem FullStore.get_canon (h : FullStore G st blocks) {hash : Bytes} :
    st.canonB.get (u64be j) = some hash ↔ ∃ b ∈ blocks.1, b.height = j ∧ b.hash.bytes = hash := by
  rw [OrdMap.get_eq_some_iff, h.entries, map_map, mem_map]
  constructor
  · intro hmem
    obtain ⟨b, hb, heq⟩ := hmem
    obtain ⟨hkey, hhash⟩ := Prod.mk.inj heq
    exact ⟨b, hb, u64be_inj hkey, hhash⟩
  · intro hmem
    obtain ⟨b, hb, rfl, rfl⟩ := hmem
    exact ⟨b, hb, rfl⟩

theorem FullStore.readCanonical (h : FullStore G st blocks) : st.readCanonical G = .ok blocks.1 := by
  have hread : ∀ l : List Block, (∀ b ∈ l, st.readBlock G b.hash.bytes = .ok b) →
      ((l.map Block.toBlock).map canonEntry).mapM (fun e => st.readBlock G e.2) = .ok l := by
    intro l hl
    induction l with
    | nil => rfl
    | cons b l ih =>
      rw [map_cons, map_cons, mapM_cons]
      exact bind_eq_ok.mpr ⟨b, hl b (.head _),
        bind_eq_ok.mpr ⟨l, ih fun b' hb' => hl b' (.tail b hb'), rfl⟩⟩
  unfold Bolt.readCanonical
  rw [h.entries]
  exact hread blocks.1 h.stored

/-- The entries that `PruneBelow` collects from blocks that count up from height `i`, by induction on the blocks. -/
theorem toDelete_eq (ht : t < 2 ^ 63) {bs : List Block} (hi : i + bs.length < 2 ^ 63)
    (hheights : ∀ k b, bs[k]? = some b → b.height.toNat = i + k) :
    Bolt.toDelete (Int64.ofNat t) ((bs.map Block.toBlock).map canonEntry) = ((bs.take (t - i)).map Block.toBlock).map canonEntry := by
  induction bs generalizing i with
  | nil => simp [Bolt.toDelete]
  | cons b bs ih =>
    rw [length_cons] at hi
    have hb : b.height.toNat = i := hheights 0 b rfl
    have hlen : (canonEntry b.toBlock).1.length = 8 := beBytes_length 8 _
    have hkey : (UInt64.ofNat (beNat (canonEntry b.toBlock).1)).toInt64 = b.height.toInt64 :=
      congrArg UInt64.toInt64 (ofNat_beNat_u64be b.height)
    have hint : b.height.toInt64.toInt = i := by rw [toInt_toInt64 (by omega), hb]
    have hrest := ih (i := i + 1) (by omega) fun k b' hb' => by
      have := hheights (k + 1) b' hb'
      omega
    rw [map_cons, map_cons, Bolt.toDelete, if_neg (not_not.mpr hlen), hkey, hrest]
    have hgt : b.height.toInt64 > Int64.ofNat t ↔ t < i := by
      rw [gt_iff_lt, Int64.lt_iff_toInt_lt, hint, toInt_ofNat_of_lt ht]
      omega
    have heq : b.height.toInt64 = Int64.ofNat t ↔ i = t := by
      rw [← Int64.toInt_inj, hint, toInt_ofNat_of_lt ht]
      omega
    rcases Nat.lt_trichotomy t i with hlt | rfl | hlt
    · rw [if_pos (hgt.mpr hlt), show t - i = 0 by omega]
      rfl
    · rw [if_neg (fun h => by have := hgt.mp h; omega), if_pos (heq.mpr rfl), show t - (t + 1) = 0 by omega, Nat.sub_self]
      rfl
    · rw [if_neg (fun h => by have := hgt.mp h; omega), if_neg (fun h => by have := heq.mp h; omega),
        show t - i = t - (i + 1) + 1 by omega, take_succ_cons]
      rfl

/-- `PruneBelow` deletes the entries it has collected, and their blocks. -/
theorem pruneBelow_eq (st : Bolt β) (height : Int64) :
    (st.pruneBelow height).1 = .ok () ∧ (st.pruneBelow height).2.checkpointsB = st.checkpointsB ∧
      (st.pruneBelow height).2.canonB = ((Bolt.toDelete height st.canonB.entries).map Prod.fst).foldl OrdMap.delete st.canonB ∧
      (st.pruneBelow height).2.blocksB = ((Bolt.toDelete height st.canonB.entries).map Prod.snd).foldl OrdMap.delete st.blocksB := by
  have hfold : ∀ (l : List (Bytes × Bytes)) (st : Bolt β),
      let st' := l.foldl (fun st e => { st with canonB := st.canonB.delete e.1, blocksB := st.blocksB.delete e.2 }) st
      st'.checkpointsB = st.checkpointsB ∧ st'.canonB = (l.map Prod.fst).foldl OrdMap.delete st.canonB ∧
        st'.blocksB = (l.map Prod.snd).foldl OrdMap.delete st.blocksB := by
    intro l
    induction l with
    | nil => exact fun st => ⟨rfl, rfl, rfl⟩
    | cons e l ih => exact fun st => ih _
  exact ⟨rfl, hfold _ st⟩

/-- After the blocks below `t` were pruned, those from `t` on are stored. -/
theorem storedAt_pruned_iff (h : FullStore G st blocks) (ht : t < 2 ^ 63) :
    StoredAt G (st.pruneBelow (Int64.ofNat t)).2 j ↔ t ≤ j.toNat ∧ j.toNat < blocks.1.length := by
  obtain ⟨-, -, hcanon, hblocks⟩ := pruneBelow_eq st (Int64.ofNat t)
  have hdelete : Bolt.toDelete (Int64.ofNat t) st.canonB.entries = ((blocks.1.take t).map Block.toBlock).map canonEntry := by
    rw [h.entries]
    exact toDelete_eq ht (by rw [Nat.zero_add]; exact h.bounded) fun k b hb => by rw [h.heights k b hb, Nat.zero_add]
  have hbelow : ∀ b ∈ blocks.1, b ∈ blocks.1.take t ↔ b.height.toNat < t := by
    intro b hb
    obtain ⟨i, hi, rfl⟩ := getElem_of_mem hb
    rw [h.heights i _ (List.getElem?_eq_getElem hi), mem_take_iff_getElem]
    constructor
    · intro hmem
      obtain ⟨k, hk, heq⟩ := hmem
      have hheight := h.heights k _ (List.getElem?_eq_getElem (show k < blocks.1.length by omega))
      rw [heq, h.heights i _ (List.getElem?_eq_getElem hi)] at hheight
      omega
    · exact fun hlt => ⟨i, by omega, rfl⟩
  rw [hdelete, map_map, map_map] at hcanon hblocks
  constructor
  · intro hstored
    obtain ⟨hash, b, hget, -⟩ := hstored
    rw [hcanon, OrdMap.get_eq_some_iff, OrdMap.mem_foldl_delete, ← OrdMap.get_eq_some_iff, h.get_canon] at hget
    obtain ⟨⟨b', hb', rfl, -⟩, hnot⟩ := hget
    refine ⟨?_, h.height_lt hb'⟩
    by_contra hlt
    refine hnot (mem_map.mpr ⟨b', (hbelow b' hb').mpr (by omega), rfl⟩)
  · intro hj
    have hget : blocks.1[j.toNat]? = some blocks.1[j.toNat] := List.getElem?_eq_getElem hj.2
    have hmem : blocks.1[j.toNat] ∈ blocks.1 := getElem_mem hj.2
    have hheight : blocks.1[j.toNat].height = j := UInt64.toNat_inj.mp (h.heights _ _ hget)
    have habove : ∀ b' ∈ blocks.1.take t, b' ≠ blocks.1[j.toNat] := by
      intro b' hb' heq
      have hlt := (hbelow _ hmem).mp (heq ▸ hb')
      rw [hheight] at hlt
      omega
    refine ⟨blocks.1[j.toNat].hash.bytes, blocks.1[j.toNat], ?_, ?_⟩
    · rw [hcanon, OrdMap.get_foldl_delete]
      · exact h.get_canon.mpr ⟨_, hmem, hheight, rfl⟩
      · intro hkey
        obtain ⟨b', hb', hsame⟩ := mem_map.mp hkey
        have hj' : b'.height = j := u64be_inj hsame
        have hlt := (hbelow b' (mem_of_mem_take hb')).mp hb'
        rw [hj'] at hlt
        omega
    · have hread := h.stored _ hmem
      unfold Bolt.readBlock at hread ⊢
      rw [hblocks, OrdMap.get_foldl_delete]
      · exact hread
      · intro hkey
        obtain ⟨b', hb', hsame⟩ := mem_map.mp hkey
        exact habove b' hb' (h.eq_of_hash (mem_of_mem_take hb') hmem hsame)

/-- After pruning below `t`, what is stored can be rebuilt exactly if a checkpoint is at `t` or right below. -/
theorem rebuildable_pruned_iff (h : FullStore G st blocks) (ht : t < blocks.1.length) :
    (∀ j, StoredAt G (st.pruneBelow (Int64.ofNat t)).2 j → Rebuildable G (st.pruneBelow (Int64.ofNat t)).2 j) ↔
      ∃ c, CheckpointAt st c ∧ c.toNat ≤ t ∧ t ≤ c.toNat + 1 := by
  have hlen := h.bounded
  have hstored : ∀ j, StoredAt G (st.pruneBelow (Int64.ofNat t)).2 j ↔ t ≤ j.toNat ∧ j.toNat < blocks.1.length :=
    fun j => storedAt_pruned_iff h (by omega)
  have hpoint : ∀ c, CheckpointAt (st.pruneBelow (Int64.ofNat t)).2 c ↔ CheckpointAt st c := by
    intro c
    unfold CheckpointAt
    rw [(pruneBelow_eq st (Int64.ofNat t)).2.1]
  constructor
  · intro hall
    -- the lowest block that is left
    have hnat : (UInt64.ofNat t).toNat = t := UInt64.toNat_ofNat_of_lt' (show t < 2 ^ 64 by omega)
    obtain ⟨c, hle, hc, hbetween⟩ := hall (UInt64.ofNat t) ((hstored _).mpr (by omega))
    rw [UInt64.le_iff_toNat_le, hnat] at hle
    refine ⟨c, (hpoint c).mp hc, hle, ?_⟩
    by_contra hgap
    have hnext : (UInt64.ofNat (c.toNat + 1)).toNat = c.toNat + 1 := UInt64.toNat_ofNat_of_lt' (show c.toNat + 1 < 2 ^ 64 by omega)
    have hmissing := (hstored _).mp (hbetween (UInt64.ofNat (c.toNat + 1)) (by rw [UInt64.lt_iff_toNat_lt, hnext]; omega)
      (by rw [UInt64.le_iff_toNat_le, hnext, hnat]; omega))
    omega
  · intro hc j hj
    obtain ⟨c, hc, hle, hnext⟩ := hc
    have hj := (hstored j).mp hj
    refine ⟨c, by rw [UInt64.le_iff_toNat_le]; omega, (hpoint c).mpr hc, ?_⟩
    intro k hk hk'
    rw [UInt64.lt_iff_toNat_lt] at hk
    rw [UInt64.le_iff_toNat_le] at hk'
    exact (hstored k).mpr (by omega)

end

/-! ## The height pruned to -/

theorem nearestCheckpoint_spec (pruneTo : Int64) (hsorted : checkpoints.Pairwise (· ≤ ·)) :
    Pruner.nearestCheckpoint pruneTo checkpoints = 0 ∧ (∀ c ∈ checkpoints, ¬c < pruneTo) ∨
      Pruner.nearestCheckpoint pruneTo checkpoints ∈ checkpoints ∧ Pruner.nearestCheckpoint pruneTo checkpoints < pruneTo ∧
        ∀ c ∈ checkpoints, c < pruneTo → c ≤ Pruner.nearestCheckpoint pruneTo checkpoints := by
  unfold Pruner.nearestCheckpoint
  -- the last element decides, so the induction takes it off
  induction checkpoints using List.reverseRecOn with
  | nil => exact Or.inl ⟨rfl, by simp⟩
  | append_singleton cs c ih =>
    obtain ⟨hcs, -, hle⟩ := pairwise_append.mp hsorted
    rw [foldl_append, foldl_cons, foldl_nil]
    split
    · rename_i hlt
      refine Or.inr ⟨by simp, hlt, forall_mem_concat.mpr ⟨?_, fun _ => Int64.le_refl c⟩⟩
      exact fun c' hc' _ => hle c' hc' c (.head _)
    · rename_i hge
      rcases ih hcs with ⟨hzero, hnone⟩ | ⟨hmem, hlt, hlast⟩
      · exact Or.inl ⟨hzero, forall_mem_concat.mpr ⟨hnone, hge⟩⟩
      · exact Or.inr ⟨mem_append_left _ hmem, hlt, forall_mem_concat.mpr ⟨hlast, fun hlt' => absurd hlt' hge⟩⟩

/-- The height pruned to is that of a checkpoint if one stands at `PruneDepth` or above and more than `PruneDepth` below the tip. -/
theorem pruneTo_cases {p : Pruner} (hdepth : 0 < p.pruneDepth) (hsorted : checkpoints.Pairwise (· ≤ ·)) (tip : Int64) :
    (∃ c ∈ checkpoints, p.pruneDepth ≤ c ∧ c < tip - p.pruneDepth) ∧ p.pruneTo checkpoints tip ∈ checkpoints ∧
        p.pruneDepth ≤ p.pruneTo checkpoints tip ∨
      (¬∃ c ∈ checkpoints, p.pruneDepth ≤ c ∧ c < tip - p.pruneDepth) ∧ p.pruneTo checkpoints tip = tip - p.pruneDepth := by
  unfold Pruner.pruneTo
  simp only
  rcases nearestCheckpoint_spec (tip - p.pruneDepth) hsorted with ⟨hzero, hnone⟩ | ⟨hmem, hlt, hlast⟩
  · right
    rw [hzero, if_neg (fun h => absurd h.1 (by decide))]
    refine ⟨?_, rfl⟩
    intro hc
    obtain ⟨c, hc, -, hlt⟩ := hc
    exact hnone c hc hlt
  · by_cases hdeep : p.pruneDepth ≤ Pruner.nearestCheckpoint (tip - p.pruneDepth) checkpoints
    · left
      rw [if_pos ⟨Int64.lt_of_lt_of_le hdepth hdeep, hdeep⟩]
      exact ⟨⟨_, hmem, hdeep, hlt⟩, hmem, hdeep⟩
    · right
      rw [if_neg (fun h => hdeep h.2)]
      refine ⟨?_, rfl⟩
      intro hc
      obtain ⟨c, hc, hdeep', hlt'⟩ := hc
      exact hdeep (Int64.le_trans hdeep' (hlast c hc hlt'))

/-! ## AutoPrune -/

/-- `AutoPrune` deletes something: there is a checkpoint, and the tip is high enough. -/
def Pruner.Prunes {β : Type} (p : Pruner) (st : Bolt β) (tip : Int64) : Prop :=
  (∃ c, CheckpointAt st c) ∧ tip > p.pruneDepth ∧ tip - p.lastPrune ≥ p.pruneDepth

/-- Where nothing is pruned there is a checkpoint at genesis. Otherwise there is one from `PruneDepth` up to more than `PruneDepth` below
the tip, or one exactly `PruneDepth` below the tip, or right below that. -/
def Pruner.LeavesCheckpoint {β : Type} (p : Pruner) (st : Bolt β) (tip : Int64) : Prop :=
  (¬p.Prunes st tip → CheckpointAt st 0) ∧
    (p.Prunes st tip → (∃ c, CheckpointAt st c ∧ p.pruneDepth ≤ c.toInt64 ∧ c.toInt64 < tip - p.pruneDepth) ∨
      CheckpointAt st (tip - p.pruneDepth - 1).toUInt64 ∨ CheckpointAt st (tip - p.pruneDepth).toUInt64)

section

variable {β : Type} {G : Gob β} {p : Pruner} {st : Bolt β} {blocks : Path}

theorem FullStore.checkpoint_lt (h : FullStore G st blocks) (hc : CheckpointAt st c) : c.toNat < blocks.1.length := by
  obtain ⟨s, hs⟩ := Option.ne_none_iff_exists'.mp hc
  obtain ⟨c', hkey, hlt⟩ := h.checkpoints _ (OrdMap.get_eq_some_iff.mp hs)
  rw [u64be_inj hkey]
  exact hlt

theorem FullStore.checkpoint_le (h : FullStore G st blocks) (hc : CheckpointAt st c) : c.toInt64 ≤ blocks.tip.height.toInt64 := by
  have hlt := h.checkpoint_lt hc
  have htip := h.tip_height
  have hlen := h.bounded
  rw [Int64.le_iff_toInt_le, toInt_toInt64 (by omega), toInt_toInt64 (by omega)]
  omega

theorem FullStore.checkpointHeights (h : FullStore G st blocks) :
    ∃ heights, st.getCheckpointHeights = .ok heights ∧ heights.Pairwise (· ≤ ·) ∧
      ∀ x, x ∈ heights ↔ ∃ c, CheckpointAt st c ∧ c.toInt64 = x := by
  have hkeys : ∀ e ∈ st.checkpointsB.entries, ∃ c : UInt64, e.1 = u64be c := by
    intro e he
    obtain ⟨c, hkey, -⟩ := h.checkpoints e he
    exact ⟨c, hkey⟩
  obtain ⟨heights, hheights, hsorted, hmem⟩ := getCheckpointHeights_spec hkeys
  refine ⟨heights, hheights, hsorted, ?_⟩
  intro x
  rw [hmem]
  constructor
  · intro hget
    obtain ⟨c, s, hget, rfl⟩ := hget
    refine ⟨c, ?_, rfl⟩
    unfold CheckpointAt
    rw [hget]
    simp
  · intro hpoint
    obtain ⟨c, hc, rfl⟩ := hpoint
    obtain ⟨s, hs⟩ := Option.ne_none_iff_exists'.mp hc
    exact ⟨c, s, hs, rfl⟩

theorem shouldPrune_iff (h : FullStore G st blocks) (hdepth : 0 < p.pruneDepth) :
    p.shouldPrune (boltStore G) st = true ↔ p.Prunes st blocks.tip.height.toInt64 := by
  obtain ⟨heights, hheights, hsorted, hmem⟩ := h.checkpointHeights
  have hlast : blocks.1.getLast? = some blocks.tip := List.getLast?_eq_some_getLast blocks.2
  unfold Pruner.shouldPrune Pruner.Prunes getCurrentHeight
  rw [show (boltStore G).getCheckpointHeights st = .ok heights from hheights,
    show (boltStore G).readCanonical st = .ok blocks.1 from h.readCanonical]
  simp only [bind, Except.bind, hlast]
  cases hmax : heights.getLast? with
  | none =>
    rw [List.getLast?_eq_none_iff] at hmax
    rw [decide_eq_true_eq]
    constructor
    · exact fun hdeep => absurd hdeep.1 (Int64.not_lt.mpr (Int64.le_of_lt hdepth))
    · intro hprunes
      obtain ⟨⟨c, hc⟩, -⟩ := hprunes
      have hnone := (hmem c.toInt64).mpr ⟨c, hc, rfl⟩
      rw [hmax] at hnone
      cases hnone
  | some maxH =>
    obtain ⟨c, hc, hcmax⟩ := (hmem maxH).mp (mem_of_getLast? hmax)
    have hle : maxH ≤ blocks.tip.height.toInt64 := by
      rw [← hcmax]
      exact h.checkpoint_le hc
    have hcurrent : (if blocks.tip.height.toInt64 > maxH then blocks.tip.height.toInt64 else maxH) = blocks.tip.height.toInt64 := by
      split
      · rfl
      · rename_i hnot
        exact Int64.le_antisymm hle (Int64.not_lt.mp hnot)
    simp only [hcurrent, decide_eq_true_eq]
    exact ⟨fun hdeep => ⟨⟨c, hc⟩, hdeep⟩, fun hprunes => hprunes.2⟩

/-- The same of `PruneBelow` at a height on the chain. -/
theorem rebuildable_pruneBelow_iff (h : FullStore G st blocks) {x : Int64} (hx : 0 ≤ x) (htip : x ≤ blocks.tip.height.toInt64) :
    (∀ j, StoredAt G (st.pruneBelow x).2 j → Rebuildable G (st.pruneBelow x).2 j) ↔
      CheckpointAt st (x - 1).toUInt64 ∨ CheckpointAt st x.toUInt64 := by
  have hlen := h.bounded
  have hheight := h.tip_height
  obtain ⟨t, rfl, ht⟩ : ∃ t : Nat, Int64.ofNat t = x ∧ t < blocks.1.length := by
    refine ⟨x.toNatClampNeg, Int64.ofNat_toNatClampNeg x hx, ?_⟩
    rw [Int64.le_iff_toInt_le, toInt_toInt64 (by omega)] at htip
    unfold Int64.toNatClampNeg
    omega
  have hnat : (UInt64.ofNat t).toNat = t := UInt64.toNat_ofNat_of_lt' (show t < 2 ^ 64 by omega)
  have hpred : ∀ c, CheckpointAt st c → (c.toNat + 1 = t ↔ c = (Int64.ofNat t - 1).toUInt64) := by
    intro c hc
    have hlt := h.checkpoint_lt hc
    cases t with
    | zero =>
      -- the height before zero is no height
      refine ⟨fun hsucc => absurd hsucc (by omega), fun heq => ?_⟩
      rw [heq] at hlt
      exact absurd hlt (by rw [show (Int64.ofNat 0 - 1).toUInt64.toNat = 2 ^ 64 - 1 from rfl]; omega)
    | succ t =>
      have hsub : (Int64.ofNat (t + 1) - 1).toUInt64 = UInt64.ofNat t := by
        rw [show (1 : Int64) = Int64.ofNat 1 from rfl, ← Int64.ofNat_sub _ _ (by omega)]
        rfl
      rw [hsub, ← UInt64.toNat_inj, UInt64.toNat_ofNat_of_lt' (show t < 2 ^ 64 by omega)]
      omega
  rw [rebuildable_pruned_iff h ht]
  constructor
  · intro hpoint
    obtain ⟨c, hc, hle, hnext⟩ := hpoint
    rcases Nat.lt_or_ge c.toNat t with hlt | hge
    · left
      rw [← (hpred c hc).mp (by omega)]
      exact hc
    · right
      have hsame : c = UInt64.ofNat t := by
        rw [← UInt64.toNat_inj, hnat]
        omega
      rw [show (Int64.ofNat t).toUInt64 = UInt64.ofNat t from rfl, ← hsame]
      exact hc
  · intro hpoint
    rcases hpoint with hc | hc
    · have hsucc := (hpred _ hc).mpr rfl
      exact ⟨_, hc, by omega, by omega⟩
    · refine ⟨_, hc, ?_⟩
      rw [show (Int64.ofNat t).toUInt64 = UInt64.ofNat t from rfl, hnat]
      omega

/-- Pruning below zero deletes nothing. -/
theorem pruneBelow_zero (h : FullStore G st blocks) : (st.pruneBelow 0).2 = st := by
  have hdelete : Bolt.toDelete (Int64.ofNat 0) st.canonB.entries = [] := by
    rw [h.entries]
    exact toDelete_eq (t := 0) (by decide) (by rw [Nat.zero_add]; exact h.bounded) fun k b hb => by rw [h.heights k b hb, Nat.zero_add]
  unfold Bolt.pruneBelow Bolt.update
  simp only
  rw [show (0 : Int64) = Int64.ofNat 0 from rfl, hdelete]
  rfl

/-- What `AutoPrune` does to the stored data. -/
theorem autoPrune_cases (h : FullStore G st blocks) (hdepth : 0 < p.pruneDepth) :
    ¬p.Prunes st blocks.tip.height.toInt64 ∧ (p.autoPrune (boltStore G) st).2.2 = st ∨
      p.Prunes st blocks.tip.height.toInt64 ∧ ∃ heights, st.getCheckpointHeights = .ok heights ∧
        (p.autoPrune (boltStore G) st).2.2 = (st.pruneBelow (p.pruneTo heights blocks.tip.height.toInt64)).2 := by
  have hlast : blocks.1.getLast? = some blocks.tip := List.getLast?_eq_some_getLast blocks.2
  unfold Pruner.autoPrune
  by_cases hprunes : p.Prunes st blocks.tip.height.toInt64
  · right
    obtain ⟨heights, hheights, -⟩ := h.checkpointHeights
    refine ⟨hprunes, heights, hheights, ?_⟩
    rw [if_neg (by rw [(shouldPrune_iff h hdepth).mpr hprunes]; simp),
      show (boltStore G).readCanonical st = .ok blocks.1 from h.readCanonical]
    simp only [hlast]
    rw [show (boltStore G).getCheckpointHeights st = .ok heights from hheights]
    rfl
  · left
    refine ⟨hprunes, ?_⟩
    rw [if_pos (Bool.eq_false_iff.mpr fun hshould => hprunes ((shouldPrune_iff h hdepth).mp hshould))]

end

/-- After `AutoPrune` every stored canonical block can be rebuilt from a checkpoint if and only if the pruner leaves a checkpoint where
it prunes to. -/
theorem autoPrune_rebuildable_iff {β : Type} (G : Gob β) (p : Pruner) (st : Bolt β) (blocks : Path) (h : FullStore G st blocks)
    (hdepth : 0 < p.pruneDepth) :
    (∀ j, StoredAt G (p.autoPrune (boltStore G) st).2.2 j → Rebuildable G (p.autoPrune (boltStore G) st).2.2 j) ↔
      p.LeavesCheckpoint st blocks.tip.height.toInt64 := by
  have hlen := h.bounded
  have hheight := h.tip_height
  have hnonneg : 0 ≤ blocks.tip.height.toInt64 := by
    rw [Int64.le_iff_toInt_le, toInt_toInt64 (by omega), show (0 : Int64).toInt = 0 from rfl]
    omega
  unfold Pruner.LeavesCheckpoint
  rcases autoPrune_cases h hdepth with ⟨hnot, hsame⟩ | ⟨hprunes, heights, hheights, hst⟩
  · rw [hsame]
    have hzero := rebuildable_pruneBelow_iff h (Int64.le_refl 0) hnonneg
    rw [pruneBelow_zero h] at hzero
    rw [hzero]
    constructor
    · intro hpoint
      refine ⟨fun _ => ?_, fun hprunes => absurd hprunes hnot⟩
      rcases hpoint with hc | hc
      · exact absurd (h.checkpoint_lt hc) (by rw [show ((0 : Int64) - 1).toUInt64.toNat = 2 ^ 64 - 1 from rfl]; omega)
      · exact hc
    · exact fun hleaves => Or.inr (hleaves.1 hnot)
  · rw [hst]
    obtain ⟨heights', hheights', hsorted, hmem⟩ := h.checkpointHeights
    cases hheights.symm.trans hheights'
    rcases pruneTo_cases hdepth hsorted blocks.tip.height.toInt64 with ⟨hexists, hin, hge⟩ | ⟨hnone, heq⟩
    · obtain ⟨c, hc, hcx⟩ := (hmem _).mp hin
      have hle := h.checkpoint_le hc
      rw [hcx] at hle
      rw [rebuildable_pruneBelow_iff h (Int64.le_trans (Int64.le_of_lt hdepth) hge) hle]
      constructor
      · intro _
        obtain ⟨x, hx, hbetween⟩ := hexists
        obtain ⟨c', hc', rfl⟩ := (hmem x).mp hx
        exact ⟨fun hnot => absurd hprunes hnot, fun _ => Or.inl ⟨c', hc', hbetween⟩⟩
      · intro _
        right
        rw [← hcx, UInt64.toUInt64_toInt64]
        exact hc
    · have hsub := Int64.toInt_sub_of_le blocks.tip.height.toInt64 p.pruneDepth (Int64.le_of_lt hdepth) (Int64.le_of_lt hprunes.2.1)
      have hdeep := Int64.lt_iff_toInt_lt.mp hprunes.2.1
      have hpos := Int64.lt_iff_toInt_lt.mp hdepth
      rw [show (0 : Int64).toInt = 0 from rfl] at hpos
      rw [heq, rebuildable_pruneBelow_iff h]
      · constructor
        · exact fun hpoint => ⟨fun hnot => absurd hprunes hnot, fun _ => Or.inr hpoint⟩
        · intro hleaves
          rcases hleaves.2 hprunes with ⟨c, hc, hbetween⟩ | hpoint
          · exact absurd ⟨_, (hmem _).mpr ⟨c, hc, rfl⟩, hbetween⟩ hnone
          · exact hpoint
      · rw [Int64.le_iff_toInt_le, hsub, show (0 : Int64).toInt = 0 from rfl]
        omega
      · rw [Int64.le_iff_toInt_le, hsub]
        omega

namespace Sample

def link (i : Nat) : Block :=
  { height := UInt64.ofNat i, prevHash := if i = 0 then none else some [UInt8.ofNat i], hash := some [UInt8.ofNat (i + 1)] }

def links : Path := ⟨(List.range 10).map link, by decide⟩

def linkStore : Bolt Block :=
  let st := (Bolt.rewriteCanonical gob Bolt.empty links.1).2
  [3, 6, 9].foldl (fun st h => (Bolt.writeCheckpoint st h ∅).2) st

theorem links_getElem (h : links.1[i]? = some b) : i < 10 ∧ b = link i := by
  unfold links at h
  rw [List.getElem?_map, Option.map_eq_some_iff] at h
  obtain ⟨j, hj, rfl⟩ := h
  obtain ⟨hlt, rfl⟩ := List.getElem?_eq_some_iff.mp hj
  rw [length_range] at hlt
  exact ⟨hlt, by rw [getElem_range]⟩

theorem linkStore_checkpoints : linkStore.checkpointsB.entries = [(u64be 3, ∅), (u64be 6, ∅), (u64be 9, ∅)] := by decide

theorem linkStore_full : FullStore gob linkStore links where
  entries := by decide
  stored := by decide
  heights := by
    intro i b hb
    obtain ⟨hi, rfl⟩ := links_getElem hb
    exact UInt64.toNat_ofNat_of_lt' (show i < 2 ^ 64 by omega)
  linked := by
    intro i b b' hb hb'
    obtain ⟨-, rfl⟩ := links_getElem hb
    obtain ⟨-, rfl⟩ := links_getElem hb'
    rfl
  bounded := by decide
  checkpoints := by
    intro e he
    rw [linkStore_checkpoints] at he
    simp only [mem_cons, not_mem_nil, or_false] at he
    rcases he with rfl | rfl | rfl
    · exact ⟨3, rfl, by decide⟩
    · exact ⟨6, rfl, by decide⟩
    · exact ⟨9, rfl, by decide⟩

end Sample

open Internal.Sample

/-- With a depth of three the chain is pruned to its checkpoint at height three. -/
theorem autoPrune_rebuildable_deep : let p : Pruner := { pruneDepth := 3, checkpointInterval := 3 }
    (p.autoPrune (boltStore gob) linkStore).2.1.lastPrune = 3 ∧ 0 < p.pruneDepth ∧
      FullStore gob linkStore links ∧
      ∀ j, StoredAt gob (p.autoPrune (boltStore gob) linkStore).2.2 j →
        Rebuildable gob (p.autoPrune (boltStore gob) linkStore).2.2 j := by
  refine ⟨by decide, by decide, linkStore_full, ?_⟩
  refine (autoPrune_rebuildable_iff gob _ linkStore links linkStore_full (by decide)).mpr ?_
  have hpoint : CheckpointAt linkStore 3 := by decide
  exact ⟨fun hnot => absurd ⟨⟨3, hpoint⟩, by decide⟩ hnot, fun _ => Or.inl ⟨3, hpoint, by decide⟩⟩

/-- The chain is pruned to height five, above its checkpoint at height three: the state at height five is lost. -/
theorem autoPrune_loses_state : let p : Pruner := { pruneDepth := 4, checkpointInterval := 3 }
    let st := (p.autoPrune (boltStore gob) linkStore).2.2
    FullStore gob linkStore links ∧ StoredAt gob st 5 ∧ ¬Rebuildable gob st 5 := by
  intro p st
  have hkept : st.checkpointsB.entries = [(u64be 3, ∅), (u64be 6, ∅), (u64be 9, ∅)] := by decide
  have hfive : (st.canonB.get (u64be 5), (st.readBlock gob [6]).toOption) = (some [6], some (link 5)) := by decide
  have hfour : st.canonB.get (u64be 4) = none := by decide
  refine ⟨linkStore_full, ⟨[6], link 5, (Prod.mk.inj hfive).1, Result.toOption_eq_some.mp (Prod.mk.inj hfive).2⟩, ?_⟩
  intro hrebuildable
  obtain ⟨c, hle, hc, hbetween⟩ := hrebuildable
  obtain ⟨s, hs⟩ := Option.ne_none_iff_exists'.mp hc
  have hmem := OrdMap.get_eq_some_iff.mp hs
  rw [hkept] at hmem
  simp only [mem_cons, not_mem_nil, or_false, Prod.mk.injEq] at hmem
  rcases hmem with ⟨hkey, -⟩ | ⟨hkey, -⟩ | ⟨hkey, -⟩
  · rw [u64be_inj hkey] at hbetween
    obtain ⟨hash, b, hget, -⟩ := hbetween 4 (by decide) (by decide)
    rw [hfour] at hget
    cases hget
  · rw [u64be_inj hkey] at hle
    exact absurd hle (by decide)
  · rw [u64be_inj hkey] at hle
    exact absurd hle (by decide)

end NeoCoin.Internal
