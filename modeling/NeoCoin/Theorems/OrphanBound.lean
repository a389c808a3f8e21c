import NeoCoin.Lib.Trace
import NeoCoin.Theorems.Orphans

/-!
# The bound of the orphan pool

`AddBlock` makes room in a full pool by dropping the hash that was listed first. `RemoveBlock` and `RemoveBlocksBelowHeight` leave the
hashes of the blocks they take in the list, and dropping such a hash makes no room.
-/

namespace NeoCoin.Internal

open GoLib

namespace OrphanPool

variable {op op' : OrphanPool}

theorem card_delete_le (m : GoMap Bytes Block) (k : Bytes) : (m.delete k).keys.card ≤ m.keys.card := by
  rw [GoMap.delete, Finmap.keys_erase]
  exact Finset.card_erase_le

theorem card_set (m : GoMap Bytes Block) (k : Bytes) (b : Block) (h : k ∉ m) : (m.set k b).keys.card = m.keys.card + 1 := by
  have hkeys : (m.set k b).keys = insert k m.keys := by
    ext x
    rw [Finmap.mem_keys, GoMap.mem_set, Finset.mem_insert, Finmap.mem_keys]
  rw [hkeys, Finset.card_insert_of_notMem (fun hk => h (Finmap.mem_keys.mp hk))]

theorem size_removeOldest_le (op : OrphanPool) : op.removeOldest.size ≤ op.size := by
  unfold OrphanPool.removeOldest
  split
  · exact le_rfl
  · exact card_delete_le _ _

/-- The oldest hash of the list is the hash of a block in the pool. -/
def OldestPooled (op : OrphanPool) : Prop := ∃ hashHex, op.heightList.getLast? = some hashHex ∧ hashHex ∈ op.blocks

theorem size_removeOldest_of_pooled (h : op.OldestPooled) : op.removeOldest.size + 1 = op.size := by
  obtain ⟨hashHex, hlast, hmem⟩ := h
  simp only [OrphanPool.removeOldest, hlast, OrphanPool.size, GoMap.delete, Finmap.keys_erase]
  exact Finset.card_erase_add_one (Finmap.mem_keys.mpr hmem)

theorem size_removeOldest_of_not (h : ¬op.OldestPooled) : op.removeOldest.size = op.size := by
  unfold OrphanPool.removeOldest
  split
  · rfl
  · rename_i hashHex hlast
    have hnot : hashHex ∉ op.blocks.keys := fun hmem => h ⟨hashHex, hlast, Finmap.mem_keys.mp hmem⟩
    simp only [OrphanPool.size, GoMap.delete, Finmap.keys_erase, Finset.erase_eq_of_notMem hnot]

theorem notMem_removeOldest {k : Bytes} (h : k ∉ op.blocks) : k ∉ op.removeOldest.blocks := by
  unfold OrphanPool.removeOldest
  split
  · exact h
  · exact fun hk => h (Finmap.mem_erase.mp hk).2

theorem size_addBlock {b : Block} (h : b.hashHex ∉ op.blocks) :
    (op.addBlock b).size = (if op.maxOrphans ≤ op.size then op.removeOldest else op).size + 1 := by
  unfold OrphanPool.addBlock
  rw [if_neg h]
  refine card_set _ _ _ ?_
  change b.hashHex ∉ (if op.maxOrphans ≤ op.size then op.removeOldest else op).blocks
  split
  · exact notMem_removeOldest h
  · exact h

theorem size_limitLoop_le {maxOrphans : Int64} (n : Nat) (h : op.limitLoop maxOrphans n = some op') :
    op'.size ≤ op.size ∧ op'.maxOrphans = op.maxOrphans := by
  induction n generalizing op with
  | zero =>
    unfold OrphanPool.limitLoop at h
    split at h
    · cases h
    · rw [Option.some.inj h]
      exact ⟨le_rfl, rfl⟩
  | succ n ih =>
    unfold OrphanPool.limitLoop at h
    split at h
    · obtain ⟨hsize, hmax⟩ := ih h
      refine ⟨hsize.trans (size_removeOldest_le op), hmax.trans ?_⟩
      unfold OrphanPool.removeOldest
      split
      · rfl
      · rfl
    · rw [Option.some.inj h]
      exact ⟨le_rfl, rfl⟩

theorem card_foldl_delete_le (hashes : List Bytes) (m : GoMap Bytes Block) :
    (hashes.foldl (fun blocks hashHex => blocks.delete hashHex) m).keys.card ≤ m.keys.card := by
  induction hashes generalizing m with
  | nil => exact le_rfl
  | cons k rest ih => exact (ih _).trans (card_delete_le m k)

theorem maxOrphans_addBlock (op : OrphanPool) (b : Block) : (op.addBlock b).maxOrphans = op.maxOrphans := by
  unfold OrphanPool.addBlock
  split
  · rfl
  · change (if op.blocks.keys.card ≥ op.maxOrphans then op.removeOldest else op).maxOrphans = op.maxOrphans
    split
    · unfold OrphanPool.removeOldest
      split
      · rfl
      · rfl
    · rfl

theorem Calls.maxOrphans {call : OrphanCall} (h : op.Calls call op') : op'.maxOrphans = op.maxOrphans := by
  cases h with
  | addBlock b => exact maxOrphans_addBlock op b
  | removeBlock hash => rfl
  | removeBlocksBelowHeight height hrange => rfl
  | limitSize hlimit => exact (size_limitLoop_le _ hlimit).2

end OrphanPool

open OrphanPool

/-- A call that makes room in a full pool for a new block, if it has to, by dropping a block of the pool. -/
def EvictsPooled (op : OrphanPool) (call : OrphanCall) : Prop :=
  ∀ b, call = .addBlock b → b.hashHex ∉ op.blocks → op.maxOrphans ≤ op.size → op.OldestPooled

namespace OrphanPool

theorem size_addBlock_le_iff {op : OrphanPool} {b : Block} (hbound : op.size ≤ op.maxOrphans) (hnew : b.hashHex ∉ op.blocks) :
    (op.addBlock b).size ≤ op.maxOrphans ↔ (op.maxOrphans ≤ op.size → op.OldestPooled) := by
  rw [size_addBlock hnew]
  by_cases hfull : op.maxOrphans ≤ op.size
  · rw [if_pos hfull]
    by_cases hold : op.OldestPooled
    · have hless := size_removeOldest_of_pooled hold
      simp only [hold, implies_true, iff_true]
      omega
    · have hsame := size_removeOldest_of_not hold
      simp only [hold, hfull, forall_const, iff_false]
      omega
  · rw [if_neg hfull]
    simp only [hfull, false_imp_iff, iff_true]
    omega

theorem Calls.size_le {op op' : OrphanPool} {call : OrphanCall} (h : op.Calls call op') (hbound : op.size ≤ op.maxOrphans)
    (hadd : EvictsPooled op call) : op'.size ≤ op.maxOrphans := by
  cases h with
  | addBlock b =>
    by_cases hmem : b.hashHex ∈ op.blocks
    · rw [addBlock_of_mem hmem]
      exact hbound
    · exact (size_addBlock_le_iff hbound hmem).mpr (hadd b rfl hmem)
  | removeBlock hash => exact (card_delete_le _ _).trans hbound
  | removeBlocksBelowHeight height hrange => exact (card_foldl_delete_le _ _).trans hbound
  | limitSize hlimit => exact (size_limitLoop_le _ hlimit).1.trans hbound

end OrphanPool

/-- The size stays within the limit exactly when every new block that finds the pool full finds a block of the pool as the oldest. -/
theorem orphanPool_bounded_iff (maxOrphans : Int64) (hmax : 1 ≤ maxOrphans) (calls : List OrphanCall) :
    (∀ earlier op, earlier <+: calls → Trace OrphanPool.Calls (newOrphanPool maxOrphans) earlier op →
      (op.size : Int) ≤ maxOrphans.toInt) ↔
    ∀ earlier call op op', earlier ++ [call] <+: calls → Trace OrphanPool.Calls (newOrphanPool maxOrphans) earlier op →
      op.Calls call op' → EvictsPooled op call := by
  have hpos : 1 ≤ maxOrphans.toInt := Int64.le_iff_toInt_le.mp hmax
  have hlimit : ((newOrphanPool maxOrphans).maxOrphans : Int) = maxOrphans.toInt := by
    have hnot : ¬maxOrphans ≤ 0 := by
      rw [Int64.le_iff_toInt_le]
      exact not_le.mpr hpos
    rw [newOrphanPool, if_neg hnot]
    exact Int.toNat_of_nonneg (by omega)
  refine Trace.always_iff (fun op => (op.maxOrphans : Int) = maxOrphans.toInt ∧ op.size ≤ op.maxOrphans) _ EvictsPooled
    calls ⟨hlimit, Nat.zero_le _⟩ ?_ ?_ ?_
  · rintro op ⟨hlimit, hbound⟩
    omega
  · rintro op call op' - ⟨hlimit, hbound⟩ hevicts hcall
    rw [hcall.maxOrphans]
    exact ⟨hlimit, hcall.size_le hbound hevicts⟩
  · rintro op call op' - ⟨hlimit, hbound⟩ hcall hsize b rfl hnew
    cases hcall
    exact (size_addBlock_le_iff hbound hnew).mp (by omega)

namespace Sample

def strayBlock (hash : UInt8) : Block := { height := 7, hash := some [hash] }

end Sample

open Internal.Sample

/-- Two blocks in a pool for one: the second takes the place of the first. -/
theorem orphanPool_bounded_two : (1 : Int64) ≤ 1 ∧ ∀ earlier op, earlier <+: [.addBlock (strayBlock 1), .addBlock (strayBlock 2)] →
      Trace OrphanPool.Calls (newOrphanPool 1) earlier op → (op.size : Int) ≤ 1 := by
  refine ⟨by decide, (orphanPool_bounded_iff 1 (by decide) _).mpr ?_⟩
  rintro earlier _ op op' hearlier htrace - b rfl - hfull
  match earlier with
  | [] =>
    obtain rfl := Trace.nil_iff.mp htrace
    exact absurd hfull (by decide)
  | [call] =>
    obtain ⟨rfl, -⟩ := List.cons_prefix_cons.mp hearlier
    obtain ⟨op₁, hstart, hcall⟩ := (@Trace.snoc_iff _ _ _ _ _ [] _).mp htrace
    obtain rfl := Trace.nil_iff.mp hstart
    cases hcall
    exact ⟨_, rfl, by decide⟩
  | _ :: _ :: _ => simpa using hearlier.length_le

/-- A pool for one block ends with two: the hash of the removed first block stays in the list, and it is what the third block drops. -/
theorem orphanPool_overflows : ∃ op,
    Trace OrphanPool.Calls (newOrphanPool 1) [.addBlock (strayBlock 1), .removeBlock [1], .addBlock (strayBlock 2),
      .addBlock (strayBlock 3)] op ∧ op.size = 2 := by
  have hfirst := (@Trace.start _ _ OrphanPool.Calls (newOrphanPool 1)).next (.addBlock (strayBlock 1))
  have hremoved := hfirst.next (.removeBlock [1])
  have hsecond := hremoved.next (.addBlock (strayBlock 2))
  exact ⟨_, hsecond.next (.addBlock (strayBlock 3)), by decide⟩

/-! ## What `LimitSize` leaves -/

namespace OrphanPool

variable {op op' : OrphanPool}

theorem Sound.of_blocks (h : op.Sound) {blocks : GoMap Bytes Block} (hsub : ∀ k b, blocks.lookup k = some b → op.blocks.lookup k = some b) :
    ({ op with blocks } : OrphanPool).Sound := by
  refine ⟨fun k b hb => h.keyed k b (hsub k b hb), fun k hk => ?_⟩
  obtain ⟨b, hb⟩ := Finmap.mem_iff.mp hk
  exact h.listed k (Finmap.mem_iff.mpr ⟨b, hsub k b hb⟩)

theorem lookup_of_foldl_delete {hashes : List Bytes} {m : GoMap Bytes Block} {k : Bytes} {b : Block}
    (h : (hashes.foldl (fun blocks hashHex => blocks.delete hashHex) m).lookup k = some b) : m.lookup k = some b := by
  induction hashes generalizing m with
  | nil => exact h
  | cons hashHex rest ih => exact (lookup_of_delete (ih h)).2

/-- The loop of `LimitSize` is left with a pool within the limit, in which nothing is new. By induction on the rounds. -/
theorem limitLoop_spec {maxOrphans : Int64} {n : Nat} (h : op.limitLoop maxOrphans n = some op') (hsound : op.Sound) :
    op'.Sound ∧ (op'.size : Int) ≤ maxOrphans.toInt ∧ ∀ k b, op'.blocks.lookup k = some b → op.blocks.lookup k = some b := by
  induction n generalizing op with
  | zero =>
    unfold OrphanPool.limitLoop at h
    split at h
    · cases h
    · rename_i hsmall
      cases h
      exact ⟨hsound, not_lt.mp hsmall, fun _ _ hb => hb⟩
  | succ n ih =>
    unfold OrphanPool.limitLoop at h
    split at h
    · obtain ⟨hsound', hsize, hsub⟩ := ih h hsound.removeOldest
      refine ⟨hsound', hsize, fun k b hb => ?_⟩
      have hold := hsub k b hb
      unfold OrphanPool.removeOldest at hold
      split at hold
      · exact hold
      · exact (lookup_of_delete hold).2
    · rename_i hsmall
      cases h
      exact ⟨hsound, not_lt.mp hsmall, fun _ _ hb => hb⟩

theorem sound_of_trace {maxOrphans : Int64} {calls : List OrphanCall} (h : Trace OrphanPool.Calls (newOrphanPool maxOrphans) calls op) :
    op.Sound := by
  induction h with
  | start => exact sound_new maxOrphans
  | next _ hcall ih =>
    cases hcall with
    | addBlock b => exact ih.addBlock b
    | removeBlock hash => exact ih.of_blocks fun k b hb => (lookup_of_delete hb).2
    | removeBlocksBelowHeight height hrange => exact ih.of_blocks fun k b hb => lookup_of_foldl_delete hb
    | limitSize hlimit => exact (limitLoop_spec hlimit ih).1

end OrphanPool

/-- In every pool that calls lead to, each block stands under its hash, and its hash in the list. So `LimitSize` returns for every limit
from 0 on, with at most so many blocks of the pool. -/
theorem orphanPool_limited (maxOrphans : Int64) (calls : List OrphanCall) (op : OrphanPool)
    (htrace : Trace OrphanPool.Calls (newOrphanPool maxOrphans) calls op) :
    (∀ k b, op.blocks.lookup k = some b → k = b.hashHex ∧ k ∈ op.heightList) ∧
      ∀ n : Int64, 0 ≤ n → ∃ op', op.limitSize n = some op' ∧ (op'.size : Int) ≤ n.toInt ∧
        (∀ k b, op'.blocks.lookup k = some b → op.blocks.lookup k = some b) ∧ ((op.size : Int) ≤ n.toInt → op' = op) := by
  have hsound := sound_of_trace htrace
  refine ⟨fun k b hb => ⟨hsound.keyed k b hb, hsound.listed k (Finmap.mem_iff.mpr ⟨b, hb⟩)⟩, fun n hn => ?_⟩
  obtain ⟨op', hop'⟩ := Option.ne_none_iff_exists'.mp (hsound.limitSize (Int64.le_iff_toInt_le.mp hn))
  obtain ⟨-, hsize, hsub⟩ := limitLoop_spec hop' hsound
  refine ⟨op', hop', hsize, hsub, fun hsmall => ?_⟩
  have hdone : op.limitSize n = some op := by
    unfold OrphanPool.limitSize
    cases op.heightList.length with
    | zero => exact if_neg (not_lt.mpr hsmall)
    | succ m => exact if_neg (not_lt.mpr hsmall)
  exact Option.some.inj (hop'.symm.trans hdone)

theorem orphanPool_limited_one : ∃ op', ((newOrphanPool 1).addBlock (strayBlock 1)).limitSize 0 = some op' ∧ (op'.size : Int) ≤ 0 := by
  obtain ⟨op', hop', hsize, -⟩ := (orphanPool_limited 1 _ _ ((@Trace.start _ _ OrphanPool.Calls (newOrphanPool 1)).next
    (.addBlock (strayBlock 1)))).2 0 (by decide)
  exact ⟨op', hop', hsize⟩

end NeoCoin.Internal
