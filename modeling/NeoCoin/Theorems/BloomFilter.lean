import NeoCoin.Internal.LightClient
import NeoCoin.Theorems.Value
import Mathlib.Data.List.GetD

/-!
# The filter has no false negatives

`Add` and `Contains` reduce a hash by the number of bits of the filter and use it as the number of a byte, which may be beyond the bytes.
-/

namespace NeoCoin.Internal

open GoLib List

namespace BloomFilter

variable {f g : BloomFilter} {elem : Bytes} {nums : List UInt32} {i : UInt32} {place : Nat}

/-- Two filters with the same places for every element. -/
structure SameShape (f g : BloomFilter) : Prop where
  length : g.data.length = f.data.length
  hashFuncs : g.hashFuncs = f.hashFuncs
  tweak : g.tweak = f.tweak

theorem SameShape.refl (f : BloomFilter) : SameShape f f := ⟨rfl, rfl, rfl⟩

theorem SameShape.trans {h : BloomFilter} (hfg : SameShape f g) (hgh : SameShape g h) : SameShape f h :=
  ⟨hgh.length.trans hfg.length, hgh.hashFuncs.trans hfg.hashFuncs, hgh.tweak.trans hfg.tweak⟩

theorem SameShape.slot (h : SameShape f g) (elem : Bytes) (i : UInt32) : g.slot elem i = f.slot elem i := by
  have hsip : g.sipHash elem i = f.sipHash elem i := by rw [sipHash, h.tweak, sipHash]
  rw [BloomFilter.slot, h.length, hsip, BloomFilter.slot]

theorem SameShape.hashes (h : SameShape f g) : g.hashes = f.hashes := by
  rw [BloomFilter.hashes, h.hashFuncs, BloomFilter.hashes]

theorem lt_of_slot (h : f.slot elem i = some place) : place < f.data.length := by
  unfold slot slotOf at h
  simp only at h
  split at h
  · cases h
  · split at h
    · rename_i hlt
      rw [← Option.some.inj h]
      exact hlt
    · cases h

def IsSet (f : BloomFilter) (place : Nat) : Prop := f.data.getD place 0 ≠ 0

theorem isSet_set_self (h : place < f.data.length) : IsSet { f with data := f.data.set place 1 } place := by
  simp [IsSet, getD_eq_getElem?_getD, h]

theorem IsSet.set {other : Nat} (h : IsSet f place) : IsSet { f with data := f.data.set other 1 } place := by
  unfold IsSet at h ⊢
  simp only [getD_eq_getElem?_getD, List.getElem?_set] at h ⊢
  split
  · split
    · simp
    · rename_i heq hout
      rw [List.getElem?_eq_none (by omega)] at h
      exact absurd rfl h
  · exact h

/-! ## The loops -/

/-- What adding leaves: the places of the element are set, and so is what was set before. -/
structure Added (f : BloomFilter) (elem : Bytes) (nums : List UInt32) (g : BloomFilter) : Prop where
  shape : SameShape f g
  kept : ∀ place, IsSet f place → IsSet g place
  set : ∀ i ∈ nums, ∀ place, f.slot elem i = some place → IsSet g place

/-- By induction on the hashes. -/
theorem added_of_addLoop (h : addLoop elem nums f = some g) : Added f elem nums g := by
  induction nums generalizing f with
  | nil =>
    cases h
    exact ⟨.refl _, fun _ hset => hset, fun _ hi => absurd hi not_mem_nil⟩
  | cons i rest ih =>
    unfold addLoop at h
    split at h
    · cases h
    · rename_i place hslot
      have hone : SameShape f { f with data := f.data.set place 1 } := ⟨length_set, rfl, rfl⟩
      obtain ⟨hshape, hkept, hset⟩ := ih h
      refine ⟨hone.trans hshape, fun p hp => hkept p hp.set, ?_⟩
      intro j hj p hp
      rcases mem_cons.mp hj with rfl | hj
      · cases hslot.symm.trans hp
        exact hkept _ (isSet_set_self (lt_of_slot hp))
      · exact hset j hj p ((hone.slot elem j).trans hp)

theorem addLoop_isSome_iff : (addLoop elem nums f).isSome ↔ ∀ i ∈ nums, (f.slot elem i).isSome := by
  induction nums generalizing f with
  | nil => simp [addLoop]
  | cons i rest ih =>
    rw [forall_mem_cons]
    unfold addLoop
    split
    · rename_i hslot
      simp [hslot]
    · rename_i place hslot
      have hone : SameShape f { f with data := f.data.set place 1 } := ⟨length_set, rfl, rfl⟩
      rw [ih, hslot]
      simp only [hone.slot, Option.isSome_some, true_and]

theorem containsLoop_eq_true (h : ∀ i ∈ nums, ∃ place, f.slot elem i = some place ∧ IsSet f place) :
    f.containsLoop elem nums = some true := by
  induction nums with
  | nil => rfl
  | cons i rest ih =>
    obtain ⟨⟨place, hslot, hset⟩, hrest⟩ := forall_mem_cons.mp h
    unfold containsLoop
    rw [hslot]
    simp only
    rw [if_neg hset, ih hrest]

/-! ## Runs -/

def Fits (f : BloomFilter) (elem : Bytes) : Prop := ∀ i ∈ f.hashes, (f.slot elem i).isSome

theorem SameShape.fits (h : SameShape f g) (elem : Bytes) : Fits g elem ↔ Fits f elem := by
  simp only [Fits, h.hashes, h.slot]

structure AddedAll (f : BloomFilter) (elems : List Bytes) (g : BloomFilter) : Prop where
  shape : SameShape f g
  kept : ∀ place, IsSet f place → IsSet g place
  set : ∀ elem ∈ elems, ∀ i ∈ f.hashes, ∀ place, f.slot elem i = some place → IsSet g place

theorem addedAll_of_addAll {elems : List Bytes} (h : f.addAll elems = some g) : AddedAll f elems g := by
  induction elems generalizing f with
  | nil =>
    cases h
    exact ⟨.refl _, fun _ hset => hset, fun _ hmem => absurd hmem not_mem_nil⟩
  | cons elem rest ih =>
    unfold addAll at h
    split at h
    · cases h
    · rename_i f₁ hadd
      have hone := added_of_addLoop hadd
      have hall := ih h
      refine ⟨hone.shape.trans hall.shape, fun p hp => hall.kept p (hone.kept p hp), ?_⟩
      intro e he i hi p hp
      rcases mem_cons.mp he with rfl | he
      · exact hall.kept p (hone.set i hi p hp)
      · exact hall.set e he i (by rw [hone.shape.hashes]; exact hi) p ((hone.shape.slot e i).trans hp)

theorem addAll_isSome_iff {elems : List Bytes} : (f.addAll elems).isSome ↔ ∀ elem ∈ elems, Fits f elem := by
  induction elems generalizing f with
  | nil => simp [addAll]
  | cons elem rest ih =>
    have hadd : (f.add elem).isSome ↔ Fits f elem := addLoop_isSome_iff
    rw [forall_mem_cons, ← hadd]
    unfold addAll
    split
    · rename_i hnone
      simp [hnone]
    · rename_i f₁ hsome
      have hshape := (added_of_addLoop hsome).shape
      rw [ih, hsome]
      simp only [hshape.fits, Option.isSome_some, true_and]

theorem mem_hashes_iff : i ∈ f.hashes ↔ i < f.hashFuncs := by
  unfold hashes
  rw [mem_map]
  constructor
  · rintro ⟨n, hn, rfl⟩
    rw [mem_range] at hn
    have hlt := f.hashFuncs.toNat_lt
    rw [UInt32.lt_iff_toNat_lt, UInt32.toNat_ofNat_of_lt' (hn.trans hlt)]
    exact hn
  · intro h
    exact ⟨i.toNat, mem_range.mpr (UInt32.lt_iff_toNat_lt.mp h), UInt32.ofNat_toNat⟩

theorem slot_new_isSome_iff (size hashFuncs tweak : UInt32) : ((newBloomFilter size hashFuncs tweak).slot elem i).isSome ↔
      size * 8 ≠ 0 ∧ (newBloomFilter size hashFuncs tweak).sipHash elem i % (size * 8) < size := by
  have hbits : UInt32.ofNat ((newBloomFilter size hashFuncs tweak).data.length * 8) = size * 8 := by
    rw [newBloomFilter, length_replicate, UInt32.ofNat_mul, UInt32.ofNat_toNat]
    rfl
  have hlength : (newBloomFilter size hashFuncs tweak).data.length = size.toNat := length_replicate
  rw [slot, slotOf, hbits, hlength, UInt32.lt_iff_toNat_lt]
  by_cases hzero : size * 8 = 0
  · simp [hzero]
  · rw [if_neg hzero, and_iff_right hzero, Option.isSome_ite]

end BloomFilter

/-- Adding does not panic and the filter contains what was added, exactly when every hash of it, reduced by the number of bits, is below
the number of bytes. -/
theorem bloomFilter_complete_iff (size hashFuncs tweak : UInt32) (elems : List Bytes) :
    (∃ f, (newBloomFilter size hashFuncs tweak).addAll elems = some f ∧ ∀ elem ∈ elems, f.contains elem = some true) ↔
      ∀ elem ∈ elems, ∀ i < hashFuncs,
        size * 8 ≠ 0 ∧ (newBloomFilter size hashFuncs tweak).sipHash elem i % (size * 8) < size := by
  have hfits : (∀ elem ∈ elems, (newBloomFilter size hashFuncs tweak).Fits elem) ↔ ∀ elem ∈ elems, ∀ i < hashFuncs,
      size * 8 ≠ 0 ∧ (newBloomFilter size hashFuncs tweak).sipHash elem i % (size * 8) < size := by
    simp only [BloomFilter.Fits, BloomFilter.mem_hashes_iff, BloomFilter.slot_new_isSome_iff]
    rfl
  rw [← hfits, ← BloomFilter.addAll_isSome_iff]
  constructor
  · rintro ⟨f, hadd, -⟩
    rw [hadd]
    rfl
  · intro hsome
    obtain ⟨f, hadd⟩ := Option.isSome_iff_exists.mp hsome
    have hall := BloomFilter.addedAll_of_addAll hadd
    refine ⟨f, hadd, fun elem helem => BloomFilter.containsLoop_eq_true ?_⟩
    intro i hi
    rw [hall.shape.hashes] at hi
    obtain ⟨place, hslot⟩ := Option.isSome_iff_exists.mp (BloomFilter.addAll_isSome_iff.mp hsome elem helem i hi)
    exact ⟨place, (hall.shape.slot elem i).trans hslot, hall.set elem helem i hi place hslot⟩

/-- The address of the miner panics in the filter a light client starts with. -/
theorem bloomFilter_add_panics : (newBloomFilter 30000 5 0).add NeoCoin.Sample.minerAddress = none := by
  rw [← Option.not_isSome_iff_eq_none]
  intro hsome
  have hplace := BloomFilter.addLoop_isSome_iff.mp hsome 0 (BloomFilter.mem_hashes_iff.mpr (by decide))
  rw [BloomFilter.slot_new_isSome_iff] at hplace
  revert hplace
  decide +kernel

end NeoCoin.Internal
