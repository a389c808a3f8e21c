import Mathlib.Algebra.Order.BigOperators.Group.List
import Mathlib.Algebra.Ring.Int.Defs
import NeoCoin.Theorems.Cache
import NeoCoin.Lib.Trace

/-!
# The bytes of a cache with a limit on the size

`Set` adds the size of the value to the number of bytes before it knows whether the key is there, and only what is evicted is subtracted
(`sizeLimitedCache_balanced_iff`).
-/

namespace NeoCoin.Internal

open GoLib List

variable {K V : Type*} [DecidableEq K]

section Sizes

variable (valueSize : V → Int64)

def LRU.bytesAt (c : LRU K V) (k : K) : Int := ((c.stored k).map fun v => (valueSize v).toInt).getD 0

def LRU.storedBytes (c : LRU K V) : Int := ∑ k ∈ c.items.keys, c.bytesAt valueSize k

def entryBytes (entries : List (K × V)) : Int := (entries.map fun e => (valueSize e.2).toInt).sum

/-! ## The sizes of what the cells hold -/

variable {valueSize} {c : LRU K V} {cells as bs : List (Nat × K × V)} {x : Nat × K × V} {k : K} {v : V}

theorem LRU.Rep.stored_of_mem (h : c.Rep cells) (hx : x ∈ cells) : c.stored x.2.1 = some x.2.2 := by
  rw [LRU.stored, (h.items x.2.1 x.1).mpr ⟨x.2.2, hx⟩, Option.bind_some, h.value x hx, Option.map_some]

theorem LRU.Rep.bytesAt_of_mem (h : c.Rep cells) (hx : x ∈ cells) : c.bytesAt valueSize x.2.1 = (valueSize x.2.2).toInt := by
  rw [LRU.bytesAt, h.stored_of_mem hx, Option.map_some, Option.getD_some]

theorem LRU.Rep.storedBytes_eq (h : c.Rep cells) : c.storedBytes valueSize = entryBytes valueSize (cells.map Prod.snd) := by
  rw [LRU.storedBytes, h.keys_eq, sum_toFinset _ h.nodup_keys, entryBytes, map_map, map_map, map_map]
  refine congrArg List.sum (map_congr_left fun x hx => ?_)
  exact h.bytesAt_of_mem hx

omit [DecidableEq K] in
theorem entryBytes_perm {es es' : List (K × V)} (h : es.Perm es') : entryBytes valueSize es = entryBytes valueSize es' :=
  (h.map _).sum_eq

omit [DecidableEq K] in
theorem entryBytes_cons (e : K × V) (es : List (K × V)) :
    entryBytes valueSize (e :: es) = (valueSize e.2).toInt + entryBytes valueSize es := sum_cons

omit [DecidableEq K] in
theorem entryBytes_nonneg (hsize : ∀ v, 0 ≤ valueSize v) (es : List (K × V)) : 0 ≤ entryBytes valueSize es := by
  refine sum_nonneg fun n hn => ?_
  obtain ⟨e, -, rfl⟩ := mem_map.mp hn
  exact Int64.le_iff_toInt_le.mp (hsize e.2)

theorem LRU.bytesAt_nonneg (hsize : ∀ v, 0 ≤ valueSize v) (c : LRU K V) (k : K) : 0 ≤ c.bytesAt valueSize k := by
  unfold LRU.bytesAt
  cases c.stored k with
  | none => exact Int.le_refl 0
  | some v => exact Int64.le_iff_toInt_le.mp (hsize v)

theorem LRU.Rep.set_bytes (h : c.Rep cells) (hpos : 0 < c.maxItems) (k : K) (v : V) : ∃ evicted c' cells',
    c.set k v = some (evicted, c') ∧ c'.Rep cells' ∧ c'.maxItems = c.maxItems ∧
    entryBytes valueSize (cells'.map Prod.snd) + entryBytes valueSize evicted + c.bytesAt valueSize k =
      entryBytes valueSize (cells.map Prod.snd) + (valueSize v).toInt := by
  cases hitem : c.items.lookup k with
  | some e =>
    obtain ⟨old, as, bs, rfl⟩ := h.exists_split hitem
    obtain ⟨c', hset, hrep, hmax, -⟩ := h.set_stored v
    refine ⟨_, c', _, hset, hrep, hmax, ?_⟩
    have hbytes : c.bytesAt valueSize k = (valueSize old).toInt :=
      h.bytesAt_of_mem (mem_append_right as (.head _))
    rw [hbytes, entryBytes_perm ((@perm_middle _ (e, k, old) as bs).map Prod.snd), map_cons, map_cons, entryBytes_cons,
      entryBytes_cons, show entryBytes valueSize ([] : List (K × V)) = 0 from rfl]
    simp only
    omega
  | none =>
    obtain ⟨el, c', hset, hrep, hmax, -⟩ := h.set_new hitem hpos v
    refine ⟨_, c', _, hset, hrep, hmax, ?_⟩
    have hbytes : c.bytesAt valueSize k = 0 := by
      rw [LRU.bytesAt, LRU.stored, hitem]
      rfl
    have hparts : entryBytes valueSize ((c.room cells).map Prod.snd) + entryBytes valueSize (c.evicts cells) =
        entryBytes valueSize (cells.map Prod.snd) := by
      rw [LRU.room, LRU.evicts]
      by_cases hfull : c.maxItems ≤ cells.length
      · have hne : cells ≠ [] := by
          rintro rfl
          rw [length_nil] at hfull
          omega
        obtain ⟨init, x, rfl⟩ : ∃ init x, cells = init ++ [x] := ⟨_, _, (dropLast_append_getLast hne).symm⟩
        rw [if_pos hfull, if_pos hfull, dropLast_concat, List.getLast?_concat]
        simp [entryBytes]
      · rw [if_neg hfull, if_neg hfull]
        simp [entryBytes]
    rw [hbytes, map_cons, entryBytes_cons]
    simp only
    omega

omit [DecidableEq K] in
theorem toInt_onEvict (evicted : List (K × V)) (bytes : Int64) :
    (SizeLimitedCache.onEvict valueSize evicted bytes).toInt = (bytes.toInt - entryBytes valueSize evicted).bmod (2 ^ 64) := by
  induction evicted generalizing bytes with
  | nil => simp [SizeLimitedCache.onEvict, entryBytes]
  | cons e evicted ih =>
    rw [SizeLimitedCache.onEvict, foldl_cons]
    refine (ih _).trans ?_
    rw [entryBytes_cons, Int64.toInt_sub, Int.bmod_sub_bmod]
    congr 1
    omega

/-! ## One call -/

/-- When there is room, the key is not stored with a size. If the number of bytes overflows with the value, nothing was cleared, and what
is evicted is as much as they are above the limit. -/
def SizeLimitedCache.Balanced (valueSize : V → Int64) (c : SizeLimitedCache K V) : SizeLimitedCall K V → Prop
  | .get _ => True
  | .set key val => ∀ c₁ evicted lru, SizeLimitedCache.makeRoom (valueSize val) c = some c₁ → c₁.lru.set key val = some (evicted, lru) →
      c₁.lru.bytesAt valueSize key = 0 ∧ (2 ^ 63 ≤ c.currentBytes.toInt + (valueSize val).toInt →
        c.currentBytes.toInt + (valueSize val).toInt ≤ c.maxBytes.toInt + entryBytes valueSize evicted)

namespace SizeLimitedCache

variable {s s' s₁ : SizeLimitedCache K V} {maxBytes : Int64}

/-- The number of bytes is the sum of the sizes of what is stored, and within the limit. -/
structure Inv (valueSize : V → Int64) (maxBytes : Int64) (s : SizeLimitedCache K V) : Prop where
  rep : ∃ cells, s.lru.Rep cells
  pos : 0 < s.lru.maxItems
  limit : s.maxBytes = maxBytes
  bytes : s.currentBytes.toInt = s.lru.storedBytes valueSize
  bounded : s.currentBytes.toInt ≤ maxBytes.toInt

theorem inv_new (hmax : 0 ≤ maxBytes) : (newSizeLimitedCache maxBytes : SizeLimitedCache K V).Inv valueSize maxBytes where
  rep := ⟨[], LRU.rep_new _⟩
  pos := LRU.maxItems_new_pos _
  limit := rfl
  bytes := rfl
  bounded := Int64.le_iff_toInt_le.mp hmax

/-- After making room either everything is as it was or nothing is stored. -/
theorem Inv.makeRoom (h : s.Inv valueSize maxBytes) (hmax : 0 ≤ maxBytes) (sz : Int64) :
    ∃ s₁, SizeLimitedCache.makeRoom sz s = some s₁ ∧ s₁.Inv valueSize maxBytes := by
  rw [SizeLimitedCache.makeRoom]
  split
  · obtain ⟨cells, hrep⟩ := h.rep
    obtain ⟨hclear, hrep'⟩ := hrep.clear
    rw [hclear, Option.map_some]
    refine ⟨_, rfl, ⟨[], hrep'⟩, h.pos, h.limit, ?_, Int64.le_iff_toInt_le.mp hmax⟩
    simp only
    rw [hrep'.storedBytes_eq]
    rfl
  · exact ⟨s, rfl, h⟩

theorem Inv.currentBytes_nonneg (h : s.Inv valueSize maxBytes) (hsize : ∀ v, 0 ≤ valueSize v) : 0 ≤ s.currentBytes.toInt := by
  obtain ⟨cells, hrep⟩ := h.rep
  rw [h.bytes, hrep.storedBytes_eq]
  exact entryBytes_nonneg hsize _

theorem Inv.currentBytes_of_empty (h : s.Inv valueSize maxBytes) (hlen : ¬s.lru.len > 0) : s.currentBytes.toInt = 0 := by
  obtain ⟨cells, hrep⟩ := h.rep
  have hlength : s.lru.len = cells.length := hrep.len
  rw [h.bytes, hrep.storedBytes_eq, length_eq_zero_iff.mp (show cells.length = 0 by omega)]
  rfl

/-- Where room was made the value is within the limit, unless the sum that was compared with it overflows. -/
theorem Inv.bounded_iff (h : s.Inv valueSize maxBytes) (hmax : 0 ≤ maxBytes) (hsize : ∀ v, 0 ≤ valueSize v) (hval : valueSize v ≤ maxBytes)
    (hroom : SizeLimitedCache.makeRoom (valueSize v) s = some s₁) {e : Int} (he : 0 ≤ e) :
    s₁.currentBytes.toInt + (valueSize v).toInt ≤ maxBytes.toInt + e ↔ (2 ^ 63 ≤ s.currentBytes.toInt + (valueSize v).toInt →
      s.currentBytes.toInt + (valueSize v).toInt ≤ maxBytes.toInt + e) := by
  have hcount := h.currentBytes_nonneg hsize
  have hv : 0 ≤ (valueSize v).toInt := Int64.le_iff_toInt_le.mp (hsize v)
  have hv' : (valueSize v).toInt ≤ maxBytes.toInt := Int64.le_iff_toInt_le.mp hval
  have hmax' : 0 ≤ maxBytes.toInt := Int64.le_iff_toInt_le.mp hmax
  have hlimit := maxBytes.toInt_lt
  have hbounded := h.bounded
  have hsum : (s.currentBytes + valueSize v).toInt = if s.currentBytes.toInt + (valueSize v).toInt < 2 ^ 63
      then s.currentBytes.toInt + (valueSize v).toInt else s.currentBytes.toInt + (valueSize v).toInt - 2 ^ 64 := by
    rw [Int64.toInt_add, Int.bmod_def, Int.emod_eq_of_lt (by omega) (by omega)]
    rfl
  rw [SizeLimitedCache.makeRoom, h.limit] at hroom
  split at hroom
  · rename_i hclears
    have hover := Int64.lt_iff_toInt_lt.mp hclears.1
    obtain ⟨r, -, rfl⟩ := Option.map_eq_some_iff.mp hroom
    rw [show (0 : Int64).toInt = 0 from rfl]
    omega
  · rename_i hkeeps
    cases hroom
    by_cases hempty : s.lru.len > 0
    · have hfits := mt Int64.lt_iff_toInt_lt.mpr fun h => hkeeps ⟨h, hempty⟩
      omega
    · have := h.currentBytes_of_empty hempty
      omega

/-- `Set` counts right exactly when nothing with a size is overwritten and the sum is within the limit. -/
theorem Inv.set (h : s.Inv valueSize maxBytes) (hmax : 0 ≤ maxBytes) (hsize : ∀ v, 0 ≤ valueSize v) (hval : valueSize v ≤ maxBytes)
    (hset : s.set valueSize k v = some s') :
    ((s'.currentBytes.toInt = s'.lru.storedBytes valueSize ∧ s'.currentBytes.toInt ≤ maxBytes.toInt) ↔ s.Balanced valueSize (.set k v)) ∧
      (∃ cells, s'.lru.Rep cells) ∧ 0 < s'.lru.maxItems ∧ s'.maxBytes = maxBytes := by
  obtain ⟨s₁, hroom, h₁⟩ := h.makeRoom hmax (valueSize v)
  obtain ⟨cells, hrep⟩ := h₁.rep
  obtain ⟨evicted, lru, cells', hlru, hrep', hmaxItems, hbytes⟩ := @LRU.Rep.set_bytes _ _ _ valueSize _ _ hrep h₁.pos k v
  rw [← hrep.storedBytes_eq, ← hrep'.storedBytes_eq, ← h₁.bytes] at hbytes
  simp only [SizeLimitedCache.set, hroom, hlru, Option.map_some, Option.some.injEq] at hset
  subst hset
  refine ⟨?_, ⟨cells', hrep'⟩, hmaxItems.symm ▸ h₁.pos, h₁.limit⟩
  have hevicted := entryBytes_nonneg hsize evicted
  have hbalanced : s.Balanced valueSize (.set k v) ↔ s₁.lru.bytesAt valueSize k = 0 ∧
      s₁.currentBytes.toInt + (valueSize v).toInt ≤ maxBytes.toInt + entryBytes valueSize evicted := by
    rw [h.bounded_iff hmax hsize hval hroom hevicted, ← h.limit]
    constructor
    · exact fun hall => hall s₁ evicted lru hroom hlru
    · rintro hboth s₂ evicted₂ lru₂ hroom₂ hlru₂
      cases hroom.symm.trans hroom₂
      cases hlru.symm.trans hlru₂
      exact hboth
  rw [hbalanced, toInt_onEvict, Int64.toInt_add, Int.bmod_sub_bmod]
  -- all of these are sums of sizes
  have hstored : 0 ≤ lru.storedBytes valueSize := by
    rw [hrep'.storedBytes_eq]
    exact entryBytes_nonneg hsize _
  have hat : 0 ≤ s₁.lru.bytesAt valueSize k := s₁.lru.bytesAt_nonneg hsize k
  have hv : 0 ≤ (valueSize v).toInt := Int64.le_iff_toInt_le.mp (hsize v)
  have hv' : (valueSize v).toInt ≤ maxBytes.toInt := Int64.le_iff_toInt_le.mp hval
  have hlimit := maxBytes.toInt_lt
  have hcount := h₁.bounded
  simp only
  generalize hx : s₁.currentBytes.toInt + (valueSize v).toInt - entryBytes valueSize evicted = x
  have hmod : x.bmod (2 ^ 64) = if x < 2 ^ 63 then x else x - 2 ^ 64 := by
    rw [Int.bmod_def, Int.emod_eq_of_lt (by omega) (by omega)]
    rfl
  rw [hmod]
  split
  · omega
  · omega

/-- `Get` changes neither the count nor what is stored. -/
theorem Inv.get (h : s.Inv valueSize maxBytes) (hget : s.call valueSize (.get k) = some s') : s'.Inv valueSize maxBytes := by
  obtain ⟨cells, hrep⟩ := h.rep
  cases hitem : s.lru.items.lookup k with
  | some e =>
    obtain ⟨v, as, bs, rfl⟩ := hrep.exists_split hitem
    obtain ⟨lru, hlru, hrep', hmax⟩ := hrep.get_stored
    simp only [SizeLimitedCache.call, SizeLimitedCache.get, hlru, Option.map_some, Option.some.injEq] at hget
    subst hget
    refine ⟨⟨_, hrep'⟩, hmax.symm ▸ h.pos, h.limit, ?_, h.bounded⟩
    simp only
    rw [h.bytes, hrep.storedBytes_eq, hrep'.storedBytes_eq]
    exact entryBytes_perm (perm_middle.map Prod.snd)
  | none =>
    simp only [SizeLimitedCache.call, SizeLimitedCache.get, LRU.get_missing hitem, Option.map_some, Option.some.injEq] at hget
    subst hget
    exact h

end SizeLimitedCache

end Sizes

/-- Through calls with values within the limit the number of bytes is the sum of the sizes of what is stored, exactly when every `Set`
finds what it has to. -/
theorem sizeLimitedCache_balanced_iff (maxBytes : Int64) (hmax : 0 ≤ maxBytes) (valueSize : V → Int64) (hsize : ∀ v, 0 ≤ valueSize v)
    (calls : List (SizeLimitedCall K V)) (hcalls : ∀ key val, .set key val ∈ calls → valueSize val ≤ maxBytes) :
    (∀ earlier c, earlier <+: calls →
      Trace (fun c call c' => SizeLimitedCache.call valueSize c call = some c') (newSizeLimitedCache maxBytes) earlier c →
        c.bytesUsed.toInt = c.lru.storedBytes valueSize ∧ c.bytesUsed.toInt ≤ maxBytes.toInt) ↔
    ∀ earlier call c c', earlier ++ [call] <+: calls →
      Trace (fun c call c' => SizeLimitedCache.call valueSize c call = some c') (newSizeLimitedCache maxBytes) earlier c →
        c.call valueSize call = some c' → c.Balanced valueSize call := by
  refine Trace.always_iff (SizeLimitedCache.Inv valueSize maxBytes) _ (SizeLimitedCache.Balanced valueSize) calls
    (SizeLimitedCache.inv_new hmax) ?_ ?_ ?_
  · exact fun h => ⟨h.bytes, h.bounded⟩
  · intro c call c' hmem h hbalanced hcall
    cases call with
    | get k => exact h.get hcall
    | set k v =>
      obtain ⟨hiff, hrep, hpos, hlimit⟩ := h.set hmax hsize (hcalls k v hmem) hcall
      obtain ⟨hbytes, hbounded⟩ := hiff.mpr hbalanced
      exact ⟨hrep, hpos, hlimit, hbytes, hbounded⟩
  · intro c call c' hmem h hcall hboth
    cases call with
    | get k => trivial
    | set k v => exact (h.set hmax hsize (hcalls k v hmem) hcall).1.mp hboth

/-- Two keys, each set once. -/
theorem sizeLimitedCache_balanced_two : (0 : Int64) ≤ 100 ∧ ∀ earlier (c : SizeLimitedCache Nat Unit), earlier <+: [.set 1 (), .set 2 ()] →
      Trace (fun c call c' => SizeLimitedCache.call (fun _ => 10) c call = some c') (newSizeLimitedCache 100) earlier c →
        c.bytesUsed.toInt = c.lru.storedBytes (fun _ => 10) ∧ c.bytesUsed.toInt ≤ (100 : Int64).toInt := by
  refine ⟨by decide, (sizeLimitedCache_balanced_iff 100 (by decide) _ (fun _ => by decide) _ fun _ _ _ => by decide).mpr ?_⟩
  rintro earlier call c c' hearlier htrace -
  match earlier with
  | [] =>
    obtain rfl := Trace.nil_iff.mp htrace
    obtain ⟨rfl, -⟩ := cons_prefix_cons.mp hearlier
    rintro _ _ _ ⟨⟩ ⟨⟩
    exact ⟨by decide, by decide⟩
  | [call₁] =>
    obtain ⟨rfl, hrest⟩ := cons_prefix_cons.mp hearlier
    obtain ⟨rfl, -⟩ := cons_prefix_cons.mp hrest
    obtain ⟨c₀, hc₀, hcall⟩ := (@Trace.snoc_iff _ _ _ _ _ [] _).mp htrace
    obtain rfl := Trace.nil_iff.mp hc₀
    cases hcall
    rintro _ _ _ ⟨⟩ ⟨⟩
    exact ⟨by decide, by decide⟩
  | call₁ :: call₂ :: earlier =>
    have hlen := hearlier.length_le
    simp at hlen

/-- A key that is set twice is counted twice. -/
theorem sizeLimitedCache_counts_twice : ∃ c : SizeLimitedCache Nat Unit,
    Trace (fun c call c' => SizeLimitedCache.call (fun _ => 10) c call = some c') (newSizeLimitedCache 100) [.set 1 (), .set 1 ()] c ∧
      c.bytesUsed.toInt = 20 ∧ c.lru.storedBytes (fun _ => 10) = 10 := by
  exact ⟨_, (Trace.start.next rfl).next rfl, by decide, by decide⟩

end NeoCoin.Internal
