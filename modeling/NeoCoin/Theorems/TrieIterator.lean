import NeoCoin.Theorems.TrieMap

/-!
# Iterating over the trie

`Iterator` of `internal/trie/trie.go` sorts the keys and leaves the values in the order in which the nodes are visited. The two orders are
one but for a key at a branch: it is visited after the longer keys below it, and sorted in front of them.
-/

namespace NeoCoin.Internal.Trie

open GoLib

/-- `p` is visited before `q`: it is smaller where the two first differ, or `q` is the start of it. -/
def Before (p q : Bytes) : Prop := (∃ common a b p' q', p = common ++ a :: p' ∧ q = common ++ b :: q' ∧ a < b) ∨ q <+: p

section

variable {p q k k' : Bytes} {C : Crypto} {t : Trie} {m : GoMap Bytes Bytes}

theorem Before.append (h : Before p q) (front : Bytes) : Before (front ++ p) (front ++ q) := by
  rcases h with ⟨common, a, b, p', q', rfl, rfl, hlt⟩ | hpre
  · exact .inl ⟨front ++ common, a, b, p', q', (List.append_assoc _ _ _).symm, (List.append_assoc _ _ _).symm, hlt⟩
  · exact .inr ((List.prefix_append_right_inj front).mpr hpre)

theorem Node.pairwise_paths (n : Node) : n.paths.Pairwise Before := by
  induction n with
  | nil => exact .nil
  | mk type keyPath value children hash ih =>
    cases type with
    | leaf => exact List.pairwise_singleton _ _
    | extension => exact List.Pairwise.map _ (fun p q h => h.append keyPath) (ih 0)
    | branch =>
      refine List.pairwise_append.mpr ⟨List.pairwise_flatMap.mpr ⟨?_, ?_⟩, by split <;> simp, ?_⟩
      · exact fun i _ => List.Pairwise.map _ (fun p q h => h.append [UInt8.ofNat i]) (ih i)
      · refine (List.pairwise_lt_finRange 16).imp fun {i j} hij p hp q hq => ?_
        obtain ⟨p, -, rfl⟩ := List.mem_map.mp hp
        obtain ⟨q, -, rfl⟩ := List.mem_map.mp hq
        have hdigits : ∀ i j : Fin 16, i < j → UInt8.ofNat i < UInt8.ofNat j := by decide
        exact .inl ⟨[], _, _, p, q, rfl, rfl, hdigits i j hij⟩
      · intro p _ q hq
        split at hq
        · cases hq
        · rw [List.mem_singleton.mp hq]
          exact .inr List.nil_prefix

theorem map_hexDigit_decodeKey (h : HexKey k) : (decodeKey k).map hexDigit = k := by
  obtain ⟨b, rfl⟩ := exists_hexEncode h
  have hdigits : ∀ b : Bytes, (b.flatMap fun (x : UInt8) => [x >>> 4, x &&& 0x0F]).map hexDigit = hexEncode b := by
    intro b
    induction b with
    | nil => rfl
    | cons x b ih =>
      rw [List.flatMap_cons, List.map_append, ih]
      rfl
  simp only [decodeKey, hexDecode_hexEncode, hdigits]

theorem Before.keys (hk : HexKey k) (hk' : HexKey k') (h : Before (decodeKey k) (decodeKey k')) : Before k k' := by
  rw [← map_hexDigit_decodeKey hk, ← map_hexDigit_decodeKey hk']
  rcases h with ⟨common, a, b, p', q', hp, hq, hlt⟩ | hpre
  · have hdigits : ∀ i j : Fin 16, UInt8.ofNat i < UInt8.ofNat j → hexDigit (UInt8.ofNat i) < hexDigit (UInt8.ofNat j) := by decide
    have ha := nibbles_decodeKey k a (by simp [hp])
    have hb := nibbles_decodeKey k' b (by simp [hq])
    have hlt := hdigits ⟨a.toNat, ha⟩ ⟨b.toNat, hb⟩ (by simpa using hlt)
    refine .inl ⟨common.map hexDigit, hexDigit a, hexDigit b, p'.map hexDigit, q'.map hexDigit, ?_, ?_, by simpa using hlt⟩
    · simp [hp]
    · simp [hq]
  · exact .inr (hpre.map hexDigit)

theorem Before.eq_of_start (h : Before p q) (hpre : p <+: q) : p = q := by
  rcases h with ⟨common, a, b, p', q', rfl, rfl, hlt⟩ | h
  · have hab : a = b := (List.cons_prefix_cons.mp ((List.prefix_append_right_inj common).mp hpre)).1
    exact absurd hlt (by simp [hab])
  · exact hpre.eq_of_length (hpre.length_le.antisymm h.length_le)

theorem Before.lt (h : Before p q) (hpre : ¬q <+: p) : p < q := by
  rcases h with ⟨common, a, b, p', q', rfl, rfl, hlt⟩ | h
  · exact List.append_left_lt (List.cons_lt_cons_iff.mpr (.inl hlt))
  · exact absurd h hpre

theorem Holds.key_of_path (h : Holds t m) (hp : p ∈ t.root.paths) :
    ∃ v, m.lookup (encodeKey p) = some v ∧ t.root.content p = some v ∧ HexKey (encodeKey p) ∧ decodeKey (encodeKey p) = p := by
  obtain ⟨key, hkey, rfl⟩ := h.stored p ((Node.mem_paths h.sound).mp hp)
  have hhex := h.keys key hkey
  obtain ⟨v, hv⟩ := Finmap.mem_iff.mp hkey
  rw [encodeKey_decodeKey hhex]
  exact ⟨v, hv, (h.lookup key hhex).trans hv, hhex, rfl⟩

theorem Holds.mem_iterate (h : Holds t m) {v : GoSlice} :
    (k, v) ∈ t.root.iterate [] ↔ ∃ value, v = some value ∧ m.lookup k = some value := by
  rw [Node.iterate_eq, List.mem_map]
  constructor
  · rintro ⟨path, hpath, heq⟩
    obtain ⟨value, hlookup, hcontent, -⟩ := h.key_of_path hpath
    cases heq
    exact ⟨value, hcontent, hlookup⟩
  · rintro ⟨value, rfl, hlookup⟩
    have hkey := Finmap.mem_of_lookup_eq_some hlookup
    have hhex := h.keys k hkey
    refine ⟨decodeKey k, (Node.mem_paths h.sound).mpr (h.stored_iff.mpr ⟨k, hkey, rfl⟩), ?_⟩
    rw [List.nil_append, encodeKey_decodeKey hhex, h.lookup k hhex, hlookup]

theorem Holds.pairwise_iterate (h : Holds t m) : ((t.root.iterate []).map Prod.fst).Pairwise fun k k' => Before k k' ∧ k ≠ k' := by
  rw [Node.iterate_eq, List.map_map, List.pairwise_map]
  refine ((Node.pairwise_paths t.root).and (Node.nodup_paths t.root)).imp_of_mem fun {p q} hp hq hpq => ?_
  obtain ⟨-, -, -, hhex, hdecode⟩ := h.key_of_path hp
  obtain ⟨-, -, -, hhex', hdecode'⟩ := h.key_of_path hq
  refine ⟨Before.keys hhex hhex' ?_, fun heq => hpq.2 ?_⟩
  · show Before (decodeKey (encodeKey p)) (decodeKey (encodeKey q))
    rw [hdecode, hdecode']
    exact hpq.1
  · rw [← hdecode, ← hdecode']
    exact congrArg decodeKey heq

end

/-- Pairs in the order of their keys, which are exactly those of a map. -/
structure Exact (pairs : List (Bytes × GoSlice)) (m : GoMap Bytes Bytes) : Prop where
  ascending : (pairs.map Prod.fst).Pairwise (· < ·)
  pairs : ∀ key v, (key, v) ∈ pairs ↔ ∃ value, v = some value ∧ m.lookup key = some value

def putAll (puts : List (Bytes × Bytes)) : List Call := puts.map fun e => .put e.1 (some e.2)

section

variable {k k' : Bytes} {C : Crypto} {t : Trie} {m : GoMap Bytes Bytes}

theorem Holds.exact_of_apart (h : Holds t m) (hapart : ∀ k ∈ m, ∀ k' ∈ m, k <+: k' → k = k') : Exact t.iterator m := by
  have hmem : ∀ k ∈ (t.root.iterate []).map Prod.fst, k ∈ m := by
    intro k hk
    obtain ⟨⟨k, v⟩, he, rfl⟩ := List.mem_map.mp hk
    obtain ⟨value, -, hlookup⟩ := h.mem_iterate.mp he
    exact Finmap.mem_of_lookup_eq_some hlookup
  have hlt : ((t.root.iterate []).map Prod.fst).Pairwise (· < ·) :=
    h.pairwise_iterate.imp_of_mem fun hk hk' hbefore => hbefore.1.lt fun hpre => hbefore.2 (hapart _ (hmem _ hk') _ (hmem _ hk) hpre).symm
  have hsorted : t.iterator = t.root.iterate [] := by
    rw [iterator, (hlt.imp List.le_of_lt).insertionSort_eq, ← List.unzip_fst, ← List.unzip_snd, List.zip_unzip]
  rw [hsorted]
  exact ⟨hlt, fun key v => h.mem_iterate⟩

theorem Holds.apart_of_exact (h : Holds t m) (hself : ∀ key value, m.lookup key = some value → value = key) (hexact : Exact t.iterator m) :
    ∀ k ∈ m, ∀ k' ∈ m, k <+: k' → k = k' := by
  -- every value is its key, so the sorted keys are those of the values: the keys as they were visited
  have hvalues : (t.root.iterate []).map Prod.snd = ((t.root.iterate []).map Prod.fst).map some := by
    rw [List.map_map]
    refine List.map_congr_left fun e he => ?_
    obtain ⟨value, hvalue, hlookup⟩ := h.mem_iterate.mp he
    rw [hvalue, hself _ _ hlookup]
    rfl
  have hsorted : ((t.root.iterate []).map Prod.fst).insertionSort (· ≤ ·) = (t.root.iterate []).map Prod.fst := by
    refine List.ext_getElem (List.length_insertionSort _ _) fun i hi hi' => ?_
    have hmem : ((((t.root.iterate []).map Prod.fst).insertionSort (· ≤ ·))[i],
        some ((t.root.iterate []).map Prod.fst)[i]) ∈ t.iterator := by
      refine List.mem_iff_getElem.mpr ⟨i, ?_, ?_⟩
      · simpa [iterator] using hi'
      · simp [iterator, hvalues]
    obtain ⟨value, hvalue, hlookup⟩ := (hexact.pairs _ _).mp hmem
    rw [← hself _ _ hlookup]
    exact (Option.some.inj hvalue).symm
  have hle := hsorted ▸ List.pairwise_insertionSort (· ≤ ·) ((t.root.iterate []).map Prod.fst)
  have hmem : ∀ k ∈ m, k ∈ (t.root.iterate []).map Prod.fst := by
    intro k hk
    obtain ⟨value, hlookup⟩ := Finmap.mem_iff.mp hk
    exact List.mem_map.mpr ⟨(k, some value), h.mem_iterate.mpr ⟨value, rfl, hlookup⟩, rfl⟩
  intro k hk k' hk' hpre
  obtain ⟨i, hi, rfl⟩ := List.getElem_of_mem (hmem k hk)
  obtain ⟨j, hj, rfl⟩ := List.getElem_of_mem (hmem k' hk')
  rcases Nat.lt_trichotomy i j with hij | rfl | hij
  · exact (List.pairwise_iff_getElem.mp h.pairwise_iterate i j hi hj hij).1.eq_of_start hpre
  · rfl
  · exact List.le_antisymm hpre.le (List.pairwise_iff_getElem.mp hle j i hj hi hij)

theorem mem_apply_putAll {puts : List (Bytes × Bytes)} : k ∈ apply m (putAll puts) ↔ k ∈ m ∨ k ∈ puts.map Prod.fst := by
  induction puts generalizing m with
  | nil => simp [putAll, apply]
  | cons e puts ih =>
    show k ∈ apply (m.set e.1 e.2) (putAll puts) ↔ _
    rw [ih, GoMap.mem_set, List.map_cons, List.mem_cons]
    tauto

theorem lookup_putAll_self {keys : List Bytes} (hself : ∀ key value, m.lookup key = some value → value = key) {key value : Bytes}
    (h : (apply m (putAll (keys.map fun k => (k, k)))).lookup key = some value) : value = key := by
  induction keys generalizing m with
  | nil => exact hself key value h
  | cons k keys ih =>
    refine ih (m := m.set k k) (fun key value hlookup => ?_) h
    rw [GoMap.lookup_set] at hlookup
    split at hlookup
    · cases hlookup
      symm
      assumption
    · exact hself key value hlookup

theorem holds_putAll (h : Holds t m) {puts : List (Bytes × Bytes)} (hkeys : ∀ k ∈ puts.map Prod.fst, HexKey k) :
    ∃ t', run C t (putAll puts) = some t' ∧ Holds t' (apply m (putAll puts)) := by
  induction puts generalizing t m with
  | nil => exact ⟨t, rfl, h⟩
  | cons e puts ih =>
    obtain ⟨t₁, hput, h₁⟩ := h.put (C := C) (hkeys e.1 (.head _)) e.2
    obtain ⟨t₂, hrun, h₂⟩ := ih h₁ fun k hk => hkeys k (.tail _ hk)
    exact ⟨t₂, (congrArg (Option.bind · fun t => run C t (putAll puts)) hput).trans hrun, h₂⟩

end

/-- Whatever values are put under these keys, in this order, the iterator gives exactly the last values in the order of the keys if and
only if no key is the start of another one. -/
theorem iterator_exact_iff (C : Crypto) (keys : List Bytes) (hkeys : ∀ k ∈ keys, HexKey k) :
    (∀ puts : List (Bytes × Bytes), puts.map Prod.fst = keys →
      ∃ t, run C {} (putAll puts) = some t ∧ Exact t.iterator (apply ∅ (putAll puts))) ↔
    ∀ k ∈ keys, ∀ k' ∈ keys, k <+: k' → k = k' := by
  constructor
  · intro h k hk k' hk'
    have hfst : (keys.map fun k => (k, k)).map Prod.fst = keys := by simp [Function.comp_def]
    obtain ⟨t, hrun, hexact⟩ := h _ hfst
    obtain ⟨t', hrun', hholds⟩ := holds_putAll (C := C) holds_empty (hfst.symm ▸ hkeys)
    cases hrun.symm.trans hrun'
    have hmem : ∀ k ∈ keys, k ∈ apply ∅ (putAll (keys.map fun k => (k, k))) := fun k hk => mem_apply_putAll.mpr (.inr (hfst.symm ▸ hk))
    exact hholds.apart_of_exact (fun key value => lookup_putAll_self (by simp)) hexact k (hmem k hk) k' (hmem k' hk')
  · rintro hapart puts rfl
    obtain ⟨t, hrun, hholds⟩ := holds_putAll holds_empty hkeys
    have hmem : ∀ k ∈ apply ∅ (putAll puts), k ∈ puts.map Prod.fst := fun k hk => (mem_apply_putAll.mp hk).resolve_left Finmap.notMem_empty
    exact ⟨t, hrun, hholds.exact_of_apart fun k hk k' hk' => hapart k (hmem k hk) k' (hmem k' hk')⟩

theorem iterator_exact_two : ∃ t, run (goCrypto []) {} (putAll [(str "ab", str "1"), (str "cd", str "2")]) = some t ∧
    Exact t.iterator (apply ∅ (putAll [(str "ab", str "1"), (str "cd", str "2")])) :=
  (iterator_exact_iff (goCrypto []) [str "ab", str "cd"] (by decide +kernel)).mpr (by decide +kernel) _ rfl

/-- The key at a branch and the one below it change their values. -/
theorem iterator_swaps : (run (goCrypto []) {} (putAll [(str "ab", str "1"), (str "abcd", str "2")])).map iterator =
    some [(str "ab", some (str "2")), (str "abcd", some (str "1"))] := by
  decide

end NeoCoin.Internal.Trie
