import NeoCoin.Theorems.TrieMap

/-!
# The root of the trie as a commitment

`rehash` hashes the node it is called with, and of the children only that of an extension. A leaf below a branch is never hashed: the root
of a trie with two keys of one length says nothing about their values.
-/

namespace NeoCoin.Internal.Trie

open GoLib List

def Node.message : Node → Bytes
  | .nil => []
  | .mk .leaf keyPath value _ _ => 0x00 :: (keyPath ++ value.bytes)
  | .mk .extension keyPath _ children _ => 0x01 :: (keyPath ++ (children 0).hash)
  | .mk .branch _ value children _ => 0x02 :: ((List.finRange 16).flatMap (fun i => (children i).childHash) ++ value.bytes)

variable {C : Crypto} {t t' : Trie} {m m' : GoMap Bytes Bytes}

theorem rootHash_rehash (n : Node) : rootHash C ⟨n.rehash C⟩ = C.sha256 (n.rehash C).message := by
  rcases n with _ | ⟨_ | _ | _, keyPath, value, children, hash⟩
  · rfl
  · rfl
  · simp [Node.rehash, rootHash, Node.hash, Node.message]
  · rfl

theorem rootHash_exec {call : Call} (h : call.exec C t = some t') : t'.rootHash C = C.sha256 t'.root.message := by
  rcases call with ⟨key, _ | value⟩ | key
  · obtain rfl := Option.some_inj.mp h
    exact rootHash_rehash _
  · obtain ⟨root, -, rfl⟩ := Option.map_eq_some_iff.mp h
    exact rootHash_rehash root
  · obtain rfl := Option.some_inj.mp h
    exact rootHash_rehash _

theorem rootHash_run {calls : List Call} (h : t.rootHash C = C.sha256 t.root.message) (hrun : run C t calls = some t') :
    t'.rootHash C = C.sha256 t'.root.message := by
  induction calls generalizing t with
  | nil =>
    obtain rfl := Option.some_inj.mp hrun
    exact h
  | cons call calls ih =>
    obtain ⟨t₁, hexec, hrun⟩ := Option.bind_eq_some_iff.mp hrun
    exact ih (rootHash_exec hexec) hrun

/-! ## One key -/

theorem length_decodeKey {key : Bytes} (h : HexKey key) : (decodeKey key).length = key.length := by
  obtain ⟨b, rfl⟩ := exists_hexEncode h
  simp only [decodeKey, hexDecode_hexEncode, length_flatMap]
  clear h
  induction b with
  | nil => rfl
  | cons x b ih =>
    simp only [map_cons, sum_cons, hexEncode, length_cons, length_nil] at ih ⊢
    omega

theorem Holds.not_inner (h : Holds t m) (hone : m.keys.card ≤ 1) : ¬t.root.Inner := by
  intro hinner
  obtain ⟨p, q, hne, hp, hq⟩ := Node.exists_two h.sound hinner
  obtain ⟨k, hk, rfl⟩ := h.stored p hp
  obtain ⟨k', hk', rfl⟩ := h.stored q hq
  have heq := Finset.card_le_one.mp hone k (Finmap.mem_keys.mpr hk) k' (Finmap.mem_keys.mpr hk')
  exact hne (congrArg decodeKey heq)

theorem Holds.message (h : Holds t m) (hone : m.keys.card ≤ 1) :
    m = ∅ ∧ t.root.message = [] ∨ ∃ key value, HexKey key ∧ m = (∅ : GoMap Bytes Bytes).set key value ∧
      t.root.message = 0x00 :: (decodeKey key ++ value) := by
  have hinner := h.not_inner hone
  have hbare := h.bare
  have hlookup := h.lookup
  have hkeys : ∀ k, ¬HexKey k → m.lookup k = none := fun k hk => Finmap.lookup_eq_none.mpr fun hmem => hk (h.keys k hmem)
  rcases hroot : t.root with _ | ⟨_ | _ | _, keyPath, value, children, hash⟩
  · left
    refine ⟨Finmap.ext_lookup fun k => ?_, rfl⟩
    rw [Finmap.lookup_empty]
    by_cases hk : HexKey k
    · rw [← hlookup k hk, hroot, Node.content]
    · exact hkeys k hk
  · right
    have hsound := h.sound
    rw [hroot] at hsound hlookup
    obtain ⟨value, rfl⟩ := Option.ne_none_iff_exists'.mp hsound.2
    obtain ⟨key, hkey, rfl⟩ := h.stored keyPath (by rw [hroot]; simp [Node.Stored, Node.content])
    refine ⟨key, value, h.keys key hkey, Finmap.ext_lookup fun k => ?_, rfl⟩
    rw [GoMap.lookup_set, Finmap.lookup_empty]
    by_cases hk : HexKey k
    · simp only [← hlookup k hk, Node.content, decodeKey_inj hk (h.keys key hkey)]
    · rw [hkeys k hk, if_neg]
      rintro rfl
      exact hk (h.keys k hkey)
  · rw [hroot] at hinner hbare
    cases keyPath with
    | nil => exact absurd trivial hbare
    | cons b keyPath => exact absurd (by simp [Node.Inner]) hinner
  · rw [hroot] at hinner
    exact absurd trivial hinner

theorem message_eq_iff (h : Holds t m) (h' : Holds t' m') (hone : m.keys.card ≤ 1) (hone' : m'.keys.card ≤ 1)
    (hlength : ∀ k ∈ m, ∀ k' ∈ m', k.length = k'.length) : t.root.message = t'.root.message ↔ m = m' := by
  rcases h.message hone with ⟨rfl, hmessage⟩ | ⟨key, value, hkey, rfl, hmessage⟩
  · rcases h'.message hone' with ⟨rfl, hmessage'⟩ | ⟨key', value', hkey', rfl, hmessage'⟩
    · simp [hmessage, hmessage']
    · rw [hmessage, hmessage']
      refine iff_of_false (by simp) fun heq => ?_
      have := congrArg (Finmap.lookup key') heq
      rw [GoMap.lookup_set_self] at this
      cases this
  · rcases h'.message hone' with ⟨rfl, hmessage'⟩ | ⟨key', value', hkey', rfl, hmessage'⟩
    · rw [hmessage, hmessage']
      refine iff_of_false (by simp) fun heq => ?_
      have := congrArg (Finmap.lookup key) heq
      rw [GoMap.lookup_set_self] at this
      cases this
    · have hlen := hlength key (GoMap.mem_set.mpr (.inl rfl)) key' (GoMap.mem_set.mpr (.inl rfl))
      rw [← length_decodeKey hkey, ← length_decodeKey hkey'] at hlen
      rw [hmessage, hmessage', List.cons.injEq, and_iff_right rfl]
      constructor
      · intro heq
        obtain ⟨hpath, rfl⟩ := append_inj heq hlen
        rw [(decodeKey_inj hkey hkey').mp hpath]
      · intro heq
        have hlookup := congrArg (Finmap.lookup key) heq
        rw [GoMap.lookup_set_self, GoMap.lookup_set, Finmap.lookup_empty, eq_comm, Option.ite_none_right_eq_some,
          Option.some_inj] at hlookup
        obtain ⟨rfl, rfl⟩ := hlookup
        rfl

theorem mem_apply {calls : List Call} {key : Bytes} (h : key ∈ apply m calls) : key ∈ m ∨ ∃ call ∈ calls, call.key = key := by
  induction calls generalizing m with
  | nil => exact .inl h
  | cons call calls ih =>
    rcases ih h with hm | ⟨c, hc, hkey⟩
    · rcases call with ⟨k, _ | value⟩ | k
      · exact .inl (Finmap.mem_erase.mp hm).2
      · rcases GoMap.mem_set.mp hm with rfl | hm
        · exact .inr ⟨_, (.head _), rfl⟩
        · exact .inl hm
      · exact .inl (Finmap.mem_erase.mp hm).2
    · exact .inr ⟨c, mem_cons_of_mem _ hc, hkey⟩

/-- Of two runs that leave one key each, or none, and delete no key that leaves another alone, the roots are the same if and only if the
keys and values are. -/
theorem root_commits (C : Crypto) (calls calls' : List Call) (length : Nat)
    (hkeys : ∀ call ∈ calls ++ calls', HexKey call.key ∧ call.key.length = length)
    (hspares : AllInTurn C (fun t _ call => call.Spares t) {} ∅ calls)
    (hspares' : AllInTurn C (fun t _ call => call.Spares t) {} ∅ calls') (hone : (apply ∅ calls).keys.card ≤ 1)
    (hone' : (apply ∅ calls').keys.card ≤ 1) :
    ∃ t t', run C {} calls = some t ∧ run C {} calls' = some t' ∧ (C.CollisionFreeOn [t.root.message, t'.root.message] →
      (t.rootHash C = t'.rootHash C ↔ apply ∅ calls = apply ∅ calls')) := by
  obtain ⟨t, hrun, ht, -⟩ := holds_empty.run (I := fun _ => True) id (fun _ => id) trivial
    (fun call hcall => (hkeys call (mem_append_left _ hcall)).1) hspares
  obtain ⟨t', hrun', ht', -⟩ := holds_empty.run (I := fun _ => True) id (fun _ => id) trivial
    (fun call hcall => (hkeys call (mem_append_right _ hcall)).1) hspares'
  refine ⟨t, t', hrun, hrun', fun hfree => ?_⟩
  rw [rootHash_run rfl hrun, rootHash_run rfl hrun', ← message_eq_iff ht ht' hone hone' ?_]
  · exact ⟨hfree _ (by simp) _ (by simp), congrArg C.sha256⟩
  · intro k hk k' hk'
    obtain ⟨call, hcall, rfl⟩ := (mem_apply hk).resolve_left Finmap.notMem_empty
    obtain ⟨call', hcall', rfl⟩ := (mem_apply hk').resolve_left Finmap.notMem_empty
    rw [(hkeys call (mem_append_left _ hcall)).2, (hkeys call' (mem_append_right _ hcall')).2]

/-- One key with two values. -/
theorem root_commits_one : ∃ t t', run (goCrypto []) {} [.put (str "00") (some [1])] = some t ∧
    run (goCrypto []) {} [.put (str "00") (some [2])] = some t' ∧ t.rootHash (goCrypto []) ≠ t'.rootHash (goCrypto []) := by
  obtain ⟨t, t', hrun, hrun', h⟩ := root_commits (goCrypto []) [.put (str "00") (some [1])] [.put (str "00") (some [2])] 2
    (by decide +kernel) ⟨trivial, trivial⟩ ⟨trivial, trivial⟩ (by decide +kernel) (by decide +kernel)
  refine ⟨t, t', hrun, hrun', ?_⟩
  obtain rfl := Option.some_inj.mp hrun
  obtain rfl := Option.some_inj.mp hrun'
  rw [Ne, h (by decide)]
  exact fun heq => absurd (congrArg (Finmap.lookup (str "00")) heq) (by decide)

/-- Two keys, of which one has another value in the second trie. -/
theorem root_misses : ∃ t t', run (goCrypto []) {} [.put (str "00") (some [1]), .put (str "10") (some [9])] = some t ∧
    run (goCrypto []) {} [.put (str "00") (some [2]), .put (str "10") (some [9])] = some t' ∧
    t.rootHash (goCrypto []) = t'.rootHash (goCrypto []) ∧ t.get (str "00") = some (some [1]) ∧ t'.get (str "00") = some (some [2]) :=
  ⟨_, _, rfl, rfl, rfl, rfl, rfl⟩

end NeoCoin.Internal.Trie
