import NeoCoin.Theorems.TrieDelete

/-!
# The trie as a map: reading, and whole runs

`get` finds nothing when the path is used up at a leaf, or at an extension with an empty path. That happens to a key when another one
differs from it at its last digit, and to the empty key. `iterate` does reach all that a node holds.
-/

namespace NeoCoin.Internal.Trie

open GoLib List

/-- `q` does not differ from `p` at the last digit of `p`. -/
def Apart (p q : Bytes) : Prop := p.dropLast <+: q → p <+: q

instance (p q : Bytes) : Decidable (Apart p q) := inferInstanceAs (Decidable (p.dropLast <+: q → p <+: q))

theorem Apart.drop (common : Bytes) {p q : Bytes} (h : Apart (common ++ p) (common ++ q)) : Apart p q := by
  cases p with
  | nil => exact fun _ => nil_prefix
  | cons b p =>
    intro hpre
    rw [Apart, dropLast_append_of_ne_nil (by simp), prefix_append_right_inj, prefix_append_right_inj] at h
    exact h hpre

namespace Node

/-! ## Getting -/

theorem content_of_get {n : Node} (hsound : n.Sound) {path : Bytes} {v : GoSlice} (h : n.get path = some v) :
    v ≠ none ∧ n.content path = v := by
  induction n generalizing path with
  | nil => simp [get] at h
  | mk type keyPath value children hash ih =>
    cases path with
    | nil =>
      simp only [get, Option.ite_none_right_eq_some, Option.some_inj] at h
      obtain ⟨⟨rfl, hvalue⟩, rfl⟩ := h
      exact ⟨hvalue, rfl⟩
    | cons b rest =>
      cases type with
      | leaf =>
        simp only [get, Option.ite_none_right_eq_some, Option.some_inj] at h
        obtain ⟨rfl, rfl⟩ := h
        exact ⟨hsound.2, if_pos rfl⟩
      | extension =>
        simp only [get, isPrefixOf_iff_prefix, Option.ite_none_right_eq_some] at h
        obtain ⟨hbegins, h⟩ := h
        obtain ⟨hv, hcontent⟩ := ih 0 hsound.2.2 h
        exact ⟨hv, by rw [content_extension, if_pos hbegins, hcontent]⟩
      | branch =>
        simp only [get] at h
        cases hi : index b with
        | none => simp [hi] at h
        | some i =>
          rw [hi] at h
          obtain ⟨hv, hcontent⟩ := ih i (hsound.1 i) h
          exact ⟨hv, by simp only [content, hi, hcontent]⟩

theorem get_of_content {n : Node} (hsound : n.Sound) {path : Bytes} (hapart : ∀ q, n.Stored q → Apart path q) (hroom : path ≠ [] ∨ n.Inner)
    {v : Bytes} (h : n.content path = some v) : n.get path = some (some v) := by
  induction n generalizing path with
  | nil => cases h
  | mk type keyPath value children hash ih =>
    cases type with
    | leaf =>
      simp only [content, Option.ite_none_right_eq_some] at h
      obtain ⟨rfl, rfl⟩ := h
      cases path with
      | nil => simp [Inner] at hroom
      | cons b rest => simp [get]
    | extension =>
      rw [content_extension] at h
      simp only [Option.ite_none_right_eq_some] at h
      obtain ⟨⟨rest, rfl⟩, h⟩ := h
      rw [drop_left] at h
      have hget := ih 0 hsound.2.2 (fun q hq => (hapart _ (stored_extension.mpr hq)).drop keyPath) (.inr hsound.2.1) h
      have hne : keyPath ++ rest ≠ [] := by
        rcases hroom with hne | hne
        · exact hne
        · simpa using fun h => absurd h hne
      obtain ⟨b, path, hcons⟩ := exists_cons_of_ne_nil hne
      have hbegins : keyPath.isPrefixOf (b :: path) = true := isPrefixOf_iff_prefix.mpr ⟨rest, hcons⟩
      have hdrop : (b :: path).drop keyPath.length = rest := by rw [← hcons, drop_left]
      simp only [hcons, get, hbegins, if_true, hdrop, hget]
    | branch =>
      rw [content_branch] at h
      cases path with
      | nil =>
        obtain rfl : value = some v := h
        simp [get]
      | cons b rest =>
        cases hi : index b with
        | none => simp [slot, hi] at h
        | some i =>
          have hchild : (children i).content rest = some v := by simpa [slot, hi] using h
          have hapart' : ∀ q, (children i).Stored q → Apart rest q := fun q hq => Apart.drop [b] (hapart _ ((stored_branch hi).mpr hq))
          simp only [get, hi]
          refine ih i (hsound.1 i) hapart' ?_ hchild
          by_contra hroom
          rw [not_or, not_ne_iff] at hroom
          obtain ⟨rfl, hinner⟩ := hroom
          -- the last digit: the branch has another entry, which differs there
          have hbranch : ¬(children i).IsBranch := by
            rcases hc : children i with _ | ⟨_ | _ | _, _, _, _, _⟩ <;> simp_all [IsBranch, Inner]
          obtain ⟨q, hq, hentry⟩ := exists_beside hsound hbranch
          rw [← content_branch keyPath value children hash] at hq
          obtain ⟨q, rfl⟩ := hapart q hq (by simp)
          exact hentry (by simp [entryOf, hi])

/-! ## Iterating -/

theorem iterate_eq (n : Node) (front : Bytes) : n.iterate front = n.paths.map fun path => (encodeKey (front ++ path), n.content path) := by
  induction n generalizing front with
  | nil => rfl
  | mk type keyPath value children hash ih =>
    cases type with
    | leaf => simp [iterate, paths, content]
    | extension =>
      simp only [iterate, paths, ih, map_map]
      refine map_congr_left fun path _ => ?_
      simp only [Function.comp_apply, content_extension_append, append_assoc]
    | branch =>
      simp only [iterate, paths, map_append, map_flatMap, map_map, content_branch]
      congr 1
      · refine flatMap_congr fun i _ => ?_
        rw [ih]
        refine map_congr_left fun path _ => ?_
        simp [slot]
      · split <;> simp [slot]

end Node

/-! ## Keys -/

def HexKey (key : Bytes) : Prop := key.length % 2 = 0 ∧ ∀ c ∈ key, (0x30 ≤ c ∧ c ≤ 0x39) ∨ (0x61 ≤ c ∧ c ≤ 0x66)

instance (key : Bytes) : Decidable (HexKey key) :=
  inferInstanceAs (Decidable (key.length % 2 = 0 ∧ ∀ c ∈ key, (0x30 ≤ c ∧ c ≤ 0x39) ∨ (0x61 ≤ c ∧ c ≤ 0x66)))

theorem exists_hexDigit {c : UInt8} (h : (0x30 ≤ c ∧ c ≤ 0x39) ∨ (0x61 ≤ c ∧ c ≤ 0x66)) : ∃ i : Fin 16, hexDigit (UInt8.ofNat i) = c := by
  have hall : ∀ c : UInt8, (0x30 ≤ c ∧ c ≤ 0x39) ∨ (0x61 ≤ c ∧ c ≤ 0x66) → ∃ i : Fin 16, hexDigit (UInt8.ofNat i) = c :=
    forall_byte (by decide +kernel)
  exact hall c h

theorem exists_hexEncode {key : Bytes} (h : HexKey key) : ∃ b, hexEncode b = key := by
  induction key using List.twoStepInduction with
  | nil => exact ⟨[], rfl⟩
  | singleton c => exact absurd h.1 (by simp)
  | cons_cons p q rest ih _ =>
    have hrest : HexKey rest := by
      refine ⟨?_, fun c hc => h.2 c (by simp [hc])⟩
      have := h.1
      simp only [length_cons] at this
      omega
    obtain ⟨b, rfl⟩ := ih hrest
    obtain ⟨i, rfl⟩ := exists_hexDigit (h.2 p (by simp))
    obtain ⟨j, rfl⟩ := exists_hexDigit (h.2 q (by simp))
    have hbyte : ∀ i j : Fin 16, (UInt8.ofNat i <<< 4 ||| UInt8.ofNat j) >>> 4 = UInt8.ofNat i ∧
        (UInt8.ofNat i <<< 4 ||| UInt8.ofNat j) &&& 0x0F = UInt8.ofNat j := by decide
    exact ⟨(UInt8.ofNat i <<< 4 ||| UInt8.ofNat j) :: b, by simp only [hexEncode, hbyte]⟩

theorem encodeKey_decodeKey {key : Bytes} (h : HexKey key) : encodeKey (decodeKey key) = key := by
  obtain ⟨b, rfl⟩ := exists_hexEncode h
  have hjoin : ∀ b : Bytes, joinNibbles (b.flatMap fun (x : UInt8) => [x >>> 4, x &&& 0x0F]) = b := by
    have hbyte : ∀ x : UInt8, x >>> 4 <<< 4 ||| x &&& 0x0F = x := forall_byte (by decide +kernel)
    intro b
    induction b with
    | nil => rfl
    | cons x b ih => simp only [flatMap_cons, cons_append, nil_append, joinNibbles, hbyte, ih]
  simp only [encodeKey, decodeKey, hexDecode_hexEncode, hjoin]

theorem decodeKey_inj {key key' : Bytes} (h : HexKey key) (h' : HexKey key') : decodeKey key = decodeKey key' ↔ key = key' := by
  constructor
  · intro heq
    rw [← encodeKey_decodeKey h, heq, encodeKey_decodeKey h']
  · rintro rfl
    rfl

theorem nibbles_decodeKey (key : Bytes) : Nibbles (decodeKey key) := by
  have hdigits : ∀ x : UInt8, (x >>> 4).toNat < 16 ∧ (x &&& 0x0F).toNat < 16 := forall_byte (by decide +kernel)
  intro c hc
  simp only [decodeKey, mem_flatMap, mem_cons, not_mem_nil, or_false] at hc
  obtain ⟨x, -, rfl | rfl⟩ := hc
  · exact (hdigits x).1
  · exact (hdigits x).2

/-! ## Calls -/

inductive Call where
  | put (key : Bytes) (value : GoSlice)
  | delete (key : Bytes)

namespace Call

def key : Call → Bytes
  | put key _ => key
  | delete key => key

def exec (C : Crypto) (t : Trie) : Call → Option Trie
  | put key value => t.put C key value
  | delete key => some (t.delete C key)

def apply (m : GoMap Bytes Bytes) : Call → GoMap Bytes Bytes
  | put key (some value) => m.set key value
  | put key none => m.delete key
  | delete key => m.delete key

end Call

/-- The calls one after another; `none` if one of them panics. -/
def run (C : Crypto) : Trie → List Call → Option Trie
  | t, [] => some t
  | t, call :: calls => (call.exec C t).bind fun t => run C t calls

def apply : GoMap Bytes Bytes → List Call → GoMap Bytes Bytes
  | m, [] => m
  | m, call :: calls => apply (call.apply m) calls

/-- Each call meets the condition, on the trie and on the map that the calls before it make. -/
def AllInTurn (C : Crypto) (condition : Trie → GoMap Bytes Bytes → Call → Prop) : Trie → GoMap Bytes Bytes → List Call → Prop
  | _, _, [] => True
  | t, m, call :: calls => condition t m call ∧
    match call.exec C t with
    | none => True
    | some t => AllInTurn C condition t (call.apply m) calls

def storedIn (m : GoMap Bytes Bytes) (path : Bytes) : Prop := ∃ key ∈ m, decodeKey key = path

/-- A key that is deleted leaves two others behind every extension on its way, and in every branch on it that has a value. -/
def Call.Spares (t : Trie) : Call → Prop
  | put _ (some _) => True
  | put key none => t.root.spares (decodeKey key) = true
  | delete key => t.root.spares (decodeKey key) = true

/-- A key that is put is not empty, and neither it nor a key of the map differs from the other at its last digit. -/
def Call.Clears (m : GoMap Bytes Bytes) : Call → Prop
  | put key (some _) => key ≠ [] ∧ ∀ k ∈ m, Apart (decodeKey k) (decodeKey key) ∧ Apart (decodeKey key) (decodeKey k)
  | _ => True

/-! ## What a run keeps -/

structure Holds (t : Trie) (m : GoMap Bytes Bytes) : Prop where
  sound : t.root.Sound
  bare : ¬t.root.Bare
  keys : ∀ key ∈ m, HexKey key
  lookup : ∀ key, HexKey key → t.root.content (decodeKey key) = m.lookup key
  stored : ∀ path, t.root.Stored path → storedIn m path

theorem holds_empty : Holds {} ∅ where
  sound := trivial
  bare := id
  keys _ h := absurd h Finmap.notMem_empty
  lookup key _ := by rw [Finmap.lookup_empty, Node.content]
  stored _ h := absurd rfl h

variable {C : Crypto} {t : Trie} {m : GoMap Bytes Bytes}

theorem Holds.stored_iff (h : Holds t m) {path : Bytes} : t.root.Stored path ↔ storedIn m path := by
  constructor
  · exact h.stored path
  · rintro ⟨key, hkey, rfl⟩
    rw [Node.Stored, h.lookup key (h.keys key hkey)]
    exact Finmap.lookup_eq_none.not.mpr (not_not.mpr hkey)

theorem Holds.put (h : Holds t m) {key : Bytes} (hkey : HexKey key) (value : Bytes) :
    ∃ t', t.put C key (some value) = some t' ∧ Holds t' (m.set key value) := by
  obtain ⟨root, hinsert, hroot⟩ := Node.insert_spec (C := C) h.sound (nibbles_decodeKey key) value
  have hcontent : (root.rehash C).content = Function.update t.root.content (decodeKey key) (some value) := by
    rw [Node.content_rehash, hroot.content]
  refine ⟨⟨root.rehash C⟩, by simp [Trie.put, hinsert], hroot.sound.rehash, ?_, ?_, ?_, ?_⟩
  · rw [Node.rehash_bare]
    exact fun hbare => h.bare (hroot.bare hbare)
  · intro k hk
    rcases GoMap.mem_set.mp hk with rfl | hk
    · exact hkey
    · exact h.keys k hk
  · intro k hk
    simp only [hcontent, GoMap.lookup_set, Function.update_apply, decodeKey_inj hk hkey, h.lookup k hk]
  · intro path hpath
    by_cases heq : path = decodeKey key
    · exact ⟨key, GoMap.mem_set.mpr (.inl rfl), heq.symm⟩
    · rw [Node.Stored, hcontent, Function.update_of_ne heq] at hpath
      obtain ⟨k, hk, rfl⟩ := h.stored path hpath
      exact ⟨k, GoMap.mem_set.mpr (.inr hk), rfl⟩

theorem Holds.delete (h : Holds t m) {key : Bytes} (hkey : HexKey key) (hspares : t.root.spares (decodeKey key) = true) :
    Holds (t.delete C key) (m.delete key) := by
  have hroot := Node.delete_spec (C := C) h.sound hspares
  have hcontent : ((t.root.delete C (decodeKey key)).rehash C).content = Function.update t.root.content (decodeKey key) none := by
    rw [Node.content_rehash, hroot.content]
  refine ⟨hroot.sound.rehash, ?_, ?_, ?_, ?_⟩
  · exact fun hbare => h.bare (hroot.bare (Node.rehash_bare.mp hbare))
  · intro k hk
    exact h.keys k (Finmap.mem_erase.mp hk).2
  · intro k hk
    rw [Trie.delete, hcontent, GoMap.delete]
    by_cases heq : k = key
    · rw [heq, Function.update_self, Finmap.lookup_erase]
    · rw [Function.update_of_ne (fun h => heq ((decodeKey_inj hk hkey).mp h)), Finmap.lookup_erase_ne heq, h.lookup k hk]
  · intro path hpath
    rw [Node.Stored, Trie.delete, hcontent] at hpath
    by_cases heq : path = decodeKey key
    · rw [heq, Function.update_self] at hpath
      contradiction
    · rw [Function.update_of_ne heq] at hpath
      obtain ⟨k, hk, rfl⟩ := h.stored path hpath
      exact ⟨k, Finmap.mem_erase.mpr ⟨fun h => heq (by rw [h]), hk⟩, rfl⟩

theorem Holds.exec (h : Holds t m) {call : Call} (hkey : HexKey call.key) (hspares : call.Spares t) :
    ∃ t', call.exec C t = some t' ∧ Holds t' (call.apply m) := by
  rcases call with ⟨key, _ | value⟩ | key
  · exact ⟨t.delete C key, rfl, h.delete hkey hspares⟩
  · exact h.put hkey value
  · exact ⟨t.delete C key, rfl, h.delete hkey hspares⟩

/-- Calls that spare the keys make the trie hold what the map has; what they keep of the map, they keep in a run. -/
theorem Holds.run {I : GoMap Bytes Bytes → Prop} {condition : Trie → GoMap Bytes Bytes → Call → Prop}
    (hspares : ∀ {t m call}, condition t m call → call.Spares t) (hI : ∀ {t m call}, condition t m call → I m → I (call.apply m))
    (h : Holds t m) (hm : I m) {calls : List Call} (hkeys : ∀ call ∈ calls, HexKey call.key) (hcalls : AllInTurn C condition t m calls) :
    ∃ t', run C t calls = some t' ∧ Holds t' (apply m calls) ∧ I (apply m calls) := by
  induction calls generalizing t m with
  | nil => exact ⟨t, rfl, h, hm⟩
  | cons call calls ih =>
    obtain ⟨hcall, hcalls⟩ := hcalls
    obtain ⟨t₁, hexec, h₁⟩ := h.exec (C := C) (hkeys call (.head _)) (hspares hcall)
    rw [hexec] at hcalls
    obtain ⟨t₂, hrun, h₂⟩ := ih h₁ (hI hcall hm) (fun c hc => hkeys c (.tail _ hc)) hcalls
    exact ⟨t₂, by rw [Trie.run, hexec, Option.bind_some, hrun], h₂⟩

/-- No key of the map is empty, and none differs from another at its last digit. -/
structure Clear (m : GoMap Bytes Bytes) : Prop where
  nonempty : ∀ key ∈ m, key ≠ []
  apart : ∀ k ∈ m, ∀ k' ∈ m, Apart (decodeKey k) (decodeKey k')

theorem Clear.delete (h : Clear m) (key : Bytes) : Clear (m.delete key) where
  nonempty k hk := h.nonempty k (Finmap.mem_erase.mp hk).2
  apart k hk k' hk' := h.apart k (Finmap.mem_erase.mp hk).2 k' (Finmap.mem_erase.mp hk').2

theorem Clear.exec (h : Clear m) {call : Call} (hclears : call.Clears m) : Clear (call.apply m) := by
  rcases call with ⟨key, _ | value⟩ | key
  · exact h.delete key
  · obtain ⟨hkey, hapart⟩ := hclears
    refine ⟨?_, ?_⟩
    · intro k hk
      rcases GoMap.mem_set.mp hk with rfl | hk
      · exact hkey
      · exact h.nonempty k hk
    · intro k hk k' hk'
      rcases GoMap.mem_set.mp hk with rfl | hold
      · rcases GoMap.mem_set.mp hk' with rfl | hold'
        · exact fun _ => prefix_rfl
        · exact (hapart k' hold').2
      · rcases GoMap.mem_set.mp hk' with rfl | hold'
        · exact (hapart k hold).1
        · exact h.apart k hold k' hold'
  · exact h.delete key

theorem Holds.get (h : Holds t m) (hclear : Clear m) {key : Bytes} (hkey : HexKey key) : t.get key = (m.lookup key).map some := by
  rw [← h.lookup key hkey, Trie.get]
  cases hget : t.root.get (decodeKey key) with
  | some v =>
    obtain ⟨hv, hcontent⟩ := Node.content_of_get h.sound hget
    obtain ⟨v, rfl⟩ := Option.ne_none_iff_exists'.mp hv
    rw [hcontent]
    rfl
  | none =>
    rw [eq_comm, Option.map_eq_none_iff]
    by_contra hstored
    obtain ⟨v, hv⟩ := Option.ne_none_iff_exists'.mp hstored
    have hmem : key ∈ m := by
      rw [h.lookup key hkey] at hv
      exact Finmap.mem_of_lookup_eq_some hv
    have hapart : ∀ q, t.root.Stored q → Apart (decodeKey key) q := by
      intro q hq
      obtain ⟨k, hk, rfl⟩ := h.stored q hq
      exact hclear.apart key hmem k hk
    have hne : decodeKey key ≠ [] := by
      intro hnil
      have := encodeKey_decodeKey hkey
      rw [hnil] at this
      exact hclear.nonempty key hmem this.symm
    rw [Node.get_of_content h.sound hapart (.inl hne) hv] at hget
    cases hget

theorem Holds.size (h : Holds t m) : t.size = m.keys.card := by
  have hpaths : t.root.paths.toFinset = m.keys.image decodeKey := by
    ext path
    rw [mem_toFinset, Node.mem_paths h.sound, h.stored_iff, Finset.mem_image]
    simp only [storedIn, Finmap.mem_keys]
  rw [Trie.size, Node.iterate_eq, length_map, ← toFinset_card_of_nodup (Node.nodup_paths t.root), hpaths, Finset.card_image_of_injOn]
  intro k hk k' hk' heq
  exact (decodeKey_inj (h.keys k (Finmap.mem_keys.mp hk)) (h.keys k' (Finmap.mem_keys.mp hk'))).mp heq

/-- After any calls that put no key beside one that differs from it at the last digit, and delete none that leaves another alone behind an
extension or in a branch with a value, the trie is the map that the calls make. -/
theorem trie_is_map (C : Crypto) (calls : List Call) (hkeys : ∀ call ∈ calls, HexKey call.key)
    (hcalls : AllInTurn C (fun t m call => call.Clears m ∧ call.Spares t) {} ∅ calls) :
    ∃ t, run C {} calls = some t ∧ (∀ key, HexKey key → t.get key = ((apply ∅ calls).lookup key).map some) ∧
      t.size = (apply ∅ calls).keys.card := by
  have hempty : Clear ∅ := ⟨fun _ h => absurd h Finmap.notMem_empty, fun _ h => absurd h Finmap.notMem_empty⟩
  obtain ⟨t, hrun, ht, hclear⟩ := holds_empty.run (fun h => h.2) (fun h hm => hm.exec h.1) hempty hkeys hcalls
  exact ⟨t, hrun, fun key hkey => ht.get hclear hkey, ht.size⟩

/-- The third key and the first are in a branch below a branch, and the third is deleted. -/
theorem trie_is_map_three : ∃ t, run (goCrypto []) {} [.put (str "0000") (some [1]), .put (str "1000") (some [2]),
      .put (str "0100") (some [3]), .delete (str "0100")] = some t ∧ t.get (str "0000") = some (some [1]) ∧ t.size = 2 := by
  have hclears : ∀ {m : GoMap Bytes Bytes} {key : Bytes} (value : Bytes), key ≠ [] →
      (∀ k ∈ m.keys, Apart (decodeKey k) (decodeKey key) ∧ Apart (decodeKey key) (decodeKey k)) → (Call.put key (some value)).Clears m :=
    fun _ hkey hall => ⟨hkey, fun k hk => hall k (Finmap.mem_keys.mpr hk)⟩
  obtain ⟨t, hrun, hget, hsize⟩ := trie_is_map (goCrypto []) [.put (str "0000") (some [1]), .put (str "1000") (some [2]),
    .put (str "0100") (some [3]), .delete (str "0100")] (by decide +kernel)
    ⟨⟨hclears _ (by decide) (by decide +kernel), trivial⟩, ⟨hclears _ (by decide) (by decide +kernel), trivial⟩,
      ⟨hclears _ (by decide) (by decide +kernel), trivial⟩, ⟨trivial, show Node.spares _ _ = true by decide +kernel⟩, trivial⟩
  exact ⟨t, hrun, hget (str "0000") (by decide +kernel), hsize⟩

/-- The second key differs from the first at its last digit, and the first is not found any more. -/
theorem trie_forgets :
    ∃ t, run (goCrypto []) {} [.put (str "00") (some [1]), .put (str "01") (some [2])] = some t ∧ t.get (str "00") = none ∧
      (apply ∅ [.put (str "00") (some [1]), .put (str "01") (some [2])]).lookup (str "00") = some [1] :=
  ⟨_, rfl, rfl, rfl⟩

end NeoCoin.Internal.Trie
