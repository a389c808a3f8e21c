import NeoCoin.Theorems.Trie

/-!
# The trie as a map: deleting

`delete` takes a path out of what a node holds, unless it leaves one path alone behind an extension, which becomes an extension that leads
nowhere, or the value of a branch alone in it, which becomes a leaf under another path (`Node.spares`).
-/

namespace NeoCoin.Internal.Trie

open GoLib List

variable {children : Fin 16 → Node} {i : Fin 16} {value : GoSlice} {keyPath hash path q rest : Bytes}
  {n : Node} {b : UInt8}

namespace Node

variable {C : Crypto}

/-! ## Compacting -/

theorem mem_live : i ∈ live children ↔ children i ≠ .nil := by
  rcases hc : children i with _ | ⟨_, _, _, _, _⟩ <;> simp [live, isNil, hc]

theorem nodup_live (children : Fin 16 → Node) : (live children).Nodup := (nodup_finRange 16).filter _

theorem compact_eq_branch (h : 2 ≤ entries value children) (keyPath hash : Bytes) :
    compact C keyPath value children hash = rehash C (.mk .branch keyPath value children hash) := by
  obtain ⟨k, hk⟩ := Nat.exists_eq_add_of_le' h
  simp only [compact, hk]

theorem slot_alone (h : ∀ j, children j ≠ .nil → j = i) (path : Bytes) :
    slot (none, children) path = if path.head? = some (UInt8.ofNat i) then (children i).content path.tail else none := by
  have hchildren : children = Function.update (fun _ => .nil) i (children i) := by
    funext j
    by_cases hj : j = i
    · rw [hj, Function.update_self]
    · rw [Function.update_of_ne hj]
      by_contra hne
      exact hj (h j hne)
  rw [hchildren, slot_update (index_ofNat i), Function.update_self]
  congr 1
  cases path with
  | nil => rfl
  | cons b rest =>
    simp only [slot]
    cases index b <;> rfl

/-- What `compact` gives for a branch that does not only have a value. -/
structure Compacts (n : Node) (value : GoSlice) (children : Fin 16 → Node) : Prop where
  sound : n.Sound
  bare : ¬n.Bare
  content : n.content = slot (value, children)

theorem compacts_branch (hsound : (Node.mk .branch keyPath value children hash).Sound) :
    Compacts (rehash C (.mk .branch keyPath value children hash)) value children where
  sound := hsound.rehash
  bare := rehash_bare.not.mpr (by simp [Bare])
  content := by rw [content_rehash, content_branch]

theorem compacts_alone (hlive : live children = [i]) (hsound : (children i).Sound) (keyPath hash : Bytes) :
    Compacts (compact C keyPath none children hash) none children := by
  have hi : children i ≠ .nil := mem_live.mp (by simp [hlive])
  have halone : ∀ j, children j ≠ .nil → j = i := by
    intro j hj
    simpa [hlive] using mem_live.mpr hj
  have hslot := slot_alone halone
  have hdigit : (UInt8.ofNat i).toNat < 16 := lt_of_index (index_ofNat i)
  rcases hc : children i with _ | ⟨_ | _ | _, childPath, childValue, grandchildren, childHash⟩
  · contradiction
  · rw [hc] at hsound
    have hcompact : compact C keyPath none children hash = leaf (UInt8.ofNat i :: childPath) childValue := by
      simp [compact, entries, hlive, hc]
    rw [hcompact]
    refine ⟨⟨nibbles_cons.mpr ⟨hdigit, hsound.1⟩, hsound.2⟩, by simp [leaf, Bare], ?_⟩
    funext path
    rw [hslot, hc, content_leaf]
    cases path with
    | nil => simp
    | cons b rest =>
      by_cases hb : b = UInt8.ofNat i
      · simp [hb, content]
      · simp [hb]
  · rw [hc] at hsound
    have hcompact : compact C keyPath none children hash =
        rehash C (.mk .extension (UInt8.ofNat i :: childPath) childValue grandchildren childHash) := by
      simp [compact, entries, hlive, hc]
    rw [hcompact]
    refine ⟨Sound.rehash ⟨nibbles_cons.mpr ⟨hdigit, hsound.1⟩, hsound.2⟩, rehash_bare.not.mpr (by simp [Bare]), ?_⟩
    funext path
    rw [hslot, hc, content_rehash, content_extension]
    cases path with
    | nil => simp
    | cons b rest =>
      by_cases hb : b = UInt8.ofNat i
      · simp [hb, content_extension]
      · simp [hb, Ne.symm hb]
  · have hcompact : compact C keyPath none children hash = rehash C (.mk .branch keyPath none children hash) := by
      simp [compact, entries, hlive, hc]
    rw [hcompact]
    refine compacts_branch ⟨?_, .inr ⟨i, by simp [hc, IsBranch]⟩⟩
    intro j
    by_cases hj : children j = .nil
    · rw [hj]
      trivial
    · rw [halone j hj]
      exact hsound

/-- `compact` keeps the content of a branch. By the number of its entries. -/
theorem compact_spec (hsound : ∀ i, (children i).Sound) (hvalue : value ≠ none → ∃ i, children i ≠ .nil) (keyPath hash : Bytes) :
    Compacts (compact C keyPath value children hash) value children := by
  have hbranch : ∀ e e', e ≠ e' → Occupied (value, children) e → Occupied (value, children) e' → 2 ≤ entries value children →
      Compacts (compact C keyPath value children hash) value children := by
    intro e e' hne he he' hentries
    rw [compact_eq_branch hentries]
    exact compacts_branch ⟨hsound, .inl ⟨e, e', hne, he, he'⟩⟩
  rcases hlive : live children with _ | ⟨i, _ | ⟨j, l⟩⟩
  · have hnil : ∀ i, children i = .nil := by
      intro i
      by_contra hi
      simpa [hlive] using mem_live.mpr hi
    have hnone : value = none := by
      by_contra h
      obtain ⟨i, hi⟩ := hvalue h
      exact hi (hnil i)
    subst hnone
    have hcompact : compact C keyPath none children hash = .nil := by simp [compact, entries, hlive]
    rw [hcompact]
    refine ⟨trivial, by simp [Bare], ?_⟩
    funext path
    rw [slot_alone (fun j hj => absurd (hnil j) hj) path, hnil 0]
    simp
  · cases value with
    | none => exact compacts_alone hlive (hsound i) keyPath hash
    | some v =>
      have hi : children i ≠ .nil := mem_live.mp (by simp [hlive])
      exact hbranch none (some i) (by simp) (by simp [Occupied]) hi (by simp [entries, hlive])
  · have hi : children i ≠ .nil := mem_live.mp (by simp [hlive])
    have hj : children j ≠ .nil := mem_live.mp (by simp [hlive])
    have hij : some i ≠ some j := by
      have hnodup := nodup_live children
      simp only [hlive, nodup_cons, mem_cons, not_or] at hnodup
      simpa using hnodup.1.1
    exact hbranch _ _ hij hi hj (by simp only [entries, hlive, length_cons]; omega)

/-! ## The paths that a node holds -/

def Stored (n : Node) (path : Bytes) : Prop := n.content path ≠ none

theorem stored_extension : (Node.mk .extension keyPath value children hash).Stored (keyPath ++ path) ↔ (children 0).Stored path := by
  rw [Stored, content_extension_append, Stored]

theorem prefix_of_stored (h : (Node.mk .extension keyPath value children hash).Stored path) : ∃ rest, path = keyPath ++ rest := by
  rw [Stored, content_extension] at h
  split at h
  · rename_i hp
    obtain ⟨rest, rfl⟩ := hp
    exact ⟨rest, rfl⟩
  · exact absurd rfl h

theorem stored_branch
    (hi : index b = some i) : (Node.mk .branch keyPath value children hash).Stored (b :: rest) ↔ (children i).Stored rest := by
  rw [Stored, content_branch]
  simp [slot, hi, Stored]

/-- All paths of a node, in the order in which `iterate` comes to them. -/
def paths : Node → List Bytes
  | .nil => []
  | .mk .leaf keyPath _ _ _ => [keyPath]
  | .mk .extension keyPath _ children _ => (children 0).paths.map (keyPath ++ ·)
  | .mk .branch _ value children _ =>
    (List.finRange 16).flatMap (fun i => (children i).paths.map (UInt8.ofNat i :: ·)) ++ if value = none then [] else [[]]

theorem mem_paths (hsound : n.Sound) : path ∈ n.paths ↔ n.Stored path := by
  induction n generalizing path with
  | nil => simp [paths, Stored]
  | mk type keyPath value children hash ih =>
    cases type with
    | leaf =>
      have hvalue : value ≠ none := hsound.2
      simp [paths, Stored, content, hvalue]
    | extension =>
      simp only [paths, mem_map, ih 0 hsound.2.2]
      constructor
      · rintro ⟨rest, hrest, rfl⟩
        exact stored_extension.mpr hrest
      · intro h
        obtain ⟨rest, rfl⟩ := prefix_of_stored h
        exact ⟨rest, stored_extension.mp h, rfl⟩
    | branch =>
      simp only [paths, mem_append, mem_flatMap, mem_finRange, true_and, mem_map, ih _ (hsound.1 _)]
      cases path with
      | nil =>
        simp only [cons_ne_nil, and_false, exists_false, false_or, Stored, content_branch, slot]
        split <;> simp_all
      | cons b rest =>
        have hnil : b :: rest ∉ if value = none then [] else [[]] := by split <;> simp
        simp only [hnil, or_false, List.cons.injEq]
        constructor
        · rintro ⟨i, rest, hrest, rfl, rfl⟩
          exact (stored_branch (index_ofNat i)).mpr hrest
        · intro h
          cases hi : index b with
          | none => simp [Stored, content, hi] at h
          | some i => exact ⟨i, rest, (stored_branch hi).mp h, index_inj (index_ofNat i) hi, rfl⟩

theorem nodup_paths (n : Node) : n.paths.Nodup := by
  induction n with
  | nil => exact nodup_nil
  | mk type keyPath value children hash ih =>
    cases type with
    | leaf => exact nodup_singleton _
    | extension => exact (ih 0).map (append_right_injective keyPath)
    | branch =>
      refine List.Nodup.append (nodup_flatMap.mpr ⟨?_, ?_⟩) (by split <;> simp) ?_
      · intro i _
        exact (ih i).map (cons_injective)
      · refine (nodup_finRange 16).imp ?_
        intro i j hij p hp hp'
        simp only [mem_map] at hp hp'
        obtain ⟨q, -, rfl⟩ := hp
        obtain ⟨q', -, heq⟩ := hp'
        have hdigit : UInt8.ofNat i = UInt8.ofNat j := (List.cons.inj heq).1.symm
        have hi := index_ofNat i
        rw [hdigit, index_ofNat] at hi
        exact hij (Option.some_inj.mp hi).symm
      · intro p hp hp'
        simp only [mem_flatMap, mem_map] at hp
        obtain ⟨i, -, q, -, rfl⟩ := hp
        split at hp' <;> simp at hp'

/-- Two paths are left after another one. -/
theorem exists_two_left (hsound : n.Sound) (h : 2 ≤ (n.paths.erase path).length) :
    ∃ q q', q ≠ q' ∧ (n.Stored q ∧ q ≠ path) ∧ n.Stored q' ∧ q' ≠ path := by
  have hmem : ∀ q ∈ n.paths.erase path, n.Stored q ∧ q ≠ path := by
    intro q hq
    obtain ⟨hne, hq⟩ := (nodup_paths n).mem_erase_iff.mp hq
    exact ⟨(mem_paths hsound).mp hq, hne⟩
  have hnodup := (nodup_paths n).erase path
  rcases hleft : n.paths.erase path with _ | ⟨q, _ | ⟨q', rest⟩⟩
  · simp [hleft] at h
  · simp [hleft] at h
  · rw [hleft] at hmem hnodup
    exact ⟨q, q', fun heq => (nodup_cons.mp hnodup).1 (heq ▸ .head _), hmem q (.head _), hmem q' (.tail _ (.head _))⟩

/-! ## Deleting -/

/-- Behind every extension on the way of `path` two other paths are left, and in every branch on it that has a value. -/
def spares : Node → Bytes → Bool
  | .nil, _ => true
  | .mk .leaf .., _ => true
  | .mk .extension keyPath _ children _, path =>
    !keyPath.isPrefixOf path ||
      decide (2 ≤ ((children 0).paths.erase (path.drop keyPath.length)).length) && (children 0).spares (path.drop keyPath.length)
  | .mk .branch .., [] => true
  | .mk .branch keyPath value children hash, b :: rest =>
    (decide (value = none) || decide (2 ≤ ((Node.mk .branch keyPath value children hash).paths.erase (b :: rest)).length)) &&
      match index b with
      | none => true
      | some i => (children i).spares rest

structure Deletes (n n' : Node) (path : Bytes) : Prop where
  sound : n'.Sound
  bare : n'.Bare → n.Bare
  content : n'.content = Function.update n.content path none

theorem Deletes.refl (hsound : n.Sound) (h : n.content path = none) : Deletes n n path where
  sound := hsound
  bare := id
  content := by rw [← h, Function.update_eq_self]

theorem Deletes.stored {n' : Node} (h : Deletes n n' path) (hq : n.Stored q) (hne : q ≠ path) : n'.Stored q := by
  rw [Stored, h.content, Function.update_of_ne hne]
  exact hq

/-- Where two paths are left in a branch, one of them is left in a child. -/
theorem exists_child_left (hsound : (Node.mk .branch keyPath value children hash).Sound) (hi : index b = some i) {child : Node}
    (hchild : Deletes (children i) child rest) (htwo : 2 ≤ ((Node.mk .branch keyPath value children hash).paths.erase (b :: rest)).length) :
    ∃ j, Function.update children i child j ≠ .nil := by
  obtain ⟨q, q', hqq, hq, hq'⟩ := exists_two_left hsound htwo
  obtain ⟨c, q, hq, hne⟩ : ∃ c q, (Node.mk .branch keyPath value children hash).Stored (c :: q) ∧ c :: q ≠ b :: rest := by
    rcases q with _ | ⟨c, q⟩
    · rcases q' with _ | ⟨c, q'⟩
      · exact absurd rfl hqq
      · exact ⟨c, q', hq'⟩
    · exact ⟨c, q, hq⟩
  have hslot : slot (value, Function.update children i child) (c :: q) ≠ none := by
    rw [slot_update_content hi hchild.content, Function.update_of_ne hne, ← content_branch keyPath value children hash]
    exact hq
  simp only [slot] at hslot
  cases hj : index c with
  | none => simp [hj] at hslot
  | some j =>
    refine ⟨j, fun heq => ?_⟩
    simp [hj, heq] at hslot

theorem delete_extension {child : Node} (hdelete : (children 0).delete C rest = child) (hinner : child.Inner) :
    (Node.mk .extension keyPath value children hash).delete C (keyPath ++ rest) =
      rehash C (.mk .extension keyPath value (Function.update children 0 child) hash) := by
  simp only [delete, isPrefixOf_iff_prefix, prefix_append, if_true, drop_left, hdelete]
  rcases child with _ | ⟨_ | _ | _, childPath, childValue, grandchildren, childHash⟩
  · exact absurd hinner (by simp [Inner])
  · exact absurd hinner (by simp [Inner])
  · simp
  · simp

/-- A path that the node spares is taken out, and nothing else. -/
theorem delete_spec (hsound : n.Sound) (hspares : n.spares path = true) : Deletes n (n.delete C path) path := by
  induction n generalizing path with
  | nil => exact Deletes.refl (n := .nil) trivial rfl
  | mk type keyPath value children hash ih =>
    cases type with
    | leaf =>
      simp only [delete]
      split
      · rename_i heq
        subst heq
        refine ⟨trivial, by simp [Bare], ?_⟩
        funext q
        by_cases hq : q = path
        · simp [hq]
        · simp [content, hq]
      · rename_i hne
        exact .refl hsound (if_neg hne)
    | extension =>
      by_cases hbegins : keyPath <+: path
      · obtain ⟨rest, rfl⟩ := hbegins
        simp only [spares, drop_left, Bool.not_eq_true', Bool.or_eq_true, Bool.and_eq_true, decide_eq_true_eq] at hspares
        obtain ⟨htwo, hspares⟩ := hspares.resolve_left (by simp)
        have h := ih 0 hsound.2.2 hspares
        obtain ⟨q, q', hne, hq, hq'⟩ := exists_two_left hsound.2.2 htwo
        have hinner := inner_of_two (fun hbare => hsound.2.1.not_bare (h.bare hbare)) hne (h.stored hq.1 hq.2) (h.stored hq'.1 hq'.2)
        rw [delete_extension rfl hinner]
        refine ⟨Sound.rehash ⟨hsound.1, ?_, ?_⟩, ?_, ?_⟩
        · rwa [Function.update_self]
        · rw [Function.update_self]
          exact h.sound
        · rw [rehash_bare]
          cases keyPath <;> simp [Bare]
        · rw [content_rehash, content_extension_update _ _ _ _ h.content]
      · have hnone : (Node.mk .extension keyPath value children hash).content path = none := if_neg hbegins
        simp only [delete, isPrefixOf_iff_prefix, hbegins, if_false]
        exact .refl hsound hnone
    | branch =>
      cases path with
      | nil =>
        have h : Compacts (compact C keyPath none children hash) none children :=
          compact_spec hsound.1 (fun h => absurd rfl h) keyPath hash
        refine ⟨h.sound, fun hbare => absurd hbare h.bare, ?_⟩
        funext q
        simp only [delete, h.content, content_branch]
        cases q with
        | nil => simp [slot]
        | cons b rest => simp [slot]
      | cons b rest =>
        cases hi : index b with
        | none =>
          simp only [delete, hi]
          exact .refl hsound (by simp [content, hi])
        | some i =>
          simp only [spares, hi, Bool.and_eq_true, Bool.or_eq_true, decide_eq_true_eq] at hspares
          have hchild := ih i (hsound.1 i) hspares.2
          have hleft : value ≠ none → ∃ j, Function.update children i ((children i).delete C rest) j ≠ .nil :=
            fun hvalue => exists_child_left hsound hi hchild (hspares.1.resolve_left hvalue)
          have h := compact_spec (C := C) (sound_update hsound.1 i hchild.sound) hleft keyPath hash
          simp only [delete, hi]
          refine ⟨h.sound, fun hbare => absurd hbare h.bare, ?_⟩
          rw [h.content, content_branch, slot_update_content hi hchild.content]

end Node

end NeoCoin.Internal.Trie
