import NeoCoin.Internal.Trie

/-!
# The trie as a map: inserting

What a node holds is a function of the rest of a path (`Node.content`). In a node whose branches have two entries at least, or lead to
another branch (`Node.Sound`), `insert` writes to that function.
-/

namespace NeoCoin.Internal.Trie

open GoLib List

variable {e : Option (Fin 16)} {slots₁ slots₂ : GoSlice × (Fin 16 → Node)} {held' : Bytes → Option Bytes} {v : Option Bytes} {b : UInt8}
  {path p q rest common r s keyPath : Bytes} {i : Fin 16} {n child : Node} {value : GoSlice} {children : Fin 16 → Node}
  {slots : GoSlice × (Fin 16 → Node)} {held : Bytes → Option Bytes}

/-! ## Paths -/

def Nibbles (path : Bytes) : Prop := ∀ b ∈ path, b.toNat < 16

theorem nibbles_cons : Nibbles (b :: path) ↔ b.toNat < 16 ∧ Nibbles path := forall_mem_cons

theorem nibbles_append : Nibbles (p ++ q) ↔ Nibbles p ∧ Nibbles q := forall_mem_append

theorem index_of_lt (h : b.toNat < 16) : index b = some ⟨b.toNat, h⟩ := dif_pos h

theorem lt_of_index (h : index b = some i) : b.toNat < 16 := by
  unfold index at h
  split at h
  · assumption
  · cases h

theorem index_inj {b' : UInt8} (h : index b = some i) (h' : index b' = some i) : b = b' := by
  unfold index at h h'
  split at h
  · split at h'
    · rw [← Option.some_inj.mp h, Option.some_inj, Fin.mk.injEq] at h'
      exact UInt8.toNat_inj.mp h'.symm
    · cases h'
  · cases h

@[simp] theorem index_ofNat (i : Fin 16) : index (UInt8.ofNat i) = some i := by
  revert i
  decide

/-- Two paths, up to the place where they part. -/
theorem commonPrefix_spec (p q : Bytes) : ∃ common r s, p = common ++ r ∧ q = common ++ s ∧ commonPrefix p q = common.length ∧
    (r.head? = s.head? → r = [] ∧ s = []) := by
  induction p generalizing q with
  | nil =>
    refine ⟨[], [], q, rfl, rfl, rfl, ?_⟩
    cases q with
    | nil => simp
    | cons b q => simp
  | cons a p ih =>
    cases q with
    | nil => exact ⟨[], a :: p, [], rfl, rfl, rfl, by simp⟩
    | cons b q =>
      by_cases hab : a = b
      · subst hab
        obtain ⟨common, r, s, rfl, rfl, hlength, hpart⟩ := ih q
        exact ⟨a :: common, r, s, rfl, rfl, by simp [commonPrefix, hlength], hpart⟩
      · exact ⟨[], a :: p, b :: q, rfl, rfl, by simp [commonPrefix, hab], by simp [hab]⟩

namespace Node

/-! ## What a node holds -/

def content : Node → Bytes → Option Bytes
  | .nil, _ => none
  | .mk .leaf keyPath value _ _, path => if path = keyPath then value else none
  | .mk .extension keyPath _ children _, path => if keyPath <+: path then (children 0).content (path.drop keyPath.length) else none
  | .mk .branch _ value _ _, [] => value
  | .mk .branch _ _ children _, b :: rest =>
    match index b with
    | none => none
    | some i => (children i).content rest

@[simp] theorem content_nil (path : Bytes) : content .nil path = none := rfl

section

variable (keyPath : Bytes) (value : GoSlice)

@[simp] theorem content_leaf (path : Bytes) :
    (leaf keyPath value).content path = if path = keyPath then value else none := rfl

theorem content_extension (children : Fin 16 → Node) (hash path : Bytes) :
    (Node.mk .extension keyPath value children hash).content path =
      if keyPath <+: path then (children 0).content (path.drop keyPath.length) else none := rfl

def slot (slots : GoSlice × (Fin 16 → Node)) : Bytes → Option Bytes
  | [] => slots.1
  | b :: rest => (index b).elim none fun i => (slots.2 i).content rest

theorem content_branch (children : Fin 16 → Node) (hash : Bytes) :
    (Node.mk .branch keyPath value children hash).content = slot (value, children) := by
  funext path
  cases path with
  | nil => rfl
  | cons b rest =>
    simp only [content, slot]
    cases index b <;> rfl

theorem content_extension_append (children : Fin 16 → Node) (hash path : Bytes) :
    (Node.mk .extension keyPath value children hash).content (keyPath ++ path) = (children 0).content path := by
  rw [content_extension, if_pos (prefix_append _ _), drop_left]

end

def IsBranch : Node → Prop
  | .mk .branch _ _ _ _ => True
  | _ => False

def Bare : Node → Prop
  | .mk .extension [] _ _ _ => True
  | _ => False

def Inner : Node → Prop
  | .mk .branch _ _ _ _ => True
  | .mk .extension keyPath _ _ _ => keyPath ≠ []
  | _ => False

/-- There is something in an entry of a branch: the value if there is no index, or a child. -/
def Occupied (slots : GoSlice × (Fin 16 → Node)) : Option (Fin 16) → Prop
  | none => slots.1 ≠ none
  | some i => slots.2 i ≠ .nil

/-- The digits of a node are in range, an extension leads on, and a branch has two entries at least or leads to another one. -/
def Sound : Node → Prop
  | .nil => True
  | .mk .leaf keyPath value _ _ => Nibbles keyPath ∧ value ≠ none
  | .mk .extension keyPath _ children _ => Nibbles keyPath ∧ (children 0).Inner ∧ (children 0).Sound
  | .mk .branch _ value children _ =>
    (∀ i, (children i).Sound) ∧
      ((∃ e e', e ≠ e' ∧ Occupied (value, children) e ∧ Occupied (value, children) e') ∨ ∃ i, (children i).IsBranch)

variable {C : Crypto}

/-! ## Hashing changes nothing else -/

@[simp] theorem rehash_isBranch : (n.rehash C).IsBranch ↔ n.IsBranch := by
  rcases n with _ | ⟨_ | _ | _, _, _, _, _⟩ <;> exact Iff.rfl

@[simp] theorem rehash_inner : (n.rehash C).Inner ↔ n.Inner := by
  rcases n with _ | ⟨_ | _ | _, _, _, _, _⟩ <;> exact Iff.rfl

@[simp] theorem rehash_bare : (n.rehash C).Bare ↔ n.Bare := by
  rcases n with _ | ⟨_ | _ | _, _ | _, _, _, _⟩ <;> exact Iff.rfl

@[simp] theorem content_rehash (n : Node) : (n.rehash C).content = n.content := by
  induction n with
  | nil => rfl
  | mk type keyPath value children hash ih =>
    cases type with
    | leaf => rfl
    | extension =>
      funext path
      simp only [rehash, content_extension, Function.update_self, ih]
    | branch => rw [rehash, content_branch, content_branch]

theorem Sound.rehash (h : n.Sound) : (n.rehash C).Sound := by
  induction n with
  | nil => trivial
  | mk type keyPath value children hash ih =>
    cases type with
    | leaf => exact h
    | extension =>
      obtain ⟨hpath, hinner, hchild⟩ := h
      refine ⟨hpath, ?_, ?_⟩
      · rw [Function.update_self]
        exact rehash_inner.mpr hinner
      · rw [Function.update_self]
        exact ih 0 hchild
    | branch => exact h

/-! ## Inserting -/

def entryOf (path : Bytes) : Option (Fin 16) := path.head?.bind index

theorem slot_update (hi : index b = some i) (child : Node) (path : Bytes) : slot (value, Function.update children i child) path =
      if path.head? = some b then child.content path.tail else slot (value, children) path := by
  cases path with
  | nil => simp [slot]
  | cons a rest =>
    by_cases hab : a = b
    · subst hab
      simp [slot, hi]
    · have hne : ∀ j, index a = some j → j ≠ i := by
        rintro j hj rfl
        exact hab (index_inj hj hi)
      simp only [slot, List.head?_cons, Option.some_inj, hab, if_false]
      rcases hj : index a with _ | j
      · rfl
      · simp [Function.update_of_ne (hne j hj)]

theorem sound_update (h : ∀ i, (children i).Sound) (i : Fin 16) (hchild : child.Sound) (j : Fin 16) :
    (Function.update children i child j).Sound := by
  by_cases hj : j = i
  · rw [hj, Function.update_self]
    exact hchild
  · rw [Function.update_of_ne hj]
    exact h j

theorem occupied_update (h : Occupied (value, children) e)
    (hchild : child ≠ .nil) : Occupied (value, Function.update children i child) e := by
  cases e with
  | none => exact h
  | some j =>
    by_cases hj : j = i
    · simp [Occupied, hj, hchild]
    · simpa [Occupied, Function.update_of_ne hj] using h

/-- What a path, or what is left of it, adds to the entries of a branch. -/
structure Placed (slots slots' : GoSlice × (Fin 16 → Node)) (rest : Bytes) (held : Bytes → Option Bytes) : Prop where
  content : ∀ path, slot slots' path = if path.head? = rest.head? then held path else slot slots path
  sound : (∀ i, (slots.2 i).Sound) → ∀ i, (slots'.2 i).Sound
  occupied : Occupied slots' (entryOf rest)
  kept : ∀ e, Occupied slots e → Occupied slots' e

theorem exists_placed {child : Bytes → Node} (hrest : Nibbles rest) (hvalue : rest = [] → value ≠ none ∧ held [] = value)
    (hchild : ∀ b r, rest = b :: r → child r ≠ .nil ∧ (child r).Sound ∧ ∀ path, held (b :: path) = (child r).content path) :
    ∃ slots', place slots rest value child = some slots' ∧ Placed slots slots' rest held := by
  cases rest with
  | nil =>
    obtain ⟨hvalue, hheld⟩ := hvalue rfl
    refine ⟨_, rfl, ?_, fun h => h, hvalue, ?_⟩
    · intro path
      cases path with
      | nil => simp [slot, hheld]
      | cons a path => simp [slot]
    · intro e he
      cases e with
      | none => exact hvalue
      | some i => exact he
  | cons b r =>
    obtain ⟨hnil, hsound, hheld⟩ := hchild b r rfl
    obtain ⟨hb, -⟩ := nibbles_cons.mp hrest
    have hi := index_of_lt hb
    refine ⟨(slots.1, Function.update slots.2 ⟨b.toNat, hb⟩ (child r)), by simp [place, hi], ?_, ?_, ?_, ?_⟩
    · intro path
      rw [slot_update hi]
      cases path with
      | nil => simp
      | cons a path =>
        by_cases hab : a = b
        · subst hab
          simp [hheld]
        · simp [hab]
    · intro h
      exact sound_update h _ hsound
    · simp [entryOf, hi, Occupied, hnil]
    · intro e he
      exact occupied_update he hnil

theorem exists_placed_leaf (slots : GoSlice × (Fin 16 → Node)) (hrest : Nibbles rest) (hvalue : value ≠ none) :
    ∃ slots', place slots rest value (fun r => leaf r value) = some slots' ∧
      Placed slots slots' rest fun path => if path = rest then value else none := by
  refine exists_placed hrest ?_ ?_
  · rintro rfl
    exact ⟨hvalue, if_pos rfl⟩
  · rintro b r rfl
    refine ⟨by simp [leaf], ⟨(nibbles_cons.mp hrest).2, hvalue⟩, ?_⟩
    intro path
    simp

theorem content_splitAt (common : Bytes) (slots : GoSlice × (Fin 16 → Node)) (path : Bytes) :
    (splitAt C common slots).content path = if common <+: path then slot slots (path.drop common.length) else none := by
  unfold splitAt
  split
  · rename_i hnil
    subst hnil
    simp [content_branch]
  · rw [extension, content_extension, single, if_pos rfl, content_rehash, content_branch]

theorem sound_splitAt (hcommon : Nibbles common) (hsound : ∀ i, (slots.2 i).Sound)
    (htwo : ∃ e e', e ≠ e' ∧ Occupied slots e ∧ Occupied slots e') : (splitAt C common slots).Sound ∧ ¬(splitAt C common slots).Bare := by
  have hbranch : ((Node.mk .branch [] slots.1 slots.2 []).rehash C).Sound := Sound.rehash ⟨hsound, .inl htwo⟩
  unfold splitAt
  split
  · exact ⟨hbranch, rehash_bare.not.mpr (by simp [Bare])⟩
  · rename_i hne
    refine ⟨⟨hcommon, rehash_inner.mpr trivial, hbranch⟩, ?_⟩
    cases common with
    | nil => contradiction
    | cons b common => simp [extension, Bare]

theorem two_occupied {slots₀ : GoSlice × (Fin 16 → Node)}
    (hr : Nibbles r) (hs : Nibbles s) (hpart : r.head? ≠ s.head?) (h₁ : Placed slots₀ slots₁ r held) (h₂ : Placed slots₁ slots₂ s held') :
    ∃ e e', e ≠ e' ∧ Occupied slots₂ e ∧ Occupied slots₂ e' := by
  refine ⟨entryOf r, entryOf s, ?_, h₂.kept _ h₁.occupied, h₂.occupied⟩
  intro heq
  apply hpart
  cases r with
  | nil =>
    cases s with
    | nil => rfl
    | cons b s => simp [entryOf, index_of_lt (nibbles_cons.mp hs).1] at heq
  | cons a r =>
    have ha := index_of_lt (nibbles_cons.mp hr).1
    cases s with
    | nil => simp [entryOf, ha] at heq
    | cons b s =>
      simp only [entryOf, List.head?_cons, Option.bind_some] at heq ⊢
      rw [ha] at heq
      rw [index_inj ha heq.symm]

theorem slot_two (h₁ : Placed (none, fun _ => .nil) slots₁ r held) (h₂ : Placed slots₁ slots₂ s held') (path : Bytes) :
    slot slots₂ path = if path.head? = s.head? then held' path else if path.head? = r.head? then held path else none := by
  rw [h₂.content, h₁.content]
  congr 2
  cases path with
  | nil => rfl
  | cons b rest =>
    simp only [slot]
    cases index b <;> rfl

theorem drop_length_append_iff : common ++ r <+: path ↔ common <+: path ∧ r <+: path.drop common.length := by
  constructor
  · rintro ⟨t, rfl⟩
    exact ⟨⟨r ++ t, by simp⟩, by simp⟩
  · rintro ⟨⟨t, rfl⟩, h⟩
    rw [drop_left] at h
    exact (prefix_append_right_inj common).mpr h

theorem content_add_eq {value : Bytes} (held : Bytes → Option Bytes)
    (hn : ∀ path, n.content path = if common <+: path then held (path.drop common.length) else none)
    (hslot : ∀ path, slot slots path = if path = s then some value else held path) :
    (splitAt C common slots).content = Function.update n.content (common ++ s) (some value) := by
  funext path
  rw [content_splitAt]
  by_cases hcommon : common <+: path
  · obtain ⟨rest, rfl⟩ := hcommon
    rw [if_pos (prefix_append _ _), drop_left, hslot]
    by_cases hrest : rest = s
    · rw [hrest, if_pos rfl, Function.update_self]
    · rw [if_neg hrest, Function.update_of_ne (by simpa using hrest), hn, if_pos (prefix_append _ _), drop_left]
  · rw [if_neg hcommon, Function.update_of_ne, hn, if_neg hcommon]
    rintro rfl
    exact hcommon (prefix_append _ _)

structure Inserts (n n' : Node) (path value : Bytes) : Prop where
  sound : n'.Sound
  branch : n.IsBranch → n'.IsBranch
  bare : n'.Bare → n.Bare
  content : n'.content = Function.update n.content path (some value)

theorem insertIntoLeaf_spec {value : Bytes} {leafValue : GoSlice} (hleaf : Nibbles keyPath) (hvalue : leafValue ≠ none)
    (hpath : Nibbles path) (children : Fin 16 → Node) (hash : Bytes) :
    ∃ n', insertIntoLeaf C keyPath leafValue path value = some n' ∧ Inserts (.mk .leaf keyPath leafValue children hash) n' path value := by
  obtain ⟨common, r, s, rfl, rfl, hcp, hpart⟩ := commonPrefix_spec keyPath path
  obtain ⟨hcommon, hr⟩ := nibbles_append.mp hleaf
  obtain ⟨-, hs⟩ := nibbles_append.mp hpath
  by_cases hsame : r.head? = s.head?
  · obtain ⟨rfl, rfl⟩ := hpart hsame
    refine ⟨leaf (common ++ []) (some value), ?_, ⟨hleaf, by simp⟩, by simp [IsBranch], by simp [leaf, Bare], ?_⟩
    · simp only [insertIntoLeaf, hcp]
      rw [if_pos ⟨by simp, by simp⟩]
    · funext path
      by_cases hp : path = common ++ []
      · rw [hp, Function.update_self]
        simp
      · rw [Function.update_of_ne hp]
        simp only [content_leaf, content, if_neg hp]
  · have hne : ¬(common.length = (common ++ r).length ∧ common.length = (common ++ s).length) := by
      intro h
      simp only [length_append, Nat.left_eq_add, length_eq_zero_iff] at h
      exact hsame (by rw [h.1, h.2])
    obtain ⟨slots₁, hplace₁, h₁⟩ := exists_placed_leaf (none, fun _ => .nil) hr hvalue
    obtain ⟨slots₂, hplace₂, h₂⟩ := exists_placed_leaf slots₁ hs (Option.some_ne_none value)
    obtain ⟨hsound, hbare⟩ := sound_splitAt (C := C) hcommon (h₂.sound (h₁.sound fun _ => trivial)) (two_occupied hr hs hsame h₁ h₂)
    refine ⟨splitAt C common slots₂, ?_, hsound, by simp [IsBranch], fun h => absurd h hbare, ?_⟩
    · simp only [insertIntoLeaf, hcp]
      rw [if_neg hne]
      simp only [drop_left, take_left, hplace₁, hplace₂, bind, Option.bind]
    · refine content_add_eq (fun path => if path = r then leafValue else none) ?_ ?_
      · intro path
        rw [content]
        by_cases hp : common <+: path
        · obtain ⟨rest, rfl⟩ := hp
          simp
        · rw [if_neg hp, if_neg]
          rintro rfl
          exact hp (prefix_append _ _)
      · intro path
        rw [slot_two h₁ h₂]
        grind

theorem splitExtension_spec {value : Bytes} (hkey : Nibbles keyPath) (hinner : (children 0).Inner)
    (hchild : (children 0).Sound) (hpath : Nibbles path) (hlength : commonPrefix keyPath path ≠ keyPath.length) (extValue : GoSlice)
    (hash : Bytes) :
    ∃ n', splitExtension C keyPath children path value = some n' ∧
      Inserts (.mk .extension keyPath extValue children hash) n' path value := by
  obtain ⟨common, r, s, rfl, rfl, hcp, hpart⟩ := commonPrefix_spec keyPath path
  obtain ⟨hcommon, hr⟩ := nibbles_append.mp hkey
  obtain ⟨-, hs⟩ := nibbles_append.mp hpath
  have hne : r ≠ [] := by
    rintro rfl
    exact hlength (by simpa using hcp)
  have hsame : r.head? ≠ s.head? := fun h => hne (hpart h).1
  obtain ⟨slots₁, hplace₁, h₁⟩ : ∃ slots', place (none, fun _ => .nil) r none (fun rest => extension rest children) = some slots' ∧
      Placed (none, fun _ => .nil) slots' r fun path => if r <+: path then (children 0).content (path.drop r.length) else none := by
    refine exists_placed hr (fun h => absurd h hne) ?_
    rintro b r rfl
    refine ⟨by simp [extension], ⟨(nibbles_cons.mp hr).2, hinner, hchild⟩, ?_⟩
    intro path
    rw [extension, content_extension]
    simp
  obtain ⟨slots₂, hplace₂, h₂⟩ := exists_placed_leaf slots₁ hs (Option.some_ne_none value)
  obtain ⟨hsound, hbare⟩ := sound_splitAt (C := C) hcommon (h₂.sound (h₁.sound fun _ => trivial)) (two_occupied hr hs hsame h₁ h₂)
  refine ⟨splitAt C common slots₂, ?_, hsound, by simp [IsBranch], fun h => absurd h hbare, ?_⟩
  · simp only [splitExtension, hcp, drop_left, take_left, hplace₁, hplace₂, bind, Option.bind]
  · refine content_add_eq (fun path => if r <+: path then (children 0).content (path.drop r.length) else none) ?_ ?_
    · intro path
      rw [content_extension]
      simp only [drop_length_append_iff, length_append, ← drop_drop]
      split <;> split <;> simp_all
    · intro path
      rw [slot_two h₁ h₂]
      have hhead : r <+: path → path.head? = r.head? := by
        rintro ⟨t, rfl⟩
        cases r with
        | nil => contradiction
        | cons b r => rfl
      grind

/-! ## What is stored in a node -/

theorem IsBranch.ne_nil (h : n.IsBranch) : n ≠ .nil := by
  rintro rfl
  exact h

theorem Inner.ne_nil (h : n.Inner) : n ≠ .nil := by
  rintro rfl
  exact h

theorem Inner.not_bare (h : n.Inner) : ¬n.Bare := by
  rcases n with _ | ⟨_ | _ | _, _ | _, _, _, _⟩ <;> simp_all [Inner, Bare]

theorem slot_child (i : Fin 16) (path : Bytes) : slot (value, children) (UInt8.ofNat i :: path) = (children i).content path := by
  simp [slot]

theorem exists_stored (hsound : n.Sound) (hnil : n ≠ .nil) : ∃ path, n.content path ≠ none := by
  induction n with
  | nil => contradiction
  | mk type keyPath value children hash ih =>
    cases type with
    | leaf => exact ⟨keyPath, by simpa [content] using hsound.2⟩
    | extension =>
      obtain ⟨-, hinner, h⟩ := hsound
      obtain ⟨path, hpath⟩ := ih 0 h hinner.ne_nil
      exact ⟨keyPath ++ path, by rwa [content_extension_append]⟩
    | branch =>
      rw [content_branch]
      have hchild : ∀ i, (children i).Sound → children i ≠ .nil → ∃ path, slot (value, children) path ≠ none := by
        intro i hi hne
        obtain ⟨path, hpath⟩ := ih i hi hne
        exact ⟨_, by rwa [slot_child]⟩
      obtain ⟨h, ⟨e, -, -, he, -⟩ | ⟨i, hi⟩⟩ := hsound
      · cases e with
        | none => exact ⟨[], he⟩
        | some i => exact hchild i (h i) he
      · exact hchild i (h i) hi.ne_nil

theorem exists_of_occupied (hsound : ∀ i, (slots.2 i).Sound) (he : Occupied slots e) :
    ∃ path, slot slots path ≠ none ∧ entryOf path = e := by
  cases e with
  | none => exact ⟨[], he, rfl⟩
  | some i =>
    obtain ⟨path, hpath⟩ := exists_stored (hsound i) he
    exact ⟨_, by rwa [slot_child], by simp [entryOf]⟩

theorem exists_beside {hash : Bytes} (hsound : (Node.mk .branch keyPath value children hash).Sound) (hi : ¬(children i).IsBranch) :
    ∃ path, slot (value, children) path ≠ none ∧ entryOf path ≠ some i := by
  obtain ⟨e, he, hne⟩ : ∃ e, Occupied (value, children) e ∧ e ≠ some i := by
    obtain ⟨-, ⟨e, e', hne, he, he'⟩ | ⟨j, hj⟩⟩ := hsound
    · by_cases hei : e = some i
      · exact ⟨e', he', fun h => hne (hei.trans h.symm)⟩
      · exact ⟨e, he, hei⟩
    · refine ⟨some j, hj.ne_nil, ?_⟩
      rintro ⟨⟩
      exact hi hj
  obtain ⟨path, hpath, rfl⟩ := exists_of_occupied hsound.1 he
  exact ⟨path, hpath, hne⟩

theorem exists_two (hsound : n.Sound) (hinner : n.Inner) : ∃ p q, p ≠ q ∧ n.content p ≠ none ∧ n.content q ≠ none := by
  induction n with
  | nil => exact absurd rfl hinner.ne_nil
  | mk type keyPath value children hash ih =>
    cases type with
    | leaf => exact absurd hinner (by simp [Inner])
    | extension =>
      obtain ⟨-, hinner, h⟩ := hsound
      obtain ⟨p, q, hne, hp, hq⟩ := ih 0 h hinner
      exact ⟨keyPath ++ p, keyPath ++ q, by simpa using hne, by rwa [content_extension_append], by rwa [content_extension_append]⟩
    | branch =>
      rw [content_branch]
      obtain ⟨h, ⟨e, e', hne, he, he'⟩ | ⟨i, hi⟩⟩ := hsound
      · obtain ⟨p, hp, rfl⟩ := exists_of_occupied h he
        obtain ⟨q, hq, rfl⟩ := exists_of_occupied h he'
        exact ⟨p, q, fun heq => hne (congrArg entryOf heq), hp, hq⟩
      · have hi' : (children i).Inner := by
          rcases hc : children i with _ | ⟨_ | _ | _, _, _, _, _⟩ <;> simp_all [IsBranch, Inner]
        obtain ⟨p, q, hne, hp, hq⟩ := ih i (h i) hi'
        exact ⟨UInt8.ofNat i :: p, UInt8.ofNat i :: q, by simpa using hne, by rwa [slot_child], by rwa [slot_child]⟩

theorem inner_of_two (hbare : ¬n.Bare) (hne : p ≠ q) (hp : n.content p ≠ none) (hq : n.content q ≠ none) : n.Inner := by
  rcases n with _ | ⟨_ | _ | _, keyPath, value, children, hash⟩
  · exact absurd rfl hp
  · simp only [content, ne_eq, ite_eq_right_iff, not_forall] at hp hq
    obtain ⟨rfl, -⟩ := hp
    obtain ⟨rfl, -⟩ := hq
    exact absurd rfl hne
  · rintro rfl
    exact hbare trivial
  · trivial

/-! ## A child that is replaced -/

theorem slot_update_content (hi : index b = some i) (h : child.content = Function.update (children i).content rest v) :
    slot (value, Function.update children i child) = Function.update (slot (value, children)) (b :: rest) v := by
  funext path
  rw [slot_update hi]
  by_cases hp : path = b :: rest
  · simp [hp, h]
  · rw [Function.update_of_ne hp]
    split
    · rename_i hhead
      obtain ⟨path, rfl⟩ : ∃ path', path = b :: path' := ⟨_, eq_cons_of_mem_head? hhead⟩
      rw [tail_cons, h, Function.update_of_ne (by simpa using hp)]
      simp [slot, hi]
    · rfl

theorem content_extension_update (keyPath : Bytes) (value : GoSlice) (children : Fin 16 → Node) (hash : Bytes)
    (h : child.content = Function.update (children 0).content rest v) :
    (Node.mk .extension keyPath value (Function.update children 0 child) hash).content =
      Function.update (Node.mk .extension keyPath value children hash).content (keyPath ++ rest) v := by
  funext path
  rw [content_extension, Function.update_self, h]
  by_cases hp : keyPath <+: path
  · obtain ⟨path, rfl⟩ := hp
    rw [if_pos (prefix_append _ _), drop_left]
    by_cases hpath : path = rest
    · rw [hpath, Function.update_self, Function.update_self]
    · rw [Function.update_of_ne hpath, Function.update_of_ne (by simpa using hpath), content_extension_append]
  · rw [if_neg hp, Function.update_of_ne, content_extension, if_neg hp]
    rintro rfl
    exact hp (prefix_append _ _)

theorem commonPrefix_eq_length_iff : commonPrefix p q = p.length ↔ p <+: q := by
  induction p generalizing q with
  | nil => simp [commonPrefix]
  | cons a p ih =>
    cases q with
    | nil => simp [commonPrefix]
    | cons b q =>
      by_cases hab : a = b
      · simp [commonPrefix, hab, ih]
      · simp [commonPrefix, hab]

/-- `insert` updates the content of a node at the path. By induction on the node. -/
theorem insert_spec (hsound : n.Sound) (hpath : Nibbles path) (value : Bytes) :
    ∃ n', insert C n path value = some n' ∧ Inserts n n' path value := by
  induction n generalizing path with
  | nil =>
    refine ⟨leaf path (some value), rfl, ⟨hpath, by simp⟩, by simp [IsBranch], by simp [leaf, Bare], ?_⟩
    funext path'
    by_cases hp : path' = path
    · simp [hp]
    · simp [hp]
  | mk type keyPath nodeValue children hash ih =>
    cases type with
    | leaf => exact insertIntoLeaf_spec hsound.1 hsound.2 hpath children hash
    | extension =>
      obtain ⟨hkey, hinner, hchild⟩ := hsound
      by_cases hcp : commonPrefix keyPath path = keyPath.length
      · obtain ⟨rest, rfl⟩ := commonPrefix_eq_length_iff.mp hcp
        obtain ⟨child, hinsert, h⟩ := ih 0 hchild (nibbles_append.mp hpath).2
        refine ⟨rehash C (.mk .extension keyPath nodeValue (Function.update children 0 child) hash), ?_, ?_, by simp [IsBranch], ?_, ?_⟩
        · simp only [insert, if_pos hcp, drop_left, hinsert, Option.map_some]
        · refine Sound.rehash ⟨hkey, ?_, ?_⟩
          · rw [Function.update_self]
            obtain ⟨p, q, hne, hp, hq⟩ := exists_two hchild hinner
            have hkept : ∀ p, (children 0).content p ≠ none → child.content p ≠ none := by
              intro p hp
              rw [h.content, Function.update_apply]
              split
              · simp
              · exact hp
            exact inner_of_two (fun hbare => hinner.not_bare (h.bare hbare)) hne (hkept p hp) (hkept q hq)
          · rw [Function.update_self]
            exact h.sound
        · rw [rehash_bare]
          cases keyPath <;> simp [Bare]
        · rw [content_rehash, content_extension_update _ _ _ _ h.content]
      · simp only [insert, if_neg hcp]
        exact splitExtension_spec hkey hinner hchild hpath hcp nodeValue hash
    | branch =>
      obtain ⟨hchildren, hentries⟩ := hsound
      cases path with
      | nil =>
        refine ⟨rehash C (.mk .branch keyPath (some value) children hash), rfl, Sound.rehash ⟨hchildren, ?_⟩,
          fun _ => rehash_isBranch.mpr trivial, ?_, ?_⟩
        · refine hentries.imp_left ?_
          rintro ⟨e, e', hne, he, he'⟩
          have hkept : ∀ e, Occupied (nodeValue, children) e → Occupied (some value, children) e := by
            rintro (_ | i) h
            · simp [Occupied]
            · exact h
          exact ⟨e, e', hne, hkept e he, hkept e' he'⟩
        · rw [rehash_bare]
          simp [Bare]
        · funext path'
          rw [content_rehash, content_branch, content_branch]
          cases path' with
          | nil => simp [slot]
          | cons b rest => simp [slot]
      | cons b rest =>
        obtain ⟨hb, hrest⟩ := nibbles_cons.mp hpath
        have hi := index_of_lt hb
        obtain ⟨child, hinsert, h⟩ := ih ⟨b.toNat, hb⟩ (hchildren _) hrest
        have hnil : child ≠ .nil := by
          rintro rfl
          have := congrFun h.content rest
          simp at this
        refine ⟨rehash C (.mk .branch keyPath nodeValue (Function.update children ⟨b.toNat, hb⟩ child) hash), ?_,
          Sound.rehash ⟨sound_update hchildren _ h.sound, ?_⟩, fun _ => rehash_isBranch.mpr trivial, ?_, ?_⟩
        · simp only [insert, hi, hinsert, Option.map_some]
        · rcases hentries with ⟨e, e', hne, he, he'⟩ | ⟨j, hj⟩
          · exact .inl ⟨e, e', hne, occupied_update he hnil, occupied_update he' hnil⟩
          · refine .inr ⟨j, ?_⟩
            rw [Function.update_apply]
            split
            · rename_i hji
              exact h.branch (hji ▸ hj)
            · exact hj
        · rw [rehash_bare]
          simp [Bare]
        · rw [content_rehash, content_branch, content_branch, slot_update_content hi h.content]

end Node

end NeoCoin.Internal.Trie
