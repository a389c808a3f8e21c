import NeoCoin.Lib.Bytes
import Mathlib.Data.List.Pairwise

/-!
# Ordered key-value maps

A bucket of an ordered key-value store: the entries in the order a cursor visits them, no key twice. Entries put in increasing order are
read back in that order (`entries_put_of_lt`), and `get` finds exactly the entries (`get_eq_some_iff`).
-/

namespace GoLib

/-- Keys that a store can order. -/
class KeyOrder (K : Type*) [LT K] : Prop where
  irrefl : ∀ a : K, ¬a < a
  trans : ∀ {a b c : K}, a < b → b < c → a < c
  eq_of_not_lt : ∀ {a b : K}, ¬a < b → ¬b < a → a = b

structure OrdMap (K V : Type*) [LT K] where
  entries : List (K × V)
  sorted : entries.Pairwise fun e e' => e.1 < e'.1
  deriving DecidableEq

namespace OrdMap

variable {K V : Type*} [LT K]

def empty : OrdMap K V := ⟨[], List.Pairwise.nil⟩

def get [DecidableEq K] (m : OrdMap K V) (k : K) : Option V := (m.entries.find? fun e => e.1 = k).map Prod.snd

@[simp] theorem get_empty [DecidableEq K] (k : K) : (empty : OrdMap K V).get k = none := rfl

def insertEntry [DecidableLT K] (k : K) (v : V) : List (K × V) → List (K × V)
  | [] => [(k, v)]
  | e :: es => if k < e.1 then (k, v) :: e :: es else if e.1 < k then e :: insertEntry k v es else (k, v) :: es

theorem insertEntry_cases [DecidableLT K] {k : K} {v : V} {es : List (K × V)} {e : K × V} (h : e ∈ insertEntry k v es) :
    e = (k, v) ∨ e ∈ es := by
  induction es with
  | nil => exact Or.inl (List.mem_singleton.mp h)
  | cons e' es ih =>
    unfold insertEntry at h
    split at h
    · exact List.mem_cons.mp h
    · split at h
      · rcases List.mem_cons.mp h with rfl | h
        · exact Or.inr (.head _)
        · rcases ih h with heq | hmem
          · exact Or.inl heq
          · exact Or.inr (.tail e' hmem)
      · rcases List.mem_cons.mp h with rfl | h
        · exact Or.inl rfl
        · exact Or.inr (.tail e' h)

section Order

variable [KeyOrder K] [DecidableLT K] [DecidableEq K]

omit [DecidableEq K] in
theorem sorted_insertEntry (k : K) (v : V) {es : List (K × V)} (h : es.Pairwise fun e e' => e.1 < e'.1) :
    (insertEntry k v es).Pairwise fun e e' => e.1 < e'.1 := by
  induction es with
  | nil => exact List.pairwise_singleton _ _
  | cons e es ih =>
    obtain ⟨hfirst, hrest⟩ := List.pairwise_cons.mp h
    unfold insertEntry
    split
    · rename_i hlt
      refine List.pairwise_cons.mpr ⟨?_, h⟩
      intro e' he'
      rcases List.mem_cons.mp he' with rfl | he'
      · exact hlt
      · exact KeyOrder.trans hlt (hfirst e' he')
    · rename_i hnot
      split
      · rename_i hgt
        refine List.pairwise_cons.mpr ⟨?_, ih hrest⟩
        intro e' he'
        rcases insertEntry_cases he' with rfl | he'
        · exact hgt
        · exact hfirst e' he'
      · rename_i hnot'
        refine List.pairwise_cons.mpr ⟨?_, hrest⟩
        intro e' he'
        rw [KeyOrder.eq_of_not_lt hnot hnot']
        exact hfirst e' he'

def put (m : OrdMap K V) (k : K) (v : V) : OrdMap K V := ⟨insertEntry k v m.entries, sorted_insertEntry k v m.sorted⟩

def delete (m : OrdMap K V) (k : K) : OrdMap K V := ⟨m.entries.filter fun e => e.1 ≠ k, m.sorted.filter _⟩

/-! ## What is in a map -/

omit [DecidableLT K] [DecidableEq K] in
theorem eq_of_key_eq {m : OrdMap K V} {e e' : K × V} (he : e ∈ m.entries) (he' : e' ∈ m.entries) (h : e.1 = e'.1) : e = e' := by
  obtain ⟨i, hi, rfl⟩ := List.getElem_of_mem he
  obtain ⟨j, hj, rfl⟩ := List.getElem_of_mem he'
  have hsorted := List.pairwise_iff_getElem.mp m.sorted
  rcases Nat.lt_trichotomy i j with hlt | rfl | hgt
  · have hkeys := hsorted i j hi hj hlt
    rw [h] at hkeys
    exact absurd hkeys (KeyOrder.irrefl _)
  · rfl
  · have hkeys := hsorted j i hj hi hgt
    rw [h] at hkeys
    exact absurd hkeys (KeyOrder.irrefl _)

omit [DecidableLT K] in
theorem get_eq_some_iff {m : OrdMap K V} {k : K} {v : V} : m.get k = some v ↔ (k, v) ∈ m.entries := by
  unfold get
  rw [Option.map_eq_some_iff]
  constructor
  · rintro ⟨e, he, rfl⟩
    have hkey : e.1 = k := by simpa using List.find?_some he
    rw [← hkey]
    exact List.mem_of_find?_eq_some he
  · intro hmem
    have hsome : (m.entries.find? fun e => e.1 = k).isSome := by
      rw [List.find?_isSome]
      exact ⟨(k, v), hmem, by simp⟩
    obtain ⟨e, he⟩ := Option.isSome_iff_exists.mp hsome
    have hkey : e.1 = k := by simpa using List.find?_some he
    refine ⟨e, he, ?_⟩
    rw [eq_of_key_eq (List.mem_of_find?_eq_some he) hmem hkey]

omit [DecidableEq K] in
theorem mem_insertEntry {k : K} {v : V} {es : List (K × V)} (h : es.Pairwise fun e e' => e.1 < e'.1) {e : K × V} :
    e ∈ insertEntry k v es ↔ e = (k, v) ∨ e ∈ es ∧ e.1 ≠ k := by
  induction es with
  | nil => simp [insertEntry]
  | cons e' es ih =>
    obtain ⟨hfirst, hrest⟩ := List.pairwise_cons.mp h
    have hne : ∀ {a : K × V}, k < a.1 → a.1 ≠ k := by
      intro a hlt heq
      rw [heq] at hlt
      exact KeyOrder.irrefl k hlt
    unfold insertEntry
    split
    · rename_i hlt
      have hall : ∀ a ∈ e' :: es, a.1 ≠ k := by
        intro a ha
        rcases List.mem_cons.mp ha with rfl | ha
        · exact hne hlt
        · exact hne (KeyOrder.trans hlt (hfirst a ha))
      rw [List.mem_cons]
      exact or_congr_right ⟨fun he => ⟨he, hall e he⟩, fun he => he.1⟩
    · rename_i hnot
      split
      · rename_i hgt
        have hne' : e'.1 ≠ k := by
          intro heq
          rw [heq] at hgt
          exact KeyOrder.irrefl k hgt
        rw [List.mem_cons, ih hrest, List.mem_cons]
        constructor
        · rintro (rfl | rfl | he)
          · exact Or.inr ⟨Or.inl rfl, hne'⟩
          · exact Or.inl rfl
          · exact Or.inr ⟨Or.inr he.1, he.2⟩
        · rintro (rfl | ⟨rfl | he, hkey⟩)
          · exact Or.inr (Or.inl rfl)
          · exact Or.inl rfl
          · exact Or.inr (Or.inr ⟨he, hkey⟩)
      · rename_i hnot'
        have hkey := KeyOrder.eq_of_not_lt hnot hnot'
        rw [List.mem_cons, List.mem_cons]
        constructor
        · rintro (rfl | he)
          · exact Or.inl rfl
          · exact Or.inr ⟨Or.inr he, hne (by rw [hkey]; exact hfirst e he)⟩
        · rintro (rfl | ⟨rfl | he, hother⟩)
          · exact Or.inl rfl
          · exact absurd hkey.symm hother
          · exact Or.inr he

theorem get_put (m : OrdMap K V) (k k' : K) (v : V) : (m.put k v).get k' = if k' = k then some v else m.get k' := by
  refine Option.ext ?_
  intro v'
  rw [get_eq_some_iff]
  change (k', v') ∈ insertEntry k v m.entries ↔ _
  rw [mem_insertEntry m.sorted, Prod.mk.injEq]
  split
  · rename_i hkey
    simp [hkey, eq_comm]
  · rename_i hkey
    simp [hkey, get_eq_some_iff]

@[simp] theorem get_put_self (m : OrdMap K V) (k : K) (v : V) : (m.put k v).get k = some v := by
  rw [get_put, if_pos rfl]

theorem get_put_of_ne (m : OrdMap K V) {k k' : K} (v : V) (h : k' ≠ k) : (m.put k v).get k' = m.get k' := by
  rw [get_put, if_neg h]

omit [DecidableEq K] in
theorem insertEntry_of_lt {k : K} (v : V) {es : List (K × V)} (h : ∀ e ∈ es, e.1 < k) : insertEntry k v es = es ++ [(k, v)] := by
  induction es with
  | nil => rfl
  | cons e es ih =>
    have hlt : e.1 < k := h e (.head _)
    have hnot : ¬k < e.1 := fun hgt => KeyOrder.irrefl _ (KeyOrder.trans hlt hgt)
    rw [insertEntry, if_neg hnot, if_pos hlt, ih fun e' he' => h e' (.tail e he'), List.cons_append]

omit [DecidableEq K] in
theorem entries_put_of_lt {m : OrdMap K V} {k : K} (v : V) (h : ∀ e ∈ m.entries, e.1 < k) : (m.put k v).entries = m.entries ++ [(k, v)] :=
  insertEntry_of_lt v h

omit [DecidableEq K] in
theorem foldl_put_entries (m : OrdMap K V) (es : List (K × V)) (h : (m.entries ++ es).Pairwise fun e e' => e.1 < e'.1) :
    (es.foldl (fun m e => m.put e.1 e.2) m).entries = m.entries ++ es := by
  induction es generalizing m with
  | nil => exact (List.append_nil _).symm
  | cons e es ih =>
    have hlast : (m.put e.1 e.2).entries = m.entries ++ [e] := by
      refine entries_put_of_lt e.2 ?_
      intro e' he'
      exact (List.pairwise_append.mp h).2.2 e' he' e (.head _)
    rw [List.foldl_cons, ih, hlast, List.append_assoc, List.singleton_append]
    rw [hlast, List.append_assoc, List.singleton_append]
    exact h

omit [DecidableLT K] [KeyOrder K] in
theorem mem_foldl_delete {m : OrdMap K V} {ks : List K} {e : K × V} : e ∈ (ks.foldl delete m).entries ↔ e ∈ m.entries ∧ e.1 ∉ ks := by
  induction ks generalizing m with
  | nil => simp
  | cons k ks ih =>
    rw [List.foldl_cons, ih, delete, List.mem_filter, decide_eq_true_eq, List.mem_cons, not_or, and_assoc]

omit [DecidableLT K] in
theorem get_foldl_delete (m : OrdMap K V) (ks : List K) {k : K} (h : k ∉ ks) : (ks.foldl delete m).get k = m.get k := by
  ext v
  rw [get_eq_some_iff, get_eq_some_iff, mem_foldl_delete]
  exact and_iff_left h

omit [DecidableLT K] [KeyOrder K] in
theorem foldl_delete_entries (m : OrdMap K V) (ks : List K) (h : ∀ e ∈ m.entries, e.1 ∈ ks) : (ks.foldl delete m).entries = [] := by
  refine List.eq_nil_iff_forall_not_mem.mpr fun e he => ?_
  obtain ⟨he, hnot⟩ := mem_foldl_delete.mp he
  exact hnot (h e he)

end Order

end OrdMap

/-! ## Big-endian keys -/

instance : KeyOrder Bytes where
  irrefl a := List.lt_irrefl a
  trans := List.lt_trans
  eq_of_not_lt h h' := List.le_antisymm (List.not_lt.mp h') (List.not_lt.mp h)

/-- Big-endian bytes are ordered as the numbers they write, as far as these fit. By induction on the width: the first byte decides, or
the rest does. -/
theorem beBytes_lt_beBytes {k a b : Nat} (h : a % 256 ^ k < b % 256 ^ k) : beBytes k a < beBytes k b := by
  induction k with
  | zero => simp [Nat.mod_one] at h
  | succ k ih =>
    have hsplit : ∀ n : Nat, n % 256 ^ (k + 1) = n % 256 ^ k + 256 ^ k * (n / 256 ^ k % 256) := by
      intro n
      rw [pow_succ, Nat.mod_mul]
    have hbyte : ∀ n : Nat, (UInt8.ofNat (n >>> (8 * k))).toNat = n / 256 ^ k % 256 := by
      intro n
      rw [UInt8.toNat_ofNat', Nat.shiftRight_eq_div_pow, pow_mul]
      rfl
    have hlow := Nat.mod_lt a (show 0 < 256 ^ k from Nat.pow_pos (by decide))
    have hlow' := Nat.mod_lt b (show 0 < 256 ^ k from Nat.pow_pos (by decide))
    rw [hsplit a, hsplit b] at h
    rcases Nat.lt_trichotomy (a / 256 ^ k % 256) (b / 256 ^ k % 256) with hlt | heq | hgt
    · refine List.Lex.rel ?_
      rw [UInt8.lt_iff_toNat_lt, hbyte, hbyte]
      exact hlt
    · have hsame : UInt8.ofNat (a >>> (8 * k)) = UInt8.ofNat (b >>> (8 * k)) := by
        rw [← UInt8.toNat_inj, hbyte, hbyte, heq]
      rw [beBytes, beBytes, hsame]
      refine List.Lex.cons (ih ?_)
      rw [heq] at h
      omega
    · exfalso
      have hmul := Nat.mul_le_mul_left (256 ^ k) (Nat.succ_le_of_lt hgt)
      rw [Nat.mul_succ] at hmul
      omega

end GoLib
