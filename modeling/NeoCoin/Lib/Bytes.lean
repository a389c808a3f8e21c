import NeoCoin.Lib.Result
import Mathlib.Data.List.Basic
import Mathlib.Data.List.Nodup
import Mathlib.Tactic.IntervalCases
import Mathlib.Tactic.NormNum
import Mathlib.Tactic.Ring

/-!
# Byte strings

A Go string and a Go byte slice are both lists of `UInt8` here. This module has the encodings of Go's standard library that programs meet
most often: hexadecimal, base64 and decimal text, and fixed-width integers.
-/

namespace GoLib

open List

theorem forall_mem_concat {α : Type*} {P : α → Prop} {l : List α} {x : α} : (∀ a ∈ l ++ [x], P a) ↔ (∀ a ∈ l, P a) ∧ P x := by
  rw [forall_mem_append, forall_mem_singleton]

variable {c d : UInt8} {n m k : Nat}

/-- A Go string, or the contents of a Go byte slice. -/
abbrev Bytes := List UInt8

/-- A Go byte slice: `none` is the nil slice, which Go code can tell from an empty one. -/
abbrev GoSlice := Option Bytes

def GoSlice.bytes (s : GoSlice) : Bytes := s.getD []

@[simp] theorem GoSlice.bytes_some (b : Bytes) : GoSlice.bytes (some b) = b := rfl

@[simp] theorem GoSlice.bytes_none : GoSlice.bytes none = [] := rfl

/-- `append([]byte(nil), s...)`: a copy of the contents, nil when there are none. -/
def GoSlice.copy (b : Bytes) : GoSlice := if b = [] then none else some b

@[simp] theorem GoSlice.bytes_copy (b : Bytes) : (GoSlice.copy b).bytes = b := by
  unfold GoSlice.copy
  split
  · rename_i h
    exact h.symm
  · rfl

def str (s : String) : Bytes := s.toList.map fun c => UInt8.ofNat c.toNat

def text (b : Bytes) : String := String.ofList (b.map fun c => Char.ofNat c.toNat)

theorem forall_byte {P : UInt8 → Prop} (h : ∀ n : Fin 256, P (UInt8.ofNat n.val)) (b : UInt8) : P b := by
  have := h ⟨b.toNat, b.toNat_lt⟩
  simpa using this

/-! ## Splitting at a separator -/

theorem split_at_sep {α : Type*} (P : α → Prop) {xs ys r r' : List α} {c d : α} (hx : ∀ a ∈ xs, P a) (hy : ∀ a ∈ ys, P a)
    (hc : ¬P c) (hd : ¬P d) (h : xs ++ c :: r = ys ++ d :: r') : xs = ys ∧ c = d ∧ r = r' := by
  induction xs generalizing ys with
  | nil =>
    cases ys with
    | nil =>
      simp only [nil_append, List.cons.injEq] at h
      exact ⟨rfl, h.1, h.2⟩
    | cons y ys =>
      simp only [nil_append, cons_append, List.cons.injEq] at h
      exact absurd (h.1 ▸ hy y (.head _)) hc
  | cons x xs ih =>
    cases ys with
    | nil =>
      simp only [nil_append, cons_append, List.cons.injEq] at h
      exact absurd (h.1 ▸ hx x (.head _)) hd
    | cons y ys =>
      simp only [cons_append, List.cons.injEq] at h
      obtain ⟨rfl, hrest⟩ := h
      obtain ⟨rfl, h2, h3⟩ := ih (fun a ha => hx a (.tail _ ha))
        (fun a ha => hy a (.tail _ ha)) hrest
      exact ⟨rfl, h2, h3⟩

/-! ## Hexadecimal text (`encoding/hex`) -/

def hexDigit (n : UInt8) : UInt8 := if n < 10 then 0x30 + n else 0x57 + n

/-- `hex.EncodeToString`: two lower-case digits a byte, high nibble first. -/
def hexEncode : Bytes → Bytes
  | [] => []
  | b :: bs => hexDigit (b >>> 4) :: hexDigit (b &&& 0x0f) :: hexEncode bs

def fromHexChar (c : UInt8) : Option UInt8 :=
  if 0x30 ≤ c ∧ c ≤ 0x39 then some (c - 0x30)
  else if 0x61 ≤ c ∧ c ≤ 0x66 then some (c - 0x61 + 10)
  else if 0x41 ≤ c ∧ c ≤ 0x46 then some (c - 0x41 + 10)
  else none

/-- The message of `hex.InvalidByteError`: the byte as a rune, in the format `%#U`. -/
def invalidByteMessage (c : UInt8) : String :=
  let hex := (text (hexEncode [c])).toUpper
  -- `%#U` shows the rune itself only when it is printable
  let printable := (0x20 ≤ c ∧ c ≤ 0x7e) ∨ (0xa1 ≤ c ∧ c ≠ 0xad)
  "encoding/hex: invalid byte: U+00" ++ hex ++ (if printable then " '" ++ text [c] ++ "'" else "")

/-- `hex.DecodeString`. A bad digit is reported before an odd length is. -/
def hexDecode : Bytes → Result Bytes
  | [] => .ok []
  | [p] =>
    match fromHexChar p with
    | none => .error (invalidByteMessage p)
    | some _ => .error "encoding/hex: odd length hex string"
  | p :: q :: rest =>
    match fromHexChar p, fromHexChar q with
    | none, _ => .error (invalidByteMessage p)
    | some _, none => .error (invalidByteMessage q)
    | some a, some b => (hexDecode rest).map (((a <<< 4) ||| b) :: ·)

theorem fromHexChar_hexDigit (b : UInt8) :
    ∃ x y, fromHexChar (hexDigit (b >>> 4)) = some x ∧ fromHexChar (hexDigit (b &&& 0x0f)) = some y ∧ (x <<< 4) ||| y = b := by
  have h : ∀ b : UInt8, fromHexChar (hexDigit (b >>> 4)) = some (b >>> 4) ∧
      fromHexChar (hexDigit (b &&& 0x0f)) = some (b &&& 0x0f) ∧ ((b >>> 4) <<< 4) ||| (b &&& 0x0f) = b :=
    forall_byte (by decide +kernel)
  exact ⟨_, _, (h b).1, (h b).2.1, (h b).2.2⟩

@[simp] theorem hexDecode_hexEncode (b : Bytes) : hexDecode (hexEncode b) = .ok b := by
  induction b with
  | nil => rfl
  | cons x xs ih =>
    obtain ⟨u, v, hu, hv, huv⟩ := fromHexChar_hexDigit x
    simp only [hexEncode, hexDecode, hu, hv, ih, Except.map, huv]

variable {b : Bytes}

theorem hexEncode_inj {a : Bytes} : hexEncode a = hexEncode b ↔ a = b := by
  constructor
  · intro h
    have := congrArg hexDecode h
    rw [hexDecode_hexEncode, hexDecode_hexEncode] at this
    exact Except.ok.inj this
  · intro h
    rw [h]

theorem hexEncode_ne_nil (h : 0 < b.length) : hexEncode b ≠ [] := by
  intro hnil
  obtain rfl : b = [] := hexEncode_inj.mp hnil
  exact absurd h (by decide)

theorem hexDecode_cons_cons {p q : UInt8} {rest : Bytes} (h : hexDecode (p :: q :: rest) = .ok b) :
    ∃ x y bs, fromHexChar p = some x ∧ fromHexChar q = some y ∧ hexDecode rest = .ok bs ∧ b = ((x <<< 4) ||| y) :: bs := by
  simp only [hexDecode] at h
  split at h
  · simp at h
  · simp at h
  · rename_i x y hx hy
    cases hr : hexDecode rest with
    | error e => rw [hr] at h; simp [Except.map] at h
    | ok bs =>
      rw [hr] at h
      simp only [Except.map, Except.ok.injEq] at h
      exact ⟨x, y, bs, hx, hy, rfl, h.symm⟩

theorem hexDecode_length {s : Bytes} (h : hexDecode s = .ok b) : s.length = 2 * b.length := by
  induction b generalizing s with
  | nil =>
    match s, h with
    | [], _ => rfl
    | [p], h =>
      simp only [hexDecode] at h
      split at h <;> simp at h
    | p :: q :: rest, h =>
      obtain ⟨_, _, _, _, _, _, hb⟩ := hexDecode_cons_cons h
      simp at hb
  | cons x xs ih =>
    match s, h with
    | [], h => simp [hexDecode] at h
    | [p], h =>
      simp only [hexDecode] at h
      split at h <;> simp at h
    | p :: q :: rest, h =>
      obtain ⟨_, _, bs, _, _, hr, hb⟩ := hexDecode_cons_cons h
      simp only [List.cons.injEq] at hb
      have := ih (hb.2 ▸ hr)
      simp only [length_cons]
      omega

theorem hexDecode_digits {s : Bytes} (h : hexDecode s = .ok b) : ∀ c ∈ s, (fromHexChar c).isSome := by
  induction b generalizing s with
  | nil =>
    have := hexDecode_length h
    simp only [length_nil, Nat.mul_zero, length_eq_zero_iff] at this
    simp [this]
  | cons x xs ih =>
    match s, h with
    | [], _ => simp
    | [p], h => have := hexDecode_length h; simp at this; omega
    | p :: q :: rest, h =>
      obtain ⟨u, v, bs, hu, hv, hr, hb⟩ := hexDecode_cons_cons h
      simp only [List.cons.injEq] at hb
      intro c hc
      simp only [mem_cons] at hc
      rcases hc with rfl | rfl | hc
      · simp [hu]
      · simp [hv]
      · exact ih (hb.2 ▸ hr) c hc

/-! ### The spelling of a decoded text -/

def isUpperHex (c : UInt8) : Bool := 0x41 ≤ c ∧ c ≤ 0x46

theorem fromHexChar_inj {x : UInt8} (hc : fromHexChar c = some x) (hd : fromHexChar d = some x)
    (hu : isUpperHex c = isUpperHex d) : c = d := by
  have h : ∀ c : UInt8, ∀ x, fromHexChar c = some x →
      c = (if isUpperHex c then x + 0x37 else if x < 10 then x + 0x30 else x + 0x57) := by
    intro c x h
    simp only [fromHexChar] at h
    simp only [isUpperHex]
    grind
  rw [h c x hc, h d x hd, hu]

theorem nibbles_inj {c' d' x y x' y' : UInt8} (hx : fromHexChar c = some x) (hy : fromHexChar d = some y)
    (hx' : fromHexChar c' = some x') (hy' : fromHexChar d' = some y') (h : (x <<< 4) ||| y = (x' <<< 4) ||| y') : x = x' ∧ y = y' := by
  have hlt : ∀ c : UInt8, ∀ x, fromHexChar c = some x → x < 16 := by
    intro c x h
    simp only [fromHexChar] at h
    grind
  have hinv : ∀ x y : Fin 16, ((UInt8.ofNat x.val <<< 4) ||| UInt8.ofNat y.val) >>> 4 = UInt8.ofNat x.val ∧
      ((UInt8.ofNat x.val <<< 4) ||| UInt8.ofNat y.val) &&& 0x0f = UInt8.ofNat y.val := by decide
  have hget : ∀ x y : UInt8, x < 16 → y < 16 → ((x <<< 4) ||| y) >>> 4 = x ∧ ((x <<< 4) ||| y) &&& 0x0f = y := by
    intro x y hx hy
    have := hinv ⟨x.toNat, by simpa [UInt8.lt_iff_toNat_lt] using hx⟩ ⟨y.toNat, by simpa [UInt8.lt_iff_toNat_lt] using hy⟩
    simpa using this
  have h1 := hget x y (hlt _ _ hx) (hlt _ _ hy)
  have h2 := hget x' y' (hlt _ _ hx') (hlt _ _ hy')
  constructor
  · rw [← h1.1, ← h2.1, h]
  · rw [← h1.2, ← h2.2, h]

theorem hexDecode_inj {s t : Bytes} (hs : hexDecode s = .ok b) (ht : hexDecode t = .ok b)
    (hcase : s.map isUpperHex = t.map isUpperHex) : s = t := by
  induction b generalizing s t with
  | nil =>
    have h1 := hexDecode_length hs
    have h2 := hexDecode_length ht
    simp only [length_nil, Nat.mul_zero, length_eq_zero_iff] at h1 h2
    rw [h1, h2]
  | cons x xs ih =>
    match s, t, hs, ht, hcase with
    | [], _, hs, _, _ => simp [hexDecode] at hs
    | [p], _, hs, _, _ => have := hexDecode_length hs; simp at this; omega
    | _, [], _, ht, _ => simp [hexDecode] at ht
    | _, [p], _, ht, _ => have := hexDecode_length ht; simp at this; omega
    | p :: q :: rest, p' :: q' :: rest', hs, ht, hcase =>
      obtain ⟨u, v, bs, hu, hv, hr, hb⟩ := hexDecode_cons_cons hs
      obtain ⟨u', v', bs', hu', hv', hr', hb'⟩ := hexDecode_cons_cons ht
      simp only [List.cons.injEq] at hb hb'
      simp only [map_cons, List.cons.injEq] at hcase
      obtain ⟨rfl, rfl⟩ := nibbles_inj hu hv hu' hv' (hb.1.symm.trans hb'.1)
      rw [fromHexChar_inj hu hu' hcase.1, fromHexChar_inj hv hv' hcase.2.1, ih (hb.2 ▸ hr) (hb'.2 ▸ hr') hcase.2.2]

/-! ## Base64 text (`base64.StdEncoding`) -/

def base64Digit (n : Nat) : UInt8 :=
  UInt8.ofNat (if n < 26 then 0x41 + n else if n < 52 then 0x47 + n else if n < 62 then n - 4 else if n = 62 then 0x2b else 0x2f)

/-- `base64.StdEncoding.EncodeToString`: four digits for three bytes, the last group padded with `=`. -/
def base64Encode : Bytes → Bytes
  | [] => []
  | [a] => [base64Digit (a.toNat / 4), base64Digit (a.toNat % 4 * 16), 0x3d, 0x3d]
  | [a, b] =>
    [base64Digit (a.toNat / 4), base64Digit (a.toNat % 4 * 16 + b.toNat / 16), base64Digit (b.toNat % 16 * 4), 0x3d]
  | a :: b :: c :: rest =>
    base64Digit (a.toNat / 4) :: base64Digit (a.toNat % 4 * 16 + b.toNat / 16) ::
      base64Digit (b.toNat % 16 * 4 + c.toNat / 64) :: base64Digit (c.toNat % 64) :: base64Encode rest

theorem base64Encode_length (b : Bytes) : (base64Encode b).length = (b.length + 2) / 3 * 4 := by
  fun_induction base64Encode b with
  | case1 => rfl
  | case2 a => simp
  | case3 a b => simp
  | case4 a b c rest ih =>
    simp only [length_cons, ih]
    omega

def isBase64 (c : UInt8) : Bool :=
  (0x41 ≤ c ∧ c ≤ 0x5a) ∨ (0x61 ≤ c ∧ c ≤ 0x7a) ∨ (0x30 ≤ c ∧ c ≤ 0x39) ∨ c = 0x2b ∨ c = 0x2f ∨ c = 0x3d

theorem isBase64_base64Digit (n : Nat) : isBase64 (base64Digit n) = true ∧ base64Digit n ≠ 0x3d := by
  have hdigit : ∀ n : Fin 64, isBase64 (base64Digit n.val) = true ∧ base64Digit n.val ≠ 0x3d := by decide
  by_cases h : n < 64
  · exact hdigit ⟨n, h⟩
  · have hlast : base64Digit n = 0x2f := by
      rw [base64Digit, if_neg (by omega), if_neg (by omega), if_neg (by omega), if_neg (by omega)]
      rfl
    rw [hlast]
    decide

theorem base64Encode_chars (b : Bytes) : ∀ c ∈ base64Encode b, isBase64 c = true := by
  have hpad : isBase64 0x3d = true := by decide
  fun_induction base64Encode b with
  | case1 => simp
  | case2 | case3 => simp [isBase64_base64Digit, hpad]
  | case4 a b c rest ih => simpa [isBase64_base64Digit] using ih

def base64Value (c : UInt8) : Nat := (range 64).findIdx (base64Digit · = c)

/-- `base64.StdEncoding.DecodeString`, of what was encoded. -/
def base64Decode : Bytes → Bytes
  | p :: q :: r :: s :: rest =>
    let a := UInt8.ofNat (base64Value p * 4 + base64Value q / 16)
    let b := UInt8.ofNat (base64Value q % 16 * 16 + base64Value r / 4)
    if r = 0x3d then [a]
    else if s = 0x3d then [a, b]
    else a :: b :: UInt8.ofNat (base64Value r % 4 * 64 + base64Value s) :: base64Decode rest
  | _ => []

theorem base64Decode_encode (b : Bytes) : base64Decode (base64Encode b) = b := by
  have hvalue : ∀ {n : Nat}, n < 64 → base64Value (base64Digit n) = n := by
    intro n h
    exact (show ∀ n : Fin 64, base64Value (base64Digit n.val) = n.val by decide) ⟨n, h⟩
  have hbyte : ∀ {n : Nat} (a : UInt8), n = a.toNat → UInt8.ofNat n = a := by
    rintro _ a rfl
    exact UInt8.ofNat_toNat
  fun_induction base64Encode b with
  | case1 => rfl
  | case2 a =>
    have := a.toNat_lt
    simp only [base64Decode, if_true]
    rw [hvalue (by omega), hvalue (by omega), hbyte a (by omega)]
  | case3 a b =>
    have := a.toNat_lt
    have := b.toNat_lt
    simp only [base64Decode, (isBase64_base64Digit _).2, if_false, if_true]
    rw [hvalue (by omega), hvalue (by omega), hvalue (by omega), hbyte a (by omega), hbyte b (by omega)]
  | case4 a b c rest ih =>
    have := a.toNat_lt
    have := b.toNat_lt
    have := c.toNat_lt
    simp only [base64Decode, (isBase64_base64Digit _).2, if_false, ih]
    rw [hvalue (by omega), hvalue (by omega), hvalue (by omega), hvalue (by omega), hbyte a (by omega), hbyte b (by omega),
      hbyte c (by omega)]

theorem base64Encode_inj {x y : Bytes} (h : base64Encode x = base64Encode y) : x = y := by
  rw [← base64Decode_encode x, h, base64Decode_encode]

/-! ## Decimal text -/

def decimal (n : Nat) : Bytes := (Nat.toDigits 10 n).map fun c => UInt8.ofNat c.toNat

def decimalInt (z : Int) : Bytes := if z < 0 then 0x2d :: decimal z.natAbs else decimal z.natAbs

def isDecimal (c : UInt8) : Prop := 0x30 ≤ c ∧ c ≤ 0x39

theorem isDecimal_ofNat_of_isDigit {c : Char} (h : c.isDigit = true) : isDecimal (UInt8.ofNat c.toNat) := by
  simp only [Char.isDigit, Bool.and_eq_true, decide_eq_true_eq] at h
  have h1 : 48 ≤ c.toNat := h.1
  have h2 : c.toNat ≤ 57 := h.2
  simp only [isDecimal, UInt8.le_iff_toNat_le, UInt8.toNat_ofNat']
  constructor
  · show 48 ≤ _; omega
  · show _ ≤ 57; omega

theorem decimal_digits (n : Nat) : ∀ c ∈ decimal n, isDecimal c := by
  intro c hc
  simp only [decimal, mem_map] at hc
  obtain ⟨d, hd, rfl⟩ := hc
  exact isDecimal_ofNat_of_isDigit (Nat.isDigit_of_mem_toDigits (by omega) (by omega) hd)

theorem decimal_chars (n : Nat) : (decimal n).map (fun b => Char.ofNat b.toNat) = Nat.toDigits 10 n := by
  have h : ∀ c ∈ Nat.toDigits 10 n, Char.ofNat (UInt8.ofNat c.toNat).toNat = c := by
    intro c hc
    have hd : c.isDigit = true := Nat.isDigit_of_mem_toDigits (by omega) (by omega) hc
    simp only [Char.isDigit, Bool.and_eq_true, decide_eq_true_eq] at hd
    have h2 : c.toNat ≤ 57 := hd.2
    rw [UInt8.toNat_ofNat', Nat.mod_eq_of_lt (by omega), Char.ofNat_toNat]
  rw [decimal, map_map]
  conv_rhs => rw [← map_id (Nat.toDigits 10 n)]
  exact map_congr_left h

theorem decimal_inj (h : decimal m = decimal n) : m = n := by
  have hd : Nat.toDigits 10 m = Nat.toDigits 10 n := by rw [← decimal_chars, h, decimal_chars]
  rw [← Nat.ofDigitChars_ten_toDigits (n := m), hd, Nat.ofDigitChars_ten_toDigits]

theorem decimalInt_inj {z z' : Int} (h : decimalInt z = decimalInt z') : z = z' := by
  -- a minus sign is not a digit
  have hsign : ∀ m n : Nat, 0x2d :: decimal m ≠ decimal n := by
    intro m n heq
    have hdigit := decimal_digits n 0x2d (heq ▸ (.head _))
    exact absurd hdigit (by unfold isDecimal; decide)
  unfold decimalInt at h
  split at h
  · split at h
    · have habs := decimal_inj (List.cons.inj h).2
      omega
    · exact absurd h (hsign _ _)
  · split at h
    · exact absurd h.symm (hsign _ _)
    · have habs := decimal_inj h
      omega

theorem decimal_append_inj {r r' : Bytes} (hc : ¬isDecimal c) (hd : ¬isDecimal d)
    (h : decimal m ++ c :: r = decimal n ++ d :: r') : m = n ∧ c = d ∧ r = r' := by
  obtain ⟨h1, h2⟩ := split_at_sep isDecimal (decimal_digits m) (decimal_digits n) hc hd h
  exact ⟨decimal_inj h1, h2⟩

/-! ## Fixed-width integers (`encoding/binary`) -/

def leBytes : Nat → Nat → Bytes
  | 0, _ => []
  | k + 1, n => UInt8.ofNat n :: leBytes k (n / 256)

@[simp] theorem leBytes_length (k n : Nat) : (leBytes k n).length = k := by
  induction k generalizing n with
  | zero => rfl
  | succ k ih => simp [leBytes, ih]

theorem leBytes_inj (hm : m < 256 ^ k) (hn : n < 256 ^ k) (h : leBytes k m = leBytes k n) : m = n := by
  induction k generalizing m n with
  | zero => simp at hm hn; omega
  | succ k ih =>
    simp only [leBytes, List.cons.injEq] at h
    have h1 := congrArg UInt8.toNat h.1
    simp only [UInt8.toNat_ofNat'] at h1
    have h2 := ih (Nat.div_lt_of_lt_mul (by rw [pow_succ] at hm; omega))
      (Nat.div_lt_of_lt_mul (by rw [pow_succ] at hn; omega)) h.2
    omega

/-- The number that little-endian bytes spell (`binary.LittleEndian`). -/
def leNat : Bytes → Nat
  | [] => 0
  | b :: rest => b.toNat + 256 * leNat rest

@[simp] theorem leNat_leBytes (h : n < 256 ^ k) : leNat (leBytes k n) = n := by
  induction k generalizing n with
  | zero =>
    rw [Nat.pow_zero] at h
    simp only [leBytes, leNat]
    omega
  | succ k ih =>
    rw [Nat.pow_succ] at h
    rw [leBytes, leNat, ih (by omega), UInt8.toNat_ofNat']
    omega

theorem leBytes_uint64_inj {x y : UInt64} (h : leBytes 8 x.toNat = leBytes 8 y.toNat) : x = y := by
  have hx := x.toNat_lt
  have hy := y.toNat_lt
  exact UInt64.toNat_inj.mp (leBytes_inj (by norm_num; omega) (by norm_num; omega) h)

theorem leBytes_uint32_inj {x y : UInt32} (h : leBytes 4 x.toNat = leBytes 4 y.toNat) : x = y :=
  UInt32.toNat_inj.mp (leBytes_inj x.toNat_lt y.toNat_lt h)

theorem leBytes_int64_inj {x y : Int64} (h : leBytes 8 x.toUInt64.toNat = leBytes 8 y.toUInt64.toNat) : x = y :=
  Int64.toBitVec_inj.mp (congrArg UInt64.toBitVec (leBytes_uint64_inj h))

theorem toInt_toInt64 {h : UInt64} (hlt : h.toNat < 2 ^ 63) : h.toInt64.toInt = h.toNat := by
  show h.toBitVec.toInt = h.toBitVec.toNat
  rw [BitVec.toInt_eq_toNat_of_lt]
  have : h.toBitVec.toNat = h.toNat := rfl
  omega

def beBytes : Nat → Nat → Bytes
  | 0, _ => []
  | k + 1, n => UInt8.ofNat (n >>> (8 * k)) :: beBytes k n

@[simp] theorem beBytes_length (k n : Nat) : (beBytes k n).length = k := by
  induction k with
  | zero => rfl
  | succ k ih => simp [beBytes, ih]

/-- The number a byte string spells in base 256, first byte highest (`big.Int.SetBytes`). -/
def beNat (b : Bytes) : Nat := b.foldl (fun n x => n * 256 + x.toNat) 0

/-- Reading fixed-width bytes after others, by induction on the width. -/
theorem foldl_beBytes (k n a : Nat) : (beBytes k n).foldl (fun n x => n * 256 + x.toNat) a = a * 256 ^ k + n % 256 ^ k := by
  induction k generalizing a with
  | zero => simp [beBytes, Nat.mod_one]
  | succ k ih =>
    have hdigit : (UInt8.ofNat (n >>> (8 * k))).toNat = n / 256 ^ k % 256 := by
      rw [UInt8.toNat_ofNat', Nat.shiftRight_eq_div_pow, Nat.pow_mul]
    have hsplit : n % 256 ^ (k + 1) = n % 256 ^ k + 256 ^ k * (n / 256 ^ k % 256) := by rw [Nat.pow_succ, Nat.mod_mul]
    rw [beBytes, foldl_cons, ih, hdigit, hsplit, Nat.pow_succ]
    ring

@[simp] theorem beNat_beBytes (h : n < 256 ^ k) : beNat (beBytes k n) = n := by
  rw [beNat, foldl_beBytes, Nat.zero_mul, Nat.zero_add, Nat.mod_eq_of_lt h]

end GoLib
