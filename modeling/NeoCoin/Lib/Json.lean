import Mathlib.Data.Nat.Digits.Defs
import NeoCoin.Lib.Bytes

/-!
# JSON text (`encoding/json`)

`json.Marshal` on the values verified programs hash or measure. A string is escaped as Go does by default: quotes, backslashes and control
bytes, the three bytes that matter inside HTML, the two Unicode line separators, and a replacement for bytes that are not UTF-8.
-/

namespace GoLib

open List
namespace Json

/-- `"` -/
def quote : UInt8 := 0x22

/-- `,` -/
def comma : UInt8 := 0x2c

def escapeAscii (b : UInt8) : Bytes :=
  if b = 0x5c ∨ b = quote then [0x5c, b]
  else if b = 0x08 then str "\\b"
  else if b = 0x0c then str "\\f"
  else if b = 0x0a then str "\\n"
  else if b = 0x0d then str "\\r"
  else if b = 0x09 then str "\\t"
  else if b < 0x20 ∨ b = 0x3c ∨ b = 0x3e ∨ b = 0x26 then str "\\u00" ++ hexEncode [b]
  else [b]

def isCont (b : UInt8) : Bool := 0x80 ≤ b ∧ b ≤ 0xbf

/-- The number of bytes of the UTF-8 sequence (of two bytes or more) that a byte string starts with, 0 when it starts with
none (`utf8.DecodeRune`). -/
def runeLen : Bytes → Nat
  | b0 :: b1 :: rest =>
    if 0xc2 ≤ b0 ∧ b0 ≤ 0xdf then (if isCont b1 then 2 else 0)
    else
      match rest with
      | [] => 0
      | b2 :: rest =>
        if 0xe0 ≤ b0 ∧ b0 ≤ 0xef then
          -- no overlong form and no surrogate
          let lo : UInt8 := if b0 = 0xe0 then 0xa0 else 0x80
          let hi : UInt8 := if b0 = 0xed then 0x9f else 0xbf
          if lo ≤ b1 ∧ b1 ≤ hi ∧ isCont b2 then 3 else 0
        else
          match rest with
          | [] => 0
          | b3 :: _ =>
            if 0xf0 ≤ b0 ∧ b0 ≤ 0xf4 then
              let lo : UInt8 := if b0 = 0xf0 then 0x90 else 0x80
              let hi : UInt8 := if b0 = 0xf4 then 0x8f else 0xbf
              if lo ≤ b1 ∧ b1 ≤ hi ∧ isCont b2 ∧ isCont b3 then 4 else 0
            else 0
  | _ => 0

def escapeLoop : Nat → Bytes → Bytes
  | 0, _ => []
  | _ + 1, [] => []
  | n + 1, b :: rest =>
    if b < 0x80 then escapeAscii b ++ escapeLoop n rest
    else if runeLen (b :: rest) = 0 then str "\\ufffd" ++ escapeLoop n rest
    else if (b :: rest).take 3 = [0xe2, 0x80, 0xa8] then str "\\u2028" ++ escapeLoop n (rest.drop 2)
    else if (b :: rest).take 3 = [0xe2, 0x80, 0xa9] then str "\\u2029" ++ escapeLoop n (rest.drop 2)
    else (b :: rest).take (runeLen (b :: rest)) ++ escapeLoop n (rest.drop (runeLen (b :: rest) - 1))

def string (s : Bytes) : Bytes := quote :: escapeLoop s.length s ++ [quote]

def nat (n : Nat) : Bytes := decimal n

def int (z : Int) : Bytes := decimalInt z

/-- A byte slice: its base64 text as a string, `null` for the nil slice. -/
def goSlice : GoSlice → Bytes
  | none => str "null"
  | some b => string (base64Encode b)

def field (name : String) (value : Bytes) : Bytes := string (str name) ++ 0x3a :: value

def commaSep : List Bytes → Bytes
  | [] => []
  | [x] => x
  | x :: xs => x ++ comma :: commaSep xs

def object (fields : List Bytes) : Bytes := 0x7b :: commaSep fields ++ [0x7d]

def array (items : List Bytes) : Bytes := 0x5b :: commaSep items ++ [0x5d]

/-! ## Strings that need no escape -/

def isPlain (b : UInt8) : Bool :=
  b < 0x80 ∧ 0x20 ≤ b ∧ b ≠ quote ∧ b ≠ 0x5c ∧ b ≠ 0x3c ∧ b ≠ 0x3e ∧ b ≠ 0x26

theorem escapeAscii_of_isPlain {b : UInt8} (h : isPlain b = true) : escapeAscii b = [b] := by
  simp only [isPlain, quote] at h
  simp only [escapeAscii, quote]
  grind

theorem lt_of_isPlain {b : UInt8} (h : isPlain b = true) : b < 0x80 := by
  simp only [isPlain, decide_eq_true_eq] at h
  exact h.1

theorem ne_quote_of_isPlain {b : UInt8} (h : isPlain b = true) : b ≠ quote := by
  simp only [isPlain, decide_eq_true_eq] at h
  exact h.2.2.1

theorem string_of_isPlain {s : Bytes} (h : ∀ b ∈ s, isPlain b = true) : string s = quote :: s ++ [quote] := by
  have hloop : ∀ s : Bytes, (∀ b ∈ s, isPlain b = true) → escapeLoop s.length s = s := by
    intro s
    induction s with
    | nil => intro _; rfl
    | cons b rest ih =>
      intro hb
      have hb0 := hb b (.head _)
      rw [length_cons, escapeLoop, if_pos (lt_of_isPlain hb0), escapeAscii_of_isPlain hb0,
        ih fun c hc => hb c (.tail _ hc)]
      rfl
  rw [string, hloop s h]

theorem string_append_inj {s t r r' : Bytes} (hs : ∀ b ∈ s, isPlain b = true) (ht : ∀ b ∈ t, isPlain b = true)
    (h : string s ++ r = string t ++ r') : s = t ∧ r = r' := by
  rw [string_of_isPlain hs, string_of_isPlain ht] at h
  simp only [cons_append, append_assoc, List.cons.injEq, true_and] at h
  obtain ⟨h1, -, h2⟩ := split_at_sep (fun b => b ≠ quote) (fun b hb => ne_quote_of_isPlain (hs b hb))
    (fun b hb => ne_quote_of_isPlain (ht b hb)) (by simp) (by simp) h
  exact ⟨h1, h2⟩

theorem isPlain_of_fromHexChar {c : UInt8} (h : (fromHexChar c).isSome) : isPlain c = true := by
  simp only [fromHexChar] at h
  simp only [isPlain, quote]
  grind

theorem isPlain_of_isBase64 {c : UInt8} (h : isBase64 c = true) : isPlain c = true := by
  simp only [isBase64, isPlain, quote, decide_eq_true_eq, UInt8.le_iff_toNat_le, UInt8.lt_iff_toNat_lt, ← UInt8.toNat_inj, ne_eq,
    UInt8.reduceToNat] at h ⊢
  omega

/-! ## Reading an object back field by field -/

theorem commaSep_cons_cons (x y : Bytes) (ys : List Bytes) : commaSep (x :: y :: ys) = x ++ comma :: commaSep (y :: ys) := rfl

theorem not_isDecimal_comma : ¬isDecimal comma := by
  unfold isDecimal comma
  decide

theorem not_isDecimal_brace : ¬isDecimal 0x7d := by
  unfold isDecimal
  decide

theorem field_append_inj {name : String} {v v' r r' : Bytes} (h : field name v ++ r = field name v' ++ r') : v ++ r = v' ++ r' := by
  unfold field at h
  rw [append_assoc, append_assoc] at h
  exact (List.cons.inj (append_cancel_left h)).2

theorem int_append_inj {z z' : Int} {r r' : Bytes} (h : int z ++ comma :: r = int z' ++ comma :: r') : z = z' ∧ r = r' := by
  have hchars : ∀ z : Int, ∀ c ∈ int z, c ≠ comma := by
    intro z c hc
    have hdigits : ∀ c ∈ decimal z.natAbs, c ≠ comma := by
      rintro c hc rfl
      exact not_isDecimal_comma (decimal_digits _ _ hc)
    unfold int decimalInt at hc
    split at hc
    · rcases mem_cons.mp hc with rfl | hc
      · decide
      · exact hdigits c hc
    · exact hdigits c hc
  obtain ⟨hz, -, hr⟩ := split_at_sep (fun c => c ≠ comma) (hchars z) (hchars z') (by simp) (by simp) h
  exact ⟨decimalInt_inj hz, hr⟩

/-! ## Lengths -/

theorem commaSep_length (xs : List Bytes) : (commaSep xs).length = (xs.map List.length).sum + (xs.length - 1) := by
  fun_induction commaSep xs with
  | case1 => rfl
  | case2 x => simp
  | case3 x xs hxs ih =>
    have hpos : 0 < xs.length := length_pos_iff.mpr hxs
    simp only [length_append, length_cons, ih, map_cons, sum_cons]
    omega

theorem object_length (fields : List Bytes) : (object fields).length = (fields.map List.length).sum + (fields.length - 1) + 2 := by
  simp [object, commaSep_length]

theorem field_length (name : String) (value : Bytes) : (field name value).length = (string (str name)).length + 1 + value.length := by
  simp only [field, length_append, length_cons]
  omega

theorem goSlice_length (b : Bytes) : (goSlice (some b)).length = (b.length + 2) / 3 * 4 + 2 := by
  have hplain : ∀ c ∈ base64Encode b, isPlain c = true := fun c hc => isPlain_of_isBase64 (base64Encode_chars b c hc)
  rw [goSlice, string_of_isPlain hplain]
  simp [base64Encode_length]

theorem nat_uint64_length (x : UInt64) : (nat x.toNat).length ≤ 20 := by
  have hlt : x.toNat < 10 ^ 20 := Nat.lt_trans x.toNat_lt (by decide)
  rw [nat, decimal, length_map]
  exact Nat.toDigits_length 10 _ 20 (by decide) hlt

end Json
end GoLib
