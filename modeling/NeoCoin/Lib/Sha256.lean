import NeoCoin.Lib.Bytes

/-!
# SHA-256 (`crypto/sha256`)

The digest of FIPS 180-4, on byte strings. A 32-bit word is a natural number kept below `2 ^ 32`, so that the kernel computes it
with its built-in arithmetic and a digest of a fixed message can be checked by evaluation.
-/

namespace GoLib
namespace Sha256

/-- The number of 32-bit words, the modulus of their addition. -/
def wordMod : Nat := 4294967296

def rotr (n x : Nat) : Nat := (x >>> n) ||| ((x <<< (32 - n)) % wordMod)

/-- The round constants: the first 32 bits of the fractional parts of the cube roots of the first 64 primes. -/
def roundConstants : List Nat :=
  [0x428a2f98, 0x71374491, 0xb5c0fbcf, 0xe9b5dba5, 0x3956c25b, 0x59f111f1, 0x923f82a4, 0xab1c5ed5,
   0xd807aa98, 0x12835b01, 0x243185be, 0x550c7dc3, 0x72be5d74, 0x80deb1fe, 0x9bdc06a7, 0xc19bf174,
   0xe49b69c1, 0xefbe4786, 0x0fc19dc6, 0x240ca1cc, 0x2de92c6f, 0x4a7484aa, 0x5cb0a9dc, 0x76f988da,
   0x983e5152, 0xa831c66d, 0xb00327c8, 0xbf597fc7, 0xc6e00bf3, 0xd5a79147, 0x06ca6351, 0x14292967,
   0x27b70a85, 0x2e1b2138, 0x4d2c6dfc, 0x53380d13, 0x650a7354, 0x766a0abb, 0x81c2c92e, 0x92722c85,
   0xa2bfe8a1, 0xa81a664b, 0xc24b8b70, 0xc76c51a3, 0xd192e819, 0xd6990624, 0xf40e3585, 0x106aa070,
   0x19a4c116, 0x1e376c08, 0x2748774c, 0x34b0bcb5, 0x391c0cb3, 0x4ed8aa4a, 0x5b9cca4f, 0x682e6ff3,
   0x748f82ee, 0x78a5636f, 0x84c87814, 0x8cc70208, 0x90befffa, 0xa4506ceb, 0xbef9a3f7, 0xc67178f2]

structure Words where
  a : Nat
  b : Nat
  c : Nat
  d : Nat
  e : Nat
  f : Nat
  g : Nat
  h : Nat

def initial : Words :=
  ⟨0x6a09e667, 0xbb67ae85, 0x3c6ef372, 0xa54ff53a, 0x510e527f, 0x9b05688c, 0x1f83d9ab, 0x5be0cd19⟩

def words : Nat → Bytes → List Nat
  | 0, _ => []
  | n + 1, bs => beNat (bs.take 4) :: words n (bs.drop 4)

/-- The message schedule: `n` words, from a window that holds the next sixteen. -/
def schedule : Nat → List Nat → List Nat
  | 0, _ => []
  | _ + 1, [] => []
  | n + 1, w0 :: rest =>
    let w1 := rest.getD 0 0
    let w14 := rest.getD 13 0
    let s0 := rotr 7 w1 ^^^ rotr 18 w1 ^^^ (w1 >>> 3)
    let s1 := rotr 17 w14 ^^^ rotr 19 w14 ^^^ (w14 >>> 10)
    w0 :: schedule n (rest ++ [(w0 + s0 + rest.getD 8 0 + s1) % wordMod])

def round (s : Words) (k w : Nat) : Words :=
  let s1 := rotr 6 s.e ^^^ rotr 11 s.e ^^^ rotr 25 s.e
  let ch := (s.e &&& s.f) ^^^ ((wordMod - 1 - s.e) &&& s.g)
  let t1 := s.h + s1 + ch + k + w
  let s0 := rotr 2 s.a ^^^ rotr 13 s.a ^^^ rotr 22 s.a
  let maj := (s.a &&& s.b) ^^^ (s.a &&& s.c) ^^^ (s.b &&& s.c)
  ⟨(t1 + s0 + maj) % wordMod, s.a, s.b, s.c, (s.d + t1) % wordMod, s.e, s.f, s.g⟩

def rounds : List Nat → List Nat → Words → Words
  | k :: ks, w :: ws, s => rounds ks ws (round s k w)
  | _, _, s => s

def compress (s : Words) (block : Bytes) : Words :=
  let r := rounds roundConstants (schedule 64 (words 16 block)) s
  ⟨(s.a + r.a) % wordMod, (s.b + r.b) % wordMod, (s.c + r.c) % wordMod, (s.d + r.d) % wordMod,
   (s.e + r.e) % wordMod, (s.f + r.f) % wordMod, (s.g + r.g) % wordMod, (s.h + r.h) % wordMod⟩

/-- The padded message: a one bit, zeros, and the length in bits, to a multiple of 64 bytes. -/
def pad (m : Bytes) : Bytes := m ++ 0x80 :: List.replicate ((119 - m.length % 64) % 64) 0 ++ beBytes 8 (8 * m.length)

def compressAll : Nat → Bytes → Words → Words
  | 0, _, s => s
  | n + 1, bs, s => compressAll n (bs.drop 64) (compress s (bs.take 64))

def sum256 (m : Bytes) : Bytes :=
  let p := pad m
  let s := compressAll (p.length / 64) p initial
  beBytes 4 s.a ++ beBytes 4 s.b ++ beBytes 4 s.c ++ beBytes 4 s.d ++
    beBytes 4 s.e ++ beBytes 4 s.f ++ beBytes 4 s.g ++ beBytes 4 s.h

theorem sum256_length (m : Bytes) : (sum256 m).length = 32 := by
  simp only [sum256, List.length_append, beBytes_length]

/-- The digest of `abc`, from the standard. -/
example : hexEncode (sum256 (str "abc")) = str "ba7816bf8f01cfea414140de5dae2223b00361a396177a9cb410ff61f20015ad" := by
  decide

end Sha256
end GoLib
