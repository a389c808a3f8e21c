import NeoCoin.Lib.Sha256

/-!
# SHA-256 for the kernel

The digest once more, in a form that the kernel evaluates many times faster: one recursor over the round constants, on functions of `Nat`
that the kernel computes itself. It is the same function (`sum256_eq`).
-/

namespace GoLib
namespace Sha256
namespace Eval

/-- Rotation of a word by `n` to the right, which is `m` to the left. -/
def rotr (n m x : Nat) : Nat := Nat.lor (Nat.shiftRight x n) (Nat.mod (Nat.shiftLeft x m) 4294967296)

def next (w0 w1 w9 w14 : Nat) : Nat :=
  Nat.mod (Nat.add (Nat.add (Nat.add w0 (Nat.xor (Nat.xor (rotr 7 25 w1) (rotr 18 14 w1)) (Nat.shiftRight w1 3))) w9)
    (Nat.xor (Nat.xor (rotr 17 15 w14) (rotr 19 13 w14)) (Nat.shiftRight w14 10))) 4294967296

def sum1 (e f g h k w : Nat) : Nat :=
  Nat.add (Nat.add (Nat.add (Nat.add h (Nat.xor (Nat.xor (rotr 6 26 e) (rotr 11 21 e)) (rotr 25 7 e)))
    (Nat.xor (Nat.land e f) (Nat.land (Nat.sub 4294967295 e) g))) k) w

def first (t1 a b c : Nat) : Nat :=
  Nat.mod (Nat.add (Nat.add t1 (Nat.xor (Nat.xor (rotr 2 30 a) (rotr 13 19 a)) (rotr 22 10 a)))
    (Nat.xor (Nat.xor (Nat.land a b) (Nat.land a c)) (Nat.land b c))) 4294967296

/-- The rounds over the constants, with the window of the schedule. -/
noncomputable def rounds (ks : List Nat) : Nat → Nat → Nat → Nat → Nat → Nat → Nat → Nat → Nat → Nat → Nat → Nat → Nat → Nat → Nat → Nat →
      Nat → Nat → Nat → Nat → Nat → Nat → Nat → Nat → Words :=
  List.rec (fun _ _ _ _ _ _ _ _ _ _ _ _ _ _ _ _ a b c d e f g h => ⟨a, b, c, d, e, f, g, h⟩)
    (fun k _ more w0 w1 w2 w3 w4 w5 w6 w7 w8 w9 w10 w11 w12 w13 w14 w15 a b c d e f g h =>
      more w1 w2 w3 w4 w5 w6 w7 w8 w9 w10 w11 w12 w13 w14 w15 (next w0 w1 w9 w14)
        (first (sum1 e f g h k w0) a b c) a b c (Nat.mod (Nat.add d (sum1 e f g h k w0)) 4294967296) e f g)
    ks

theorem rounds_eq (ks : List Nat) (w0 w1 w2 w3 w4 w5 w6 w7 w8 w9 w10 w11 w12 w13 w14 w15 a b c d e f g h : Nat) :
    rounds ks w0 w1 w2 w3 w4 w5 w6 w7 w8 w9 w10 w11 w12 w13 w14 w15 a b c d e f g h =
      Sha256.rounds ks (schedule ks.length [w0, w1, w2, w3, w4, w5, w6, w7, w8, w9, w10, w11, w12, w13, w14, w15])
        ⟨a, b, c, d, e, f, g, h⟩ := by
  induction ks generalizing w0 w1 w2 w3 w4 w5 w6 w7 w8 w9 w10 w11 w12 w13 w14 w15 a b c d e f g h with
  | nil => rfl
  | cons k ks ih => exact ih w1 w2 w3 w4 w5 w6 w7 w8 w9 w10 w11 w12 w13 w14 w15 (next w0 w1 w9 w14) _ a b c _ e f g

/-- The rounds on a window and the words of a state. -/
noncomputable def roundsOn (ks ws : List Nat) (s : Words) : Words :=
  rounds ks (ws.getD 0 0) (ws.getD 1 0) (ws.getD 2 0) (ws.getD 3 0) (ws.getD 4 0) (ws.getD 5 0) (ws.getD 6 0) (ws.getD 7 0)
    (ws.getD 8 0) (ws.getD 9 0) (ws.getD 10 0) (ws.getD 11 0) (ws.getD 12 0) (ws.getD 13 0) (ws.getD 14 0) (ws.getD 15 0)
    s.a s.b s.c s.d s.e s.f s.g s.h

noncomputable def compress (s : Words) (block : Bytes) : Words :=
  let r := roundsOn roundConstants (words 16 block) s
  ⟨Nat.mod (Nat.add s.a r.a) 4294967296, Nat.mod (Nat.add s.b r.b) 4294967296, Nat.mod (Nat.add s.c r.c) 4294967296,
    Nat.mod (Nat.add s.d r.d) 4294967296, Nat.mod (Nat.add s.e r.e) 4294967296, Nat.mod (Nat.add s.f r.f) 4294967296,
    Nat.mod (Nat.add s.g r.g) 4294967296, Nat.mod (Nat.add s.h r.h) 4294967296⟩

theorem roundConstants_length : roundConstants.length = 64 := rfl

theorem words_length (n : Nat) (bs : Bytes) : (words n bs).length = n := by
  induction n generalizing bs with
  | zero => rfl
  | succ n ih => simp only [words, List.length_cons, ih]

theorem eq_getD {ws : List Nat} (hws : ws.length = 16) : ws =
    [ws.getD 0 0, ws.getD 1 0, ws.getD 2 0, ws.getD 3 0, ws.getD 4 0, ws.getD 5 0, ws.getD 6 0, ws.getD 7 0,
      ws.getD 8 0, ws.getD 9 0, ws.getD 10 0, ws.getD 11 0, ws.getD 12 0, ws.getD 13 0, ws.getD 14 0, ws.getD 15 0] := by
  match ws, hws with
  | [_, _, _, _, _, _, _, _, _, _, _, _, _, _, _, _], _ => rfl

theorem roundsOn_eq {ks ws : List Nat} (hks : ks.length = 64) (hws : ws.length = 16) (s : Words) :
    roundsOn ks ws s = Sha256.rounds ks (schedule 64 ws) s := by
  rw [roundsOn, rounds_eq, ← eq_getD hws, hks]

theorem compress_eq : compress = Sha256.compress := by
  funext s block
  simp only [compress, Sha256.compress, roundsOn_eq roundConstants_length (words_length 16 block)]
  -- what the sixty-four rounds give must not be unfolded
  generalize Sha256.rounds roundConstants (schedule 64 (words 16 block)) s = r
  rfl

def compressAll (f : Words → Bytes → Words) : Nat → Bytes → Words → Words
  | 0, _, s => s
  | n + 1, bs, s => compressAll f n (bs.drop 64) (f s (bs.take 64))

theorem compressAll_eq : compressAll Sha256.compress = Sha256.compressAll := by
  -- the two recursions are one term; the equations of the second would unfold the rounds
  delta compressAll Sha256.compressAll
  rfl

end Eval

noncomputable def eval (m : Bytes) : Bytes :=
  let p := pad m
  let s := Eval.compressAll Eval.compress (p.length / 64) p initial
  beBytes 4 s.a ++ beBytes 4 s.b ++ beBytes 4 s.c ++ beBytes 4 s.d ++
    beBytes 4 s.e ++ beBytes 4 s.f ++ beBytes 4 s.g ++ beBytes 4 s.h

theorem sum256_eq : sum256 = eval := by
  funext m
  unfold sum256 eval
  rw [Eval.compress_eq, Eval.compressAll_eq]

end Sha256
end GoLib
