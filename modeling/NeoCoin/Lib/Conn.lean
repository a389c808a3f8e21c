import Mathlib.Logic.Relation
import NeoCoin.Lib.Bytes

/-!
# Programs on a connection

A program that writes to a connection and reads from it (`Proc`), and two programs joined by a reliable one (`Link`). A read waits until
all its bytes are there. What two joined programs come to does not depend on how their steps are interleaved (`Link.exec_of_steps`).
-/

namespace GoLib

/-- A Go array `[n]byte`, or a buffer that `io.ReadFull` has filled. -/
abbrev ByteArr (n : Nat) := {b : Bytes // b.length = n}

/-- A program that uses a connection, and reports events on the way. -/
inductive Proc (E R : Type) where
  | done (r : R)
  | emit (e : E) (next : Proc E R)
  /-- `conn.Write(out)`. -/
  | write (out : Bytes) (next : Proc E R)
  /-- `io.ReadFull(conn, buf)` on a buffer of `n` bytes. -/
  | read (n : Nat) (next : ByteArr n → Proc E R)

variable {E R S : Type}

structure Proc.Outcome (E R : Type) where
  result : R
  events : List E
  written : Bytes
  /-- What it has not read. -/
  rest : Bytes
  deriving DecidableEq

/-- A program that has these bytes to read: `none` if it waits for more. -/
def Proc.exec : Proc E R → Bytes → Option (Outcome E R)
  | .done r, input => some ⟨r, [], [], input⟩
  | .emit e next, input => (next.exec input).map fun o => { o with events := e :: o.events }
  | .write out next, input => (next.exec input).map fun o => { o with written := out ++ o.written }
  | .read n next, input => if h : n ≤ input.length then (next ⟨input.take n, by simp [h]⟩).exec (input.drop n) else none

@[simp] theorem Proc.exec_done (r : R) (input : Bytes) : (Proc.done r : Proc E R).exec input = some ⟨r, [], [], input⟩ := rfl

@[simp] theorem Proc.exec_emit (e : E) (next : Proc E R) (input : Bytes) :
    (Proc.emit e next).exec input = (next.exec input).map fun o => { o with events := e :: o.events } := rfl

@[simp] theorem Proc.exec_write (out : Bytes) (next : Proc E R) (input : Bytes) :
    (Proc.write out next).exec input = (next.exec input).map fun o => { o with written := out ++ o.written } := rfl

theorem Proc.exec_read {n : Nat} (next : ByteArr n → Proc E R) (front : ByteArr n) (rest : Bytes) :
    (Proc.read n next).exec (front.val ++ rest) = (next front).exec rest := by
  obtain ⟨front, rfl⟩ := front
  simp [exec]

/-- Two programs and the bytes between them: what the first has written and the second has not read, and the other way round. -/
structure Link (E R S : Type) where
  a : Proc E R
  b : Proc E S
  ab : Bytes := []
  ba : Bytes := []

namespace Link

inductive Step : Link E R S → Link E R S → Prop where
  | emitA {e p q ab ba} : Step ⟨.emit e p, q, ab, ba⟩ ⟨p, q, ab, ba⟩
  | writeA {out p q ab ba} : Step ⟨.write out p, q, ab, ba⟩ ⟨p, q, ab ++ out, ba⟩
  | readA {n next q ab ba} (front : ByteArr n) (rest : Bytes) (h : ba = front.val ++ rest) :
      Step ⟨.read n next, q, ab, ba⟩ ⟨next front, q, ab, rest⟩
  | emitB {e p q ab ba} : Step ⟨p, .emit e q, ab, ba⟩ ⟨p, q, ab, ba⟩
  | writeB {out p q ab ba} : Step ⟨p, .write out q, ab, ba⟩ ⟨p, q, ab, ba ++ out⟩
  | readB {n p next ab ba} (front : ByteArr n) (rest : Bytes) (h : ab = front.val ++ rest) :
      Step ⟨p, .read n next, ab, ba⟩ ⟨p, next front, rest, ba⟩

/-- Two joined programs that are both over have done what each of them does on what the other one writes. -/
theorem exec_of_steps {l : Link E R S} {r : R} {s : S} {ab ba : Bytes} (h : Relation.ReflTransGen Step l ⟨.done r, .done s, ab, ba⟩) :
    ∃ o o', l.a.exec (l.ba ++ o'.written) = some o ∧ l.b.exec (l.ab ++ o.written) = some o' ∧ o.result = r ∧ o'.result = s := by
  induction h using Relation.ReflTransGen.head_induction_on with
  | refl => exact ⟨⟨r, [], [], ba⟩, ⟨s, [], [], ab⟩, by simp, by simp, rfl, rfl⟩
  | head hstep _ ih =>
    obtain ⟨o, o', ho, ho', hr, hs⟩ := ih
    cases hstep with
    | @emitA e => exact ⟨{ o with events := e :: o.events }, o', by simp [ho], ho', hr, hs⟩
    | @writeA out =>
      refine ⟨{ o with written := out ++ o.written }, o', by simp [ho], ?_, hr, hs⟩
      simpa using ho'
    | readA front rest hba =>
      refine ⟨o, o', ?_, ho', hr, hs⟩
      rw [hba, List.append_assoc, Proc.exec_read]
      exact ho
    | @emitB e => exact ⟨o, { o' with events := e :: o'.events }, ho, by simp [ho'], hr, hs⟩
    | @writeB out =>
      refine ⟨o, { o' with written := out ++ o'.written }, ?_, by simp [ho'], hr, hs⟩
      simpa using ho
    | readB front rest hab =>
      refine ⟨o, o', ho, ?_, hr, hs⟩
      rw [hab, List.append_assoc, Proc.exec_read]
      exact ho'

end Link

end GoLib
