import NeoCoin.Lib.Bytes
import NeoCoin.Lib.GoMap
import NeoCoin.Lib.Machine

/-!
# Contracts

`VM.Run` of `blockchain/vm.go`: a stack machine on untyped values with a gas limit. A stack is written with its top first. An operand of
the wrong type is a failed type assertion, which is a panic and not an error.
-/

namespace NeoCoin

open GoLib Machine

/-- What is on the stack. Nothing pushes bytes, but `OP_RETURN` has a case for them. -/
inductive Value where
  | int (v : Int64)
  | bool (v : Bool)
  | bytes (v : Bytes)
  deriving DecidableEq, Repr

def Value.goType : Value → String
  | .int _ => "int64"
  | .bool _ => "bool"
  | .bytes _ => "[]uint8"

structure VM where
  stack : List Value
  pc : Nat
  code : Bytes
  storage : GoMap Bytes Bytes
  gasLimit : Int64
  gasUsed : Int64

structure VMResult where
  success : Bool
  data : Bytes := []
  gasUsed : Int64 := 0
  error : String := ""
  deriving DecidableEq, Repr

inductive Opcode where
  | nop | push1 | push2 | dup | drop | swap | add | sub | mul | div | equal | verify | ret | jump
  deriving DecidableEq, Repr

def Opcode.ofByte (b : UInt8) : Option Opcode :=
  match b.toNat with
  | 0x00 => some .nop
  | 0x01 => some .push1
  | 0x02 => some .push2
  | 0x30 => some .dup
  | 0x31 => some .swap
  | 0x32 => some .drop
  | 0x40 => some .add
  | 0x41 => some .sub
  | 0x42 => some .mul
  | 0x43 => some .div
  | 0x60 => some .equal
  | 0x61 => some .verify
  | 0xF0 => some .ret
  | 0xE1 => some .jump
  | _ => none

def newVM (code : Bytes) (storage : GoMap Bytes Bytes) (gasLimit : Int64) : VM :=
  { stack := [], pc := 0, code, storage, gasLimit, gasUsed := 0 }

def VMResult.fail (error : String) : VMResult := { success := false, error }

/-- `Run` returns an error. -/
def vmFail (error : String) : VM ⊕ Exit VMResult := .inr (.returned (.fail error))

def badAssertion (v : Value) (want : String) : VM ⊕ Exit VMResult :=
  .inr (.panicked s!"interface conversion: interface \x7b\x7d is {v.goType}, not {want}")

/-- The cases of `Run` that take two integers off the stack and push one, or fail. -/
def VM.arith (vm : VM) (op : Int64 → Int64 → Except String Int64) (gas : Int64) : VM ⊕ Exit VMResult :=
  match vm.stack with
  | .int b :: .int a :: rest =>
    match op a b with
    | .error e => vmFail e
    | .ok c => .inl { vm with stack := .int c :: rest, gasUsed := vm.gasUsed + gas }
  | b :: .int _ :: _ => badAssertion b "int64"
  | _ :: a :: _ => badAssertion a "int64"
  | _ => vmFail "stack underflow"

/-- `a == b` on two values; bytes cannot be compared. -/
def Value.goEq : Value → Value → Option Bool
  | .bytes _, .bytes _ => none
  | a, b => some (decide (a = b))

def Value.data : Value → Bytes
  | .int v => decimalInt v.toInt
  | .bool true => str "true"
  | .bool false => str "false"
  | .bytes v => v

/-- The switch of `Run`, after the program counter has moved on. -/
def VM.execute (vm : VM) : Opcode → VM ⊕ Exit VMResult
  | .nop => .inl { vm with gasUsed := vm.gasUsed + 1 }
  | .push1 =>
    match vm.code.drop vm.pc with
    | b :: _ => .inl { vm with stack := .int b.toUInt64.toInt64 :: vm.stack, pc := vm.pc + 1, gasUsed := vm.gasUsed + 3 }
    | [] => vmFail "unexpected end of code"
  | .push2 =>
    match vm.code.drop vm.pc with
    | b :: b' :: _ =>
      let val := b.toUInt64.toInt64 <<< 8 ||| b'.toUInt64.toInt64
      .inl { vm with stack := .int val :: vm.stack, pc := vm.pc + 2, gasUsed := vm.gasUsed + 5 }
    | _ => vmFail "unexpected end of code"
  | .dup =>
    match vm.stack with
    | v :: rest => .inl { vm with stack := v :: v :: rest, gasUsed := vm.gasUsed + 2 }
    | [] => vmFail "stack underflow"
  | .drop =>
    match vm.stack with
    | _ :: rest => .inl { vm with stack := rest, gasUsed := vm.gasUsed + 2 }
    | [] => vmFail "stack underflow"
  | .swap =>
    match vm.stack with
    | b :: a :: rest => .inl { vm with stack := a :: b :: rest, gasUsed := vm.gasUsed + 3 }
    | _ => vmFail "stack underflow"
  | .add => vm.arith (fun a b => .ok (a + b)) 3
  | .sub => vm.arith (fun a b => .ok (a - b)) 3
  | .mul => vm.arith (fun a b => .ok (a * b)) 5
  | .div => vm.arith (fun a b => if b = 0 then .error "division by zero" else .ok (a / b)) 5
  | .equal =>
    match vm.stack with
    | b :: a :: rest =>
      match a.goEq b with
      | some eq => .inl { vm with stack := .bool eq :: rest, gasUsed := vm.gasUsed + 3 }
      | none => .inr (.panicked "runtime error: comparing uncomparable type []uint8")
    | _ => vmFail "stack underflow"
  | .verify =>
    match vm.stack with
    | .bool true :: rest => .inl { vm with stack := rest, gasUsed := vm.gasUsed + 5 }
    | .bool false :: _ => vmFail "verify failed"
    | v :: _ => badAssertion v "bool"
    | [] => vmFail "stack underflow"
  | .ret => .inr (.returned { success := true, data := (vm.stack.head?.map Value.data).getD [], gasUsed := vm.gasUsed })
  | .jump =>
    match vm.stack with
    | .int target :: rest =>
      if target < 0 ∨ target.toInt ≥ vm.code.length then vmFail "invalid jump target"
      else .inl { vm with stack := rest, pc := target.toInt.toNat, gasUsed := vm.gasUsed + 5 }
    | v :: _ => badAssertion v "int64"
    | [] => vmFail "stack underflow"

/-- The instruction at the program counter, which moves on first. -/
def VM.instruction (vm : VM) (op : UInt8) : VM ⊕ Exit VMResult :=
  match Opcode.ofByte op with
  | some opcode => { vm with pc := vm.pc + 1 }.execute opcode
  | none => vmFail s!"unknown opcode: {String.ofList (Nat.toDigits 16 op.toNat)}"

/-- A round of the loop of `Run`: the gas that was used is compared with the limit before the instruction adds its own. -/
def VM.round (vm : VM) : VM ⊕ Exit VMResult :=
  match vm.code[vm.pc]? with
  | none => .inr (.returned { success := true, gasUsed := vm.gasUsed })
  | some op =>
    if vm.gasUsed > vm.gasLimit then .inr (.returned { success := false, error := "gas limit exceeded", gasUsed := vm.gasUsed })
    else vm.instruction op

/-- `Run`, followed for at most `n` rounds. -/
def VM.run (vm : VM) (n : Nat) : Option (Exit VMResult) := Machine.run VM.round n vm

/-- A contract that adds two and three and returns the sum. -/
example : ((newVM [0x01, 2, 0x01, 3, 0x40, 0xF0] ∅ 100).run 10) = some (.returned { success := true, data := str "5", gasUsed := 9 }) := by
  decide

end NeoCoin
