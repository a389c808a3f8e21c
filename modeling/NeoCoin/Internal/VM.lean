import NeoCoin.Address
import NeoCoin.Lib.Machine

/-!
# Contracts in the second implementation

`VM` of `internal/vm/vm.go`. A stack is written with its top first. An index out of range is a panic. What an instruction has done before
it fails stays done, so that a failure comes with the machine it leaves.
-/

namespace NeoCoin.Internal

open GoLib Machine

/-- `Opcode`, without the invalid one. -/
inductive Opcode where
  | push | pop | add | sub | mul | div | store | load | jump | jumpi | eq | lt | gt | and | or | not | ret | call | dup | swap
  deriving DecidableEq, Repr

def Opcode.all : List Opcode :=
  [.push, .pop, .add, .sub, .mul, .div, .store, .load, .jump, .jumpi, .eq, .lt, .gt, .and, .or, .not, .ret, .call, .dup, .swap]

/-- The opcode of a byte; `none` for the bytes that `Execute` does not let through. -/
def Opcode.ofByte (b : UInt8) : Option Opcode := if b = 0 then none else Opcode.all[b.toNat - 1]?

def gasCosts : Opcode → UInt64
  | .push | .pop | .not | .ret | .dup | .swap => 1
  | .add | .sub | .jump | .eq | .lt | .gt | .and | .or => 2
  | .mul | .div | .load | .jumpi => 3
  | .store | .call => 5

structure Contract where
  code : Bytes
  storage : GoMap Bytes Bytes

/-- `VM`. A place to return to is the one after a call, so that it is never negative; the program counter may be. -/
structure VM where
  stack : List Int64 := []
  pc : Int := 0
  gas : UInt64
  gasLimit : UInt64
  code : Bytes := []
  contractStore : GoMap Bytes Contract := ∅
  storage : GoMap Bytes (GoMap Bytes Bytes) := ∅
  callStack : List Nat := []
  currentContract : Bytes := []

structure ExecutionResult where
  success : Bool := false
  gasUsed : UInt64 := 0
  returnVal : Int64 := 0
  deriving DecidableEq, Repr

def newVM (gasLimit : UInt64) : VM := { gas := gasLimit, gasLimit }

/-! ## Instructions -/

/-- What an instruction does: the machine goes on, or there is an error, or a panic. -/
inductive Effect where
  | next (v : VM)
  | fail (err : String) (v : VM)
  | panic (msg : String)

/-- `fmt.Sscanf(s, "%d", &v)`, on what `fmt.Sprintf("%d", v)` wrote. -/
def sscanInt (s : Bytes) : Int64 :=
  let number (digits : Bytes) : Int := Nat.ofDigitChars 10 (digits.map fun c => Char.ofNat c.toNat) 0
  match s with
  | 0x2d :: digits => .ofInt (-number digits)
  | digits => .ofInt (number digits)

def loadAt (storage : GoMap Bytes (GoMap Bytes Bytes)) (contract : Bytes) (key : Int64) : Int64 :=
  match storage.lookup contract with
  | none => 0
  | some values =>
    match values.lookup (decimalInt key.toInt) with
    | none | some [] => 0
    | some val => sscanInt val

def storeAt (storage : GoMap Bytes (GoMap Bytes Bytes)) (contract : Bytes) (key val : Int64) : GoMap Bytes (GoMap Bytes Bytes) :=
  storage.set contract (((storage.lookup contract).getD ∅).set (decimalInt key.toInt) (decimalInt val.toInt))

def ofBool (b : Bool) : Int64 := if b then 1 else 0

variable (v : VM)

/-- The cases of `executeOpcode` that take two values off the stack and push one; `a` is the top. -/
def VM.binary (op : Int64 → Int64 → Int64) : Effect :=
  match v.stack with
  | a :: b :: rest => .next { v with stack := op b a :: rest, pc := v.pc + 1 }
  | _ => .fail "stack underflow" { v with stack := [] }

def VM.jumpTo (target : Int64) : Effect :=
  if target < 0 ∨ target.toInt ≥ v.code.length then .fail s!"jump target out of bounds: {target}" v
  else .next { v with pc := target.toInt }

/-- `Stack.Swap`. No slice has an element at the depth `Int64.maxValue`, though the comparison, which wraps around, lets it through. -/
def VM.swap (n : Int64) : Effect :=
  if (v.stack.length : Int) < (n + 1).toInt then .fail "stack underflow" v
  else
    match v.stack[0]?, (if n < 0 ∨ n = Int64.maxValue then none else v.stack[n.toInt.toNat]?) with
    | some top, some other => .next { v with stack := (v.stack.set 0 other).set n.toInt.toNat top, pc := v.pc + 1 }
    | _, _ => .panic "runtime error: index out of range"

def VM.executeOpcode : Opcode → Effect
  | .push =>
    let v := { v with pc := v.pc + 1 }
    match v.code[v.pc.toNat]? with
    | some b => .next { v with stack := b.toUInt64.toInt64 :: v.stack, pc := v.pc + 1 }
    | none => .fail "unexpected end of code during PUSH" v
  | .pop =>
    match v.stack with
    | _ :: rest => .next { v with stack := rest, pc := v.pc + 1 }
    | [] => .fail "stack underflow" v
  | .add => v.binary fun b a => b + a
  | .sub => v.binary fun b a => b - a
  | .mul => v.binary fun b a => b * a
  | .div =>
    match v.stack with
    | 0 :: rest => .fail "division by zero" { v with stack := rest }
    | _ => v.binary fun b a => b / a
  | .store =>
    match v.stack with
    | val :: key :: rest =>
      .next { v with stack := rest, storage := storeAt v.storage v.currentContract key val, pc := v.pc + 1 }
    | _ => .fail "stack underflow" { v with stack := [] }
  | .load =>
    match v.stack with
    | key :: rest => .next { v with stack := loadAt v.storage v.currentContract key :: rest, pc := v.pc + 1 }
    | [] => .fail "stack underflow" v
  | .jump =>
    match v.stack with
    | target :: rest => { v with stack := rest }.jumpTo target
    | [] => .fail "stack underflow" v
  | .jumpi =>
    match v.stack with
    | cond :: target :: rest =>
      if cond ≠ 0 then { v with stack := rest }.jumpTo target else .next { v with stack := rest, pc := v.pc + 1 }
    | _ => .fail "stack underflow" { v with stack := [] }
  | .eq => v.binary fun b a => ofBool (b = a)
  | .lt => v.binary fun b a => ofBool (b < a)
  | .gt => v.binary fun b a => ofBool (b > a)
  | .and => v.binary fun b a => ofBool (b ≠ 0 ∧ a ≠ 0)
  | .or => v.binary fun b a => ofBool (b ≠ 0 ∨ a ≠ 0)
  | .not =>
    match v.stack with
    | a :: rest => .next { v with stack := ofBool (a = 0) :: rest, pc := v.pc + 1 }
    | [] => .fail "stack underflow" v
  | .call =>
    match v.stack with
    | addr :: rest => .next { v with stack := rest, callStack := (v.pc + 1).toNat :: v.callStack, pc := addr.toInt }
    | [] => .fail "stack underflow" v
  | .ret =>
    -- without a call the machine stays at the instruction
    match v.callStack with
    | place :: rest => .next { v with pc := place, callStack := rest }
    | [] => .next v
  | .dup =>
    match v.stack with
    | a :: rest => .next { v with stack := a :: a :: rest, pc := v.pc + 1 }
    | [] => .fail "stack underflow" v
  | .swap =>
    match v.stack with
    | n :: rest => { v with stack := rest }.swap n
    | [] => .fail "stack underflow" v

/-! ## Programs -/

/-- The loop of `Execute`: the machine, and the gas in the result so far. -/
structure Frame where
  vm : VM
  gasUsed : UInt64

/-- What `Execute` returns, and the machine it leaves. -/
structure Executed where
  result : ExecutionResult
  err : Option String
  vm : VM

/-- `Execute` returns an error, with the gas in the result so far. -/
def Frame.fail (f : Frame) (err : String) : Frame ⊕ Exit Executed :=
  .inr (.returned { result := { gasUsed := f.gasUsed }, err := some err, vm := f.vm })

def Frame.charge (f : Frame) (cost : UInt64) : Frame :=
  let vm := { f.vm with gas := f.vm.gas - cost }
  { vm, gasUsed := vm.gasLimit - vm.gas }

def Frame.round (f : Frame) : Frame ⊕ Exit Executed :=
  if f.vm.pc ≥ f.vm.code.length then
    .inr (.returned { result := { success := true, gasUsed := f.gasUsed, returnVal := f.vm.stack.headD 0 }, err := none, vm := f.vm })
  else if f.vm.pc < 0 then .inr (.panicked "runtime error: index out of range")
  else
    let b := f.vm.code.getD f.vm.pc.toNat 0
    match Opcode.ofByte b with
    | none => f.fail s!"invalid opcode: {b} at position {f.vm.pc}"
    | some op =>
      if f.vm.gas < gasCosts op then f.fail "out of gas"
      else
        let f := f.charge (gasCosts op)
        match f.vm.executeOpcode op with
        | .next vm => .inl { f with vm }
        | .fail err vm => { f with vm }.fail err
        | .panic msg => .inr (.panicked msg)

def VM.start (code : Bytes) : Frame :=
  { vm := { v with code, pc := 0, stack := []
                   currentContract := if v.currentContract = [] then str "default" else v.currentContract }
    gasUsed := 0 }

/-- `Execute`. Each round but the last costs gas, so that the loop is left within one round more than there is gas. -/
def VM.execute (code : Bytes) : Option (Exit Executed) := Machine.run Frame.round (v.gas.toNat + 1) (v.start code)

/-! ## Contracts on a machine -/

/-- `Deploy`: the address, and the machine with the contract. -/
def VM.deploy (C : Crypto) (v : VM) (code owner name : Bytes) : Bytes × VM :=
  let addr := generateAddress C (name ++ owner)
  (addr, { v with contractStore := v.contractStore.set addr { code, storage := ∅ } })

structure Called where
  result : Option ExecutionResult
  err : Option String
  vm : VM

/-- The machine that `Call` makes for a contract. It has the maps of the caller, and no contract is the current one. -/
def VM.callee (contractAddr : Bytes) (contract : Contract) (gasLimit : UInt64) : VM :=
  { newVM gasLimit with
    contractStore := v.contractStore
    storage := v.storage.set contractAddr (contract.storage ∪ (v.storage.lookup contractAddr).getD ∅) }

/-- `Call`. The storage is one map for the caller and the machine of the call, so that what the call wrote into it stays there. -/
def VM.call (contractAddr : Bytes) (gasLimit : UInt64) : Option (Exit Called) :=
  match v.contractStore.lookup contractAddr with
  | none => some (.returned { result := none, err := some "contract not found", vm := v })
  | some contract =>
    match (v.callee contractAddr contract gasLimit).execute contract.code with
    | none => none
    | some (.panicked msg) => some (.panicked msg)
    | some (.returned r) =>
      let v := { v with storage := r.vm.storage }
      match r.err with
      | some err => some (.returned { result := some r.result, err := some err, vm := v })
      | none =>
        let contract := { contract with storage := (v.storage.lookup contractAddr).getD ∅ ∪ contract.storage }
        some (.returned { result := some r.result, err := none
                          vm := { v with contractStore := v.contractStore.set contractAddr contract } })

def VM.getStorage (contractAddr : Bytes) : Result (GoMap Bytes Bytes) :=
  match v.contractStore.lookup contractAddr with
  | none => .error "contract not found"
  | some contract => .ok contract.storage

end NeoCoin.Internal
