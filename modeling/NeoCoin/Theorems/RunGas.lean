import NeoCoin.VM

/-!
# The gas of a contract

What an instruction of `Run` of `blockchain/vm.go` does, said once for all opcodes. The gas is compared with the limit before an
instruction and added after it. The counter is a 64-bit one: under a limit close to its end a loop never goes over.
-/

namespace NeoCoin

open GoLib Machine

variable {stack : List Value} {op : Opcode} {vm' : VM}

/-! ## One instruction -/

def Opcode.gas : Opcode → Int64
  | .nop => 1
  | .dup | .drop => 2
  | .push1 | .swap | .add | .sub | .equal => 3
  | .push2 | .mul | .div | .verify | .jump => 5
  | .ret => 0

def Value.isInt : Value → Bool
  | .int _ => true
  | _ => false

def Value.isBool : Value → Bool
  | .bool _ => true
  | _ => false

/-- The operands of an instruction, as far as they are on the stack, are of the types it asserts. -/
def Opcode.Fits (op : Opcode) (stack : List Value) : Prop :=
  match op, stack with
  | .add, b :: a :: _ | .sub, b :: a :: _ | .mul, b :: a :: _ | .div, b :: a :: _ => a.isInt ∧ b.isInt
  | .verify, v :: _ => v.isBool
  | .jump, v :: _ => v.isInt
  | _, _ => True

def Plain (stack : List Value) : Prop := ∀ v ∈ stack, v.isInt ∨ v.isBool

/-- What an instruction that goes on changes: the stack, the program counter and the gas. -/
structure VM.Moves (vm vm' : VM) (gas : Int64) : Prop where
  code : vm'.code = vm.code
  gasLimit : vm'.gasLimit = vm.gasLimit
  gasUsed : vm'.gasUsed = vm.gasUsed + gas
  plain : Plain vm'.stack

/-- What an instruction does on a stack without bytes. -/
inductive VM.Does (vm : VM) (op : Opcode) : VM ⊕ Exit VMResult → Prop where
  | moves {vm' : VM} : op ≠ .ret → op.Fits vm.stack → vm.Moves vm' op.gas → Does vm op (.inl vm')
  | fails (e : String) : op.Fits vm.stack → Does vm op (vmFail e)
  | returns (data : Bytes) : op = .ret → op.Fits vm.stack →
      Does vm op (.inr (.returned { success := true, data, gasUsed := vm.gasUsed }))
  | panics (msg : String) : ¬op.Fits vm.stack → Does vm op (.inr (.panicked msg))

section

variable {vm : VM}

theorem plain_cons {v : Value} : Plain (v :: stack) ↔ (v.isInt ∨ v.isBool) ∧ Plain stack := List.forall_mem_cons

theorem Plain.tail {v : Value} (h : Plain (v :: stack)) : Plain stack := (plain_cons.mp h).2

theorem Plain.int (h : Plain stack) (i : Int64) : Plain (.int i :: stack) := plain_cons.mpr ⟨.inl rfl, h⟩

theorem Plain.bool (h : Plain stack) (b : Bool) : Plain (.bool b :: stack) := plain_cons.mpr ⟨.inr rfl, h⟩

theorem Plain.dup {v : Value} (h : Plain (v :: stack)) : Plain (v :: v :: stack) := plain_cons.mpr ⟨(plain_cons.mp h).1, h⟩

theorem Plain.swap {a b : Value} (h : Plain (b :: a :: stack)) : Plain (a :: b :: stack) :=
  fun w hw => h w ((List.Perm.swap b a stack).mem_iff.mp hw)

def Opcode.isArith : Opcode → Bool
  | .add | .sub | .mul | .div => true
  | _ => false

theorem arithFits (h : op.isArith = true) (b a : Value) (rest : List Value) (hstack : vm.stack = b :: a :: rest) :
    op.Fits vm.stack ↔ a.isInt ∧ b.isInt := by
  rw [hstack]
  cases op with
  | add | sub | mul | div => rfl
  | _ => cases h

theorem arithFits_short (h : op.isArith = true) (hstack : ∀ b a rest, vm.stack ≠ b :: a :: rest) : op.Fits vm.stack := by
  match hs : vm.stack with
  | [] | [_] =>
    cases op with
    | add | sub | mul | div => trivial
    | _ => cases h
  | b :: a :: rest => exact absurd hs (hstack b a rest)

theorem arith_does (op : Opcode) (h : op.isArith = true) (f : Int64 → Int64 → Except String Int64) (hplain : Plain vm.stack) :
    vm.Does op (vm.arith f op.gas) := by
  have hret : op ≠ .ret := by
    intro hop
    rw [hop] at h
    cases h
  unfold VM.arith
  split
  · rename_i b a rest hstack
    have hok : op.Fits vm.stack := (arithFits h _ _ _ hstack).mpr ⟨rfl, rfl⟩
    split
    · exact .fails _ hok
    · rw [hstack] at hplain
      exact .moves hret hok ⟨rfl, rfl, rfl, hplain.tail.tail.int _⟩
  · rename_i b a rest hno hstack
    refine .panics _ fun hfits => ?_
    have hint := ((arithFits h _ _ _ hstack).mp hfits).2
    cases b with
    | int i => exact absurd rfl (hno i)
    | _ => cases hint
  · rename_i b a rest _ hno hstack
    refine .panics _ fun hfits => ?_
    have hint := ((arithFits h _ _ _ hstack).mp hfits).1
    cases a with
    | int i => exact absurd rfl (hno i)
    | _ => cases hint
  · rename_i hno
    exact .fails _ (arithFits_short h fun b a rest hstack => hno b a rest hstack)

/-- What `execute` does, one case per opcode. -/
theorem execute_does (vm : VM) (hplain : Plain vm.stack) (op : Opcode) : vm.Does op (vm.execute op) := by
  cases op with
  | nop => exact .moves (by simp) trivial ⟨rfl, rfl, rfl, hplain⟩
  | push1 | push2 =>
    simp only [VM.execute]
    split
    · exact .moves (by simp) trivial ⟨rfl, rfl, rfl, hplain.int _⟩
    · exact .fails _ trivial
  | dup =>
    simp only [VM.execute]
    split
    · rename_i v rest hstack
      rw [hstack] at hplain
      exact .moves (by simp) trivial ⟨rfl, rfl, rfl, hplain.dup⟩
    · exact .fails _ trivial
  | drop =>
    simp only [VM.execute]
    split
    · rename_i v rest hstack
      rw [hstack] at hplain
      exact .moves (by simp) trivial ⟨rfl, rfl, rfl, hplain.tail⟩
    · exact .fails _ trivial
  | swap =>
    simp only [VM.execute]
    split
    · rename_i b a rest hstack
      rw [hstack] at hplain
      exact .moves (by simp) trivial ⟨rfl, rfl, rfl, hplain.swap⟩
    · exact .fails _ trivial
  | add => exact arith_does .add rfl (fun a b => .ok (a + b)) hplain
  | sub => exact arith_does .sub rfl (fun a b => .ok (a - b)) hplain
  | mul => exact arith_does .mul rfl (fun a b => .ok (a * b)) hplain
  | div => exact arith_does .div rfl _ hplain
  | equal =>
    simp only [VM.execute]
    split
    · rename_i b a rest hstack
      rw [hstack] at hplain
      split
      · exact .moves (by simp) trivial ⟨rfl, rfl, rfl, hplain.tail.tail.bool _⟩
      · rename_i hbytes
        -- two values that cannot be compared are both bytes
        cases a with
        | bytes _ => rcases hplain _ (.tail _ (.head _)) with h | h <;> cases h
        | _ => cases hbytes
    · exact .fails _ trivial
  | verify =>
    simp only [VM.execute]
    split
    · rename_i rest hstack
      rw [hstack] at hplain
      refine .moves (by simp) ?_ ⟨rfl, rfl, rfl, hplain.tail⟩
      rw [hstack]
      rfl
    · rename_i rest hstack
      refine .fails _ ?_
      rw [hstack]
      rfl
    · rename_i v rest htrue hfalse hstack
      refine .panics _ ?_
      rw [hstack]
      cases v with
      | bool b =>
        cases b with
        | true => exact absurd rfl htrue
        | false => exact absurd rfl hfalse
      | _ => simp [Opcode.Fits, Value.isBool]
    · rename_i hstack
      refine .fails _ ?_
      rw [hstack]
      trivial
  | ret => exact .returns _ rfl trivial
  | jump =>
    simp only [VM.execute]
    split
    · rename_i target rest hstack
      have hfits : Opcode.jump.Fits vm.stack := by
        rw [hstack]
        rfl
      split
      · exact .fails _ hfits
      · rw [hstack] at hplain
        exact .moves (by simp) hfits ⟨rfl, rfl, rfl, hplain.tail⟩
    · rename_i v rest hint hstack
      refine .panics _ ?_
      rw [hstack]
      cases v with
      | int i => exact absurd rfl (hint i)
      | _ => simp [Opcode.Fits, Value.isInt]
    · rename_i hstack
      refine .fails _ ?_
      rw [hstack]
      trivial

/-! ## One round -/

/-- What a round does on a stack without bytes. -/
inductive VM.Rounds (vm : VM) : VM ⊕ Exit VMResult → Prop where
  | ends : vm.code[vm.pc]? = none → Rounds vm (.inr (.returned { success := true, gasUsed := vm.gasUsed }))
  | exceeded (b : UInt8) : vm.code[vm.pc]? = some b → vm.gasLimit < vm.gasUsed →
      Rounds vm (.inr (.returned { success := false, error := "gas limit exceeded", gasUsed := vm.gasUsed }))
  | unknown (b : UInt8) (e : String) : vm.code[vm.pc]? = some b → Opcode.ofByte b = none → vm.gasUsed ≤ vm.gasLimit → Rounds vm (vmFail e)
  | executes (b : UInt8) (op : Opcode) {out : VM ⊕ Exit VMResult} : vm.code[vm.pc]? = some b → Opcode.ofByte b = some op →
      vm.gasUsed ≤ vm.gasLimit → { vm with pc := vm.pc + 1 }.Does op out → Rounds vm out

theorem round_rounds (hplain : Plain vm.stack) : vm.Rounds vm.round := by
  unfold VM.round VM.instruction
  split
  · rename_i hend
    exact .ends hend
  · rename_i b hb
    split
    · rename_i hgas
      exact .exceeded b hb hgas
    · rename_i hgas
      split
      · rename_i op hop
        exact .executes b op hb hop (Int64.not_lt.mp hgas) (execute_does { vm with pc := vm.pc + 1 } hplain op)
      · rename_i hop
        exact .unknown b _ hb hop (Int64.not_lt.mp hgas)

/-- A round that goes on. -/
theorem round_moves (hplain : Plain vm.stack) (h : vm.round = .inl vm') :
    ∃ b op, vm.code[vm.pc]? = some b ∧ Opcode.ofByte b = some op ∧ op ≠ .ret ∧ vm.gasUsed ≤ vm.gasLimit ∧ vm.Moves vm' op.gas := by
  have hrounds := round_rounds hplain
  rw [h] at hrounds
  cases hrounds with
  | executes b op hb hop hgas hdoes =>
    cases hdoes with
    | moves hret _ hmoves => exact ⟨b, op, hb, hop, hret, hgas, hmoves.code, hmoves.gasLimit, hmoves.gasUsed, hmoves.plain⟩

theorem round_success {r : VMResult} (hplain : Plain vm.stack) (h : vm.round = .inr (.returned r)) (hsuccess : r.success = true) :
    r.gasUsed = vm.gasUsed ∧ (vm.code[vm.pc]? = none ∨ vm.gasUsed ≤ vm.gasLimit) := by
  have hrounds := round_rounds hplain
  generalize hout : vm.round = out at hrounds
  rw [hout] at h
  cases hrounds with
  | ends hend =>
    cases h
    exact ⟨rfl, Or.inl hend⟩
  | exceeded _ _ _ =>
    cases h
    cases hsuccess
  | unknown _ _ _ _ _ =>
    cases h
    cases hsuccess
  | executes b op hb hop hgas hdoes =>
    cases hdoes with
    | moves _ _ _ => cases h
    | fails _ _ =>
      cases h
      cases hsuccess
    | returns _ _ _ =>
      cases h
      exact ⟨rfl, Or.inr hgas⟩
    | panics _ _ => cases h

end

/-! ## A whole run -/

section

variable {code : Bytes} {storage : GoMap Bytes Bytes} {gasLimit : Int64} {n : Nat} {vm : VM}

structure VM.Runs (code : Bytes) (gasLimit : Int64) (vm : VM) : Prop where
  code : vm.code = code
  gasLimit : vm.gasLimit = gasLimit
  plain : Plain vm.stack

theorem runs_of_steps (h : Steps VM.round n (newVM code storage gasLimit) vm) : vm.Runs code gasLimit := by
  refine h.invariant (VM.Runs code gasLimit) ⟨rfl, rfl, fun v hv => by cases hv⟩ ?_
  intro vm vm' hruns hround
  obtain ⟨_, _, -, -, -, -, hmoves⟩ := round_moves hruns.plain hround
  exact ⟨hmoves.code.trans hruns.code, hmoves.gasLimit.trans hruns.gasLimit, hmoves.plain⟩

theorem gas_bounds (op : Opcode) (h : op ≠ .ret) : 1 ≤ op.gas.toInt ∧ op.gas.toInt ≤ 5 := by
  revert h
  cases op with
  | ret => exact fun h => absurd rfl h
  | _ => decide

theorem toInt_add_gas {used limit : Int64} (hop : op ≠ .ret) (h : used ≤ limit) (hlimit : limit ≤ Int64.maxValue - 5) :
    (used + op.gas).toInt = used.toInt + op.gas.toInt := by
  have hgas := gas_bounds op hop
  have hle := Int64.le_iff_toInt_le.mp h
  have hmax := Int64.le_iff_toInt_le.mp hlimit
  rw [show (Int64.maxValue - 5).toInt = 2 ^ 63 - 6 from rfl] at hmax
  have hlow := Int64.le_toInt used
  rw [Int64.toInt_add]
  exact Int.bmod_eq_of_le (by omega) (by omega)

/-- Under a limit that is not at the end of the counter every run ends: the gas that is left gets less. -/
theorem run_ends (hlimit : gasLimit ≤ Int64.maxValue - 5) : ∃ n exit, (newVM code storage gasLimit).run n = some exit := by
  have hless : ∀ vm vm' : VM, vm.Runs code gasLimit → vm.round = .inl vm' → vm'.Runs code gasLimit ∧
      (max gasLimit.toInt 0 + 6 - vm'.gasUsed.toInt).toNat < (max gasLimit.toInt 0 + 6 - vm.gasUsed.toInt).toNat := by
    intro vm vm' hruns hround
    obtain ⟨b, op, -, -, hret, hgas, hmoves⟩ := round_moves hruns.plain hround
    rw [hruns.gasLimit] at hgas
    refine ⟨⟨hmoves.code.trans hruns.code, hmoves.gasLimit.trans hruns.gasLimit, hmoves.plain⟩, ?_⟩
    have hbounds := gas_bounds op hret
    have hle := Int64.le_iff_toInt_le.mp hgas
    rw [hmoves.gasUsed, toInt_add_gas hret hgas hlimit]
    omega
  have hstart : (newVM code storage gasLimit).Runs code gasLimit := ⟨rfl, rfl, fun v hv => by cases hv⟩
  obtain ⟨k, -, vm, exit, hsteps, hexit⟩ := exits_of_measure (VM.Runs code gasLimit) _ hless hstart
  exact ⟨k + 1, exit, run_eq_some_iff.mpr ⟨k, Nat.lt_succ_self k, vm, hsteps, hexit⟩⟩

/-! ## Without a limit -/

/-- A round of the loop of `Run` without the comparison with the limit. -/
def VM.free (vm : VM) : VM ⊕ Exit VMResult :=
  match vm.code[vm.pc]? with
  | none => .inr (.returned { success := true, gasUsed := vm.gasUsed })
  | some op => vm.instruction op

theorem round_eq_free (h : vm.gasUsed ≤ vm.gasLimit) : vm.round = vm.free := by
  unfold VM.round VM.free
  rcases vm.code[vm.pc]? with _ | op
  · rfl
  · exact if_neg (Int64.not_lt.mpr h)

theorem round_exits (h : vm.gasLimit < vm.gasUsed) : ∃ exit, vm.round = .inr exit := by
  unfold VM.round
  split
  · exact ⟨_, rfl⟩
  · rw [if_pos h]
    exact ⟨_, rfl⟩

theorem le_of_round (h : vm.round = .inl vm') : vm.gasUsed ≤ vm.gasLimit := by
  refine Int64.not_lt.mp fun hlt => ?_
  obtain ⟨exit, hexit⟩ := round_exits hlt
  rw [h] at hexit
  cases hexit

/-- Without the comparison the program comes to its end, or to a state in which the comparison would have stopped it. -/
def EndsOrExceeds (vm : VM) : Prop := ∃ n vm', Steps VM.free n vm vm' ∧ ((∃ exit, vm'.free = .inr exit) ∨ vm'.gasLimit < vm'.gasUsed)

theorem free_of_steps (h : Steps VM.round n vm vm') : Steps VM.free n vm vm' := by
  induction h with
  | refl vm => exact .refl vm
  | head hround _ ih => exact .head ((round_eq_free (le_of_round hround)).symm.trans hround) ih

/-- By induction on the rounds without the comparison. -/
theorem exits_of_free (h : Steps VM.free n vm vm') (hend : (∃ exit, vm'.free = .inr exit) ∨ vm'.gasLimit < vm'.gasUsed) :
    ∃ k last exit, Steps VM.round k vm last ∧ last.round = .inr exit := by
  induction h with
  | refl vm =>
    by_cases hover : vm.gasLimit < vm.gasUsed
    · obtain ⟨exit, hexit⟩ := round_exits hover
      exact ⟨0, vm, exit, .refl vm, hexit⟩
    · obtain ⟨exit, hexit⟩ := hend.resolve_right hover
      exact ⟨0, vm, exit, .refl vm, (round_eq_free (Int64.not_lt.mp hover)).trans hexit⟩
  | @head _ vm vm₁ _ hfirst _ ih =>
    by_cases hover : vm.gasLimit < vm.gasUsed
    · obtain ⟨exit, hexit⟩ := round_exits hover
      exact ⟨0, vm, exit, .refl vm, hexit⟩
    · obtain ⟨k, last, exit, hsteps, hexit⟩ := ih hend
      exact ⟨k + 1, last, exit, .head ((round_eq_free (Int64.not_lt.mp hover)).trans hfirst) hsteps, hexit⟩

theorem run_ends_iff : (∃ n exit, vm.run n = some exit) ↔ EndsOrExceeds vm := by
  constructor
  · intro h
    obtain ⟨n, exit, hrun⟩ := h
    obtain ⟨k, -, last, hsteps, hexit⟩ := run_eq_some_iff.mp hrun
    refine ⟨k, last, free_of_steps hsteps, ?_⟩
    by_cases hover : last.gasLimit < last.gasUsed
    · exact Or.inr hover
    · exact Or.inl ⟨exit, (round_eq_free (Int64.not_lt.mp hover)).symm.trans hexit⟩
  · intro h
    obtain ⟨n, vm', hsteps, hend⟩ := h
    obtain ⟨k, last, exit, hsteps, hexit⟩ := exits_of_free hsteps hend
    exact ⟨k + 1, exit, run_eq_some_iff.mpr ⟨k, Nat.lt_succ_self k, last, hsteps, hexit⟩⟩

end

/-! ## The limit -/

/-- An instruction after which the code is at its end stays within the limit. -/
def LastWithinLimit (vm : VM) : Prop :=
  ∀ b op vm', vm.code[vm.pc]? = some b → Opcode.ofByte b = some op → vm.round = .inl vm' → vm'.code[vm'.pc]? = none →
    vm.gasUsed + op.gas ≤ vm.gasLimit

/-- `Run` ends and reports no more gas than the limit with a success if and only if the limit is not at the end of the counter, or the
program ends or goes over it all the same, and in no state of the run does the instruction that leads to the end of the code go over the
limit. -/
theorem gas_within_limit_iff (code : Bytes) (storage : GoMap Bytes Bytes) (gasLimit : Int64) (hlimit : 0 ≤ gasLimit) :
    ((∃ n exit, (newVM code storage gasLimit).run n = some exit) ∧
        ∀ n r, (newVM code storage gasLimit).run n = some (.returned r) → r.success = true → r.gasUsed ≤ gasLimit) ↔
      (gasLimit ≤ Int64.maxValue - 5 ∨ EndsOrExceeds (newVM code storage gasLimit)) ∧
        ∀ n vm, Steps VM.round n (newVM code storage gasLimit) vm → LastWithinLimit vm := by
  constructor
  · intro h
    obtain ⟨hends, hgas⟩ := h
    refine ⟨Or.inr (run_ends_iff.mp hends), ?_⟩
    intro n vm hsteps b op vm' hb hop hround hend
    have hruns := runs_of_steps hsteps
    obtain ⟨b', op', hb', hop', -, -, hmoves⟩ := round_moves hruns.plain hround
    cases hb.symm.trans hb'
    cases hop.symm.trans hop'
    -- the next round returns the gas after the instruction
    have hlast : vm'.round = .inr (.returned { success := true, gasUsed := vm'.gasUsed }) := by
      unfold VM.round
      rw [hend]
    have hrun := run_eq_some_iff.mpr ⟨n + 1, Nat.lt_succ_self _, vm', hsteps.tail hround, hlast⟩
    have hle := hgas _ _ hrun rfl
    rw [hruns.gasLimit, ← hmoves.gasUsed]
    exact hle
  · intro h
    obtain ⟨hends, hwithin⟩ := h
    refine ⟨?_, ?_⟩
    · rcases hends with hsmall | hends
      · exact run_ends hsmall
      · exact run_ends_iff.mpr hends
    · intro n r hrun hsuccess
      obtain ⟨k, -, vm, hsteps, hexit⟩ := run_eq_some_iff.mp hrun
      have hruns := runs_of_steps hsteps
      obtain ⟨hgas, hend | hle⟩ := round_success hruns.plain hexit hsuccess
      · rw [hgas]
        rcases hsteps.eq_or_last with rfl | ⟨m, before, hbefore, hlast⟩
        · exact hlimit
        · have hrunsBefore := runs_of_steps hbefore
          obtain ⟨b, op, hb, hop, -, -, hmoves⟩ := round_moves hrunsBefore.plain hlast
          have hle := hwithin m before hbefore b op vm hb hop hlast hend
          rw [hrunsBefore.gasLimit] at hle
          rw [hmoves.gasUsed]
          exact hle
      · rw [hgas, ← hruns.gasLimit]
        exact hle

namespace Sample

/-- The sum of 2 and 3. -/
def sumCode : Bytes := [0x01, 2, 0x01, 3, 0x40]

end Sample

open Sample

/-- A program of three instructions, with the gas for them. -/
theorem gas_within_limit_sum : (∃ n exit, (newVM sumCode ∅ 9).run n = some exit) ∧
      ∀ n r, (newVM sumCode ∅ 9).run n = some (.returned r) → r.success = true → r.gasUsed ≤ 9 := by
  refine (gas_within_limit_iff sumCode ∅ 9 (by decide)).mpr ⟨Or.inl (by decide), ?_⟩
  have h₁ : (newVM sumCode ∅ 9).round = .inl { newVM sumCode ∅ 9 with stack := [.int 2], pc := 2, gasUsed := 3 } := rfl
  have h₂ : VM.round { newVM sumCode ∅ 9 with stack := [.int 2], pc := 2, gasUsed := 3 } =
    .inl { newVM sumCode ∅ 9 with stack := [.int 3, .int 2], pc := 4, gasUsed := 6 } := rfl
  have h₃ : VM.round { newVM sumCode ∅ 9 with stack := [.int 3, .int 2], pc := 4, gasUsed := 6 } =
    .inl { newVM sumCode ∅ 9 with stack := [.int 5], pc := 5, gasUsed := 9 } := rfl
  intro n vm hsteps b op vm' hb hop _ _
  cases hsteps with
  | refl => cases hb; cases hop; decide
  | head hround hsteps =>
    cases h₁.symm.trans hround
    cases hsteps with
    | refl => cases hb; cases hop; decide
    | head hround hsteps =>
      cases h₂.symm.trans hround
      cases hsteps with
      | refl => cases hb; cases hop; decide
      | head hround hsteps =>
        cases h₃.symm.trans hround
        cases hsteps with
        | refl => cases hb
        | head hround _ => cases hround

/-- One instruction, without gas for it. -/
theorem gas_over_limit : (newVM [0x00] ∅ 0).run 2 = some (.returned { success := true, gasUsed := 1 }) ∧ ¬(1 : Int64) ≤ 0 := by
  decide

end NeoCoin
