import NeoCoin.Internal.VM

/-!
# The gas of a contract in the second implementation

What an instruction of `Execute` of `internal/vm/vm.go` does, said once for all opcodes, and from it what a whole run does.
-/

namespace NeoCoin.Internal

open GoLib Machine List

/-! ## One instruction -/

structure VM.Keeps (v v' : VM) : Prop where
  gas : v'.gas = v.gas
  gasLimit : v'.gasLimit = v.gasLimit
  code : v'.code = v.code
  contractStore : v'.contractStore = v.contractStore
  currentContract : v'.currentContract = v.currentContract

/-- The address of a call is not negative, and the depth of a swap is neither negative nor the largest number. -/
def Opcode.Safe (op : Opcode) (stack : List Int64) : Prop :=
  match op, stack with
  | .call, addr :: _ => 0 ≤ addr
  | .swap, n :: _ => 0 ≤ n ∧ n ≠ Int64.maxValue
  | _, _ => True

def VM.stored (v : VM) (op : Opcode) : List (Int64 × Int64) :=
  match op, v.stack with
  | .store, val :: key :: _ => [(key, val)]
  | _, _ => []

def storeAll (storage : GoMap Bytes (GoMap Bytes Bytes)) (contract : Bytes) (stored : List (Int64 × Int64)) :
    GoMap Bytes (GoMap Bytes Bytes) :=
  stored.foldl (fun storage e => storeAt storage contract e.1 e.2) storage

/-- What an instruction does from a place in the code. -/
inductive VM.Acts (v : VM) (op : Opcode) : Effect → Prop where
  | next {v' : VM} : v.Keeps v' → v'.storage = storeAll v.storage v.currentContract (v.stored op) → (0 ≤ v'.pc ↔ op.Safe v.stack) →
      Acts v op (.next v')
  | fail (err : String) {v' : VM} : v.Keeps v' → v'.storage = v.storage → v.stored op = [] → op.Safe v.stack → Acts v op (.fail err v')
  | panic (msg : String) : ¬op.Safe v.stack → Acts v op (.panic msg)

section

variable {v : VM}

def Opcode.isBinary : Opcode → Bool
  | .add | .sub | .mul | .div | .eq | .lt | .gt | .and | .or => true
  | _ => false

theorem isBinary_stored {op : Opcode} (h : op.isBinary = true) : v.stored op = [] := by
  cases op with
  | store => cases h
  | _ => rfl

theorem isBinary_safe {op : Opcode} (h : op.isBinary = true) : op.Safe v.stack := by
  cases op with
  | call => cases h
  | swap => cases h
  | _ => trivial

theorem binary_acts (op : Opcode) (h : op.isBinary = true) (f : Int64 → Int64 → Int64) (hpc : 0 ≤ v.pc) : v.Acts op (v.binary f) := by
  unfold VM.binary
  split
  · refine .next ⟨rfl, rfl, rfl, rfl, rfl⟩ ?_ ?_
    · rw [isBinary_stored h]
      rfl
    · exact iff_of_true (by simp only; omega) (isBinary_safe h)
  · exact .fail _ ⟨rfl, rfl, rfl, rfl, rfl⟩ rfl (isBinary_stored h) (isBinary_safe h)

theorem jumpTo_acts (op : Opcode) (hstored : v.stored op = []) (hsafe : op.Safe v.stack) (stack : List Int64) (target : Int64) :
    v.Acts op ({ v with stack }.jumpTo target) := by
  unfold VM.jumpTo
  split
  · exact .fail _ ⟨rfl, rfl, rfl, rfl, rfl⟩ rfl hstored hsafe
  · rename_i htarget
    rw [not_or] at htarget
    refine .next ⟨rfl, rfl, rfl, rfl, rfl⟩ ?_ (iff_of_true ?_ hsafe)
    · rw [hstored]
      rfl
    · exact Int64.le_iff_toInt_le.mp (Int64.not_lt.mp htarget.1)

theorem toInt_succ {n : Int64} (h : n ≠ Int64.maxValue) : (n + 1).toInt = n.toInt + 1 := by
  have hne : n.toInt ≠ 2 ^ 63 - 1 := fun heq => h (Int64.toInt_inj.mp heq)
  have hlt := Int64.toInt_lt n
  have hle := Int64.le_toInt n
  rw [Int64.toInt_add]
  exact Int.bmod_eq_of_le (by simp; omega) (by simp; omega)

theorem swap_acts {n : Int64} {rest : List Int64} (hstack : v.stack = n :: rest) (hpc : 0 ≤ v.pc) :
    v.Acts .swap ({ v with stack := rest }.swap n) := by
  have hsafe : Opcode.swap.Safe v.stack ↔ 0 ≤ n ∧ n ≠ Int64.maxValue := by
    rw [hstack]
    rfl
  unfold VM.swap
  by_cases hbad : n < 0 ∨ n = Int64.maxValue
  · -- the comparison lets the depth through, and there is no value at it
    have hle : (n + 1).toInt ≤ rest.length := by
      rcases hbad with hneg | hmax
      · have hneg := Int64.lt_iff_toInt_lt.mp hneg
        rw [Int64.toInt_zero] at hneg
        rw [toInt_succ (by intro hmax; rw [hmax] at hneg; exact absurd hneg (by decide))]
        omega
      · rw [hmax]
        exact Int.le_trans (show (Int64.maxValue + 1).toInt ≤ 0 by decide) (Int.natCast_nonneg _)
    simp only [if_pos hbad]
    rw [if_neg (Int.not_lt.mpr hle)]
    have hpanic : v.Acts .swap (.panic "runtime error: index out of range") := by
      refine .panic _ fun h => ?_
      obtain ⟨hnonneg, hne⟩ := hsafe.mp h
      rcases hbad with hneg | hmax
      · exact Int64.not_lt.mpr hnonneg hneg
      · exact hne hmax
    split
    · rename_i hnone
      cases hnone
    · exact hpanic
  · obtain ⟨hneg, hmax⟩ := not_or.mp hbad
    have hok := hsafe.mpr ⟨Int64.not_lt.mp hneg, hmax⟩
    have hnonneg := Int64.le_iff_toInt_le.mp (Int64.not_lt.mp hneg)
    rw [Int64.toInt_zero] at hnonneg
    simp only [if_neg hbad, toInt_succ hmax]
    split
    · exact .fail _ ⟨rfl, rfl, rfl, rfl, rfl⟩ rfl rfl hok
    · rename_i hlen
      rw [List.getElem?_eq_getElem (show 0 < rest.length by omega),
        List.getElem?_eq_getElem (show n.toInt.toNat < rest.length by omega)]
      exact .next ⟨rfl, rfl, rfl, rfl, rfl⟩ rfl (iff_of_true (by simp only; omega) hok)

/-- What `executeOpcode` does, one case per opcode. -/
theorem executeOpcode_acts (v : VM) (hpc : 0 ≤ v.pc) (op : Opcode) : v.Acts op (v.executeOpcode op) := by
  have hnext : 0 ≤ v.pc + 1 := by omega
  cases op with
  | push =>
    simp only [VM.executeOpcode]
    split
    · exact .next ⟨rfl, rfl, rfl, rfl, rfl⟩ rfl (iff_of_true (by simp only; omega) trivial)
    · exact .fail _ ⟨rfl, rfl, rfl, rfl, rfl⟩ rfl rfl trivial
  | pop | load | not | dup =>
    simp only [VM.executeOpcode]
    split
    · exact .next ⟨rfl, rfl, rfl, rfl, rfl⟩ rfl (iff_of_true hnext trivial)
    · exact .fail _ ⟨rfl, rfl, rfl, rfl, rfl⟩ rfl rfl trivial
  | add | sub | mul | eq | lt | gt | and | or => exact binary_acts _ rfl _ hpc
  | div =>
    simp only [VM.executeOpcode]
    split
    · exact .fail _ ⟨rfl, rfl, rfl, rfl, rfl⟩ rfl rfl trivial
    · exact binary_acts .div rfl _ hpc
  | store =>
    simp only [VM.executeOpcode]
    split
    · rename_i val key rest hstack
      refine .next ⟨rfl, rfl, rfl, rfl, rfl⟩ ?_ (iff_of_true hnext trivial)
      simp only [VM.stored, hstack]
      rfl
    · rename_i hshort
      refine .fail _ ⟨rfl, rfl, rfl, rfl, rfl⟩ rfl ?_ trivial
      unfold VM.stored
      split
      · rename_i hstack
        exact absurd hstack (hshort _ _ _)
      · rfl
  | jump =>
    simp only [VM.executeOpcode]
    split
    · exact jumpTo_acts .jump rfl trivial _ _
    · exact .fail _ ⟨rfl, rfl, rfl, rfl, rfl⟩ rfl rfl trivial
  | jumpi =>
    simp only [VM.executeOpcode]
    split
    · split
      · exact jumpTo_acts .jumpi rfl trivial _ _
      · exact .next ⟨rfl, rfl, rfl, rfl, rfl⟩ rfl (iff_of_true hnext trivial)
    · exact .fail _ ⟨rfl, rfl, rfl, rfl, rfl⟩ rfl rfl trivial
  | call =>
    simp only [VM.executeOpcode]
    split
    · rename_i addr rest hstack
      refine .next ⟨rfl, rfl, rfl, rfl, rfl⟩ rfl ?_
      rw [hstack]
      exact (Int64.le_iff_toInt_le (x := 0)).symm
    · rename_i hstack
      refine .fail _ ⟨rfl, rfl, rfl, rfl, rfl⟩ rfl rfl ?_
      rw [hstack]
      trivial
  | ret =>
    simp only [VM.executeOpcode]
    split
    · exact .next ⟨rfl, rfl, rfl, rfl, rfl⟩ rfl (iff_of_true (Int.natCast_nonneg _) trivial)
    · exact .next ⟨rfl, rfl, rfl, rfl, rfl⟩ rfl (iff_of_true hpc trivial)
  | swap =>
    simp only [VM.executeOpcode]
    split
    · rename_i n rest hstack
      exact swap_acts hstack hpc
    · rename_i hstack
      refine .fail _ ⟨rfl, rfl, rfl, rfl, rfl⟩ rfl rfl ?_
      rw [hstack]
      trivial

end

/-! ## One round -/

def Frame.charged (f : Frame) : Option Opcode :=
  if f.vm.pc < 0 then none else (f.vm.code[f.vm.pc.toNat]?.bind Opcode.ofByte).filter fun op => gasCosts op ≤ f.vm.gas

/-- What a round does: nothing is paid for and the loop is left, or an instruction is paid for and executed. -/
inductive Frame.Rounds (f : Frame) : Frame ⊕ Exit Executed → Prop where
  | ends {r : Executed} : f.charged = none → 0 ≤ f.vm.pc → r.vm = f.vm → r.result.gasUsed = f.gasUsed → Rounds f (.inr (.returned r))
  | outside (msg : String) : f.charged = none → f.vm.pc < 0 → Rounds f (.inr (.panicked msg))
  | next (op : Opcode) {v : VM} : f.charged = some op → 0 ≤ f.vm.pc → (f.charge (gasCosts op)).vm.Acts op (.next v) →
      Rounds f (.inl { f.charge (gasCosts op) with vm := v })
  | fails (op : Opcode) (err : String) {v : VM} : f.charged = some op → 0 ≤ f.vm.pc → (f.charge (gasCosts op)).vm.Acts op (.fail err v) →
      Rounds f ({ f.charge (gasCosts op) with vm := v }.fail err)
  | panics (op : Opcode) (msg : String) : f.charged = some op → 0 ≤ f.vm.pc → (f.charge (gasCosts op)).vm.Acts op (.panic msg) →
      Rounds f (.inr (.panicked msg))

theorem round_rounds (f : Frame) : f.Rounds f.round := by
  simp only [Frame.round]
  split
  · rename_i hend
    have hpc : ¬f.vm.pc < 0 := by omega
    refine .ends ?_ (by omega) rfl rfl
    rw [Frame.charged, if_neg hpc, List.getElem?_eq_none (by omega)]
    rfl
  · rename_i hcode
    split
    · rename_i hneg
      exact .outside _ (if_pos hneg) hneg
    · rename_i hpc
      have hb : f.vm.code[f.vm.pc.toNat]? = some (f.vm.code.getD f.vm.pc.toNat 0) := by
        rw [getD_eq_getElem?_getD, List.getElem?_eq_getElem (by omega)]
        rfl
      have hcharged : f.charged = (Opcode.ofByte (f.vm.code.getD f.vm.pc.toNat 0)).filter fun op => gasCosts op ≤ f.vm.gas := by
        rw [Frame.charged, if_neg hpc, hb]
        rfl
      have hacts := fun op => executeOpcode_acts (f.charge (gasCosts op)).vm (Int.not_lt.mp hpc) op
      split
      · rename_i hop
        refine .ends ?_ (by omega) rfl rfl
        rw [hcharged, hop]
        rfl
      · rename_i op hop
        rw [hop] at hcharged
        split
        · rename_i hgas
          refine .ends ?_ (by omega) rfl rfl
          rw [hcharged, Option.filter_some, if_neg (by simpa using hgas)]
        · rename_i hgas
          rw [Option.filter_some, if_pos (by simpa using hgas)] at hcharged
          have hacts := hacts op
          split
          · rename_i v heffect
            rw [heffect] at hacts
            exact .next op hcharged (by omega) hacts
          · rename_i err v heffect
            rw [heffect] at hacts
            exact .fails op err hcharged (by omega) hacts
          · rename_i msg heffect
            rw [heffect] at hacts
            exact .panics op msg hcharged (by omega) hacts

def paid (ops : List Opcode) : Nat := (ops.map fun op => (gasCosts op).toNat).sum

theorem paid_append (ops ops' : List Opcode) : paid (ops ++ ops') = paid ops + paid ops' := by
  simp [paid]

theorem gasCosts_pos (op : Opcode) : 0 < (gasCosts op).toNat := by
  cases op with
  | _ => decide

theorem length_le_paid (ops : List Opcode) : ops.length ≤ paid ops := by
  induction ops with
  | nil => exact Nat.le_refl 0
  | cons op ops ih =>
    have hpos := gasCosts_pos op
    simp only [paid, map_cons, sum_cons, length_cons] at ih ⊢
    omega

theorem gasCosts_le_of_charged {f : Frame} {op : Opcode} (h : f.charged = some op) : gasCosts op ≤ f.vm.gas := by
  unfold Frame.charged at h
  split at h
  · cases h
  · exact of_decide_eq_true (Option.filter_eq_some_iff.mp h).2

theorem charge_gas {f : Frame} {op : Opcode} (h : f.charged = some op) :
    (f.charge (gasCosts op)).vm.gas.toNat + paid [op] = f.vm.gas.toNat := by
  have hle := UInt64.le_iff_toNat_le.mp (gasCosts_le_of_charged h)
  simp only [Frame.charge, paid, map_cons, map_nil, sum_cons, sum_nil]
  rw [UInt64.toNat_sub_of_le _ _ (gasCosts_le_of_charged h)]
  omega

theorem round_next {f f' : Frame} (h : f.round = .inl f') :
    ∃ op, f.charged = some op ∧ f'.vm.gas.toNat + paid [op] = f.vm.gas.toNat ∧ f'.vm.gasLimit = f.vm.gasLimit ∧
      f'.gasUsed = f'.vm.gasLimit - f'.vm.gas := by
  have hrounds := round_rounds f
  rw [h] at hrounds
  cases hrounds with
  | next op hcharged _ hacts =>
    cases hacts with
    | next hkeeps _ _ =>
      refine ⟨op, hcharged, ?_, hkeeps.gasLimit, ?_⟩
      · rw [hkeeps.gas]
        exact charge_gas hcharged
      · rw [hkeeps.gas, hkeeps.gasLimit]
        rfl

theorem round_returned {f : Frame} {r : Executed} (h : f.round = .inr (.returned r)) :
    r.vm.gas.toNat + paid f.charged.toList = f.vm.gas.toNat ∧ r.vm.gasLimit = f.vm.gasLimit ∧
      (f.charged = none → r.vm = f.vm ∧ r.result.gasUsed = f.gasUsed) ∧
      (f.charged ≠ none → r.result.gasUsed = r.vm.gasLimit - r.vm.gas) := by
  have hrounds := round_rounds f
  generalize hout : f.round = out at hrounds
  rw [hout] at h
  cases hrounds with
  | ends hcharged _ hvm hgas =>
    cases h
    rw [hcharged, hvm]
    exact ⟨rfl, rfl, fun _ => ⟨rfl, hgas⟩, fun hne => absurd rfl hne⟩
  | outside _ _ _ => cases h
  | next _ _ _ _ => cases h
  | fails op err hcharged _ hacts =>
    cases h
    cases hacts with
    | fail _ hkeeps _ _ _ =>
      rw [hcharged]
      refine ⟨?_, hkeeps.gasLimit, fun hnone => (by cases hnone), fun _ => ?_⟩
      · simp only [hkeeps.gas]
        exact charge_gas hcharged
      · simp only [hkeeps.gas, hkeeps.gasLimit]
        rfl
  | panics _ _ _ _ _ => cases h

/-! ## A whole run -/

/-- The instructions that are paid for in the first `n` rounds from a frame on. -/
def charges (n : Nat) (f : Frame) : List Opcode := trace Frame.round (fun f => f.charged.toList) n f

section

variable {f f' : Frame} {k : Nat}

/-- By induction on the rounds: what is left and what was paid add up. -/
theorem gas_of_steps (h : Steps Frame.round k f f') :
    f'.vm.gas.toNat + paid (charges k f) = f.vm.gas.toNat ∧ f'.vm.gasLimit = f.vm.gasLimit := by
  induction h with
  | refl f => exact ⟨rfl, rfl⟩
  | @head k f f₁ f' hround _ ih =>
    obtain ⟨op, hcharged, hgas, hlimit, -⟩ := round_next hround
    have hcharges : charges (k + 1) f = [op] ++ charges k f₁ := by
      simp only [charges, trace, hround, hcharged, Option.toList_some]
    rw [hcharges, paid_append]
    exact ⟨by omega, ih.2.trans hlimit⟩

/-- Once an instruction was paid for, the gas in the result is the gas that was used. -/
theorem gasUsed_of_steps (h : Steps Frame.round k f f') (hk : charges k f ≠ []) : f'.gasUsed = f'.vm.gasLimit - f'.vm.gas := by
  cases h with
  | refl => exact absurd rfl hk
  | head hround hrest =>
    rcases hrest.eq_or_last with rfl | ⟨_, _, _, hlast⟩
    · obtain ⟨_, -, -, -, hused⟩ := round_next hround
      exact hused
    · obtain ⟨_, -, -, -, hused⟩ := round_next hlast
      exact hused

theorem exits (f : Frame) : ∃ k ≤ f.vm.gas.toNat, ∃ f' exit, Steps Frame.round k f f' ∧ f'.round = .inr exit := by
  refine exits_of_measure (fun _ => True) (fun f : Frame => f.vm.gas.toNat) ?_ trivial
  intro f f' _ hround
  obtain ⟨op, -, hgas, -⟩ := round_next hround
  have hpos := length_le_paid [op]
  simp only [length_singleton] at hpos
  exact ⟨trivial, by omega⟩

end

theorem execute_exits (v : VM) (code : Bytes) :
    ∃ k ≤ v.gas.toNat, ∃ f exit, Steps Frame.round k (v.start code) f ∧ f.round = .inr exit ∧ v.execute code = some exit := by
  obtain ⟨k, hk, f, exit, hsteps, hexit⟩ := exits (v.start code)
  exact ⟨k, hk, f, exit, hsteps, hexit, run_eq_some_iff.mpr ⟨k, Nat.lt_succ_of_le hk, f, hsteps, hexit⟩⟩

/-- Without a panic, `Execute` returns; it pays for no more instructions than there is gas; in every state the gas that is left and the
gas that was paid add up to the gas at the start; and the gas in the result, once an instruction was paid for, is the limit without the
gas that is left. -/
theorem execute_within_gas (v : VM) (code : Bytes) (hgas : v.gas ≤ v.gasLimit) (hpanic : ∀ msg, v.execute code ≠ some (.panicked msg)) :
    ∃ r, v.execute code = some (.returned r) ∧ (charges (v.gas.toNat + 1) (v.start code)).length ≤ v.gas.toNat ∧
      (∀ k f, Steps Frame.round k (v.start code) f → f.vm.gas.toNat + paid (charges k (v.start code)) = v.gas.toNat) ∧
      r.vm.gas.toNat + paid (charges (v.gas.toNat + 1) (v.start code)) = v.gas.toNat ∧
      (charges (v.gas.toNat + 1) (v.start code) ≠ [] → r.result.gasUsed.toNat = v.gasLimit.toNat - r.vm.gas.toNat) := by
  obtain ⟨k, hk, f, exit, hsteps, hexit, hexecute⟩ := execute_exits v code
  cases exit with
  | panicked msg => exact absurd hexecute (hpanic msg)
  | returned r =>
    obtain ⟨hleft, hlimit⟩ := gas_of_steps hsteps
    obtain ⟨hlast, hlimit', hnone, hsome⟩ := round_returned hexit
    -- the rounds up to the last one, and the last one
    have hsplit : charges (v.gas.toNat + 1) (v.start code) = charges k (v.start code) ++ f.charged.toList := by
      obtain ⟨m, hm⟩ := Nat.exists_eq_add_of_le hk
      rw [hm, Nat.add_assoc]
      simp only [charges]
      rw [trace_add _ hsteps, trace_exit _ hexit]
    have htotal : r.vm.gas.toNat + paid (charges (v.gas.toNat + 1) (v.start code)) = v.gas.toNat := by
      have hstart : (v.start code).vm.gas.toNat = v.gas.toNat := rfl
      rw [hsplit, paid_append]
      omega
    refine ⟨r, hexecute, ?_, fun k f h => (gas_of_steps h).1, htotal, ?_⟩
    · have hlength := length_le_paid (charges (v.gas.toNat + 1) (v.start code))
      omega
    · intro hne
      have hused : r.result.gasUsed = r.vm.gasLimit - r.vm.gas := by
        by_cases hcharged : f.charged = none
        · obtain ⟨hvm, hused⟩ := hnone hcharged
          rw [hsplit, hcharged, Option.toList_none, append_nil] at hne
          rw [hused, hvm]
          exact gasUsed_of_steps hsteps hne
        · exact hsome hcharged
      have hlimits : r.vm.gasLimit = v.gasLimit := hlimit'.trans hlimit
      have hle : r.vm.gas ≤ v.gasLimit := by
        have := UInt64.le_iff_toNat_le.mp hgas
        exact UInt64.le_iff_toNat_le.mpr (by omega)
      rw [hused, hlimits, UInt64.toNat_sub_of_le _ _ hle]

/-- A program that adds two and three, with gas for it and one left over. -/
theorem execute_within_gas_add :
    ∃ r, (newVM 5).execute [1, 2, 1, 3, 3] = some (.returned r) ∧ r.result.gasUsed.toNat = 5 - r.vm.gas.toNat := by
  have hreturns : ∃ r, (newVM 5).execute [1, 2, 1, 3, 3] = some (.returned r) := ⟨_, rfl⟩
  obtain ⟨r, hr, -, -, -, hused⟩ := execute_within_gas (newVM 5) [1, 2, 1, 3, 3] (by decide) (by
    intro msg hmsg
    obtain ⟨r, hr⟩ := hreturns
    cases hmsg.symm.trans hr)
  exact ⟨r, hr, hused (by decide)⟩

end NeoCoin.Internal
