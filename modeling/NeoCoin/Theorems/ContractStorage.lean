import NeoCoin.Theorems.ExecuteGas

/-!
# The storage of contracts

The machine that a `Call` of `internal/vm/vm.go` makes has no current contract, so that every contract stores and loads under the name
`default`: all of them share one map. What a call stored stays stored when the call fails.
-/

namespace NeoCoin.Internal

open GoLib Machine

/-! ## Stored values -/

theorem decimalInt_ne_nil (z : Int) : decimalInt z ≠ [] := by
  unfold decimalInt decimal
  split
  · simp
  · simp [Nat.toDigits_ne_nil]

theorem ofDigitChars_decimal (n : Nat) : Nat.ofDigitChars 10 ((decimal n).map fun c => Char.ofNat c.toNat) 0 = n := by
  rw [decimal_chars]
  exact Nat.ofDigitChars_ten_toDigits

theorem sscanInt_decimalInt (v : Int64) : sscanInt (decimalInt v.toInt) = v := by
  by_cases hneg : v.toInt < 0
  · rw [decimalInt, if_pos hneg]
    simp only [sscanInt, ofDigitChars_decimal]
    rw [show (-(v.toInt.natAbs : Int)) = v.toInt by omega, Int64.ofInt_toInt]
  · rw [decimalInt, if_neg hneg]
    unfold sscanInt
    split
    · rename_i digits heq
      have hdigit := decimal_digits v.toInt.natAbs 0x2d (heq ▸ (.head _))
      exact absurd hdigit (by unfold isDecimal; decide)
    · simp only [ofDigitChars_decimal]
      rw [show (v.toInt.natAbs : Int) = v.toInt by omega, Int64.ofInt_toInt]

section

variable (storage : GoMap Bytes (GoMap Bytes Bytes))

theorem loadAt_storeAt (contract : Bytes) (key val key' : Int64) :
    loadAt (storeAt storage contract key val) contract key' = if key' = key then val else loadAt storage contract key' := by
  unfold loadAt storeAt
  rw [GoMap.lookup_set_self]
  simp only [GoMap.lookup_set]
  by_cases hkey : key' = key
  · subst hkey
    rw [if_pos rfl, if_pos rfl]
    split
    · rename_i heq
      cases heq
    · rename_i heq
      exact absurd (Option.some.inj heq) (decimalInt_ne_nil _)
    · rename_i heq
      rw [← Option.some.inj heq]
      exact sscanInt_decimalInt val
  · have hne : decimalInt key'.toInt ≠ decimalInt key.toInt := fun heq => hkey (Int64.toInt_inj.mp (decimalInt_inj heq))
    rw [if_neg hne, if_neg hkey]
    rcases storage.lookup contract with _ | values
    · rfl
    · rfl

def lastStored (stored : List (Int64 × Int64)) (key : Int64) : Option Int64 := (stored.reverse.find? fun e => e.1 = key).map Prod.snd

theorem lastStored_append_singleton (stored : List (Int64 × Int64)) (e : Int64 × Int64) (key : Int64) :
    lastStored (stored ++ [e]) key = if key = e.1 then some e.2 else lastStored stored key := by
  simp only [lastStored, List.reverse_append, List.reverse_singleton, List.singleton_append, List.find?_cons]
  by_cases hkey : e.1 = key
  · rw [if_pos hkey.symm, decide_eq_true hkey]
    rfl
  · rw [if_neg (Ne.symm hkey), decide_eq_false hkey]

theorem lastStored_isSome {stored : List (Int64 × Int64)} {e : Int64 × Int64} (h : e ∈ stored) :
    ∃ val, lastStored stored e.1 = some val := by
  unfold lastStored
  rcases hfind : stored.reverse.find? fun e' => e'.1 = e.1 with _ | e'
  · have hnone := List.find?_eq_none.mp hfind e (List.mem_reverse.mpr h)
    exact absurd (decide_eq_true rfl) hnone
  · exact ⟨e'.2, congrArg (Option.map Prod.snd) hfind⟩

theorem storeAll_append_singleton (contract : Bytes) (stored : List (Int64 × Int64))
    (e : Int64 × Int64) : storeAll storage contract (stored ++ [e]) = storeAt (storeAll storage contract stored) contract e.1 e.2 := by
  simp [storeAll]

/-- By induction on what was stored, from the last value back. -/
theorem loadAt_storeAll (contract : Bytes) (stored : List (Int64 × Int64)) (key : Int64) :
    loadAt (storeAll storage contract stored) contract key = (lastStored stored key).getD (loadAt storage contract key) := by
  induction stored using List.reverseRecOn with
  | nil => rfl
  | append_singleton stored e ih =>
    rw [storeAll_append_singleton, loadAt_storeAt, lastStored_append_singleton]
    split
    · rfl
    · exact ih

theorem lookup_storeAll_of_ne {contract other : Bytes} (h : other ≠ contract)
    (stored : List (Int64 × Int64)) : (storeAll storage contract stored).lookup other = storage.lookup other := by
  induction stored using List.reverseRecOn with
  | nil => rfl
  | append_singleton stored e ih =>
    rw [storeAll_append_singleton, storeAt, GoMap.lookup_set_of_ne _ _ h]
    exact ih

end

/-! ## What a program stores -/

/-- The keys and the values that are stored in the first `n` rounds from a frame on. -/
def stores (n : Nat) (f : Frame) : List (Int64 × Int64) := trace Frame.round (fun f => (f.charged.map f.vm.stored).getD []) n f

section

variable {f f' : Frame} {k : Nat}

theorem storeAll_append (storage : GoMap Bytes (GoMap Bytes Bytes)) (contract : Bytes) (stored stored' : List (Int64 × Int64)) :
    storeAll storage contract (stored ++ stored') = storeAll (storeAll storage contract stored) contract stored' := by
  simp [storeAll]

structure Wrote (v v' : VM) (stored : List (Int64 × Int64)) : Prop where
  storage : v'.storage = storeAll v.storage v.currentContract stored
  currentContract : v'.currentContract = v.currentContract
  contractStore : v'.contractStore = v.contractStore

theorem wrote_round (h : f.round = .inl f') : Wrote f.vm f'.vm ((f.charged.map f.vm.stored).getD []) := by
  have hrounds := round_rounds f
  rw [h] at hrounds
  cases hrounds with
  | next op hcharged _ hacts =>
    cases hacts with
    | next hkeeps hstorage _ =>
      rw [hcharged]
      exact ⟨hstorage, hkeeps.currentContract, hkeeps.contractStore⟩

theorem wrote_returned {r : Executed} (h : f.round = .inr (.returned r)) : Wrote f.vm r.vm ((f.charged.map f.vm.stored).getD []) := by
  have hrounds := round_rounds f
  generalize hout : f.round = out at hrounds
  rw [hout] at h
  cases hrounds with
  | ends hcharged _ hvm _ =>
    cases h
    rw [hcharged, hvm]
    exact ⟨rfl, rfl, rfl⟩
  | outside _ _ _ => cases h
  | next _ _ _ _ => cases h
  | fails op err hcharged _ hacts =>
    cases h
    cases hacts with
    | fail _ hkeeps hstorage hnone _ =>
      rw [hcharged]
      refine ⟨?_, hkeeps.currentContract, hkeeps.contractStore⟩
      rw [show ((some op).map f.vm.stored).getD [] = (f.charge (gasCosts op)).vm.stored op from rfl, hnone]
      exact hstorage
  | panics _ _ _ _ _ => cases h

theorem Wrote.trans {v v' v'' : VM} {stored stored' : List (Int64 × Int64)} (h : Wrote v v' stored) (h' : Wrote v' v'' stored') :
    Wrote v v'' (stored ++ stored') := by
  refine ⟨?_, h'.currentContract.trans h.currentContract, h'.contractStore.trans h.contractStore⟩
  rw [storeAll_append, ← h.storage, ← h.currentContract]
  exact h'.storage

theorem wrote_steps (h : Steps Frame.round k f f') : Wrote f.vm f'.vm (stores k f) := by
  induction h with
  | refl f => exact ⟨rfl, rfl, rfl⟩
  | @head k f f₁ f' hround _ ih =>
    have hstores : stores (k + 1) f = (f.charged.map f.vm.stored).getD [] ++ stores k f₁ := by
      simp only [stores, trace, hround]
    rw [hstores]
    exact (wrote_round hround).trans ih

end

theorem execute_wrote {v : VM} {code : Bytes} {r : Executed} (h : v.execute code = some (.returned r)) :
    Wrote (v.start code).vm r.vm (stores (v.gas.toNat + 1) (v.start code)) := by
  obtain ⟨k, hk, f, hsteps, hexit⟩ := run_eq_some_iff.mp h
  have hsplit : stores (v.gas.toNat + 1) (v.start code) = stores k (v.start code) ++ (f.charged.map f.vm.stored).getD [] := by
    obtain ⟨m, hm⟩ := Nat.exists_eq_add_of_le (Nat.le_of_lt_succ hk)
    rw [hm, Nat.add_assoc]
    simp only [stores]
    rw [trace_add _ hsteps, trace_exit _ hexit]
  rw [hsplit]
  exact (wrote_steps hsteps).trans (wrote_returned hexit)

/-! ## Machines with contracts -/

/-- The name under which a machine without a current contract stores. -/
def defaultContract : Bytes := str "default"

/-- The machines that the package makes: new ones, and what is left by a deployment, a call or a program that returns. -/
inductive Host (C : Crypto) : VM → Prop where
  | new (gasLimit : UInt64) : Host C (newVM gasLimit)
  | deploy {v : VM} (code owner name : Bytes) : Host C v → Host C (v.deploy C code owner name).2
  | execute {v : VM} (code : Bytes) {r : Executed} : Host C v → v.execute code = some (.returned r) → Host C r.vm
  | call {v : VM} (contractAddr : Bytes) (gasLimit : UInt64) {r : Called} : Host C v →
      v.call contractAddr gasLimit = some (.returned r) → Host C r.vm

/-- What holds of every such machine: no contract is at the default name, and nothing is stored for a contract. -/
structure VM.Tidy (v : VM) : Prop where
  deployed : ∀ addr contract, v.contractStore.lookup addr = some contract → addr ≠ defaultContract ∧ contract.storage = ∅
  empty : ∀ addr values, addr ≠ defaultContract → v.storage.lookup addr = some values → values = ∅
  current : v.currentContract = [] ∨ v.currentContract = defaultContract

theorem generateAddress_ne_default (C : Crypto) (b : Bytes) : generateAddress C b ≠ defaultContract := by
  intro h
  have hhead := congrArg List.head? h
  cases hhead

section

variable {C : Crypto} {v : VM} {contractAddr : Bytes} {contract : Contract} {gasLimit : UInt64}

theorem VM.Tidy.getD (h : v.Tidy) {addr : Bytes} (hne : addr ≠ defaultContract) : (v.storage.lookup addr).getD ∅ = ∅ := by
  rcases hlookup : v.storage.lookup addr with _ | values
  · rfl
  · exact h.empty addr values hne hlookup

theorem VM.Tidy.start (h : v.Tidy) (code : Bytes) : (v.start code).vm.currentContract = defaultContract := by
  simp only [VM.start]
  rcases h.current with hempty | hdefault
  · rw [if_pos hempty]
    rfl
  · rw [if_neg (by rw [hdefault]; decide), hdefault]

theorem VM.Tidy.execute (h : v.Tidy) {code : Bytes} {r : Executed} (hr : v.execute code = some (.returned r)) : r.vm.Tidy := by
  have hwrote := execute_wrote hr
  have hcurrent := h.start code
  refine ⟨?_, ?_, Or.inr (hwrote.currentContract.trans hcurrent)⟩
  · rw [hwrote.contractStore]
    exact h.deployed
  · intro addr values hne hlookup
    rw [hwrote.storage, hcurrent, lookup_storeAll_of_ne _ hne] at hlookup
    exact h.empty addr values hne hlookup

theorem VM.Tidy.callee (h : v.Tidy) (hcontract : v.contractStore.lookup contractAddr = some contract) :
    (v.callee contractAddr contract gasLimit).Tidy := by
  obtain ⟨hne, hstorage⟩ := h.deployed contractAddr contract hcontract
  refine ⟨h.deployed, ?_, Or.inl rfl⟩
  intro addr values haddr hlookup
  simp only [VM.callee, GoMap.lookup_set] at hlookup
  split at hlookup
  · rw [← Option.some.inj hlookup, hstorage, h.getD hne]
    exact Finmap.empty_union
  · exact h.empty addr values haddr hlookup

/-- What `Call` does with a contract that is there, if it returns. -/
theorem call_returned {r : Called} (hcontract : v.contractStore.lookup contractAddr = some contract)
    (h : v.call contractAddr gasLimit = some (.returned r)) :
    ∃ e, (v.callee contractAddr contract gasLimit).execute contract.code = some (.returned e) ∧ r.err = e.err ∧
      r.vm = { v with
        storage := e.vm.storage
        contractStore := if e.err = none then
          v.contractStore.set contractAddr
            { contract with storage := (e.vm.storage.lookup contractAddr).getD ∅ ∪ contract.storage }
        else v.contractStore } := by
  simp only [VM.call, hcontract] at h
  split at h
  · cases h
  · cases h
  · rename_i e he
    refine ⟨e, he, ?_⟩
    split at h
    · rename_i err herr
      cases h
      rw [herr, if_neg (by simp)]
      exact ⟨rfl, rfl⟩
    · rename_i herr
      cases h
      rw [herr, if_pos rfl]
      exact ⟨rfl, rfl⟩

theorem VM.Tidy.call {r : Called} (h : v.Tidy) (hr : v.call contractAddr gasLimit = some (.returned r)) : r.vm.Tidy := by
  rcases hcontract : v.contractStore.lookup contractAddr with _ | contract
  · simp only [VM.call, hcontract] at hr
    cases hr
    exact h
  · obtain ⟨e, he, -, hvm⟩ := call_returned hcontract hr
    obtain ⟨hne, hstorage⟩ := h.deployed contractAddr contract hcontract
    have htidy := (h.callee hcontract).execute he
    rw [hvm]
    refine ⟨?_, htidy.empty, h.current⟩
    intro addr contract' hlookup
    simp only at hlookup
    split at hlookup
    · rw [GoMap.lookup_set] at hlookup
      split at hlookup
      · rename_i haddr
        rw [haddr, ← Option.some.inj hlookup, hstorage, htidy.getD hne]
        exact ⟨hne, Finmap.empty_union⟩
      · exact h.deployed addr contract' hlookup
    · exact h.deployed addr contract' hlookup

theorem tidy_of_host (h : Host C v) : v.Tidy := by
  induction h with
  | new gasLimit =>
    refine ⟨?_, ?_, Or.inl rfl⟩
    · intro addr contract hlookup
      cases (Finmap.lookup_empty addr).symm.trans hlookup
    · intro addr values _ hlookup
      cases (Finmap.lookup_empty addr).symm.trans hlookup
  | deploy code owner name _ ih =>
    refine ⟨?_, ih.empty, ih.current⟩
    intro addr contract hlookup
    simp only [VM.deploy, GoMap.lookup_set] at hlookup
    split at hlookup
    · rename_i haddr
      rw [haddr, ← Option.some.inj hlookup]
      exact ⟨generateAddress_ne_default C _, rfl⟩
    · exact ih.deployed addr contract hlookup
  | execute code _ hr ih => exact ih.execute hr
  | call contractAddr gasLimit _ hr ih => exact ih.call hr

end

/-! ## What a call changes -/

def VM.reads (v : VM) (contractAddr : Bytes) (key : Int64) : Option Int64 :=
  (v.contractStore.lookup contractAddr).map fun contract =>
    let f := (v.callee contractAddr contract 0).start contract.code
    loadAt f.vm.storage f.vm.currentContract key

def VM.callStores (v : VM) (contractAddr : Bytes) (gasLimit : UInt64) : List (Int64 × Int64) :=
  match v.contractStore.lookup contractAddr with
  | none => []
  | some contract => stores (gasLimit.toNat + 1) ((v.callee contractAddr contract gasLimit).start contract.code)

section

variable {C : Crypto} {v : VM} {contractAddr : Bytes} {contract : Contract} {gasLimit : UInt64} {r : Called}

theorem VM.Tidy.reads (h : v.Tidy) (hcontract : v.contractStore.lookup contractAddr = some contract) (key : Int64) :
    v.reads contractAddr key = some (loadAt v.storage defaultContract key) := by
  obtain ⟨hne, -⟩ := h.deployed contractAddr contract hcontract
  simp only [VM.reads, hcontract, Option.map_some]
  rw [(h.callee hcontract).start]
  simp only [VM.start, VM.callee, loadAt]
  rw [GoMap.lookup_set_of_ne _ _ (Ne.symm hne)]

/-- A call keeps the contracts at their addresses. -/
theorem mem_contractStore_call (hr : v.call contractAddr gasLimit = some (.returned r)) (other : Bytes) :
    other ∈ r.vm.contractStore ↔ other ∈ v.contractStore := by
  rcases hcontract : v.contractStore.lookup contractAddr with _ | contract
  · simp only [VM.call, hcontract] at hr
    cases hr
    rfl
  · obtain ⟨e, -, -, hvm⟩ := call_returned hcontract hr
    rw [hvm]
    simp only
    split
    · rw [GoMap.mem_set]
      refine or_iff_right_of_imp ?_
      intro heq
      rw [heq]
      exact Finmap.mem_iff.mpr ⟨contract, hcontract⟩
    · rfl

/-- What is loaded after a call. -/
theorem VM.Tidy.loadAt_call (h : v.Tidy) (hr : v.call contractAddr gasLimit = some (.returned r)) (key : Int64) :
    loadAt r.vm.storage defaultContract key =
      (lastStored (v.callStores contractAddr gasLimit) key).getD (loadAt v.storage defaultContract key) := by
  unfold VM.callStores
  rcases hcontract : v.contractStore.lookup contractAddr with _ | contract
  · simp only [VM.call, hcontract] at hr
    cases hr
    rfl
  · obtain ⟨e, he, -, hvm⟩ := call_returned hcontract hr
    obtain ⟨hne, -⟩ := h.deployed contractAddr contract hcontract
    have hwrote := execute_wrote he
    rw [hvm]
    simp only
    rw [hwrote.storage, (h.callee hcontract).start, loadAt_storeAll]
    congr 1
    simp only [VM.start, VM.callee, loadAt]
    rw [GoMap.lookup_set_of_ne _ _ (Ne.symm hne)]

theorem VM.Tidy.reads_call (h : v.Tidy) (hr : v.call contractAddr gasLimit = some (.returned r)) {other : Bytes}
    (hother : other ∈ v.contractStore) (key : Int64) :
    r.vm.reads other key = some ((lastStored (v.callStores contractAddr gasLimit) key).getD (loadAt v.storage defaultContract key)) := by
  obtain ⟨contract, hcontract⟩ := Finmap.mem_iff.mp ((mem_contractStore_call hr other).mpr hother)
  rw [(h.call hr).reads hcontract, h.loadAt_call hr]

end

/-! ## Isolation and persistence -/

/-- A call leaves what the other contracts read, and what it stored, if it succeeds, is what it reads next and what `GetStorage` returns. -/
structure KeptApart (v : VM) (contractAddr : Bytes) (gasLimit : UInt64) (r : Called) : Prop where
  isolated : ∀ other ≠ contractAddr, other ∈ v.contractStore → ∀ key, r.vm.reads other key = v.reads other key
  persistent : r.err = none → ∀ key val, lastStored (v.callStores contractAddr gasLimit) key = some val →
    r.vm.reads contractAddr key = some val ∧
      ∃ values, r.vm.getStorage contractAddr = .ok values ∧ values.lookup (decimalInt key.toInt) = some (decimalInt val.toInt)

theorem VM.Tidy.getStorage {v : VM} (h : v.Tidy) {contractAddr : Bytes} {values : GoMap Bytes Bytes}
    (hvalues : v.getStorage contractAddr = .ok values) : values = ∅ := by
  unfold VM.getStorage at hvalues
  split at hvalues
  · cases hvalues
  · rename_i contract hcontract
    rw [← Except.ok.inj hvalues]
    exact (h.deployed contractAddr contract hcontract).2

/-- A call that returns keeps the storage apart if and only if it stores nothing if it succeeds, and otherwise, if there is another
contract, leaves under every key the value that was there. -/
theorem storage_apart_iff (C : Crypto) (v : VM) (hhost : Host C v) (contractAddr : Bytes) (hdeployed : contractAddr ∈ v.contractStore)
    (gasLimit : UInt64) (r : Called) (hr : v.call contractAddr gasLimit = some (.returned r)) : KeptApart v contractAddr gasLimit r ↔
      (r.err = none → v.callStores contractAddr gasLimit = []) ∧
        ((∃ other ≠ contractAddr, other ∈ v.contractStore) →
          ∀ key val, lastStored (v.callStores contractAddr gasLimit) key = some val → v.reads contractAddr key = some val) := by
  have htidy := tidy_of_host hhost
  obtain ⟨contract, hcontract⟩ := Finmap.mem_iff.mp hdeployed
  constructor
  · intro h
    refine ⟨?_, ?_⟩
    · intro herr
      by_contra hne
      obtain ⟨e, hmem⟩ := List.exists_mem_of_ne_nil _ hne
      obtain ⟨val, hlast⟩ := lastStored_isSome hmem
      obtain ⟨-, values, hvalues, hlookup⟩ := h.persistent herr _ val hlast
      rw [(htidy.call hr).getStorage hvalues, Finmap.lookup_empty] at hlookup
      cases hlookup
    · intro hother key val hlast
      obtain ⟨other, hne, hother⟩ := hother
      obtain ⟨contract', hcontract'⟩ := Finmap.mem_iff.mp hother
      have hreads := h.isolated other hne hother key
      rw [htidy.reads_call hr hother, hlast, htidy.reads hcontract', Option.getD_some] at hreads
      rw [htidy.reads hcontract]
      exact hreads.symm
  · intro h
    obtain ⟨hnone, hsame⟩ := h
    refine ⟨?_, ?_⟩
    · intro other hne hother key
      obtain ⟨contract', hcontract'⟩ := Finmap.mem_iff.mp hother
      rw [htidy.reads_call hr hother, htidy.reads hcontract']
      rcases hlast : lastStored (v.callStores contractAddr gasLimit) key with _ | val
      · rfl
      · have hreads := hsame ⟨other, hne, hother⟩ key val hlast
        rw [htidy.reads hcontract] at hreads
        exact hreads.symm
    · intro herr key val hlast
      rw [hnone herr] at hlast
      cases hlast

namespace Sample

def plainCrypto : Crypto := goCrypto []

def writer : Bytes := [1, 1, 1, 5, 7]

def reader : Bytes := [1, 1, 8]

def failing : Bytes := [1, 1, 1, 5, 7, 2]

def writerAddr : Bytes := generateAddress plainCrypto (str "writer" ++ str "owner")

def readerAddr : Bytes := generateAddress plainCrypto (str "reader" ++ str "owner")

def host (code : Bytes) : VM :=
  (((newVM 0).deploy plainCrypto code (str "owner") (str "writer")).2.deploy plainCrypto reader (str "owner") (str "reader")).2

theorem host_host (code : Bytes) : Host plainCrypto (host code) := .deploy _ _ _ (.deploy _ _ _ (.new 0))

def valueOf : Option (Exit Called) → Option Int64
  | some (.returned r) => r.result.map ExecutionResult.returnVal
  | _ => none

def returns (test : Called → Bool) : Option (Exit Called) → Bool
  | some (.returned r) => test r
  | _ => false

theorem exists_of_returns {test : Called → Bool} {e : Option (Exit Called)} (h : returns test e = true) :
    ∃ r, e = some (.returned r) ∧ test r = true := by
  rcases e with _ | ⟨r⟩ | _
  · cases h
  · exact ⟨r, rfl, h⟩
  · cases h

end Sample

open Internal.Sample

/-- A call of the reader, which stores nothing. -/
theorem storage_apart_reader : ∃ r, (host writer).call readerAddr 100 = some (.returned r) ∧
      KeptApart (host writer) readerAddr 100 r := by
  obtain ⟨r, hr, -⟩ := exists_of_returns (show returns (fun _ => true) ((host writer).call readerAddr 100) = true by decide +kernel)
  have hnone : (host writer).callStores readerAddr 100 = [] := by decide +kernel
  refine ⟨r, hr, (storage_apart_iff plainCrypto _ (host_host _) readerAddr (by decide +kernel) 100 r hr).mpr ⟨fun _ => hnone, ?_⟩⟩
  rw [hnone]
  intro _ key val hlast
  cases hlast

/-- A call of the writer, which succeeds: the reader reads 5 where it read 0, and `GetStorage` returns nothing. -/
theorem storage_shared : ∃ r, (host Sample.writer).call writerAddr 100 = some (.returned r) ∧ r.err = none ∧
      valueOf ((host Sample.writer).call readerAddr 100) = some 0 ∧
      valueOf (r.vm.call readerAddr 100) = some 5 ∧ r.vm.getStorage writerAddr = .ok ∅ ∧
      ¬KeptApart (host Sample.writer) writerAddr 100 r := by
  obtain ⟨r, hr, htest⟩ := exists_of_returns (show returns (fun r => decide (r.err = none ∧ valueOf (r.vm.call readerAddr 100) = some 5 ∧
    r.vm.getStorage writerAddr = .ok ∅ ∧ r.vm.reads readerAddr 1 = some 5)) ((host Sample.writer).call writerAddr 100) = true by
      decide +kernel)
  obtain ⟨herr, hvalue, hstorage, hreads⟩ := of_decide_eq_true htest
  refine ⟨r, hr, herr, by decide +kernel, hvalue, hstorage, fun hapart => ?_⟩
  have hsame := hapart.isolated readerAddr (by decide) (by decide +kernel) 1
  rw [hreads] at hsame
  exact absurd hsame (by decide +kernel)

/-! ## Failed calls -/

/-- After a call every contract reads what it read before exactly if the call stored the values that were there. -/
theorem call_unseen_iff {C : Crypto} {v : VM} (hhost : Host C v) {contractAddr : Bytes} {gasLimit : UInt64} {r : Called}
    (hr : v.call contractAddr gasLimit = some (.returned r)) : (∀ other key, r.vm.reads other key = v.reads other key) ↔
      ∀ key val, lastStored (v.callStores contractAddr gasLimit) key = some val → v.reads contractAddr key = some val := by
  have htidy := tidy_of_host hhost
  constructor
  · intro h key val hlast
    by_cases hdeployed : contractAddr ∈ v.contractStore
    · have hreads := h contractAddr key
      rw [htidy.reads_call hr hdeployed, hlast] at hreads
      exact hreads.symm
    · rw [VM.callStores, Finmap.lookup_eq_none.mpr hdeployed] at hlast
      cases hlast
  · intro hsame other key
    by_cases hother : other ∈ v.contractStore
    · obtain ⟨contract, hcontract⟩ := Finmap.mem_iff.mp hother
      rw [htidy.reads_call hr hother, htidy.reads hcontract]
      rcases hlast : lastStored (v.callStores contractAddr gasLimit) key with _ | val
      · rfl
      · have hreads := hsame key val hlast
        by_cases hdeployed : contractAddr ∈ v.contractStore
        · obtain ⟨contract', hcontract'⟩ := Finmap.mem_iff.mp hdeployed
          rw [htidy.reads hcontract'] at hreads
          exact hreads.symm
        · rw [VM.callStores, Finmap.lookup_eq_none.mpr hdeployed] at hlast
          cases hlast
    · have hother' := fun h => hother ((mem_contractStore_call hr other).mp h)
      rw [VM.reads, VM.reads, Finmap.lookup_eq_none.mpr hother, Finmap.lookup_eq_none.mpr hother']
      rfl

/-- A call changes nothing that a contract reads later if and only if, if it returns an error, it left under every key it stored the
value that was there. -/
theorem failed_call_unseen_iff (C : Crypto) (v : VM) (hhost : Host C v) (contractAddr : Bytes) (gasLimit : UInt64) (r : Called)
    (hr : v.call contractAddr gasLimit = some (.returned r)) : (r.err ≠ none → ∀ other key, r.vm.reads other key = v.reads other key) ↔
      (r.err ≠ none → ∀ key val, lastStored (v.callStores contractAddr gasLimit) key = some val → v.reads contractAddr key = some val) :=
  imp_congr_right fun _ => call_unseen_iff hhost hr

/-- A call that fails for the second time: it has stored what was there. -/
theorem failed_call_unseen_again : ∃ r r', (host failing).call writerAddr 100 = some (.returned r) ∧
      r.vm.call writerAddr 100 = some (.returned r') ∧ r'.err = some "stack underflow" ∧ r.vm.callStores writerAddr 100 = [(1, 5)] ∧
      ∀ other key, r'.vm.reads other key = r.vm.reads other key := by
  obtain ⟨r, hr, htest⟩ := exists_of_returns (show returns (fun r => returns (fun r' => decide (r'.err = some "stack underflow" ∧
    r.vm.callStores writerAddr 100 = [(1, 5)] ∧ r.vm.reads writerAddr 1 = some 5)) (r.vm.call writerAddr 100))
      ((host failing).call writerAddr 100) = true by decide +kernel)
  obtain ⟨r', hr', htest⟩ := exists_of_returns htest
  obtain ⟨herr, hstores, hreads⟩ := of_decide_eq_true htest
  refine ⟨r, r', hr, hr', herr, hstores, ?_⟩
  refine (failed_call_unseen_iff plainCrypto _ (.call _ _ (host_host _) hr) writerAddr 100 r' hr').mpr ?_ (by rw [herr]; simp)
  intro _ key val hlast
  rw [hstores] at hlast
  obtain ⟨rfl, hval⟩ := Option.ite_none_right_eq_some.mp ((lastStored_append_singleton [] (1, 5) key).symm.trans hlast)
  cases hval
  exact hreads

/-- A call that fails after its `STORE`: a later call of the reader returns 5 and not 0. -/
theorem failed_call_seen : ∃ r, (host failing).call writerAddr 100 = some (.returned r) ∧ r.err = some "stack underflow" ∧
      valueOf ((host failing).call readerAddr 100) = some 0 ∧
      valueOf (r.vm.call readerAddr 100) = some 5 ∧
      r.vm.reads readerAddr 1 ≠ (host failing).reads readerAddr 1 := by
  obtain ⟨r, hr, htest⟩ := exists_of_returns (show returns (fun r => decide (r.err = some "stack underflow" ∧
    valueOf (r.vm.call readerAddr 100) = some 5 ∧ r.vm.reads readerAddr 1 = some 5)) ((host failing).call writerAddr 100) = true by
      decide +kernel)
  obtain ⟨herr, hvalue, hreads⟩ := of_decide_eq_true htest
  refine ⟨r, hr, herr, by decide +kernel, hvalue, ?_⟩
  rw [hreads]
  decide +kernel

end NeoCoin.Internal
