import NeoCoin.Theorems.ContractStorage

/-!
# What is left on a machine

What one use of a machine of `internal/vm/vm.go` leaves for the next. `Execute` clears the stack but not the places to return to. `Deploy`
makes the address of a contract from the name and the owner, one after the other with nothing in between.
-/

namespace NeoCoin.Internal

open GoLib Machine List

/-! ## One program after another -/

/-- What a caller of `Execute` sees, and the storage it leaves. -/
def Executed.seen (r : Executed) : Bool × Option String × Int64 × GoMap Bytes (GoMap Bytes Bytes) :=
  (r.result.success, r.err, r.result.returnVal, r.vm.storage)

def Frame.opcode (f : Frame) : Option Opcode := if f.vm.pc < 0 then none else f.vm.code[f.vm.pc.toNat]?.bind Opcode.ofByte

/-- The machine with other contracts, and with more places to return to below its own. -/
def VM.over (m : GoMap Bytes Contract) (places : List Nat) (v : VM) : VM :=
  { v with contractStore := m, callStack := v.callStack ++ places }

def Frame.over (m : GoMap Bytes Contract) (places : List Nat) (f : Frame) : Frame := { f with vm := f.vm.over m places }

def Executed.over (m : GoMap Bytes Contract) (places : List Nat) (r : Executed) : Executed := { r with vm := r.vm.over m places }

def Effect.over (m : GoMap Bytes Contract) (places : List Nat) : Effect → Effect
  | .next v => .next (v.over m places)
  | .fail err v => .fail err (v.over m places)
  | .panic msg => .panic msg

section

variable {v : VM} {f f' : Frame} {m : GoMap Bytes Contract} {places : List Nat}

end

structure Deployment where
  code : Bytes
  owner : Bytes
  name : Bytes

/-- The addresses that a sequence of deployments returns, and the machine it leaves. -/
def VM.deployAll (C : Crypto) (v : VM) : List Deployment → List Bytes × VM
  | [] => ([], v)
  | d :: ds =>
    let (addr, v) := v.deploy C d.code d.owner d.name
    let (addrs, v) := v.deployAll C ds
    (addr :: addrs, v)

/-- Deployments of different names or owners get different addresses, and a contract stays until its name is deployed again by its owner. -/
structure DeployedApart (C : Crypto) (v : VM) (ds : List Deployment) : Prop where
  addresses : ∀ (i j : Nat) d d', ds[i]? = some d → ds[j]? = some d' → (d.name, d.owner) ≠ (d'.name, d'.owner) →
    (v.deployAll C ds).1[i]? ≠ (v.deployAll C ds).1[j]?
  contracts : ∀ before d after, ds = before ++ d :: after → (∀ d' ∈ after, (d'.name, d'.owner) ≠ (d.name, d.owner)) →
    ∃ addr, (v.deployAll C ds).1[before.length]? = some addr ∧
      (v.deployAll C ds).2.contractStore.lookup addr = some { code := d.code, storage := ∅ }

section

variable {C : Crypto}

def Deployment.address (C : Crypto) (d : Deployment) : Bytes := generateAddress C (d.name ++ d.owner)

theorem generateAddress_inj {a b : Bytes} (hfree : C.CollisionFreeOn [a, b]) : generateAddress C a = generateAddress C b ↔ a = b := by
  refine ⟨fun h => ?_, congrArg _⟩
  have hdata := hexEncode_inj.mp (append_cancel_left h)
  obtain ⟨hhash, -⟩ := append_inj hdata (by simp [C.sha256_length])
  have htake : ∀ m, (C.sha256 m).take hashLen = C.sha256 m := fun m => take_of_length_le (C.sha256_length m).le
  rw [htake, htake] at hhash
  exact hfree a (by simp) b (by simp) (List.cons.inj hhash).2

theorem deployAll_addresses (v : VM) (ds : List Deployment) : (v.deployAll C ds).1 = ds.map (Deployment.address C) := by
  induction ds generalizing v with
  | nil => rfl
  | cons d ds ih => exact congrArg (d.address C :: ·) (ih _)

theorem lookup_deployAll (v : VM) (ds : List Deployment) (addr : Bytes) : (v.deployAll C ds).2.contractStore.lookup addr =
      ((ds.reverse.find? fun d => d.address C = addr).map fun d => ⟨d.code, ∅⟩).or (v.contractStore.lookup addr) := by
  induction ds generalizing v with
  | nil => rfl
  | cons d ds ih =>
    rw [reverse_cons, List.find?_append, List.find?_singleton]
    refine (ih _).trans ?_
    simp only [GoMap.lookup_set]
    cases ds.reverse.find? fun d => d.address C = addr with
    | some d' => rfl
    | none =>
      by_cases haddr : d.address C = addr
      · simp [← haddr, Deployment.address]
      · simp [haddr, show addr ≠ generateAddress C (d.name ++ d.owner) from Ne.symm haddr]

end

/-- As far as names with owners do not collide under SHA-256, the deployments are kept apart if and only if no two of them have different
names or owners that are the same text one after the other. -/
theorem deployed_apart_iff (C : Crypto) (v : VM) (ds : List Deployment) (hfree : C.CollisionFreeOn (ds.map fun d => d.name ++ d.owner)) :
    DeployedApart C v ds ↔ ∀ d ∈ ds, ∀ d' ∈ ds, d.name ++ d.owner = d'.name ++ d'.owner → (d.name, d.owner) = (d'.name, d'.owner) := by
  have hinj : ∀ d ∈ ds, ∀ d' ∈ ds, d.address C = d'.address C ↔ d.name ++ d.owner = d'.name ++ d'.owner := by
    intro d hd d' hd'
    refine generateAddress_inj (hfree.mono fun m hm => ?_)
    rcases mem_pair.mp hm with rfl | rfl
    · exact mem_map_of_mem hd
    · exact mem_map_of_mem hd'
  constructor
  · intro h d hd d' hd' heq
    obtain ⟨i, hi⟩ := mem_iff_getElem?.mp hd
    obtain ⟨j, hj⟩ := mem_iff_getElem?.mp hd'
    by_contra hne
    refine h.addresses i j d d' hi hj hne ?_
    rw [deployAll_addresses, List.getElem?_map, List.getElem?_map, hi, hj]
    exact congrArg some ((hinj d hd d' hd').mpr heq)
  · intro h
    refine ⟨?_, ?_⟩
    · intro i j d d' hi hj hne heq
      rw [deployAll_addresses, List.getElem?_map, List.getElem?_map, hi, hj] at heq
      have hd := mem_of_getElem? hi
      have hd' := mem_of_getElem? hj
      exact hne (h d hd d' hd' ((hinj d hd d' hd').mp (Option.some.inj heq)))
    · rintro before d after rfl hafter
      refine ⟨d.address C, by simp [deployAll_addresses], ?_⟩
      have hnone : after.reverse.find? (fun d' => d'.address C = d.address C) = none := by
        refine List.find?_eq_none.mpr fun d' hd' haddr => ?_
        rw [mem_reverse] at hd'
        have hmem : d' ∈ before ++ d :: after := by simp [hd']
        exact hafter d' hd' (h d' hmem d (by simp) ((hinj d' hmem d (by simp)).mp (of_decide_eq_true haddr)))
      rw [lookup_deployAll, reverse_append, reverse_cons, List.find?_append, List.find?_append, hnone]
      simp

theorem deployed_apart_two : DeployedApart Sample.plainCrypto (newVM 0) [⟨[1], str "c", str "ab"⟩, ⟨[2], str "d", str "ab"⟩] :=
  (deployed_apart_iff _ _ _ (by decide)).mpr (by decide)

/-- The contract `ab` of `c` is replaced when `bc` deploys the contract `a`. -/
theorem deployment_overwritten : (∃ addr, ((newVM 0).deploy Sample.plainCrypto [1] (str "c") (str "ab")).1 = addr ∧
      ((newVM 0).deploy Sample.plainCrypto [2] (str "bc") (str "a")).1 = addr) ∧
      ¬DeployedApart Sample.plainCrypto (newVM 0) [⟨[1], str "c", str "ab"⟩, ⟨[2], str "bc", str "a"⟩] := by
  have hsame : generateAddress Sample.plainCrypto (str "a" ++ str "bc") = generateAddress Sample.plainCrypto (str "ab" ++ str "c") :=
    congrArg _ (by decide)
  refine ⟨⟨_, rfl, hsame⟩, fun h => ?_⟩
  exact h.addresses 0 1 _ _ rfl rfl (by decide) (congrArg some hsame.symm)

end NeoCoin.Internal
