import NeoCoin.Internal.Chain

/-!
# The root of the account state

`computeStateRoot` of `internal/blockchain/state_commitment.go` puts no mark on leaves and inner nodes; what keeps them apart is that a
valid address has an odd number of characters, so that no account is written in the 64 bytes of an inner node. So two states with one root
are equal (`state_eq_of_root`).
-/

namespace NeoCoin.Internal

open GoLib List

variable {state : State}

/-! ## What is hashed -/

def accountMessage (e : Bytes × Account) : Bytes := e.1 ++ leBytes 8 e.2.balance.toNat ++ leBytes 8 e.2.nonce.toNat

-- named, so that the sorted lists below do not each hold proofs of these
local instance : IsTrans Bytes fun a b => a ≤ b := inferInstance

local instance : Std.Antisymm fun a b : Bytes => a ≤ b := inferInstance

local instance : Std.Total fun a b : Bytes => a ≤ b := inferInstance

def accounts (state : State) : List (Bytes × Account) := (state.keys.sort fun a b => a ≤ b).map fun addr => (addr, state.get addr)

section

variable (C : Crypto)

def hashPair (a b : Bytes) : Bytes := C.sha256 (a ++ b)

def accountLeaves (state : State) : List Bytes := (accounts state).map fun e => C.sha256 (accountMessage e)

def rootDepth (state : State) : Nat := Nat.clog 2 (accounts state).length

def paddedLeaves (state : State) : List Bytes :=
  accountLeaves C state ++ List.replicate (2 ^ rootDepth state - (accounts state).length) (C.sha256 (str "empty"))

/-- Everything that is hashed on the way to the root of a state. -/
def stateMessages (state : State) : List Bytes :=
  [] :: str "empty" :: (accounts state).map accountMessage ++
    (Merkle.hashedPairs (hashPair C) (rootDepth state) (paddedLeaves C state)).map fun q => q.1 ++ q.2

/-! ## The tree -/

theorem merkleLevel_eq_up {l : List Bytes} (h : 2 ∣ l.length) : merkleLevel C l = Merkle.up (hashPair C) l := by
  fun_induction merkleLevel C l with
  | case1 a b rest ih =>
    simp only [length_cons] at h
    rw [ih (by omega)]
    rfl
  | case2 rest hrest =>
    match rest with
    | [] => rfl
    | [_] => exact absurd h (by simp)
    | a :: b :: rest => exact absurd rfl (hrest a b rest)

theorem rooted_merkleLevels (S : Bytes × Bytes → Prop) {n : Nat} {l : List Bytes} (hlen : l.length = 2 ^ n)
    (hS : ∀ q ∈ Merkle.hashedPairs (hashPair C) n l, S q) : ∃ r, Merkle.Rooted (hashPair C) S n l r ∧ merkleLevels C n l = [r] := by
  induction n generalizing l with
  | zero =>
    obtain ⟨r, rfl⟩ := length_eq_one_iff.mp hlen
    exact ⟨r, .leaf r, rfl⟩
  | succ n ih =>
    have hpos := Nat.two_pow_pos n
    have htwo : 2 ≤ l.length := by
      rw [hlen, Nat.pow_succ]
      omega
    rw [Merkle.hashedPairs, if_neg (by omega)] at hS
    obtain ⟨r, hr, hlevels⟩ := ih (l := Merkle.up (hashPair C) l) (by rw [Merkle.up_length, hlen, Nat.pow_succ]; omega)
      (fun q hq => hS q (mem_append_right _ hq))
    refine ⟨r, .level htwo (fun q hq => hS q (mem_append_left _ hq)) hr, ?_⟩
    rw [merkleLevels, merkleLevel_eq_up C (by rw [hlen, Nat.pow_succ]; omega), hlevels]

theorem length_accountLeaves (state : State) : (accountLeaves C state).length = (accounts state).length := length_map _

theorem length_paddedLeaves (state : State) : (paddedLeaves C state).length = 2 ^ rootDepth state := by
  have hle : (accounts state).length ≤ 2 ^ rootDepth state := Nat.le_pow_clog (by decide) _
  rw [paddedLeaves, length_append, length_accountLeaves, length_replicate]
  omega

theorem computeStateRoot_eq (h : accounts state ≠ []) :
    computeStateRoot C state = (merkleLevels C (rootDepth state) (paddedLeaves C state)).headD [] := by
  have hleaves : (state.keys.sort fun a b => a ≤ b).map (fun addr => hashAccountState C addr (state.get addr)) = accountLeaves C state := by
    rw [accountLeaves, accounts, map_map]
    rfl
  have hlen := length_accountLeaves C state
  have hne : accountLeaves C state ≠ [] := by simpa [accountLeaves] using h
  rw [computeStateRoot, hleaves, if_neg hne, paddedLeaves, rootDepth, ← hlen]
  unfold computeMerkleRoot
  split
  · exact absurd ‹_› hne
  · rename_i leaf heq
    rw [heq]
    simp [merkleLevels]
  · rfl

theorem computeStateRoot_of_empty (h : accounts state = []) : computeStateRoot C state = C.sha256 [] := by
  have hkeys : (state.keys.sort fun a b => a ≤ b) = [] := map_eq_nil_iff.mp h
  rw [computeStateRoot, hkeys]
  rfl

theorem digest_of_mem_padded {x : Bytes} (hx : x ∈ paddedLeaves C state) :
    ∃ m ∈ str "empty" :: (accounts state).map accountMessage, x = C.sha256 m := by
  rcases mem_append.mp hx with hx | hx
  · obtain ⟨e, he, rfl⟩ := mem_map.mp hx
    exact ⟨_, mem_cons_of_mem _ (mem_map_of_mem he), rfl⟩
  · exact ⟨_, (.head _), (mem_replicate.mp hx).2⟩

theorem length_of_mem_padded {x : Bytes} (hx : x ∈ paddedLeaves C state) : x.length = 32 := by
  obtain ⟨m, -, rfl⟩ := digest_of_mem_padded C hx
  exact C.sha256_length m

def PairIn (ms : List Bytes) (q : Bytes × Bytes) : Prop := q.1 ++ q.2 ∈ ms ∧ q.1.length = 32 ∧ q.2.length = 32

theorem rooted_state (h : accounts state ≠ []) {ms : List Bytes} (hms : ∀ m ∈ stateMessages C state, m ∈ ms) :
    Merkle.Rooted (hashPair C) (PairIn ms) (rootDepth state) (paddedLeaves C state) (computeStateRoot C state) := by
  have hlen : ∀ q ∈ Merkle.hashedPairs (hashPair C) (rootDepth state) (paddedLeaves C state), q.1.length = 32 ∧ q.2.length = 32 :=
    Merkle.hashedPairs_forall (P := fun x : Bytes => x.length = 32) (fun _ _ => C.sha256_length _) fun x hx => length_of_mem_padded C hx
  obtain ⟨r, hr, hlevels⟩ := rooted_merkleLevels C (PairIn ms) (length_paddedLeaves C state) fun q hq =>
    ⟨hms _ (mem_append_right _ (mem_map_of_mem hq)), hlen q hq⟩
  rw [computeStateRoot_eq C h, hlevels]
  exact hr

theorem computeStateRoot_length {C : Crypto} (state : State) : (computeStateRoot C state).length = 32 := by
  by_cases h : accounts state = []
  · rw [computeStateRoot_of_empty C h]
    exact C.sha256_length _
  · exact (rooted_state C h fun _ hm => hm).forall (P := fun x : Bytes => x.length = 32) (fun _ _ => C.sha256_length _)
      fun x hx => length_of_mem_padded C hx

/-! ## One root, one state -/

theorem length_of_validateAddress {C : Crypto} {addr : Bytes} (h : validateAddress C addr = .ok ()) : addr.length % 2 = 1 := by
  obtain ⟨enc, data, rfl, -, hdec⟩ := (validateAddress_ok_iff C addr).mp h
  rw [length_append, addressPrefix_length, hexDecode_length hdec]
  omega

theorem length_accountMessage (e : Bytes × Account) : (accountMessage e).length = e.1.length + 16 := by
  rw [accountMessage, length_append, length_append, leBytes_length, leBytes_length]

theorem accountMessage_inj {e e' : Bytes × Account} (h : accountMessage e = accountMessage e') : e = e' := by
  obtain ⟨hfirst, hnonce⟩ := append_inj' h (by rw [leBytes_length, leBytes_length])
  obtain ⟨haddr, hbalance⟩ := append_inj' hfirst (by rw [leBytes_length, leBytes_length])
  obtain ⟨addr, balance, nonce⟩ := e
  obtain ⟨addr', balance', nonce'⟩ := e'
  obtain rfl : addr = addr' := haddr
  obtain rfl : balance = balance' := leBytes_uint64_inj hbalance
  obtain rfl : nonce = nonce' := leBytes_uint64_inj hnonce
  rfl

theorem mem_accounts {e : Bytes × Account} : e ∈ accounts state ↔ state.lookup e.1 = some e.2 := by
  rw [accounts, mem_map]
  constructor
  · intro h
    obtain ⟨addr, haddr, rfl⟩ := h
    obtain ⟨acct, hacct⟩ := Finmap.mem_iff.mp (Finmap.mem_keys.mp ((Finset.mem_sort _).mp haddr))
    rw [GoMap.get, hacct]
    rfl
  · intro h
    refine ⟨e.1, (Finset.mem_sort _).mpr (Finmap.mem_keys.mpr (Finmap.mem_iff.mpr ⟨_, h⟩)), ?_⟩
    rw [GoMap.get, h]
    rfl

theorem accounts_singleton (addr : Bytes) (acct : Account) : accounts (GoMap.set ∅ addr acct) = [(addr, acct)] := by
  have hkeys : Finmap.keys (GoMap.set ∅ addr acct) = {addr} := by
    ext a
    rw [Finmap.mem_keys, GoMap.mem_set, Finset.mem_singleton]
    exact or_iff_left Finmap.notMem_empty
  rw [accounts, hkeys, Finset.sort_singleton, map_singleton, GoMap.get_set_self]

theorem stateMessages_singleton (addr : Bytes) (acct : Account) :
    stateMessages C (GoMap.set ∅ addr acct) = [[], str "empty", accountMessage (addr, acct)] := by
  rw [stateMessages, rootDepth, accounts_singleton, length_singleton, Nat.clog_one_right]
  rfl

theorem computeStateRoot_singleton (addr : Bytes) (acct : Account) :
    computeStateRoot C (GoMap.set ∅ addr acct) = C.sha256 (accountMessage (addr, acct)) := by
  have haccounts := accounts_singleton addr acct
  rw [computeStateRoot_eq C (by rw [haccounts]; simp), paddedLeaves, accountLeaves, rootDepth, haccounts, length_singleton,
    Nat.clog_one_right]
  rfl

theorem state_eq_of_accounts {state' : State} (h : accounts state = accounts state') : state = state' := by
  apply Finmap.ext_lookup
  intro addr
  apply Option.ext
  intro acct
  rw [← mem_accounts (e := (addr, acct)), ← mem_accounts (e := (addr, acct)), h]

theorem append_replicate_inj {α : Type*} [DecidableEq α] {l l' : List α} {x : α} {k k' : Nat} (hl : x ∉ l) (hl' : x ∉ l')
    (h : l ++ List.replicate k x = l' ++ List.replicate k' x) : l = l' := by
  have hown : ∀ {l : List α} {k : Nat}, x ∉ l → (l ++ List.replicate k x).filter (· ≠ x) = l := by
    intro l k hx
    rw [filter_append, filter_eq_self.mpr, filter_eq_nil_iff.mpr, append_nil]
    · intro y hy
      simp [(mem_replicate.mp hy).2]
    · intro y hy
      exact decide_eq_true fun heq => hx (heq ▸ hy)
  rw [← hown (k := k) hl, h, hown hl']

/-- A leaf: the digest of one of some messages, of odd length. -/
def LeafIn (ms : List Bytes) (x : Bytes) : Prop := ∃ m ∈ ms, m.length % 2 = 1 ∧ x = C.sha256 m

end

section

variable {C : Crypto} {ms : List Bytes}

theorem PairIn.length {q : Bytes × Bytes} (h : PairIn ms q) : (q.1 ++ q.2).length = 64 := by
  rw [length_append, h.2.1, h.2.2]

theorem leafIn_of_mem_padded (hvalid : ∀ a ∈ state, validateAddress C a = .ok ())
    (hms : ∀ m ∈ stateMessages C state, m ∈ ms) : ∀ x ∈ paddedLeaves C state, LeafIn C ms x := by
  intro x hx
  obtain ⟨m, hm, rfl⟩ := digest_of_mem_padded C hx
  refine ⟨m, hms m (mem_append_left _ (.tail _ hm)), ?_, rfl⟩
  rcases mem_cons.mp hm with rfl | hm
  · decide
  · obtain ⟨e, he, rfl⟩ := mem_map.mp hm
    have hodd := length_of_validateAddress (hvalid e.1 (Finmap.mem_iff.mpr ⟨e.2, mem_accounts.mp he⟩))
    rw [length_accountMessage]
    omega

theorem empty_notMem_leaves (hfree : C.CollisionFreeOn ms) (hms : ∀ m ∈ stateMessages C state, m ∈ ms) :
    C.sha256 (str "empty") ∉ accountLeaves C state := by
  intro hmem
  obtain ⟨e, he, heq⟩ := mem_map.mp hmem
  have hmsg := hfree _ (hms _ (mem_append_left _ (mem_cons_of_mem _ (mem_cons_of_mem _ (mem_map_of_mem he))))) _
    (hms _ (mem_append_left _ (.tail _ (.head _)))) heq
  have hlen := congrArg List.length hmsg
  rw [length_accountMessage, show (str "empty").length = 5 by decide] at hlen
  omega

variable (hfree : C.CollisionFreeOn ms)

include hfree

theorem hashPair_inj (x y x' y' : Bytes) (h : PairIn ms (x, y)) (h' : PairIn ms (x', y')) (heq : hashPair C x y = hashPair C x' y') :
    x = x' ∧ y = y' :=
  append_inj (hfree _ h.1 _ h'.1 heq) (h.2.1.trans h'.2.1.symm)

theorem hashPair_not_leaf (x y : Bytes) (h : PairIn ms (x, y)) : ¬LeafIn C ms (hashPair C x y) := by
  intro hleaf
  obtain ⟨m, hm, hodd, heq⟩ := hleaf
  have hlen := h.length
  rw [hfree _ h.1 _ hm heq] at hlen
  omega

theorem root_ne_of_accounts (h : accounts state ≠ []) (hvalid : ∀ a ∈ state, validateAddress C a = .ok ())
    (hms : ∀ m ∈ stateMessages C state, m ∈ ms) : computeStateRoot C state ≠ C.sha256 [] := by
  have hnil : [] ∈ ms := hms _ (mem_append_left _ (.head _))
  have hlevel := (rooted_state C h hms).atLevel (k := 0) fun x hx => Merkle.AtLevel.leaf (leafIn_of_mem_padded hvalid hms x hx)
  intro hroot
  rw [hroot] at hlevel
  generalize hr : C.sha256 [] = r at hlevel
  generalize 0 + rootDepth state = d at hlevel
  cases hlevel with
  | leaf hleaf =>
    obtain ⟨m, hm, hodd, rfl⟩ := hleaf
    obtain rfl := hfree _ hnil _ hm hr
    exact absurd hodd (by decide)
  | node hpair _ _ =>
    have hlen := hpair.length
    rw [← hfree _ hnil _ hpair.1 hr] at hlen
    exact absurd hlen (by decide)

end

theorem state_eq_of_root {C : Crypto} {state' : State} (hvalid : ∀ a ∈ state, validateAddress C a = .ok ())
    (hvalid' : ∀ a ∈ state', validateAddress C a = .ok ()) (hfree : C.CollisionFreeOn (stateMessages C state ++ stateMessages C state'))
    (hroot : computeStateRoot C state = computeStateRoot C state') : state = state' := by
  have hms : ∀ m ∈ stateMessages C state, m ∈ stateMessages C state ++ stateMessages C state' := fun m => mem_append_left _
  have hms' : ∀ m ∈ stateMessages C state', m ∈ stateMessages C state ++ stateMessages C state' := fun m => mem_append_right _
  apply state_eq_of_accounts
  by_cases h : accounts state = []
  · by_cases h' : accounts state' = []
    · rw [h, h']
    · rw [computeStateRoot_of_empty C h] at hroot
      exact absurd hroot.symm (root_ne_of_accounts hfree h' hvalid' hms')
  · by_cases h' : accounts state' = []
    · rw [computeStateRoot_of_empty C h'] at hroot
      exact absurd hroot (root_ne_of_accounts hfree h hvalid hms)
    · have hpadded : paddedLeaves C state = paddedLeaves C state' :=
        Merkle.full_inj (hashPair_inj hfree) (hashPair_not_leaf hfree) (hroot ▸ rooted_state C h hms) (rooted_state C h' hms')
          (length_paddedLeaves C state) (length_paddedLeaves C state') (leafIn_of_mem_padded hvalid hms) (leafIn_of_mem_padded hvalid' hms')
      have hleaves : accountLeaves C state = accountLeaves C state' :=
        append_replicate_inj (empty_notMem_leaves hfree hms) (empty_notMem_leaves hfree hms') hpadded
      refine Merkle.map_inj_on (fun e he e' he' heq => ?_) hleaves
      apply accountMessage_inj
      exact hfree _ (hms _ (mem_append_left _ (mem_cons_of_mem _ (mem_cons_of_mem _ (mem_map_of_mem he))))) _
        (hms' _ (mem_append_left _ (mem_cons_of_mem _ (mem_cons_of_mem _ (mem_map_of_mem he'))))) heq

end NeoCoin.Internal
