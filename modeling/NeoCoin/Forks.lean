import NeoCoin.Chain

/-!
# Forks

`AddBlock` and `computeCanonicalForTipLocked` of `blockchain/forks.go`.
-/

namespace NeoCoin

open GoLib

/-! ## The walk back to genesis -/

/-- The first loop of `computeCanonicalForTipLocked` for at most `n` rounds; `path` are the blocks found so far. -/
def walkBackLoop (m : GoMap Bytes Block) : Nat → List Bytes → Bytes → List Block → Option (Result Path)
  | 0, _, _, _ => none
  | n + 1, seen, cur, path =>
    if cur ∈ seen then some (.error "cycle detected")
    else
      match m.lookup cur with
      | none => some (.error "missing ancestor")
      | some b =>
        if b.height = 0 ∨ b.prevHash.bytes.length = 0 then some (.ok ⟨b :: path, List.cons_ne_nil b path⟩)
        else walkBackLoop m n (cur :: seen) b.prevHashHex (b :: path)

theorem walkBackLoop_isSome (m : GoMap Bytes Block) (n : Nat) (seen : List Bytes) (cur : Bytes) (path : List Block)
    (hnodup : seen.Nodup) (hmem : ∀ k ∈ seen, k ∈ m) (hn : m.keys.card < n + seen.length) : (walkBackLoop m n seen cur path).isSome := by
  induction n generalizing seen cur path with
  | zero =>
    have hle : seen.toFinset.card ≤ m.keys.card := by
      refine Finset.card_le_card fun k hk => ?_
      exact Finmap.mem_keys.mpr (hmem k (List.mem_toFinset.mp hk))
    rw [List.toFinset_card_of_nodup hnodup] at hle
    omega
  | succ n ih =>
    unfold walkBackLoop
    split
    · rfl
    · rename_i hseen
      split
      · rfl
      · rename_i b hb
        split
        · rfl
        · refine ih (cur :: seen) _ _ (List.nodup_cons.mpr ⟨hseen, hnodup⟩) ?_ ?_
          · intro k hk
            rcases List.mem_cons.mp hk with rfl | hk
            · exact Finmap.lookup_isSome.mp (by rw [hb]; rfl)
            · exact hmem k hk
          · rw [List.length_cons]
            omega

/-- The first loop of `computeCanonicalForTipLocked`: the path from genesis to a tip. -/
def walkBack (m : GoMap Bytes Block) (tipHashHex : Bytes) : Result Path :=
  (walkBackLoop m (m.keys.card + 1) [] tipHashHex []).get
    (walkBackLoop_isSome m _ [] tipHashHex [] List.nodup_nil (by simp) (by simp))

/-! ## Validation of a path -/

/-- The checks on block `b` at index `i` of a path, `clock i` being the reading of the clock then. -/
def checkLinkage (p : ConsensusParams) (path : List Block) (clock : Nat → Int64) (i : Nat) (b : Block) : Result Unit :=
  if i = 0 then do
    failIf (b.height ≠ 0 ∨ b.prevHash.bytes.length ≠ 0) "bad genesis header"
    failIf (b.version ≠ blockVersionForHeight p 0) "bad genesis version"
  else do
    let prev := path.getD (i - 1) default
    failIf (b.height ≠ prev.height + 1) "bad height linkage"
    failIf (b.prevHashHex ≠ prev.hashHex) "bad prevhash linkage"
    validateBlockTime p path i (clock i)
    if p.difficultyEnable then
      let expected := expectedDifficultyBitsForBlockIndex p path i
      failIf (expected = 0) "difficulty calc failed"
      failIf (b.difficultyBits ≠ expected)
        s!"bad difficulty at height {b.height}: expected {expected} got {b.difficultyBits}"
    failIf (b.version ≠ blockVersionForHeight p b.height)
      s!"bad block version at {b.height}: expected {blockVersionForHeight p b.height} got {b.version}"

section

variable (C : Crypto) (p : ConsensusParams)

/-- The second loop of `computeCanonicalForTipLocked`, from index `i` on: the state and the work of the path. -/
def validatePath (path : List Block) (clock : Nat → Int64) :
    Nat → List Block → State → Nat → Result (State × Nat)
  | _, [], state, work => .ok (state, work)
  | i, b :: rest, state, work => do
    checkLinkage p path clock i b
    let applied := applyBlockToState C p state b
    applied.1
    validatePath path clock (i + 1) rest applied.2 (work + workForDifficultyBits b.difficultyBits)

/-- What `computeCanonicalForTipLocked` returns without an error. -/
structure Candidate where
  path : Path
  state : State
  work : Nat

/-- `computeCanonicalForTipLocked`. -/
def computeCanonicalForTip (m : GoMap Bytes Block) (clock : Nat → Int64) (tipHashHex : Bytes) :
    Result Candidate := do
  let path ← walkBack m tipHashHex
  let (state, work) ← validatePath C p path.1 clock 0 path.1 ∅ 0
  .ok { path, state, work }

/-! ## Adding a block -/

def checkBlockTx (chainID height : UInt64) (tx : Transaction) : Result Unit := do
  let tx := tx.withChainID chainID
  failIf (tx.chainID ≠ chainID) s!"wrong chainId: {tx.chainID}"
  tx.verifyForConsensus C p height

def checkExternal (chainID : UInt64) (b : Block) : Result Unit := do
  failIf (b.height = 0) "external genesis blocks not accepted"
  failIf (b.version ≠ blockVersionForHeight p b.height)
    s!"bad block version at {b.height}: expected {blockVersionForHeight p b.height} got {b.version}"
  failIf (b.hash.bytes.length = 0) "missing block hash"
  failIf (b.difficultyBits = 0) "missing difficultyBits"
  failIf (b.difficultyBits > maxDifficultyBits) s!"difficultyBits out of range: {b.difficultyBits}"
  let ok ← powValidate C p b
  failIf (ok = false) "invalid proof-of-work"
  b.transactions.forM (checkBlockTx C p chainID b.height)

end

def isBetter (newWork : Nat) (hashHex : Bytes) (currentWork : Nat) (currentTip : Bytes) : Prop :=
  currentWork < newWork ∨ newWork = currentWork ∧ hashHex < currentTip

instance (w : Nat) (h : Bytes) (w' : Nat) (h' : Bytes) : Decidable (isBetter w h w' h') :=
  inferInstanceAs (Decidable (w' < w ∨ w = w' ∧ h < h'))

/-- What `AddBlock` returns, and the chain it leaves. -/
structure AddResult (σ : Type) where
  reorg : Bool
  err : Option String
  chain : Blockchain σ

def AddResult.reject {σ : Type} (bc : Blockchain σ) (msg : String) : AddResult σ := { reorg := false, err := some msg, chain := bc }

variable {σ : Type} (C : Crypto)

def Blockchain.adopt (bc : Blockchain σ) (cand : Candidate) (hashHex : Bytes) : Blockchain σ :=
  { bc with
    blocks := cand.path
    state := cand.state
    bestTipHash := hashHex
    canonicalWork := cand.work
    txIndex := reindexAllTxs C bc.consensus cand.path.1
    addressIndex := reindexAllAddressTxs C bc.consensus cand.path.1 }

/-- The end of `AddBlock`, for a block that was put into the store: `bc` has it in `blocksByHash`. -/
def chooseTip (S : ChainStore σ) (bc : Blockchain σ) (b : Block) (cand : Candidate) : AddResult σ :=
  if isBetter cand.work b.hashHex bc.canonicalWork bc.bestTipHash then
    let wasExtension := decide (b.prevHashHex = bc.bestTipHash ∧ b.height = bc.blocks.tip.height + 1)
    let bc := bc.adopt C cand b.hashHex
    let rewritten := S.rewriteCanonical bc.store bc.blocks.1
    let bc := { bc with store := rewritten.2 }
    match rewritten.1 with
    | .error e => { reorg := !wasExtension, err := some e, chain := bc }
    | .ok () => { reorg := !wasExtension, err := none, chain := bc }
  else { reorg := false, err := none, chain := bc }

/-- The part of `AddBlock` under the lock. A candidate that fails is taken out of `blocksByHash` again. -/
def insertBlock (S : ChainStore σ) (bc : Blockchain σ) (b : Block) (clock : Nat → Int64) : AddResult σ :=
  if b.prevHashHex ∉ bc.blocksByHash then .reject bc "unknown parent"
  else if b.hashHex ∈ bc.blocksByHash then .reject bc "duplicate block"
  else
    let inserted := bc.blocksByHash.set b.hashHex b
    match computeCanonicalForTip C bc.consensus inserted clock b.hashHex with
    | .error e => .reject { bc with blocksByHash := inserted.delete b.hashHex } e
    | .ok cand =>
      match S.putBlock bc.store b with
      | (.error e, store) => .reject { bc with blocksByHash := inserted.delete b.hashHex, store := store } e
      | (.ok (), store) => chooseTip C S { bc with blocksByHash := inserted, store := store } b cand

/-- `AddBlock`; a nil block is `none`. -/
def addBlock (S : ChainStore σ) (bc : Blockchain σ) (block : Option Block) (clock : Nat → Int64) : AddResult σ :=
  match block with
  | none => .reject bc "nil block"
  | some b =>
    match checkExternal C bc.consensus bc.chainID b with
    | .error e => .reject bc e
    | .ok () => insertBlock C S bc b clock

end NeoCoin
