import NeoCoin.Sync
import NeoCoin.Theorems.Node

/-!
# Whether fetching ancestors ends

`EnsureAncestors` calls itself for the hash that a fetched block names as its parent, before it looks at the block. Its bound and the
hashes it has visited are those of one call, in which it asks for one block only: it is the peer that decides how far the calls go.
-/

namespace NeoCoin

open GoLib

variable {need : Bytes} {visited : List Bytes} {r : Result Unit}

/-- The hash that the call nested `k` deep is made for, when `n` blocks have been asked for before the first; none if an answer before
that is an error, or a block without a previous one. -/
def askedFor (fetch : Nat → Bytes → Result Block) : Nat → Nat → Bytes → Option Bytes
  | 0, _, need => some need
  | k + 1, n, need =>
    match fetch n need with
    | .error _ => none
    | .ok b => if b.prevHash.bytes.length = 0 then none else askedFor fetch k (n + 1) b.prevHashHex

def AnswersEnd {σ : Type} (fetch : Nat → Bytes → Result Block) (need : Bytes) (w : Syncing σ) : Prop :=
  ∃ k, ∀ h, askedFor fetch k w.requests need = some h → h ∈ w.chain.blocksByHash

namespace AncestorAux

variable {σ : Type} {C : Crypto} {S : ChainStore σ} {clock : Nat → Nat → Int64} {fetch : Nat → Bytes → Result Block}

section

variable (recurse : Bytes → Syncing σ → Option (Result Unit × Syncing σ))

/-- A round for a hash that was visited asks for nothing. -/
theorem loop_visited (depth : Nat) (h : need ∈ visited) (w : Syncing σ) :
    ensureAncestorsLoop C S clock fetch recurse need depth visited w ≠ none := by
  cases depth with
  | zero => simp [ensureAncestorsLoop]
  | succ depth =>
    unfold ensureAncestorsLoop
    split
    · exact Option.some_ne_none _
    · exact Option.some_ne_none _

theorem add_ne_none (need : Bytes) (depth : Nat) (b : Block) (w : Syncing σ) :
    ensureAncestorsAdd C S clock b (fun w => ensureAncestorsLoop C S clock fetch recurse need depth [need] w) w ≠ none := by
  unfold ensureAncestorsAdd
  split
  · simp
  · split
    · exact loop_visited recurse depth List.mem_cons_self _
    · simp

/-- The first round does not end when the call for the parent does not: the rounds after it do. -/
theorem loop_eq_none_iff (need : Bytes) (depth : Nat) (w : Syncing σ) :
    ensureAncestorsLoop C S clock fetch recurse need (depth + 1) [] w = none ↔
      need ∉ w.chain.blocksByHash ∧ ∃ b, fetch w.requests need = .ok b ∧ b.prevHash.bytes.length ≠ 0 ∧
        b.prevHashHex ∉ w.chain.blocksByHash ∧ recurse b.prevHashHex w.ask = none := by
  unfold ensureAncestorsLoop
  by_cases hknown : need ∈ w.chain.blocksByHash
  · simp [hknown]
  · rw [if_neg hknown, if_neg List.not_mem_nil]
    rcases Result.ok_or_error (fetch w.requests need) with ⟨b, hb⟩ | ⟨e, he⟩
    · simp only [hb, Except.ok.injEq, exists_eq_left', hknown, not_false_eq_true, true_and]
      by_cases hparent : b.prevHash.bytes.length ≠ 0 ∧ b.prevHashHex ∉ w.chain.blocksByHash
      · rw [if_pos hparent]
        cases hrec : recurse b.prevHashHex w.ask with
        | none => simp [hparent]
        | some r =>
          obtain ⟨r, w'⟩ := r
          cases r with
          | error e => simp
          | ok u => simp [add_ne_none]
      · rw [if_neg hparent]
        simp only [add_ne_none, false_iff]
        intro h
        exact hparent ⟨h.1, h.2.1⟩
    · simp [he]

end

variable {maxAncestorDepth : Int64}

theorem exists_round (hdepth : 0 < maxAncestorDepth) : ∃ depth, maxAncestorDepth.toInt.toNat = depth + 1 := by
  have hpos := Int64.lt_iff_toInt_lt.mp hdepth
  rw [show (0 : Int64).toInt = 0 from rfl] at hpos
  exact ⟨maxAncestorDepth.toInt.toNat - 1, by omega⟩

/-- If every hash the answers spell out is unknown, the calls do not return however deep they are nested. By induction on the nesting:
the chain does not change on the way down. -/
theorem ensureAncestors_eq_none (hdepth : 0 < maxAncestorDepth) (calls : Nat) {w : Syncing σ}
    (h : ∀ k, ∃ hash, askedFor fetch k w.requests need = some hash ∧ hash ∉ w.chain.blocksByHash) :
    ensureAncestors C S clock fetch maxAncestorDepth calls need w = none := by
  obtain ⟨depth, hrounds⟩ := exists_round hdepth
  induction calls generalizing need w with
  | zero => rfl
  | succ calls ih =>
    rw [ensureAncestors, hrounds, loop_eq_none_iff]
    obtain ⟨_, hneed, hunknown⟩ := h 0
    cases hneed
    refine ⟨hunknown, ?_⟩
    obtain ⟨parent, hparent, hparentUnknown⟩ := h 1
    unfold askedFor at hparent
    split at hparent
    · cases hparent
    · rename_i b hb
      split at hparent
      · cases hparent
      · rename_i hprev
        cases hparent
        refine ⟨b, hb, hprev, hparentUnknown, ih ?_⟩
        intro k
        obtain ⟨hash, hasked, hhash⟩ := h (k + 1)
        simp only [askedFor, hb, if_neg hprev] at hasked
        exact ⟨hash, hasked, hhash⟩

/-- If the call nested `k` deep is for a known hash or is not made, `k + 1` calls are enough. By induction on `k`. -/
theorem ensureAncestors_ne_none (hdepth : 0 < maxAncestorDepth) {k : Nat} {w : Syncing σ}
    (h : ∀ hash, askedFor fetch k w.requests need = some hash → hash ∈ w.chain.blocksByHash) :
    ensureAncestors C S clock fetch maxAncestorDepth (k + 1) need w ≠ none := by
  obtain ⟨depth, hrounds⟩ := exists_round hdepth
  rw [ensureAncestors, hrounds, Ne, loop_eq_none_iff]
  intro hnone
  obtain ⟨hunknown, b, hb, hprev, -, hrec⟩ := hnone
  induction k generalizing need w b with
  | zero => exact hunknown (h need rfl)
  | succ k ih =>
    rw [ensureAncestors, hrounds, loop_eq_none_iff] at hrec
    obtain ⟨hunknown', b', hb', hprev', -, hrec'⟩ := hrec
    refine ih ?_ hunknown' b' hb' hprev' hrec'
    intro hash hasked
    refine h hash ?_
    simp only [askedFor, hb, if_neg hprev]
    exact hasked

theorem ensureAncestors_of_le_zero (hdepth : maxAncestorDepth ≤ 0) (calls : Nat) (need : Bytes) (w : Syncing σ) :
    ensureAncestors C S clock fetch maxAncestorDepth (calls + 1) need w = some (.error "max ancestor depth exceeded", w) := by
  have hrounds : maxAncestorDepth.toInt.toNat = 0 := by
    have hle := Int64.le_iff_toInt_le.mp hdepth
    rw [show (0 : Int64).toInt = 0 from rfl] at hle
    omega
  rw [ensureAncestors, hrounds, ensureAncestorsLoop]

theorem returns_iff (C : Crypto) (S : ChainStore σ) (clock : Nat → Nat → Int64) (fetch : Nat → Bytes → Result Block)
    (hdepth : 0 < maxAncestorDepth) (need : Bytes) (w : Syncing σ) :
    (∃ calls r, ensureAncestors C S clock fetch maxAncestorDepth calls need w = some r) ↔ AnswersEnd fetch need w := by
  constructor
  · intro h
    obtain ⟨calls, r, hr⟩ := h
    by_contra hends
    simp only [AnswersEnd, not_exists, not_forall] at hends
    have hnone : ensureAncestors C S clock fetch maxAncestorDepth calls need w = none := by
      refine ensureAncestors_eq_none hdepth calls fun k => ?_
      obtain ⟨hash, hasked, hunknown⟩ := hends k
      exact ⟨hash, hasked, hunknown⟩
    rw [hnone] at hr
    cases hr
  · intro h
    obtain ⟨k, hk⟩ := h
    exact ⟨k + 1, Option.ne_none_iff_exists'.mp (ensureAncestors_ne_none hdepth hk)⟩

/-! ## What the calls preserve -/

section Preserves

variable {P : Syncing σ → Prop} {asked : Bytes → Prop} {taken : Block → Prop}

/-- A property of the node that asking and adding keep is kept by the loop, when all that is asked for and added is of a kind. By
induction on the rounds. -/
theorem loop_preserves {recurse : Bytes → Syncing σ → Option (Result Unit × Syncing σ)} (hask : ∀ w, P w → P w.ask)
    (hfetch : ∀ n need b, asked need → fetch n need = .ok b → taken b ∧ (b.prevHash.bytes.length ≠ 0 → asked b.prevHashHex))
    (hadd : ∀ w b, P w → taken b → P (w.add C S clock b).2)
    (hrecurse : ∀ need w r w', asked need → P w → recurse need w = some (r, w') → P w') (hneed : asked need) {depth : Nat}
    {w w' : Syncing σ} (hw : P w) (h : ensureAncestorsLoop C S clock fetch recurse need depth visited w = some (r, w')) : P w' := by
  induction depth generalizing visited w with
  | zero =>
    cases h
    exact hw
  | succ depth ih =>
    unfold ensureAncestorsLoop at h
    split at h
    · cases h
      exact hw
    · split at h
      · cases h
        exact hw
      · split at h
        · cases h
          exact hask w hw
        · rename_i b hb
          obtain ⟨htaken, hparent⟩ := hfetch _ _ _ hneed hb
          simp only at h
          -- the call for the parent, if there is one
          have hcalled : ∀ r1 w1, (if b.prevHash.bytes.length ≠ 0 ∧ b.prevHashHex ∉ w.chain.blocksByHash then
              recurse b.prevHashHex w.ask else some (.ok (), w.ask)) = some (r1, w1) → P w1 := by
            intro r1 w1 h1
            split at h1
            · rename_i hneeds
              exact hrecurse _ _ _ _ (hparent hneeds.1) (hask w hw) h1
            · cases h1
              exact hask w hw
          split at h
          · cases h
          · rename_i e w1 h1
            cases h
            exact hcalled _ _ h1
          · rename_i w1 h1
            have hadded := hadd w1 b (hcalled _ _ h1) htaken
            unfold ensureAncestorsAdd at h
            split at h
            · rename_i w2 h2
              cases h
              rwa [h2] at hadded
            · rename_i e w2 h2
              rw [h2] at hadded
              split at h
              · exact ih hadded h
              · cases h
                exact hadded

/-- So it is kept by `EnsureAncestors`. By induction on the nesting. -/
theorem ensureAncestors_preserves (hask : ∀ w, P w → P w.ask)
    (hfetch : ∀ n need b, asked need → fetch n need = .ok b → taken b ∧ (b.prevHash.bytes.length ≠ 0 → asked b.prevHashHex))
    (hadd : ∀ w b, P w → taken b → P (w.add C S clock b).2) {calls : Nat} {w w' : Syncing σ}
    (hneed : asked need) (hw : P w) (h : ensureAncestors C S clock fetch maxAncestorDepth calls need w = some (r, w')) : P w' := by
  induction calls generalizing need w w' r with
  | zero => cases h
  | succ calls ih =>
    rw [ensureAncestors] at h
    exact loop_preserves hask hfetch hadd (fun need w r w' hneed hw h => ih hneed hw h) hneed hw h

end Preserves

end AncestorAux

/-- Whatever the peers answer, `EnsureAncestors` returns if and only if it has no rounds to make, or the hashes that the answers spell
out come to one that is known, to an error or to a block without a previous one. -/
theorem ensureAncestors_returns_iff {σ : Type} (C : Crypto) (S : ChainStore σ) (clock : Nat → Nat → Int64)
    (fetch : Nat → Bytes → Result Block) (maxAncestorDepth : Int64) (need : Bytes) (w : Syncing σ) :
    ((∃ calls r, ensureAncestors C S clock fetch maxAncestorDepth calls need w = some r) ↔
        maxAncestorDepth ≤ 0 ∨ AnswersEnd fetch need w) ∧
      ((∃ calls r, p2pEnsureAncestors C S clock fetch calls need w = some r) ↔ AnswersEnd fetch need w) := by
  refine ⟨?_, AncestorAux.returns_iff C S clock fetch (show (0 : Int64) < 256 by decide) need w⟩
  by_cases hdepth : maxAncestorDepth ≤ 0
  · exact iff_of_true ⟨1, _, AncestorAux.ensureAncestors_of_le_zero hdepth 0 need w⟩ (Or.inl hdepth)
  · rw [AncestorAux.returns_iff C S clock fetch (Int64.not_le.mp hdepth) need w]
    simp [hdepth]

namespace Sample

/-- A peer that answers every request with one block, of which nobody knows the parent. -/
def endless : Nat → Bytes → Result Block := fun _ _ => .ok { prevHash := some [1] }

theorem askedFor_endless (k n : Nat) : askedFor endless k n (hexEncode [1]) = some (hexEncode [1]) := by
  induction k generalizing n with
  | zero => rfl
  | succ k ih => exact ih (n + 1)

theorem endless_unknown : hexEncode [1] ∉ node.blocksByHash := by
  intro hmem
  rcases GoMap.mem_set.mp hmem with heq | hmem
  · exact absurd (hexEncode_inj.mp heq) (by decide)
  · exact absurd hmem Finmap.notMem_empty

end Sample

open Sample

/-- On a node with its genesis block only, no number of calls is enough for the peer that always answers with the same block. -/
theorem endless_not_returned : (∀ calls, ensureAncestors crypto store (fun _ _ => 2) endless 256 calls (hexEncode [1])
        { chain := Sample.node } = none) ∧
      ∀ calls, p2pEnsureAncestors crypto store (fun _ _ => 2) endless calls (hexEncode [1])
        { chain := Sample.node } = none := by
  have h : ∀ calls, ensureAncestors crypto store (fun _ _ => 2) endless 256 calls (hexEncode [1])
      { chain := Sample.node } = none := by
    intro calls
    refine AncestorAux.ensureAncestors_eq_none (by decide) calls ?_
    intro k
    exact ⟨_, askedFor_endless k _, endless_unknown⟩
  exact ⟨h, h⟩

end NeoCoin
