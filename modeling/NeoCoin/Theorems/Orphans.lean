import NeoCoin.Theorems.Branches

/-!
# Orphans whose parent has come

`ProcessOrphans` of `internal/blockchain/forks.go` adds the orphans on the tip until there are none. An orphan that `AddBlock` rejects
stays in the pool and on the tip: the next round finds the chain as it was.
-/

namespace NeoCoin.Internal

open GoLib ForkTree Relation

variable {cand : Candidate} {calls : List (Block × (Nat → Int64))}

/-! ## Loops that may go on in several ways -/

section

variable {α : Type*} {R : α → α → Prop} {a b : α}

theorem acc_of_measure (μ : α → Nat) (h : ∀ b c, ReflTransGen R a b → R b c → μ c < μ b) : Acc (fun c b => R b c) a := by
  induction hn : μ a using Nat.strong_induction_on generalizing a with
  | _ n ih =>
    subst hn
    constructor
    intro b hab
    refine ih (μ b) (h a b .refl hab) ?_ rfl
    intro c d hbc hcd
    exact h c d (.head hab hbc) hcd

theorem acc_of_reached (hacc : Acc (fun c b => R b c) a) (h : ReflTransGen R a b) : Acc (fun c b => R b c) b := by
  induction h with
  | refl => exact hacc
  | tail _ hbc ih => exact ih.inv hbc

theorem not_rel_self_of_acc (hacc : Acc (fun c b => R b c) a) (h : ReflTransGen R a b) : ¬R b b := by
  have hb := acc_of_reached hacc h
  induction hb with
  | intro b _ ih =>
    intro hloop
    exact ih b hloop (h.tail hloop) hloop

end

/-! ## The pool -/

variable {b : Block}

namespace OrphanPool

/-- What the operations of a pool keep: each block is under its hash, and the list has every hash. -/
structure Sound (op : OrphanPool) : Prop where
  keyed : ∀ k b, op.blocks.lookup k = some b → k = b.hashHex
  listed : ∀ k ∈ op.blocks, k ∈ op.heightList

variable {op : OrphanPool}

theorem sound_new (maxOrphans : Int64) : (newOrphanPool maxOrphans).Sound :=
  ⟨fun _ _ h => by simp [newOrphanPool] at h, fun _ h => absurd h Finmap.notMem_empty⟩

theorem lookup_of_delete {m : GoMap Bytes Block} {k k' : Bytes} (h : (m.delete k).lookup k' = some b) : k' ≠ k ∧ m.lookup k' = some b := by
  by_cases hk : k' = k
  · subst hk
    rw [GoMap.lookup_delete_self] at h
    cases h
  · rw [GoMap.lookup_delete_of_ne m hk] at h
    exact ⟨hk, h⟩

theorem Sound.removeOldest (h : op.Sound) : op.removeOldest.Sound := by
  unfold OrphanPool.removeOldest
  split
  · exact h
  · rename_i last hlast
    constructor
    · intro k b hb
      exact h.keyed k b (lookup_of_delete hb).2
    · intro k hk
      obtain ⟨hne, hk⟩ := Finmap.mem_erase.mp hk
      have hlisted := h.listed k hk
      rw [← List.dropLast_append_getLast? last hlast] at hlisted
      rcases List.mem_append.mp hlisted with hrest | hlast
      · exact hrest
      · exact absurd (List.mem_singleton.mp hlast) hne

theorem Sound.addBlock (h : op.Sound) (b : Block) : (op.addBlock b).Sound := by
  unfold OrphanPool.addBlock
  split
  · exact h
  · have hsound : (if op.blocks.keys.card ≥ op.maxOrphans then op.removeOldest else op).Sound := by
      split
      · exact h.removeOldest
      · exact h
    constructor
    · intro k b' hb'
      rw [GoMap.lookup_set] at hb'
      split at hb'
      · rename_i hk
        rw [hk, Option.some.inj hb']
      · exact hsound.keyed k b' hb'
    · intro k hk
      rcases GoMap.mem_set.mp hk with hk | hk
      · exact List.mem_cons.mpr (Or.inl hk)
      · exact List.mem_cons_of_mem _ (hsound.listed k hk)

theorem addBlock_of_mem (h : b.hashHex ∈ op.blocks) : op.addBlock b = op := if_pos h

theorem removeOldest_length (op : OrphanPool) : op.removeOldest.heightList.length = op.heightList.length - 1 := by
  unfold OrphanPool.removeOldest
  split
  · rename_i hlast
    rw [List.getLast?_eq_none_iff.mp hlast]
    rfl
  · exact List.length_dropLast

theorem Sound.limitLoop {maxOrphans : Int64} (hmax : 0 ≤ maxOrphans.toInt) (n : Nat) (h : op.Sound) (hn : op.heightList.length ≤ n) :
    op.limitLoop maxOrphans n ≠ none := by
  induction n generalizing op with
  | zero =>
    have hlist := List.eq_nil_of_length_eq_zero (Nat.le_zero.mp hn)
    have hempty : op.blocks.keys = ∅ := by
      refine Finset.eq_empty_of_forall_notMem ?_
      intro k hk
      have hlisted := h.listed k (Finmap.mem_keys.mp hk)
      rw [hlist] at hlisted
      cases hlisted
    simp [OrphanPool.limitLoop, hempty, hmax]
  | succ n ih =>
    unfold OrphanPool.limitLoop
    split
    · refine ih h.removeOldest ?_
      rw [removeOldest_length]
      omega
    · simp

theorem Sound.limitSize {maxOrphans : Int64} (hmax : 0 ≤ maxOrphans.toInt) (h : op.Sound) : op.limitSize maxOrphans ≠ none :=
  h.limitLoop hmax _ le_rfl

end OrphanPool

/-! ## What `AddBlock` does with an orphan -/

section

variable {σ : Type} {C : Crypto} {S : ChainStore σ} {bc bc' : Blockchain σ} {b : Block} {clock : Nat → Int64} {r : AddResult σ}

theorem chooseTip_tree (h : chooseTip C S bc .locked b cand = some r) :
    r.chain.blocksByHash = bc.blocksByHash ∧ r.chain.orphanPool = bc.orphanPool := by
  by_cases hbetter : isBetter cand.work b.hashHex bc.canonicalWork bc.bestTipHash
  · rcases chooseTip_of_better C S bc hbetter with ⟨hnone, -⟩ | ⟨-, reorg, err, hsome⟩
    · rw [hnone] at h
      cases h
    · rw [hsome] at h
      cases h
      rw [retip_same]
      exact ⟨rfl, rfl⟩
  · rw [chooseTip_of_not_better C S bc .locked hbetter] at h
    cases h
    exact ⟨rfl, rfl⟩

theorem addBlock_accepted (hacc : Accepted C S bc clock b cand) (h : addBlock C S bc (some b) clock = some r) :
    r.chain.blocksByHash = bc.blocksByHash.set b.hashHex b ∧ r.chain.orphanPool = bc.orphanPool := by
  rcases addBlock_cases C S bc (some b) clock with ⟨_, _, -, -, hnot⟩ | ⟨b', cand', hb, -, hchoose⟩
  · exact absurd hacc (hnot b cand rfl)
  · cases hb
    rw [hchoose] at h
    exact chooseTip_tree h

theorem addBlock_rejected_pool (hrejected : addBlock C S bc (some b) clock = some r) (hnot : ∀ cand, ¬Accepted C S bc clock b cand) :
    r.chain.orphanPool = bc.orphanPool ∨ r.chain.orphanPool = bc.orphanPool.addBlock b := by
  rcases hext : checkExternal C bc.consensus bc.chainID b with e | _
  · simp only [addBlock, hext] at hrejected
    cases hrejected
    exact Or.inl rfl
  · simp only [addBlock, hext, RWMutex.lock, insertBlock] at hrejected
    split at hrejected
    · cases hrejected
      exact Or.inr rfl
    · split at hrejected
      · cases hrejected
        exact Or.inl rfl
      · rename_i hparent hfresh
        split at hrejected
        · cases hrejected
          exact Or.inl rfl
        · rename_i cand hcand
          split at hrejected
          · cases hrejected
            exact Or.inl rfl
          · rename_i st hput
            have hvalid := computeCanonicalForTip_ok_iff.mp hcand
            exact absurd ⟨hext, not_not.mp hparent, hfresh, hvalid, congrArg Prod.fst hput⟩ (hnot cand)

theorem addBlock_rejected (hnot : ∀ cand, ¬Accepted C S bc clock b cand) (hmem : b.hashHex ∈ bc.orphanPool.blocks) :
    ∃ bc' msg, addBlock C S bc (some b) clock = some (.reject bc' msg) ∧ Rejected S bc bc' ∧ bc'.orphanPool = bc.orphanPool := by
  rcases addBlock_cases C S bc (some b) clock with ⟨bc', msg, hreject, hrejected, -⟩ | ⟨b', cand, hb, hacc, -⟩
  · refine ⟨bc', msg, hreject, hrejected, ?_⟩
    rcases addBlock_rejected_pool hreject hnot with hpool | hpool
    · exact hpool
    · rw [OrphanPool.addBlock_of_mem hmem] at hpool
      exact hpool
  · cases hb
    exact absurd hacc (hnot cand)

end

variable {clock : Nat → Int64}

theorem addBlock_rejected_bolt {β : Type} {C : Crypto} {G : Gob β} {bc : Blockchain (Bolt β)}
    (hnot : ∀ cand, ¬Accepted C (boltStore G) bc clock b cand) (hmem : b.hashHex ∈ bc.orphanPool.blocks) :
    ∃ msg, addBlock C (boltStore G) bc (some b) clock = some (.reject bc msg) := by
  obtain ⟨bc', msg, hreject, hrejected, hpool⟩ := addBlock_rejected hnot hmem
  have hsame : bc' = bc := by
    rw [hrejected.same, hrejected.store_bolt, hpool]
  exact ⟨msg, hsame ▸ hreject⟩

/-! ## Rounds -/

section

variable {σ : Type} {C : Crypto} {S : ChainStore σ} {readings : (Nat → Int64) → Prop} {bc bc' bc'' : Blockchain σ}

/-- What adding orphans does: the pool loses blocks only, its list stays, and the tree gains blocks only. -/
structure Advances (bc bc' : Blockchain σ) : Prop where
  pool : ∀ k b, bc'.orphanPool.blocks.lookup k = some b → bc.orphanPool.blocks.lookup k = some b
  list : bc'.orphanPool.heightList = bc.orphanPool.heightList
  tree : ∀ k ∈ bc.blocksByHash, k ∈ bc'.blocksByHash

theorem Advances.refl (bc : Blockchain σ) : Advances bc bc := ⟨fun _ _ h => h, rfl, fun _ h => h⟩

theorem Advances.trans (h : Advances bc bc') (h' : Advances bc' bc'') : Advances bc bc'' :=
  ⟨fun k b hb => h.pool k b (h'.pool k b hb), h'.list.trans h.list, fun k hk => h'.tree k (h.tree k hk)⟩

theorem Advances.sound (h : Advances bc bc') (hsound : bc.orphanPool.Sound) : bc'.orphanPool.Sound := by
  constructor
  · intro k b hb
    exact hsound.keyed k b (h.pool k b hb)
  · intro k hk
    obtain ⟨b, hb⟩ := Finmap.mem_iff.mp hk
    rw [h.list]
    exact hsound.listed k (Finmap.mem_iff.mpr ⟨b, h.pool k b hb⟩)

theorem Advances.removeBlock (h : Advances bc bc') (hash : Bytes) :
    Advances bc { bc' with orphanPool := bc'.orphanPool.removeBlock hash } :=
  ⟨fun k b hb => h.pool k b (OrphanPool.lookup_of_delete hb).2, h.list, h.tree⟩

theorem addBlock_advances {r : AddResult σ} (hmem : b.hashHex ∈ bc.orphanPool.blocks)
    (h : addBlock C S bc (some b) clock = some r) : Advances bc r.chain ∧ r.chain.orphanPool = bc.orphanPool := by
  by_cases hacc : ∃ cand, Accepted C S bc clock b cand
  · obtain ⟨cand, hacc⟩ := hacc
    obtain ⟨htree, hpool⟩ := addBlock_accepted hacc h
    refine ⟨⟨?_, by rw [hpool], ?_⟩, hpool⟩
    · rw [hpool]
      exact fun _ _ hb => hb
    · rw [htree]
      exact fun k hk => GoMap.mem_set.mpr (Or.inr hk)
  · obtain ⟨bc', msg, hreject, hrejected, hpool⟩ := addBlock_rejected (not_exists.mp hacc) hmem
    rw [hreject] at h
    cases h
    refine ⟨⟨?_, congrArg OrphanPool.heightList hpool, ?_⟩, hpool⟩
    · simp only [AddResult.reject, hpool]
      exact fun _ _ hb => hb
    · simp only [AddResult.reject]
      rw [hrejected.same]
      exact fun _ hk => hk

/-- Orphans that are added one after the other: each is in the pool, under a hash of its own. -/
def Pooled (bc : Blockchain σ) (calls : List (Block × (Nat → Int64))) : Prop :=
  (∀ call ∈ calls, call.1.hashHex ∈ bc.orphanPool.blocks) ∧ (calls.map fun call => call.1.hashHex).Nodup

theorem Pooled.tail {call : Block × (Nat → Int64)} (h : Pooled bc (call :: calls)) (hpool : bc'.orphanPool = bc.orphanPool) :
    Pooled { bc' with orphanPool := bc'.orphanPool.removeBlock call.1.hash.bytes } calls := by
  obtain ⟨hmem, hnodup⟩ := h
  rw [List.map_cons, List.nodup_cons] at hnodup
  refine ⟨?_, hnodup.2⟩
  intro other hother
  simp only [OrphanPool.removeBlock]
  rw [hpool]
  refine Finmap.mem_erase.mpr ⟨?_, hmem other (.tail _ hother)⟩
  intro heq
  exact hnodup.1 (List.mem_map.mpr ⟨other, hother, heq⟩)

/-- The inner loop, by induction on the orphans left. -/
theorem addOrphans_advances {processed : Nat} (hpooled : Pooled bc calls)
    (h : addOrphans C S calls bc = some (bc', processed)) : Advances bc bc' := by
  induction calls generalizing bc processed with
  | nil =>
    obtain ⟨rfl, -⟩ := Prod.mk.inj (Option.some.inj h)
    exact .refl bc
  | cons call rest ih =>
    obtain ⟨orphan, clock⟩ := call
    unfold addOrphans at h
    split at h
    · cases h
    · rename_i r hr
      obtain ⟨hadvances, hpool⟩ := addBlock_advances (hpooled.1 _ (.head _)) hr
      split at h
      · cases h
        exact hadvances
      · obtain ⟨⟨bc₁, n⟩, hrest, heq⟩ := Option.map_eq_some_iff.mp h
        cases heq
        exact (hadvances.removeBlock _).trans (ih (hpooled.tail hpool) hrest)

theorem addOrphans_mem_tree {orphan : Block} {rest : List (Block × (Nat → Int64))}
    {processed : Nat} (hpooled : Pooled bc ((orphan, clock) :: rest)) (hacc : Accepted C S bc clock orphan cand)
    (h : addOrphans C S ((orphan, clock) :: rest) bc = some (bc', processed)) : orphan.hashHex ∈ bc'.blocksByHash := by
  unfold addOrphans at h
  split at h
  · cases h
  · rename_i r hr
    obtain ⟨htree, hpool⟩ := addBlock_accepted hacc hr
    have hmem : orphan.hashHex ∈ r.chain.blocksByHash := by
      rw [htree]
      exact GoMap.mem_set.mpr (Or.inl rfl)
    split at h
    · cases h
      exact hmem
    · obtain ⟨⟨bc₁, n⟩, hrest, heq⟩ := Option.map_eq_some_iff.mp h
      cases heq
      exact (addOrphans_advances (hpooled.tail hpool) hrest).tree _ hmem

def Blockchain.missing (bc : Blockchain σ) : Finset Bytes := bc.orphanPool.blocks.keys.filter fun k => k ∉ bc.blocksByHash

theorem mem_missing {k : Bytes} : k ∈ bc.missing ↔ k ∈ bc.orphanPool.blocks ∧ k ∉ bc.blocksByHash := by
  rw [Blockchain.missing, Finset.mem_filter, Finmap.mem_keys]

theorem Advances.missing (h : Advances bc bc') : bc'.missing ⊆ bc.missing := by
  intro k hk
  obtain ⟨hpool, htree⟩ := mem_missing.mp hk
  obtain ⟨b, hb⟩ := Finmap.mem_iff.mp hpool
  exact mem_missing.mpr ⟨Finmap.mem_iff.mpr ⟨b, h.pool k b hb⟩, fun hmem => htree (h.tree k hmem)⟩

/-- `b` is an orphan on the tip. -/
def OrphanOnTip (bc : Blockchain σ) (b : Block) : Prop :=
  bc.orphanPool.blocks.lookup b.hashHex = some b ∧ b.prevHashHex = hexEncode ((hexDecode bc.bestTipHash).toOption.getD [])

instance (bc : Blockchain σ) (b : Block) : Decidable (OrphanOnTip bc b) := inferInstanceAs (Decidable (_ ∧ _))

theorem mem_tipOrphans {range : List (Bytes × Block)} (hsound : bc.orphanPool.Sound)
    (hrange : GoMap.IsRange bc.orphanPool.blocks range) : b ∈ bc.tipOrphans range ↔ OrphanOnTip bc b := by
  unfold Blockchain.tipOrphans OrphanPool.getOrphansByParent OrphanOnTip
  rw [List.mem_filter, decide_eq_true_eq, List.mem_map]
  refine and_congr_left fun _ => ⟨?_, ?_⟩
  · intro h
    obtain ⟨⟨k, b'⟩, hmem, rfl⟩ := h
    have hlookup := (GoMap.mem_range_iff hrange).mp hmem
    rw [← hsound.keyed k b' hlookup]
    exact hlookup
  · intro h
    exact ⟨(b.hashHex, b), (GoMap.mem_range_iff hrange).mpr h, rfl⟩

theorem pooled_tipOrphans {range : List (Bytes × Block)} (hsound : bc.orphanPool.Sound)
    (hrange : GoMap.IsRange bc.orphanPool.blocks range) (hcalls : calls.map Prod.fst = bc.tipOrphans range) : Pooled bc calls := by
  constructor
  · intro call hcall
    have hmem : call.1 ∈ bc.tipOrphans range := hcalls ▸ List.mem_map_of_mem hcall
    exact Finmap.mem_iff.mpr ⟨_, ((mem_tipOrphans hsound hrange).mp hmem).1⟩
  · have hkeys : (range.map Prod.fst).Nodup := GoMap.nodup_keys_range hrange
    have hhashes : range.map (fun e => e.2.hashHex) = range.map Prod.fst := by
      refine List.map_congr_left fun e he => ?_
      exact (hsound.keyed e.1 e.2 ((GoMap.mem_range_iff hrange).mp he)).symm
    have hmap : calls.map (fun call => call.1.hashHex) = (bc.tipOrphans range).map fun b => b.hashHex := by
      rw [← hcalls, List.map_map]
      rfl
    have hsub : List.Sublist ((bc.tipOrphans range).map fun b => b.hashHex) (range.map fun e => e.2.hashHex) := by
      have hfilter : List.Sublist (bc.tipOrphans range) (range.map Prod.snd) := List.filter_sublist
      have := hfilter.map fun b => b.hashHex
      rwa [List.map_map] at this
    rw [hmap]
    exact (hhashes ▸ hkeys).sublist hsub

theorem OrphanRound.advances (hsound : bc.orphanPool.Sound) (h : OrphanRound C S readings bc bc') : Advances bc bc' := by
  obtain ⟨range, calls, processed, hrange, hcalls, -, -, hadd⟩ := h
  exact addOrphans_advances (pooled_tipOrphans hsound hrange hcalls) hadd

theorem sound_of_rounds (hsound : bc.orphanPool.Sound) (h : ReflTransGen (OrphanRound C S readings) bc bc') : bc'.orphanPool.Sound := by
  induction h with
  | refl => exact hsound
  | tail _ hround ih => exact (hround.advances ih).sound ih

theorem OrphanRound.exists_onTip (hsound : bc.orphanPool.Sound) (h : OrphanRound C S readings bc bc') :
    ∃ orphan, OrphanOnTip bc orphan := by
  obtain ⟨range, calls, processed, hrange, hcalls, hne, -, -⟩ := h
  obtain ⟨call, rest, rfl⟩ := List.exists_cons_of_ne_nil hne
  exact ⟨call.1, (mem_tipOrphans hsound hrange).mp (hcalls ▸ List.mem_map_of_mem (.head _))⟩

theorem OrphanRound.missing_lt (hsound : bc.orphanPool.Sound) (h : OrphanRound C S readings bc bc')
    (haccepted : ∀ orphan, OrphanOnTip bc orphan → ∀ clock, readings clock → ∃ cand, Accepted C S bc clock orphan cand) :
    bc'.missing.card < bc.missing.card := by
  have hadvances := h.advances hsound
  obtain ⟨range, calls, processed, hrange, hcalls, hne, hreadings, hadd⟩ := h
  have hpooled := pooled_tipOrphans hsound hrange hcalls
  obtain ⟨⟨orphan, clock⟩, rest, rfl⟩ := List.exists_cons_of_ne_nil hne
  have hfirst : orphan ∈ bc.tipOrphans range := hcalls ▸ List.mem_map_of_mem (.head _)
  obtain ⟨cand, hacc⟩ := haccepted orphan ((mem_tipOrphans hsound hrange).mp hfirst) clock (hreadings _ (.head _))
  refine Finset.card_lt_card ((Finset.ssubset_iff_of_subset hadvances.missing).mpr ⟨orphan.hashHex, ?_, ?_⟩)
  · exact mem_missing.mpr ⟨hpooled.1 _ (.head _), hacc.fresh⟩
  · intro hmissing
    exact (mem_missing.mp hmissing).2 (addOrphans_mem_tree hpooled hacc hadd)

end

/-! ## When `ProcessOrphans` returns -/

section

variable {β : Type} {C : Crypto} {G : Gob β} {readings : (Nat → Int64) → Prop} {bc : Blockchain (Bolt β)}

theorem orphanRound_self {orphan : Block} (htip : OrphanOnTip bc orphan) (hclock : readings clock)
    (hnot : ∀ cand, ¬Accepted C (boltStore G) bc clock orphan cand) : OrphanRound C (boltStore G) readings bc bc := by
  obtain ⟨rest, hrange⟩ := GoMap.exists_range_cons htip.1
  obtain ⟨msg, hreject⟩ := addBlock_rejected_bolt hnot (Finmap.mem_iff.mpr ⟨_, htip.1⟩)
  refine ⟨_, (bc.tipOrphans ((orphan.hashHex, orphan) :: rest)).map fun b => (b, clock), 0, hrange, ?_, ?_, ?_, ?_⟩
  · rw [List.map_map]
    exact List.map_id _
  · simp [Blockchain.tipOrphans, OrphanPool.getOrphansByParent, htip.2]
  · intro call hcall
    obtain ⟨_, -, rfl⟩ := List.mem_map.mp hcall
    exact hclock
  · simp [Blockchain.tipOrphans, OrphanPool.getOrphansByParent, htip.2, addOrphans, hreject, AddResult.reject]

/-- `ProcessOrphans` returns if and only if it never comes to a chain with an orphan on its tip that does not pass the checks of
`AddBlock`. -/
theorem processOrphans_returns_iff (C : Crypto) (G : Gob β) (readings : (Nat → Int64) → Prop) (bc : Blockchain (Bolt β))
    (hsound : bc.orphanPool.Sound) : ProcessOrphansReturns C (boltStore G) readings bc ↔
      ∀ bc', ReflTransGen (OrphanRound C (boltStore G) readings) bc bc' → ∀ orphan, OrphanOnTip bc' orphan →
        ∀ clock, readings clock → ∃ cand, Accepted C (boltStore G) bc' clock orphan cand := by
  constructor
  · intro h bc' hreach orphan htip clock hclock
    by_contra hnot
    exact not_rel_self_of_acc h.1 hreach (orphanRound_self htip hclock (not_exists.mp hnot))
  · intro haccepted
    refine ⟨acc_of_measure (fun bc => bc.missing.card) ?_, ?_⟩
    · intro bc₁ bc₂ hreach hround
      exact hround.missing_lt (sound_of_rounds hsound hreach) (haccepted bc₁ hreach)
    · intro bc' hreach
      exact (sound_of_rounds hsound hreach).limitSize (by decide)

end

namespace Sample

open NeoCoin.Sample (minerAddress)

/-- A block on the first block that the node mines, with a coinbase that pays too much. -/
def orphan : Block :=
  { version := 1, height := 2, timestampUnix := 5, prevHash := block.hash, difficultyBits := 1, minerAddress := minerAddress
    transactions := [{ type := .coinbase, chainID := 1, toAddress := minerAddress, amount := 51
                       data := str "block reward + fees (height=2)" }]
    hash := some (beBytes 32 0x69d11369e55b5a526cbcce79b5090aac11a1ef0f28c61964e451debcbc7d6960) }

/-- The same block with a coinbase that pays what it may. -/
def heir : Block :=
  { orphan with
    transactions := [{ type := .coinbase, chainID := 1, toAddress := minerAddress, amount := 50
                       data := str "block reward + fees (height=2)" }]
    hash := some (beBytes 32 0x65a4ad9456d4a4b3704d5be4dc989daf8398b51ea0037120f2be44f303338903) }

/-- The node gets a block without its parent, which it mines then. -/
def parentMined (b : Block) (test : Blockchain (Bolt Block) → Bool) : Bool :=
  ((addBlock crypto (boltStore gob) node (some b) fun _ => 4).map AddResult.chain).any fun bc2 =>
    decide (bc2.blocks.1.length = 1) && mines (mineTransfers crypto (boltStore gob) bc2 [] fun _ => 4) fun _ bc3 =>
      decide (bc3.blocks.1.length = 2 ∧ OrphanOnTip bc3 b) && test bc3

theorem run_of_parentMined {test : Blockchain (Bolt Block) → Bool} (h : parentMined b test = true) :
    ∃ handled bc, Runs crypto (boltStore gob) (fun _ _ => True) node handled bc ∧ OrphanOnTip bc b ∧ test bc = true := by
  obtain ⟨bc2, hadd, h⟩ := (Option.any_eq_true _ _).mp h
  obtain ⟨hlen, h⟩ := Bool.and_eq_true_iff.mp h
  obtain ⟨_, bc3, hmine, h⟩ := exists_of_mines h
  obtain ⟨hlen', h⟩ := Bool.and_eq_true_iff.mp h
  rw [decide_eq_true_eq] at hlen hlen'
  have hrun : Runs crypto (boltStore gob) (fun _ _ => True) node _ bc2 :=
    .step (.addBlock (some b) fun _ => 4) .start trivial hadd (by rw [hlen]; decide)
  exact ⟨_, bc3, .step (.mineTransfers [] fun _ => 4) hrun trivial (congrArg (Option.map Prod.snd) hmine) (by rw [hlen'.1]; decide),
    hlen'.2, h⟩

end Sample

/-- An orphan that passes the checks is added in the first round, and there is no other one. -/
theorem processOrphans_returns_heir :
    ∃ bc0 handled bc, Sample.loaded = some (.ok bc0) ∧ Runs Sample.crypto (boltStore Sample.gob) (fun _ _ => True) bc0 handled bc ∧
      OrphanOnTip bc Sample.heir ∧ bc.orphanPool.Sound ∧
      ProcessOrphansReturns Sample.crypto (boltStore Sample.gob) (fun clock => clock = fun _ => 4) bc := by
  have hmined : Sample.parentMined Sample.heir (fun bc => decide (bc.orphanPool = (newOrphanPool 100).addBlock Sample.heir) &&
      (addBlock Sample.crypto (boltStore Sample.gob) bc (some Sample.heir) fun _ => 4).any fun r =>
        decide (r.err = none ∧ (r.chain.orphanPool.removeBlock Sample.heir.hash.bytes).blocks = ∅)) = true := by
    simp only [Sample.parentMined, Sample.crypto, goCrypto_eq]
    decide +kernel
  obtain ⟨handled, bc, hrun, htip, htest⟩ := Sample.run_of_parentMined hmined
  obtain ⟨hpool, hadded⟩ := Bool.and_eq_true_iff.mp htest
  rw [decide_eq_true_eq] at hpool
  obtain ⟨r, hadd, hr⟩ := (Option.any_eq_true _ _).mp hadded
  obtain ⟨herr, hempty⟩ := of_decide_eq_true hr
  have hsound : bc.orphanPool.Sound := hpool ▸ (OrphanPool.sound_new 100).addBlock _
  have hblocks : bc.orphanPool.blocks = GoMap.set ∅ Sample.heir.hashHex Sample.heir := by
    rw [hpool]
    decide
  refine ⟨_, handled, bc, Sample.node_loads, hrun, htip, hsound, (processOrphans_returns_iff _ _ _ bc hsound).mpr ?_⟩
  rintro bc' hreach orphan horphan clock rfl
  rcases ReflTransGen.cases_head hreach with rfl | ⟨bc₁, hround, hrest⟩
  · obtain ⟨hlookup, -⟩ := horphan
    rw [hblocks, GoMap.lookup_set, Finmap.lookup_empty, Option.ite_none_right_eq_some] at hlookup
    cases hlookup.2
    exact accepted_of_err_none _ _ _ hadd herr
  · -- after the round the pool is empty
    have hsound₁ := sound_of_rounds hsound (.single hround)
    obtain ⟨range, calls, processed, hrange, hcalls, -, hreadings, hadds⟩ := hround
    rw [hblocks] at hrange
    obtain rfl : range = [(Sample.heir.hashHex, Sample.heir)] := Multiset.coe_eq_singleton.mp hrange
    have htips : bc.tipOrphans [(Sample.heir.hashHex, Sample.heir)] = [Sample.heir] := by
      simp [Blockchain.tipOrphans, OrphanPool.getOrphansByParent, htip.2]
    obtain ⟨⟨b, clock⟩, rfl, hb⟩ := List.map_eq_singleton_iff.mp (hcalls.trans htips)
    obtain rfl : b = Sample.heir := hb
    obtain rfl : clock = fun _ => 4 := hreadings _ (.head _)
    simp only [addOrphans, hadd, herr, Option.map_some, Option.some.injEq, Prod.mk.injEq] at hadds
    have hnone : ∀ o, ¬OrphanOnTip bc₁ o := by
      rintro o ⟨ho, -⟩
      rw [← hadds.1] at ho
      simp only [hempty, Finmap.lookup_empty] at ho
      cases ho
    rcases ReflTransGen.cases_head hrest with rfl | ⟨_, hround, -⟩
    · exact absurd horphan (hnone orphan)
    · obtain ⟨o, ho⟩ := hround.exists_onTip hsound₁
      exact absurd ho (hnone o)

/-- Once the parent is the tip, the call does not return, whatever the clock reads. -/
theorem processOrphans_loops :
    ∃ bc0 handled bc, Sample.loaded = some (.ok bc0) ∧ Runs Sample.crypto (boltStore Sample.gob) (fun _ _ => True) bc0 handled bc ∧
      ∀ readings clock, readings clock → ¬ProcessOrphansReturns Sample.crypto (boltStore Sample.gob) readings bc := by
  have hmined : Sample.parentMined Sample.orphan (fun bc =>
      decide (checkBlock Sample.crypto bc.consensus Sample.orphan ≠ .ok ())) = true := by
    simp only [Sample.parentMined, Sample.crypto, goCrypto_eq]
    decide +kernel
  obtain ⟨handled, bc, hrun, htip, hcheck⟩ := Sample.run_of_parentMined hmined
  refine ⟨_, handled, bc, Sample.node_loads, hrun, ?_⟩
  intro readings clock hclock hreturns
  refine not_rel_self_of_acc hreturns.1 .refl (orphanRound_self htip hclock ?_)
  intro cand hacc
  exact of_decide_eq_true hcheck hacc.checkBlock

end NeoCoin.Internal
