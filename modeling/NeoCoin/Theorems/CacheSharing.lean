import NeoCoin.Theorems.Cache
import NeoCoin.Lib.Trace

/-!
# The cache between goroutines

`Get` takes the lock twice, to look up the element and to move it to the front. If `Clear` drops the element in between, moving it links it
again without an entry in the map. Nothing else goes wrong (`sharedLRU_consistent_iff`).
-/

namespace NeoCoin.Internal

open GoLib List

variable {K V : Type*} [DecidableEq K]

/-- The linked elements are those of the map, and the length is their number. -/
def LRU.Consistent (c : LRU K V) : Prop := ∃ es, c.lruList.Ring es ∧ c.len = es.length ∧ ∀ e, e ∈ es ↔ c.Stored e

def LRU.Dropped (c : LRU K V) (e : Nat) : Prop := c.lruList.owned e = true ∧ ¬c.Stored e

namespace SharedLRU

variable {s s' : SharedLRU K V} {step : CacheStep K V} {g el : Nat}

/-- What holds in every state but after a dropped element was moved. -/
structure Inv (s : SharedLRU K V) : Prop where
  rep : ∃ cells, s.cache.Rep cells
  pos : 0 < s.cache.maxItems
  found : ∀ g el, s.found g = some el → el ≤ s.cache.lruList.made

def Sound (s : SharedLRU K V) (step : CacheStep K V) : Prop := ∀ g el, step = .move g → s.found g = some el → ¬s.cache.Dropped el

theorem inv_new (maxItems : Int64) : (newSharedLRU maxItems : SharedLRU K V).Inv where
  rep := ⟨[], LRU.rep_new maxItems⟩
  pos := LRU.maxItems_new_pos maxItems
  found := nofun

theorem Inv.consistent (h : s.Inv) : s.cache.Consistent := by
  obtain ⟨cells, hrep⟩ := h.rep
  exact ⟨_, hrep.ring, by rw [length_map]; exact hrep.len, fun e => hrep.mem_elements_iff⟩

theorem Inv.le_made (h : s.Inv) (hstored : s.cache.Stored el) : el ≤ s.cache.lruList.made := by
  obtain ⟨cells, hrep⟩ := h.rep
  exact hrep.le_made el (hrep.mem_elements_iff.mpr hstored)

/-! ## One step -/

theorem Steps.cache_cases (hinv : s.Inv) (hsound : s.Sound step) (h : s.Steps step s') :
    (∃ cells, s'.cache.Rep cells) ∧ s'.cache.maxItems = s.cache.maxItems ∧
      (s.cache.Keeps s'.cache ∨ step = .clear ∧ s'.cache = { s.cache with items := ∅, lruList := s.cache.lruList.init }) := by
  obtain ⟨cells, hrep⟩ := hinv.rep
  cases h with
  | @set key val evicted c h =>
    cases hitem : s.cache.items.lookup key with
    | some e =>
      obtain ⟨old, as, bs, rfl⟩ := hrep.exists_split hitem
      obtain ⟨c', hset, hrep', hmax, hkeeps⟩ := hrep.set_stored val
      cases h.symm.trans hset
      exact ⟨⟨_, hrep'⟩, hmax, Or.inl hkeeps⟩
    | none =>
      obtain ⟨e, c', hset, hrep', hmax, hkeeps⟩ := hrep.set_new hitem hinv.pos val
      cases h.symm.trans hset
      exact ⟨⟨_, hrep'⟩, hmax, Or.inl hkeeps⟩
  | lookup h => exact ⟨⟨cells, hrep⟩, rfl, Or.inl (LRU.keeps_of_eq rfl rfl rfl)⟩
  | @move g el c hfound h =>
    rw [LRU.getMove] at h
    cases howned : s.cache.lruList.owned el with
    | false =>
      rw [LinkedList.moveToFront_of_not_owned howned, Option.map_some, Option.some.injEq] at h
      subst h
      exact ⟨⟨cells, hrep⟩, rfl, Or.inl (LRU.keeps_of_eq rfl rfl rfl)⟩
    | true =>
      obtain ⟨key, hitem⟩ := not_not.mp fun hnot => hsound g el rfl hfound ⟨howned, hnot⟩
      obtain ⟨val, as, bs, rfl⟩ := hrep.exists_split hitem
      obtain ⟨list, hmove, hrep', hkeeps⟩ := hrep.move
      rw [hmove, Option.map_some, Option.some.injEq] at h
      subst h
      exact ⟨⟨_, hrep'⟩, rfl, Or.inl hkeeps⟩
  | @delete key c h =>
    cases hitem : s.cache.items.lookup key with
    | some e =>
      obtain ⟨val, as, bs, rfl⟩ := hrep.exists_split hitem
      obtain ⟨c', hdelete, hrep', hmax, hkeeps⟩ := hrep.delete_stored
      cases h.symm.trans hdelete
      exact ⟨⟨_, hrep'⟩, hmax, Or.inl hkeeps⟩
    | none =>
      cases h.symm.trans (LRU.delete_missing hitem)
      exact ⟨⟨cells, hrep⟩, rfl, Or.inl (LRU.keeps_of_eq rfl rfl rfl)⟩
  | clear h =>
    obtain ⟨hclear, hrep'⟩ := hrep.clear
    cases h.symm.trans hclear
    exact ⟨⟨_, hrep'⟩, rfl, Or.inr ⟨rfl, rfl⟩⟩

theorem Steps.found_cases (h : s.Steps step s') (hfound : s'.found g = some el) :
    s.found g = some el ∧ step ≠ .move g ∨ s'.cache = s.cache ∧ s.cache.Stored el := by
  cases h with
  | set _ | delete _ | clear _ => exact Or.inl ⟨hfound, nofun⟩
  | @lookup g' key _ =>
    by_cases hg : g = g'
    · subst hg
      simp only [Function.update_self] at hfound
      exact Or.inr ⟨rfl, key, hfound⟩
    · simp only [Function.update_of_ne hg] at hfound
      exact Or.inl ⟨hfound, nofun⟩
  | @move g' el' c _ _ =>
    by_cases hg : g = g'
    · subst hg
      simp only [Function.update_self] at hfound
      exact absurd hfound nofun
    · simp only [Function.update_of_ne hg] at hfound
      exact Or.inl ⟨hfound, fun heq => hg (CacheStep.move.inj heq).symm⟩

theorem Steps.found_eq (h : s.Steps step s') (hfound : s.found g = some el) (hstep : step ≠ .move g) : s'.found g = some el := by
  cases h with
  | set _ | delete _ | clear _ => exact hfound
  | @lookup g' key hnone =>
    have hg : g ≠ g' := by
      rintro rfl
      exact absurd (hnone.symm.trans hfound) nofun
    simp only [Function.update_of_ne hg, hfound]
  | @move g' el' c _ _ =>
    have hg : g ≠ g' := by
      rintro rfl
      exact hstep rfl
    simp only [Function.update_of_ne hg, hfound]

theorem Steps.inv (h : s.Steps step s') (hinv : s.Inv) (hsound : s.Sound step) : s'.Inv := by
  obtain ⟨hrep, hmax, hcache⟩ := h.cache_cases hinv hsound
  have hmade : s.cache.lruList.made ≤ s'.cache.lruList.made := by
    rcases hcache with hkeeps | ⟨-, hclear⟩
    · exact hkeeps.made
    · rw [hclear]
      exact Nat.le_refl _
  refine ⟨hrep, hmax.symm ▸ hinv.pos, fun g el hfound => ?_⟩
  rcases h.found_cases hfound with ⟨hfound, -⟩ | ⟨-, hstored⟩
  · exact (hinv.found g el hfound).trans hmade
  · exact (hinv.le_made hstored).trans hmade

theorem Steps.dropped (hinv : s.Inv) (hsound : s.Sound step) (h : s.Steps step s') (hdropped : s.cache.Dropped el) :
    s'.cache.Dropped el := by
  obtain ⟨cells, hrep⟩ := hinv.rep
  obtain ⟨-, -, hkeeps | ⟨-, hclear⟩⟩ := h.cache_cases hinv hsound
  · exact hkeeps.dropped el (hrep.whole el hdropped.1).2.1 hdropped.1 hdropped.2
  · rw [hclear]
    exact ⟨hdropped.1, by simp [LRU.Stored]⟩

theorem Steps.dropped_of_clear (hinv : s.Inv) (h : s.Steps .clear s') (hstored : s.cache.Stored el) : s'.cache.Dropped el := by
  obtain ⟨cells, hrep⟩ := hinv.rep
  obtain ⟨key, hkey⟩ := hstored
  obtain ⟨v, hv⟩ := (hrep.items key el).mp hkey
  have howned := hrep.owned _ hv
  cases h with
  | clear h =>
    cases h.symm.trans hrep.clear.1
    exact ⟨howned, by simp [LRU.Stored]⟩

theorem Steps.clear_of_dropped (hinv : s.Inv) (hsound : s.Sound step) (h : s.Steps step s') (hmade : el ≤ s.cache.lruList.made)
    (hdropped : s'.cache.Dropped el) : s.cache.Dropped el ∨ step = .clear ∧ s.cache.Stored el := by
  by_cases hstored : s.cache.Stored el
  · obtain ⟨-, -, hkeeps | ⟨hclear, -⟩⟩ := h.cache_cases hinv hsound
    · rcases hkeeps.released el hmade hstored with hstored' | howned'
      · exact absurd hstored' hdropped.2
      · exact absurd (howned'.symm.trans hdropped.1) nofun
    · exact Or.inr ⟨hclear, hstored⟩
  · refine Or.inl ⟨?_, hstored⟩
    obtain ⟨-, -, hkeeps | ⟨-, hclear⟩⟩ := h.cache_cases hinv hsound
    · exact hkeeps.owned el hmade hdropped.1
    · rw [hclear] at hdropped
      exact hdropped.1

theorem Steps.sound_of_consistent (hinv : s.Inv) (h : s.Steps step s') (hconsistent : s'.cache.Consistent) : s.Sound step := by
  rintro g el rfl hfound ⟨howned, hstored⟩
  obtain ⟨cells, hrep⟩ := hinv.rep
  obtain ⟨h0, -, hnext, hprev⟩ := hrep.whole el howned
  have hout : el ∉ 0 :: cells.map Prod.fst := by
    intro hmem
    rcases mem_cons.mp hmem with hzero | hmem
    · exact h0 hzero
    · exact hstored (hrep.mem_elements_iff.mp hmem)
  obtain ⟨list, hmove, hfront⟩ := hrep.ring.moveToFront_stale howned hout hnext hprev
  cases h with
  | @move _ el' c hfound' h =>
    cases hfound.symm.trans hfound'
    rw [LRU.getMove, hmove, Option.map_some, Option.some.injEq] at h
    subst h
    obtain ⟨es, hring, -, hes⟩ := hconsistent
    have hhead := hring.next_root.symm.trans hfront
    cases es with
    | nil => exact h0 (Option.some.inj hhead).symm
    | cons e es =>
      obtain rfl := Option.some.inj hhead
      exact hstored ((hes e).mp (.head _))

/-! ## Every step -/

variable {start : SharedLRU K V} {steps : List (CacheStep K V)}

/-- An element that `Clear` drops between the two sections of a `Get` is dropped when it is moved. By induction on the steps after
`Clear`. -/
theorem dropped_of_trace (hinv : s.Inv) (hfound : s.found g = some el) (hstored : s.cache.Stored el) {mid : List (CacheStep K V)}
    (hmid : .move g ∉ mid) (hall : ∀ earlier t, earlier <+: .clear :: mid → Trace Steps s earlier t → t.Inv)
    (hsound : ∀ earlier step t t', earlier ++ [step] <+: .clear :: mid → Trace Steps s earlier t → t.Steps step t' → t.Sound step)
    {t : SharedLRU K V} (h : Trace Steps s (.clear :: mid) t) : t.found g = some el ∧ t.cache.Dropped el := by
  induction mid using List.reverseRecOn generalizing t with
  | nil =>
    obtain ⟨s₁, hs₁, hstep⟩ := (@Trace.snoc_iff _ _ _ _ _ [] _).mp h
    obtain rfl := Trace.nil_iff.mp hs₁
    exact ⟨hstep.found_eq hfound nofun, hstep.dropped_of_clear hinv hstored⟩
  | append_singleton mid step ih =>
    rw [← cons_append] at h hall hsound
    obtain ⟨t₁, ht₁, hstep⟩ := Trace.snoc_iff.mp h
    have hprefix : .clear :: mid <+: .clear :: mid ++ [step] := prefix_append _ _
    obtain ⟨hmid₁, hne⟩ : .move g ∉ mid ∧ step ≠ .move g := by
      constructor
      · exact fun hmem => hmid (mem_append_left _ hmem)
      · rintro rfl
        exact hmid (mem_append_right _ (mem_singleton_self _))
    obtain ⟨hfound₁, hdropped₁⟩ := ih hmid₁ (fun earlier t he => hall earlier t (he.trans hprefix))
      (fun earlier step t t' he => hsound earlier step t t' (he.trans hprefix)) ht₁
    have hsound₁ := hsound _ _ _ _ (prefix_refl _) ht₁ hstep
    exact ⟨hstep.found_eq hfound₁ hne, hstep.dropped (hall _ _ hprefix ht₁) hsound₁ hdropped₁⟩

/-- `Clear` ran between the two sections of a `Get`, in a state in which the element was in the map. -/
def ClearedBetween (start : SharedLRU K V) (earlier : List (CacheStep K V)) (g el : Nat) (s : SharedLRU K V) : Prop :=
  ∃ before mid s₀, earlier = before ++ .clear :: mid ∧ .move g ∉ mid ∧ Trace Steps start before s₀ ∧ Trace Steps s₀ (.clear :: mid) s ∧
    s₀.found g = some el ∧ s₀.cache.Stored el

/-- No `Clear` between the two sections of a `Get` finds the element of the `Get` in the map. -/
def ClearsNone (start : SharedLRU K V) (steps : List (CacheStep K V)) : Prop :=
  ∀ before mid g s s' el, before ++ .clear :: (mid ++ [.move g]) <+: steps → .move g ∉ mid → Trace Steps start before s →
    Trace Steps s (.clear :: (mid ++ [.move g])) s' → s.found g = some el → ¬s.cache.Stored el

/-- One more step: an element that is dropped now and that a goroutine has found was dropped by a `Clear` since it was found. -/
theorem clearedBetween_step {earlier : List (CacheStep K V)} (hinv : s.Inv) (hsound : s.Sound step)
    (hpast : ∀ g el, s.found g = some el → s.cache.Dropped el → ClearedBetween start earlier g el s) (htrace : Trace Steps start earlier s)
    (h : s.Steps step s') (hfound : s'.found g = some el) (hdropped : s'.cache.Dropped el) :
    ClearedBetween start (earlier ++ [step]) g el s' := by
  rcases h.found_cases hfound with ⟨hfound, hne⟩ | ⟨hcache, hstored⟩
  · rcases h.clear_of_dropped hinv hsound (hinv.found g el hfound) hdropped with hdropped | ⟨rfl, hstored⟩
    · obtain ⟨before, mid, s₀, rfl, hmid, hbefore, hsince, hfound₀, hstored₀⟩ := hpast g el hfound hdropped
      refine ⟨before, mid ++ [step], s₀, by simp, ?_, hbefore, hsince.next h, hfound₀, hstored₀⟩
      intro hmem
      rcases mem_append.mp hmem with hmem | hmem
      · exact hmid hmem
      · exact hne (mem_singleton.mp hmem).symm
    · exact ⟨earlier, [], s, rfl, not_mem_nil, htrace, Trace.start.next h, hfound, hstored⟩
  · rw [hcache] at hdropped
    exact absurd hstored hdropped.2

/-- Without such a `Clear` no dropped element is moved. By induction on the steps, with what is known about the dropped elements. -/
theorem sound_of_clearsNone (hstart : start.Inv) (hnone : ∀ g, start.found g = none) (hclears : ClearsNone start steps) :
    ∀ earlier step s s', earlier ++ [step] <+: steps → Trace Steps start earlier s → s.Steps step s' → s.Sound step := by
  have hpast : ∀ {earlier s}, Trace Steps start earlier s → earlier <+: steps →
      s.Inv ∧ ∀ g el, s.found g = some el → s.cache.Dropped el → ClearedBetween start earlier g el s := by
    intro earlier s htrace
    induction htrace with
    | start => exact fun _ => ⟨hstart, fun g el hfound => absurd ((hnone g).symm.trans hfound) nofun⟩
    | @next earlier step s s' htrace hstep ih =>
      intro hearlier
      obtain ⟨hinv, hpast⟩ := ih ((prefix_append _ _).trans hearlier)
      have hsound : s.Sound step := by
        rintro g el rfl hfound hdropped
        obtain ⟨before, mid, s₀, rfl, hmid, hbefore, hsince, hfound₀, hstored₀⟩ := hpast g el hfound hdropped
        rw [append_assoc] at hearlier
        exact hclears before mid g s₀ s' el hearlier hmid hbefore (hsince.next hstep) hfound₀ hstored₀
      exact ⟨hstep.inv hinv hsound, fun g el => clearedBetween_step hinv hsound hpast htrace hstep⟩
  rintro earlier _ s s' hearlier htrace hstep g el rfl hfound hdropped
  obtain ⟨-, hpast⟩ := hpast htrace ((prefix_append _ _).trans hearlier)
  obtain ⟨before, mid, s₀, rfl, hmid, hbefore, hsince, hfound₀, hstored₀⟩ := hpast g el hfound hdropped
  rw [append_assoc] at hearlier
  exact hclears before mid g s₀ s' el hearlier hmid hbefore (hsince.next hstep) hfound₀ hstored₀

theorem clearsNone_of_sound (hstart : start.Inv)
    (hall : ∀ earlier step s s', earlier ++ [step] <+: steps → Trace Steps start earlier s → s.Steps step s' → s.Sound step) :
    ClearsNone start steps := by
  intro before mid g s s' el hprefix hmid hbefore hsince hfound hstored
  have hkeep : ∀ {t : SharedLRU K V} {step t'}, step ∈ steps → t.Inv → t.Sound step → t.Steps step t' → t'.Inv :=
    fun _ hinv hsound hstep => hstep.inv hinv hsound
  have hinv : ∀ {earlier t}, earlier <+: steps → Trace Steps start earlier t → t.Inv := Trace.inv_of_good hstart hkeep hall
  have hprefix' : ∀ {rest}, rest <+: .clear :: (mid ++ [.move g]) → before ++ rest <+: steps := fun hrest =>
    (prefix_append_right_inj before).mpr hrest |>.trans hprefix
  rw [← cons_append] at hsince hprefix'
  obtain ⟨t, ht, hmove⟩ := Trace.snoc_iff.mp hsince
  have hmid' : .clear :: mid <+: .clear :: mid ++ [.move g] := prefix_append _ _
  obtain ⟨hfound', hdropped'⟩ := dropped_of_trace (hinv (prefix_append _ _ |>.trans hprefix) hbefore) hfound hstored hmid
    (fun earlier t he htrace => hinv (hprefix' (he.trans hmid')) (hbefore.append htrace))
    (fun earlier step t t' he htrace hstep => hall (before ++ earlier) step t t'
      (by rw [append_assoc]; exact hprefix' (he.trans hmid')) (hbefore.append htrace) hstep) ht
  exact hall (before ++ .clear :: mid) (.move g) t s' (by rw [append_assoc]; exact hprefix' (prefix_refl _))
    (hbefore.append ht) hmove g el rfl hfound' hdropped'

end SharedLRU

/-- The cache stays consistent exactly when no `Clear` finds in the map an element that a `Get` has looked up and is still to move. -/
theorem sharedLRU_consistent_iff (maxItems : Int64) (steps : List (CacheStep K V)) :
    (∀ earlier s, earlier <+: steps → Trace SharedLRU.Steps (newSharedLRU maxItems) earlier s → s.cache.Consistent) ↔
      SharedLRU.ClearsNone (newSharedLRU maxItems) steps := by
  have hstart : (newSharedLRU maxItems : SharedLRU K V).Inv := SharedLRU.inv_new maxItems
  rw [Trace.always_iff SharedLRU.Inv (fun s => s.cache.Consistent) SharedLRU.Sound steps hstart SharedLRU.Inv.consistent
    (fun _ hinv hsound hstep => hstep.inv hinv hsound) (fun _ hinv hstep => hstep.sound_of_consistent hinv)]
  exact ⟨SharedLRU.clearsNone_of_sound hstart, SharedLRU.sound_of_clearsNone hstart fun _ => rfl⟩

/-- A goroutine looks up a key, another one clears the cache, and the first one moves the element: it is linked again, and the map is
empty. -/
theorem sharedLRU_inconsistent : ∃ s : SharedLRU Nat Nat,
    Trace SharedLRU.Steps (newSharedLRU 2) [.set 1 10, .lookup 0 1, .clear, .move 0] s ∧ ¬s.cache.Consistent := by
  obtain ⟨el, c₁, hset, hrep₁, -, -⟩ := (LRU.rep_new (K := Nat) (V := Nat) 2).set_new (k := 1) rfl (by decide) 10
  have hitem : c₁.items.lookup 1 = some el := (hrep₁.items 1 el).mpr ⟨10, (.head _)⟩
  obtain ⟨hclear, hrep₂⟩ := hrep₁.clear
  have howned : c₁.lruList.init.owned el = true := hrep₁.owned (el, 1, 10) (.head _)
  obtain ⟨h0, -, hnext, hprev⟩ := hrep₂.whole el howned
  obtain ⟨list, hmove, -⟩ := hrep₂.ring.moveToFront_stale howned (by simpa using h0) hnext hprev
  let s₁ : SharedLRU Nat Nat := { cache := c₁, found := fun _ => none }
  let s₂ := { s₁ with found := Function.update s₁.found 0 (c₁.getLookup 1) }
  let s₃ := { s₂ with cache := { c₁ with items := ∅, lruList := c₁.lruList.init } }
  have h₁ : (newSharedLRU 2).Steps (.set 1 10) s₁ := .set hset
  have h₂ : s₁.Steps (.lookup 0 1) s₂ := .lookup rfl
  have h₃ : s₂.Steps .clear s₃ := .clear hclear
  have hfound : s₃.found 0 = some el := by simp [s₃, s₂, LRU.getLookup, hitem]
  have hcache : s₃.cache.getMove el = some { s₃.cache with lruList := list } := by
    simp only [LRU.getMove, s₃, hmove, Option.map_some]
  have h₄ : s₃.Steps (.move 0) _ := .move hfound hcache
  have hinv₃ : s₃.Inv := by
    have hinv₁ := h₁.inv (SharedLRU.inv_new 2) fun _ _ h => by cases h
    have hinv₂ := h₂.inv hinv₁ fun _ _ h => by cases h
    exact h₃.inv hinv₂ fun _ _ h => by cases h
  refine ⟨_, ((Trace.start.next h₁).next h₂ |>.next h₃).next h₄, fun hconsistent => ?_⟩
  exact h₄.sound_of_consistent hinv₃ hconsistent 0 el rfl hfound ⟨howned, by simp [LRU.Stored, s₃]⟩

end NeoCoin.Internal
