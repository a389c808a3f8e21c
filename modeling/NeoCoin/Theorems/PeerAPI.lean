import NeoCoin.Internal.PeerAPI

/-!
# Answers to concurrent requests

The answers on a connection of `internal/networking/sync.go` say nothing of the request they belong to, and a call takes the first that it
reads. So calls get their own answers exactly when there is nothing to mix up.
-/

namespace NeoCoin.Internal.PeerAPI

open GoLib List

/-- Whatever the order of the steps, a call that returns a block returns the block it asked for. -/
def OwnAnswers (peer : HonestPeer) (hashes : List Bytes) : Prop :=
  ∀ w, Interleaving (Step peer) (calls hashes) w → ∀ h b, .returned h (.ok b) ∈ w.tasks → hexEncode b.hash.bytes = h

section

variable {peer : HonestPeer} {hashes : List Bytes}

/-- A task asks for one of the hashes, and if it has got a block it is the one it asked for. -/
def Task.Served (hashes : List Bytes) : Task → Prop
  | .request h | .await h => h ∈ hashes
  | .returned h r => h ∈ hashes ∧ ∀ b, r = .ok b → hexEncode b.hash.bytes = h
  | .readPeerLoop => True

theorem ownAnswers_of_same (hsame : ∀ h ∈ hashes, ∀ h' ∈ hashes, peer.block h' ≠ none → h = h') : OwnAnswers peer hashes := by
  intro w hrun h b hb
  have hserved : ∀ t ∈ w.tasks, t.Served hashes := by
    refine (hrun.invariant (fun conn => ∀ h ∈ conn, h ∈ hashes) (Task.Served hashes) ?_ (by simp [calls]) ?_).2
    · intro conn conn' t t' hconn ht hstep
      cases hstep with
      | write conn h =>
        exact ⟨forall_mem_concat.mpr ⟨hconn, ht⟩, ht⟩
      | read conn h answered =>
        obtain ⟨hanswered, hrest⟩ := forall_mem_cons.mp hconn
        refine ⟨hrest, ht, fun b hb => ?_⟩
        unfold received at hb
        split at hb
        · cases hb
        · rename_i b' hb'
          cases hb
          rw [peer.hash_eq answered _ hb', hsame h ht answered hanswered (by simp [hb'])]
      | drop conn answered => exact ⟨(forall_mem_cons.mp hconn).2, trivial⟩
    · intro t ht
      rcases mem_cons.mp ht with rfl | ht
      · trivial
      · obtain ⟨h, hh, rfl⟩ := mem_map.mp ht
        exact hh
  exact (hserved _ hb).2 b rfl

theorem exists_swapped (peer : HonestPeer) {h h' : Bytes} (hh : h ∈ hashes) (hh' : h' ∈ hashes) (hne : h ≠ h') :
    ∃ w, Interleaving (Step peer) (calls hashes) w ∧ .returned h (received peer h h') ∈ w.tasks := by
  obtain ⟨i, hi⟩ := mem_iff_getElem?.mp hh
  obtain ⟨j, hj⟩ := mem_iff_getElem?.mp hh'
  have hij : j ≠ i := fun heq => hne (Option.some.inj (hi.symm.trans (heq ▸ hj)))
  have hlen : i < hashes.length := (List.getElem?_eq_some_iff.mp hi).1
  have hfirst : (calls hashes).tasks[j + 1]? = some (.request h') := by simp [calls, hj]
  have hsecond : ((calls hashes).tasks.set (j + 1) (.await h'))[i + 1]? = some (.request h) := by
    rw [List.getElem?_set_ne (by omega)]
    simp [calls, hi]
  have hthird : (((calls hashes).tasks.set (j + 1) (.await h')).set (i + 1) (.await h))[i + 1]? = some (.await h) :=
    List.getElem?_set_self (by simpa [calls] using hlen)
  refine ⟨_, ((Interleaving.start.next hfirst (.write _ h')).next hsecond (.write _ h)).next hthird (.read [h] h h'), ?_⟩
  exact mem_of_getElem? (List.getElem?_set_self (by simpa [calls] using hlen))

end

/-- In every interleaving each call that returns a block returns the block of its hash if and only if no two calls ask for different
hashes of which the peer has a block. -/
theorem ownAnswers_iff (peer : HonestPeer) (hashes : List Bytes) :
    OwnAnswers peer hashes ↔ ∀ h ∈ hashes, ∀ h' ∈ hashes, peer.block h' ≠ none → h = h' := by
  refine ⟨fun hown h hh h' hh' hsome => ?_, ownAnswers_of_same⟩
  by_contra hne
  obtain ⟨b, hb⟩ := Option.ne_none_iff_exists'.mp hsome
  obtain ⟨w, hrun, hmem⟩ := exists_swapped peer hh hh' hne
  rw [received, hb] at hmem
  exact hne ((hown w hrun h b hmem).symm.trans (peer.hash_eq h' b hb))

def Sample.block (i : UInt8) : NeoCoin.Block := { hash := some [i] }

def Sample.peer : HonestPeer where
  block h := if h = hexEncode [1] then some (Sample.block 1) else if h = hexEncode [2] then some (Sample.block 2) else none
  hash_eq h b hb := by
    split at hb
    · rename_i heq
      rw [← Option.some.inj hb, heq]
      rfl
    · split at hb
      · rename_i heq
        rw [← Option.some.inj hb, heq]
        rfl
      · cases hb

/-- Of two calls the one for the second block returns the first. -/
theorem answers_swapped : ∃ w, Interleaving (Step Sample.peer) (calls [hexEncode [1], hexEncode [2]]) w ∧
    .returned (hexEncode [2]) (.ok (Sample.block 1)) ∈ w.tasks ∧ hexEncode (Sample.block 1).hash.bytes ≠ hexEncode [2] := by
  have hfirst : hexEncode [1] ∈ [hexEncode [1], hexEncode [2]] := by simp
  have hsecond : hexEncode [2] ∈ [hexEncode [1], hexEncode [2]] := by simp
  obtain ⟨w, hrun, hmem⟩ := exists_swapped Sample.peer hsecond hfirst (by decide)
  exact ⟨w, hrun, hmem, by decide⟩

end NeoCoin.Internal.PeerAPI
