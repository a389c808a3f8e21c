import NeoCoin.Internal.SecureChannel

/-!
# The secure channel

The two sides of the handshake of `internal/networking/secure_channel.go` hash different things. Over the channel, both directions take
their nonces from one counter at each end, so that messages get through as long as one end at a time sends.
-/

namespace NeoCoin.Internal

open GoLib Relation List

variable {n : Nat} {msg : Bytes} {s : Side} {C : Crypto} {E : Type}

/-! ## The handshake -/

@[simp] theorem Hello.ofBytes_bytes (m : Hello) : Hello.ofBytes m.bytes = m := by
  obtain ⟨version, ⟨key, hkey⟩, nonce, hnonce⟩ := m
  simp [ofBytes, bytes, ← hkey]

namespace SecureChannel

/-- The two sides of a handshake, joined. Both hold the key that they were made with. -/
def joined (C : Crypto) (E : Type) (key : ByteArr 32) (d d' : Draw) : Link E (Result SecureChannel) (Result SecureChannel) where
  a := initiatorHandshake C { key, isInitiator := true } d
  b := responderHandshake C { key, isInitiator := false } d'

def initiated (C : Crypto) (key : ByteArr 32) (d' : Draw) : SecureChannel :=
  { key := sum256 C (key.val ++ d'.nonce.val), peerKey := d'.key, isInitiator := true }

def responded (C : Crypto) (d d' : Draw) : SecureChannel :=
  { key := sum256 C (d'.key.val ++ d.nonce.val), peerKey := d.key, isInitiator := false }

variable {key : ByteArr 32} {d d' : Draw}

/-- The handshake goes through. -/
theorem joined_steps :
    ReflTransGen Link.Step (joined C E key d d') ⟨.done (.ok (initiated C key d')), .done (.ok (responded C d d')), [], []⟩ := by
  unfold joined initiatorHandshake responderHandshake
  refine .head .writeA (.head (.readB d.hello.bytes [] (by simp)) ?_)
  simp only [Hello.ofBytes_bytes, Draw.hello]
  refine .head .writeB (.head (.readA d'.hello.bytes [] (by simp [Draw.hello])) ?_)
  simp only [Hello.ofBytes_bytes, Draw.hello, ne_eq, not_true_eq_false, if_false]
  exact .refl

theorem initiator_written {input : Bytes} {o : Proc.Outcome E (Result SecureChannel)} (h : (joined C E key d d').a.exec input = some o) :
    ∃ rest, o.written = d.hello.bytes.val ++ rest := by
  obtain ⟨x, -, hx⟩ := Option.map_eq_some_iff.mp h
  exact ⟨x.written, by rw [← hx]⟩

theorem initiator_exec (rest : Bytes) :
    (joined C E key d d').a.exec (d'.hello.bytes.val ++ rest) = some ⟨.ok (initiated C key d'), [], d.hello.bytes.val, rest⟩ := by
  simp only [joined, initiatorHandshake, Proc.exec_write, Proc.exec_read, Hello.ofBytes_bytes]
  simp [Draw.hello, initiated]

theorem responder_exec (rest : Bytes) :
    (joined C E key d d').b.exec (d.hello.bytes.val ++ rest) = some ⟨.ok (responded C d d'), [], d'.hello.bytes.val, rest⟩ := by
  simp only [joined, responderHandshake, Proc.exec_read, Hello.ofBytes_bytes]
  simp [Draw.hello, responded]

theorem joined_ends {r r' : Result SecureChannel} {ab ba : Bytes}
    (h : ReflTransGen Link.Step (joined C E key d d') ⟨.done r, .done r', ab, ba⟩) :
    r = .ok (initiated C key d') ∧ r' = .ok (responded C d d') := by
  obtain ⟨o, o', ho, ho', rfl, rfl⟩ := Link.exec_of_steps h
  obtain ⟨rest, hwritten⟩ := initiator_written ho
  have hwire : (joined C E key d d').ab ++ o.written = d.hello.bytes.val ++ rest := hwritten
  rw [hwire, responder_exec, Option.some_inj] at ho'
  subst ho'
  have hwire' : (joined C E key d d').ba ++ d'.hello.bytes.val = d'.hello.bytes.val ++ [] := (append_nil _).symm
  simp only [hwire', initiator_exec, Option.some_inj] at ho
  subst ho
  exact ⟨rfl, rfl⟩

/-- When both sides succeed they have the same key exactly when the responder has drawn the key that both held, and the nonce of the
initiator. -/
theorem handshake_agrees_iff (hfree : C.CollisionFreeOn [key.val ++ d'.nonce.val, d'.key.val ++ d.nonce.val]) :
    (∀ sc sc' ab ba, ReflTransGen Link.Step (joined C E key d d') ⟨.done (.ok sc), .done (.ok sc'), ab, ba⟩ → sc.key = sc'.key) ↔
      d'.key = key ∧ d'.nonce = d.nonce := by
  constructor
  · intro h
    have hsum := congrArg Subtype.val (h _ _ _ _ joined_steps)
    have hsame := hfree _ (by simp) _ (by simp) hsum
    obtain ⟨hkey, hnonce⟩ := append_inj hsame (by rw [key.2, d'.key.2])
    exact ⟨Subtype.ext hkey.symm, Subtype.ext hnonce⟩
  · rintro ⟨hkey, hnonce⟩ sc sc' ab ba hrun
    obtain ⟨hr, hr'⟩ := joined_ends hrun
    cases hr
    cases hr'
    simp only [initiated, responded, hkey, hnonce]

/-- A key of zeros that the responder has drawn as well. -/
theorem handshake_agrees_zero : let key : ByteArr 32 := ⟨List.replicate 32 0, by simp⟩
    let d : Draw := ⟨key, ⟨List.replicate 12 1, by simp⟩⟩
    ∀ sc sc' ab ba, ReflTransGen Link.Step (joined (goCrypto []) Empty key d d) ⟨.done (.ok sc), .done (.ok sc'), ab, ba⟩ →
      sc.key = sc'.key :=
  (handshake_agrees_iff fun _ hm _ hm' _ => by simp_all).mpr ⟨rfl, rfl⟩

/-- A key of zeros, where the responder has drawn other bytes: both sides succeed, with different keys. -/
theorem handshake_disagrees : let key : ByteArr 32 := ⟨List.replicate 32 0, by simp⟩
    let d : Draw := ⟨⟨List.replicate 32 1, by simp⟩, ⟨List.replicate 12 2, by simp⟩⟩
    let d' : Draw := ⟨⟨List.replicate 32 3, by simp⟩, ⟨List.replicate 12 4, by simp⟩⟩
    ∃ sc sc', ReflTransGen Link.Step (joined (goCrypto []) Empty key d d') ⟨.done (.ok sc), .done (.ok sc'), [], []⟩ ∧ sc.key ≠ sc'.key :=
  ⟨_, _, joined_steps, by decide⟩

/-! ## One message -/

variable {A : AEAD} {sc : SecureChannel}

theorem nonceArr_inj {m : Nat} (hm : m < 2 ^ 64) (hn : n < 2 ^ 64) (h : nonceArr m = nonceArr n) : m = n := by
  have hbytes := append_cancel_left (congrArg Subtype.val h)
  have hnat := congrArg beNat hbytes
  rwa [beNat_beBytes (by omega), beNat_beBytes (by omega)] at hnat

def frame (A : AEAD) (key : ByteArr 32) (n : Nat) (msg : Bytes) : Bytes :=
  beBytes 4 (msg.length + 16) ++ A.aeadSeal key (nonceArr n) msg

def frames (A : AEAD) (key : ByteArr 32) : Nat → List Bytes → Bytes
  | _, [] => []
  | n, msg :: rest => frame A key n msg ++ frames A key (n + 1) rest

theorem frames_snoc (n : Nat) (msgs : List Bytes) (msg : Bytes) :
    frames A key n (msgs ++ [msg]) = frames A key n msgs ++ frame A key (n + msgs.length) msg := by
  induction msgs generalizing n with
  | nil => simp [frames]
  | cons first rest ih => simp [frames, ih, Nat.add_assoc, Nat.add_comm 1]

theorem frames_eq_nil_iff {msgs : List Bytes} : frames A key n msgs = [] ↔ msgs = [] := by
  cases msgs with
  | nil => simp [frames]
  | cons msg rest => simp [frames, frame, beBytes]

theorem sendEncrypted_exec (hopen : sc.closed = false) (hlen : msg.length ≤ maxSecureMessageSize) (input : Bytes) :
    (sc.sendEncrypted A msg).exec input =
      some ⟨(.ok (), { sc with nonce := sc.nonce + 1 }), [(sc.key, nonceArr sc.nonce.toNat)], frame A sc.key sc.nonce.toNat msg,
        input⟩ := by
  have hnot : ¬msg.length > maxSecureMessageSize := Nat.not_lt.mpr hlen
  simp [sendEncrypted, hopen, hnot, frame, A.length_aeadSeal]

theorem sendEncrypted_exec_long (hopen : sc.closed = false) (hlen : maxSecureMessageSize < msg.length) (input : Bytes) :
    (sc.sendEncrypted A msg).exec input = some ⟨(.error "message too large", sc), [], [], input⟩ := by
  simp [sendEncrypted, hopen, hlen]

theorem exists_header (hn : n < 2 ^ 32) : ∃ header : ByteArr 4, header.val = beBytes 4 n ∧ beNat header.val = n :=
  ⟨⟨beBytes 4 n, beBytes_length 4 n⟩, rfl, beNat_beBytes (by omega)⟩

theorem recvEncrypted_exec (hopen : sc.closed = false) (hlen : msg.length + 16 ≤ maxSecureMessageSize) (rest : Bytes) :
    (sc.recvEncrypted A).exec (frame A sc.key sc.nonce.toNat msg ++ rest) =
      some ⟨(.ok msg, { sc with nonce := sc.nonce + 1 }), [], [], rest⟩ := by
  obtain ⟨header, hheader, hnat⟩ := exists_header (n := msg.length + 16) (by unfold maxSecureMessageSize at hlen; omega)
  have hopens := (A.aeadOpen_eq_some sc.key (nonceArr sc.nonce.toNat) _ msg).mpr rfl
  rw [frame, ← hheader, append_assoc, recvEncrypted, if_neg (by simp [hopen]), Proc.exec_read, if_neg (by omega),
    Proc.exec_read _ ⟨_, (A.length_aeadSeal _ _ _).trans hnat.symm⟩]
  simp only [hopens, Proc.exec_done]

end SecureChannel

/-! ## Messages in both directions -/

@[simp] theorem Side.other_other (s : Side) : s.other.other = s := by cases s <;> rfl

@[simp] theorem Side.other_ne (s : Side) : s.other ≠ s := by cases s <;> decide

theorem Side.eq_or (s s' : Side) : s' = s ∨ s' = s.other := by cases s <;> cases s' <;> decide

theorem Side.forall_of {P : Side → Prop} (s : Side) (h : P s) (h' : P s.other) (s' : Side) : P s' := by
  rcases Side.eq_or s s' with rfl | rfl
  · exact h
  · exact h'

def Sample.tagging : AEAD where
  aeadSeal _ nonce msg := nonce.val ++ [0, 0, 0, 0] ++ msg
  aeadOpen _ nonce sealed := if sealed.take 16 = nonce.val ++ [0, 0, 0, 0] then some (sealed.drop 16) else none
  aeadOpen_eq_some := by
    rintro _ ⟨nonce, hnonce⟩ sealed msg
    have hlen : (nonce ++ [0, 0, 0, 0]).length = 16 := by simp [hnonce]
    constructor
    · intro h
      split at h
      · rename_i htake
        rw [← htake, ← Option.some_inj.mp h, take_append_drop]
      · cases h
    · rintro rfl
      simp only
      rw [← hlen, take_left, if_pos rfl, drop_left]
  length_aeadSeal := by
    rintro _ ⟨nonce, hnonce⟩ msg
    simp [hnonce]
    omega

def Sample.shared : ByteArr 32 := ⟨List.replicate 32 7, by simp⟩

namespace Endpoints

open SecureChannel

/-- No nonce was used twice with a key, and what was received at each end is what the other end has sent, in order. -/
structure Sound (w : Endpoints) : Prop where
  nonces : w.seals.Nodup
  inOrder : ∀ s, w.received s = ((w.sent s.other).take (w.received s).length).map .ok

/-- An end sends when it has received everything that the other end has sent, a message that is accepted leaves room for the tag, and the
counter does not wrap around. -/
def InTurn (w : Endpoints) (s : Side) : ChannelCall → Prop
  | .send msg => maxSecureMessageSize < msg.length ∨
      w.wire s.other = [] ∧ msg.length + 16 ≤ maxSecureMessageSize ∧ (w.chan s).nonce.toNat + 1 < 2 ^ 64
  | .recv => True

def AllInTurn (A : AEAD) : Endpoints → List (Side × ChannelCall) → Prop
  | _, [] => True
  | w, (s, c) :: rest =>
    w.InTurn s c ∧
      match w.call A s c with
      | none => True
      | some w => w.AllInTurn A rest

instance (w : Endpoints) (s : Side) : ∀ c : ChannelCall, Decidable (w.InTurn s c)
  | .send _ => inferInstanceAs (Decidable (_ ∨ _ ∧ _ ∧ _))
  | .recv => .isTrue trivial

instance decidableAllInTurn (A : AEAD) : ∀ (w : Endpoints) (calls : List (Side × ChannelCall)), Decidable (w.AllInTurn A calls)
  | _, [] => .isTrue trivial
  | w, (s, c) :: rest =>
    have : Decidable (match w.call A s c with | none => True | some w => w.AllInTurn A rest) :=
      match w.call A s c with
      | none => .isTrue trivial
      | some w => decidableAllInTurn A w rest
    inferInstanceAs (Decidable (w.InTurn s c ∧ _))

/-- The messages of an end that the other one has not received. -/
def pending (w : Endpoints) (s : Side) : List Bytes := (w.sent s).drop (w.received s.other).length

structure Kept (A : AEAD) (key : ByteArr 32) (w : Endpoints) : Prop where
  sameKey : ∀ s, (w.chan s).key = key
  isOpen : ∀ s, (w.chan s).closed = false
  inOrder : ∀ s, w.received s = ((w.sent s.other).take (w.received s).length).map .ok
  short : ∀ s, ∀ msg ∈ w.pending s, msg.length + 16 ≤ maxSecureMessageSize
  wire : ∀ s, w.wire s = frames A key (w.chan s.other).nonce.toNat (w.pending s)
  -- one end at a time has messages under way, so that the counters differ by their number
  idle : ∀ s, w.pending s = [] ∨ w.pending s.other = []
  counted : ∀ s, (w.chan s).nonce.toNat + (w.pending s.other).length = w.seals.length
  bounded : w.seals.length < 2 ^ 64
  seals : w.seals = (List.range w.seals.length).map fun n => (key, nonceArr n)

variable {A : AEAD} {key : ByteArr 32} {w w' : Endpoints}

theorem kept_start : Kept A key (start key) := by
  constructor <;> simp [start, pending, frames]

theorem Kept.nonces (h : Kept A key w) : w.seals.Nodup := by
  rw [h.seals]
  refine List.Nodup.map_on ?_ nodup_range
  intro m hm n hn heq
  have hbound := h.bounded
  rw [mem_range] at hm hn
  exact nonceArr_inj (by omega) (by omega) (Prod.mk.inj heq).2

theorem Kept.sound (h : Kept A key w) : w.Sound := ⟨h.nonces, h.inOrder⟩

theorem Kept.length_received (h : Kept A key w) (s : Side) : (w.received s).length ≤ (w.sent s.other).length := by
  have hlen := congrArg List.length (h.inOrder s)
  rw [length_map, length_take] at hlen
  omega

structure Sends (A : AEAD) (w w' : Endpoints) (s : Side) (msg : Bytes) : Prop where
  chan : w'.chan s = { w.chan s with nonce := (w.chan s).nonce + 1 }
  chan_other : w'.chan s.other = w.chan s.other
  wire : w'.wire s = w.wire s ++ frame A (w.chan s).key (w.chan s).nonce.toNat msg
  wire_other : w'.wire s.other = w.wire s.other
  sent : w'.sent s = w.sent s ++ [msg]
  sent_other : w'.sent s.other = w.sent s.other
  received : w'.received = w.received
  seals : w'.seals = w.seals ++ [((w.chan s).key, nonceArr (w.chan s).nonce.toNat)]

theorem call_send (hopen : (w.chan s).closed = false) (hlen : msg.length ≤ maxSecureMessageSize)
    (hcall : w.call A s (.send msg) = some w') : Sends A w w' s msg := by
  rw [Endpoints.call, perform, sendEncrypted_exec hopen hlen] at hcall
  simp only [Option.map_some, Option.some_inj] at hcall
  subst hcall
  constructor <;> simp

structure Receives (w w' : Endpoints) (s : Side) (msg rest : Bytes) : Prop where
  chan : w'.chan s = { w.chan s with nonce := (w.chan s).nonce + 1 }
  chan_other : w'.chan s.other = w.chan s.other
  wire : w'.wire s = w.wire s
  wire_other : w'.wire s.other = rest
  sent : w'.sent = w.sent
  received : w'.received s = w.received s ++ [.ok msg]
  received_other : w'.received s.other = w.received s.other
  seals : w'.seals = w.seals

theorem call_recv {rest : Bytes} (hopen : (w.chan s).closed = false) (hlen : msg.length + 16 ≤ maxSecureMessageSize)
    (hwire : w.wire s.other = frame A (w.chan s).key (w.chan s).nonce.toNat msg ++ rest) (hcall : w.call A s .recv = some w') :
    Receives w w' s msg rest := by
  rw [Endpoints.call, perform, hwire, recvEncrypted_exec hopen hlen] at hcall
  simp only [Option.map_some, Option.some_inj] at hcall
  subst hcall
  constructor <;> simp

theorem toNat_nonce_succ {n : UInt64} (h : n.toNat + 1 < 2 ^ 64) : (n + 1).toNat = n.toNat + 1 := by
  rw [UInt64.toNat_add]
  exact Nat.mod_eq_of_lt h

/-- A message goes on a wire that was empty. -/
theorem Kept.send (h : Kept A key w) (hwire : w.wire s.other = []) (hlen : msg.length + 16 ≤ maxSecureMessageSize)
    (hnonce : (w.chan s).nonce.toNat + 1 < 2 ^ 64) (hcall : w.call A s (.send msg) = some w') : Kept A key w' := by
  have hsends := call_send (h.isOpen s) (Nat.le_of_add_right_le hlen) hcall
  have hle : (w.received s.other).length ≤ (w.sent s).length := by
    have hle := h.length_received s.other
    rwa [Side.other_other] at hle
  have hnone : w.pending s.other = [] := frames_eq_nil_iff.mp ((h.wire s.other).symm.trans hwire)
  have hpending : w'.pending s = w.pending s ++ [msg] := by
    rw [pending, hsends.sent, hsends.received, drop_append_of_le_length hle]
    rfl
  have hpending' : w'.pending s.other = [] := by
    rw [← hnone, pending, hsends.sent_other, hsends.received]
    rfl
  have hcount : (w.chan s).nonce.toNat = w.seals.length := by
    have hcount := h.counted s
    rwa [hnone] at hcount
  have hcount' : (w.chan s.other).nonce.toNat + (w.pending s).length = w.seals.length := by
    have hcount := h.counted s.other
    rwa [Side.other_other] at hcount
  have hlength : w'.seals.length = w.seals.length + 1 := by
    rw [hsends.seals, length_append]
    rfl
  constructor
  · refine Side.forall_of s ?_ ?_
    · rw [hsends.chan]
      exact h.sameKey s
    · rw [hsends.chan_other]
      exact h.sameKey s.other
  · refine Side.forall_of s ?_ ?_
    · rw [hsends.chan]
      exact h.isOpen s
    · rw [hsends.chan_other]
      exact h.isOpen s.other
  · refine Side.forall_of s ?_ ?_
    · rw [hsends.received, hsends.sent_other]
      exact h.inOrder s
    · have hinOrder := h.inOrder s.other
      rw [Side.other_other] at hinOrder ⊢
      rw [hsends.received, hsends.sent, take_append_of_le_length hle]
      exact hinOrder
  · refine Side.forall_of s ?_ ?_
    · rw [hpending]
      exact forall_mem_concat.mpr ⟨h.short s, hlen⟩
    · simp [hpending']
  · refine Side.forall_of s ?_ ?_
    · rw [hsends.wire, hpending, hsends.chan_other, frames_snoc, hcount', hcount, h.wire s, h.sameKey s]
    · rw [hsends.wire_other, hpending', hwire]
      rfl
  · exact Side.forall_of s (.inr hpending') (.inl hpending')
  · refine Side.forall_of s ?_ ?_
    · rw [hpending', hsends.chan, hlength, ← hcount]
      exact toNat_nonce_succ hnonce
    · rw [Side.other_other, hpending, hsends.chan_other, hlength, ← hcount', length_append]
      rfl
  · rw [hlength, ← hcount]
    exact hnonce
  · rw [hlength, range_succ, map_append, ← h.seals, hsends.seals, h.sameKey s, hcount]
    rfl

/-- What is read is the next message under way. -/
theorem Kept.recv (h : Kept A key w) (hcall : w.call A s .recv = some w') : Kept A key w' := by
  have hwire := h.wire s.other
  rw [Side.other_other] at hwire
  rcases hpending : w.pending s.other with _ | ⟨msg, rest⟩
  · -- nothing is under way, and the call waits
    rw [hpending] at hwire
    simp [Endpoints.call, perform, recvEncrypted, h.isOpen, hwire, frames, Proc.exec] at hcall
  have hshort := h.short s.other
  rw [hpending] at hshort hwire
  rw [frames, ← h.sameKey s] at hwire
  have hreceives := call_recv (h.isOpen s) (hshort msg (by simp)) hwire hcall
  have hsent : (w.sent s.other)[(w.received s).length]? = some msg := by
    rw [pending, Side.other_other] at hpending
    rw [← List.head?_drop, hpending]
    rfl
  have hnone : w.pending s = [] := (h.idle s).resolve_right (by rw [hpending]; exact cons_ne_nil _ _)
  have hpending' : w'.pending s.other = rest := by
    rw [pending, Side.other_other] at hpending ⊢
    rw [hreceives.sent, hreceives.received, length_append, ← drop_drop, hpending]
    rfl
  have hnone' : w'.pending s = [] := by
    rw [← hnone, pending, hreceives.sent, hreceives.received_other]
    rfl
  have hcount : (w.chan s).nonce.toNat + (rest.length + 1) = w.seals.length := by
    have hcount := h.counted s
    rwa [hpending] at hcount
  have hcount' : (w.chan s.other).nonce.toNat = w.seals.length := by
    have hcount := h.counted s.other
    rwa [Side.other_other, hnone] at hcount
  have hsucc : (w'.chan s).nonce.toNat = (w.chan s).nonce.toNat + 1 := by
    have hbound := h.bounded
    rw [hreceives.chan]
    exact toNat_nonce_succ (by omega)
  constructor
  · refine Side.forall_of s ?_ ?_
    · rw [hreceives.chan]
      exact h.sameKey s
    · rw [hreceives.chan_other]
      exact h.sameKey s.other
  · refine Side.forall_of s ?_ ?_
    · rw [hreceives.chan]
      exact h.isOpen s
    · rw [hreceives.chan_other]
      exact h.isOpen s.other
  · refine Side.forall_of s ?_ ?_
    · rw [hreceives.received, hreceives.sent, length_append, length_singleton, take_add_one, hsent, map_append,
        ← h.inOrder s]
      rfl
    · rw [hreceives.received_other, hreceives.sent]
      exact h.inOrder s.other
  · refine Side.forall_of s ?_ ?_
    · simp [hnone']
    · rw [hpending']
      exact fun m hm => hshort m (.tail _ hm)
  · refine Side.forall_of s ?_ ?_
    · rw [hreceives.wire, h.wire s, hnone, hnone']
      rfl
    · rw [Side.other_other, hreceives.wire_other, hpending', hsucc, h.sameKey s]
  · exact Side.forall_of s (.inl hnone') (.inr (by rwa [Side.other_other]))
  · refine Side.forall_of s ?_ ?_
    · rw [hpending', hsucc, hreceives.seals]
      omega
    · rw [Side.other_other, hnone', hreceives.chan_other, hreceives.seals]
      exact hcount'
  · rw [hreceives.seals]
    exact h.bounded
  · rw [hreceives.seals]
    exact h.seals

theorem Kept.call (h : Kept A key w) {c : ChannelCall} (hturn : w.InTurn s c) (hcall : w.call A s c = some w') : Kept A key w' := by
  cases c with
  | recv => exact h.recv hcall
  | send msg =>
    rcases hturn with hlong | ⟨hwire, hlen, hnonce⟩
    · -- the message is rejected
      rw [Endpoints.call, perform, sendEncrypted_exec_long (h.isOpen s) hlong] at hcall
      simp only [Option.map_some, Option.some_inj] at hcall
      have hsame : w' = w := by
        rw [← hcall, Function.update_eq_self, append_nil, append_nil]
        congr 1
        funext s'
        rcases Side.eq_or s s' with rfl | rfl <;> simp
      rw [hsame]
      exact h
    · exact h.send hwire hlen hnonce hcall

theorem Kept.run (h : Kept A key w) {calls : List (Side × ChannelCall)} (hturn : w.AllInTurn A calls) (hrun : w.run A calls = some w') :
    Kept A key w' := by
  induction calls generalizing w with
  | nil =>
    obtain rfl := Option.some_inj.mp hrun
    exact h
  | cons c rest ih =>
    obtain ⟨hfirst, hrest⟩ := hturn
    obtain ⟨w₁, hcall, hrun⟩ := Option.bind_eq_some_iff.mp hrun
    rw [hcall] at hrest
    exact ih (h.call hfirst hcall) hrest hrun

/-- After any calls at both ends that are all in turn, messages have got through in order, and no nonce was used twice. -/
theorem channel_sound {calls : List (Side × ChannelCall)} (hturn : (start key).AllInTurn A calls)
    (hrun : (start key).run A calls = some w) : w.Sound :=
  (kept_start.run hturn hrun).sound

/-- Two messages one way and one the other way. -/
theorem channel_sound_in_turn : ∃ w, (start Sample.shared).run Sample.tagging
        [(.left, .send [1]), (.left, .send [2]), (.right, .recv), (.right, .recv), (.right, .send [3]), (.left, .recv)] = some w ∧
      (w.received .right = [.ok [1], .ok [2]] ∧ w.received .left = [.ok [3]]) ∧ w.Sound := by
  have hvalue : ((start Sample.shared).run Sample.tagging
      [(.left, .send [1]), (.left, .send [2]), (.right, .recv), (.right, .recv), (.right, .send [3]), (.left, .recv)]).any
      (fun w => decide (w.received .right = [.ok [1], .ok [2]] ∧ w.received .left = [.ok [3]])) = true := by decide
  obtain ⟨w, hw, hreceived⟩ := (Option.any_eq_true _ _).mp hvalue
  exact ⟨w, hw, of_decide_eq_true hreceived, channel_sound (by decide) hw⟩

/-- Both ends send first: they use one nonce twice, and a receiver whose counter has moved on cannot decrypt. -/
theorem channel_crossed :
    ∃ w, (start Sample.shared).run Sample.tagging [(.left, .send [1]), (.right, .send [2]), (.right, .recv)] = some w ∧
      (w.seals = [(Sample.shared, nonceArr 0), (Sample.shared, nonceArr 0)] ∧
        w.received .right = [.error "decryption failed: cipher: message authentication failed"]) ∧ ¬w.Sound := by
  have hvalue : ((start Sample.shared).run Sample.tagging [(.left, .send [1]), (.right, .send [2]), (.right, .recv)]).any
      (fun w => decide (w.seals = [(Sample.shared, nonceArr 0), (Sample.shared, nonceArr 0)] ∧
        w.received .right = [.error "decryption failed: cipher: message authentication failed"])) = true := by decide
  obtain ⟨w, hw, hresult⟩ := (Option.any_eq_true _ _).mp hvalue
  have hresult := of_decide_eq_true hresult
  refine ⟨w, hw, hresult, fun hsound => ?_⟩
  have hnonces := hsound.nonces
  rw [hresult.1] at hnonces
  simp at hnonces

end Endpoints

end NeoCoin.Internal
