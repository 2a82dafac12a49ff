import LibSeal.Counter.Network
import LibSeal.Data.Wire

/-!
# Rounds that are confirmed by every server

Whatever the order of the system calls and however few bytes each of them moves, no byte of a
message is lost, doubled or given to the wrong connection. What a host has sent on a connection and
what the server has taken off it are offsets on one stream, the messages of the host one behind the
other (`Wire.part`), and what is in flight is the part between them; the answers are such a stream
the other way. This is the invariant (`NetState.Consistent`), and each step moves one offset.

So the message of a host is never anything but what the servers have made of it, one round after the
other (`Network.message`), and when a round is over every server of the list has answered exactly
one message more.
-/

namespace LibSeal

open Bytes Wire NetState

variable {H S : Type}

/-! ### The messages that are meant -/

/-- The message of a host after some rounds: the answer of the last server of its list to the
message before. -/
def Network.message (N : Network H S) (h : H) : ℕ → Bytes
  | 0 => N.original h
  | r + 1 => N.reply (h, N.quorumSize h - 1) r (N.message h r)

/-- The answer on a connection in a round. -/
def Network.answer (N : Network H S) (c : Conn H) (r : ℕ) : Bytes := N.reply c r (N.message c.1 r)

/-- The message of a host before the answer of `servers[i]` is written over it. -/
def Network.before (N : Network H S) (h : H) (r : ℕ) : ℕ → Bytes
  | 0 => N.message h r
  | i + 1 => N.answer (h, i) r

theorem Network.length_message (N : Network H S) (h : H) (r : ℕ) :
    (N.message h r).length = encMsgSize := by
  induction r with
  | zero => exact N.length_original h
  | succ r ih => exact N.length_reply _ _ _ ih

theorem Network.length_answer (N : Network H S) (c : Conn H) (r : ℕ) :
    (N.answer c r).length = encMsgSize :=
  N.length_reply _ _ _ (N.length_message c.1 r)

theorem Network.length_before (N : Network H S) (h : H) (r i : ℕ) :
    (N.before h r i).length = encMsgSize := by
  cases i with
  | zero => exact N.length_message h r
  | succ i => exact N.length_answer _ r

/-! ### Offsets -/

/-- How much of the message of the round has been sent to `servers[i]`. -/
def HostPhase.sentTo (i : ℕ) : HostPhase → ℕ
  | returned => 0
  | sendMsg j total => if i < j then encMsgSize else if i = j then total else 0
  | recvMsg _ _ => encMsgSize

/-- How much of the answer of the round has been received from `servers[i]`. -/
def HostPhase.receivedFrom (i : ℕ) : HostPhase → ℕ
  | returned => 0
  | sendMsg _ _ => 0
  | recvMsg j lenTmp => if i < j then encMsgSize else if i = j then lenTmp else 0

/-- How much a host has sent on a connection. -/
def Host.sentTo (host : Host) (i : ℕ) : ℕ := encMsgSize * host.rounds + host.phase.sentTo i

/-- How much a host has received on a connection. -/
def Host.receivedFrom (host : Host) (i : ℕ) : ℕ :=
  encMsgSize * host.rounds + host.phase.receivedFrom i

section

variable [DecidableEq H]

/-- How much of a message a server has taken off a connection. -/
def ServerPhase.taken (c : Conn H) : ServerPhase H → ℕ
  | recvMsg c' cipher => if c' = c then cipher.length else 0
  | _ => 0

/-- How much of an answer a server has still to send on a connection. -/
def ServerPhase.owed (c : Conn H) : ServerPhase H → ℕ
  | sendMsg c' _ total => if c' = c then encMsgSize - total else 0
  | _ => 0

/-- How much a server has taken off a connection. -/
def NetState.takenOff (N : Network H S) (s : NetState H S) (c : Conn H) : ℕ :=
  encMsgSize * s.served c + (s.server (N.server c)).taken c

/-- How much a server has sent on a connection. -/
def NetState.answered (N : Network H S) (s : NetState H S) (c : Conn H) : ℕ :=
  encMsgSize * s.served c - (s.server (N.server c)).owed c

end

theorem encMsgSize_pos : 0 < encMsgSize := by decide

/-- **A `send`** moves one offset. -/
theorem HostPhase.sentTo_sent {q i j total n : ℕ} (hj : j < q) (hle : total + n ≤ encMsgSize) :
    (HostPhase.sent q i total n).sentTo j =
      (HostPhase.sendMsg i total).sentTo j + if j = i then n else 0 := by
  rw [HostPhase.sent]
  by_cases hmore : total + n < encMsgSize
  · simp only [if_pos hmore, sentTo]
    split_ifs <;> omega
  · by_cases hnext : i + 1 < q
    · simp only [if_neg hmore, if_pos hnext, sentTo]
      split_ifs <;> omega
    · simp only [if_neg hmore, if_neg hnext, sentTo]
      split_ifs <;> omega

theorem HostPhase.receivedFrom_sent (q i j total n : ℕ) :
    (HostPhase.sent q i total n).receivedFrom j = 0 := by
  rw [HostPhase.sent]
  split_ifs <;> simp [receivedFrom]

theorem HostPhase.sent_ne_returned (q i total n : ℕ) :
    HostPhase.sent q i total n ≠ .returned := by
  rw [HostPhase.sent]
  split_ifs <;> simp

/-- What a host has sent after a `send`. -/
theorem Host.sentTo_send {host : Host} {q i j total n : ℕ} (hphase : host.phase = .sendMsg i total)
    (hj : j < q) (hle : total + n ≤ encMsgSize) :
    (host.send q i total n).sentTo j = host.sentTo j + if j = i then n else 0 := by
  rw [Host.sentTo, Host.sentTo, Host.send, HostPhase.sentTo_sent hj hle, hphase, Nat.add_assoc]

theorem Host.receivedFrom_send {host : Host} {q i j total n : ℕ}
    (hphase : host.phase = .sendMsg i total) :
    (host.send q i total n).receivedFrom j = host.receivedFrom j := by
  rw [Host.receivedFrom, Host.receivedFrom, Host.send, HostPhase.receivedFrom_sent, hphase]
  rfl

/-- **A `recv`** moves one offset, also where it ends the round. -/
theorem Host.receivedFrom_recv {host : Host} {q i j lenTmp : ℕ} {bytes : Bytes}
    (hphase : host.phase = .recvMsg i lenTmp) (hj : j < q)
    (hle : lenTmp + bytes.length ≤ encMsgSize) :
    (host.recv q i lenTmp bytes).receivedFrom j =
      host.receivedFrom j + if j = i then bytes.length else 0 := by
  have hpos := encMsgSize_pos
  rw [Host.receivedFrom, Host.receivedFrom, Host.recv, hphase]
  simp only [HostPhase.received]
  by_cases hmore : lenTmp + bytes.length < encMsgSize
  · simp only [if_pos hmore, HostPhase.receivedFrom, reduceCtorEq, if_false]
    split_ifs <;> omega
  · by_cases hnext : i + 1 < q
    · simp only [if_neg hmore, if_pos hnext, HostPhase.receivedFrom, reduceCtorEq, if_false]
      split_ifs <;> omega
    · simp only [if_neg hmore, if_neg hnext, HostPhase.receivedFrom, if_true, Nat.mul_succ]
      split_ifs <;> omega

theorem Host.sentTo_recv {host : Host} {q i lenTmp : ℕ} {bytes : Bytes}
    (hphase : host.phase = .recvMsg i lenTmp) (j : ℕ) :
    (host.recv q i lenTmp bytes).sentTo j = host.sentTo j := by
  rw [Host.sentTo, Host.sentTo, Host.recv, hphase]
  simp only [HostPhase.received]
  split_ifs <;> simp [HostPhase.sentTo, Nat.mul_succ] at *

/-! ### The invariant -/

/-- A host is at a server of its list, and its message is what the round has made of it so far. -/
structure Host.Consistent (N : Network H S) (h : H) (host : Host) : Prop where
  sending : ∀ i total, host.phase = .sendMsg i total → i < N.quorumSize h ∧ total < encMsgSize
  receiving : ∀ i lenTmp, host.phase = .recvMsg i lenTmp → i < N.quorumSize h ∧
    lenTmp < encMsgSize ∧ host.message = (N.answer (h, i) host.rounds).take lenTmp ++
      (N.before h host.rounds i).drop lenTmp
  message : (∀ i lenTmp, host.phase ≠ .recvMsg i lenTmp) → host.message = N.message h host.rounds

variable {N : Network H S}

/-- A host that sends does not change its message. -/
theorem Host.Consistent.send {h : H} {host : Host} (hc : host.Consistent N h) {i total n : ℕ}
    (hphase : host.phase = .sendMsg i total) :
    (host.send (N.quorumSize h) i total n).Consistent N h := by
  have hpos := encMsgSize_pos
  obtain ⟨hi, -⟩ := hc.sending i total hphase
  have hmessage : host.message = N.message h host.rounds :=
    hc.message fun j lenTmp hrecv ↦ by simp [hphase] at hrecv
  rw [Host.send, HostPhase.sent]
  by_cases hmore : total + n < encMsgSize
  · rw [if_pos hmore]
    refine ⟨fun j t hj ↦ ?_, fun _ _ hj ↦ (nomatch hj), fun _ ↦ hmessage⟩
    cases hj
    exact ⟨hi, hmore⟩
  · rw [if_neg hmore]
    by_cases hnext : i + 1 < N.quorumSize h
    · rw [if_pos hnext]
      refine ⟨fun j t hj ↦ ?_, fun _ _ hj ↦ (nomatch hj), fun _ ↦ hmessage⟩
      cases hj
      exact ⟨hnext, hpos⟩
    · rw [if_neg hnext]
      refine ⟨fun _ _ hj ↦ (nomatch hj), fun j t hj ↦ ?_, fun hnot ↦ absurd rfl (hnot 0 0)⟩
      cases hj
      exact ⟨by omega, hpos, by simpa [Network.before] using hmessage⟩

/-- **The answer is written over the message**, piece by piece. -/
theorem Host.Consistent.recv {h : H} {host : Host} (hc : host.Consistent N h) {i lenTmp n : ℕ}
    {bytes : Bytes} (hphase : host.phase = .recvMsg i lenTmp) (hle : lenTmp + n ≤ encMsgSize)
    (hbytes : bytes = ((N.answer (h, i) host.rounds).drop lenTmp).take n) :
    (host.recv (N.quorumSize h) i lenTmp bytes).Consistent N h := by
  have hpos := encMsgSize_pos
  obtain ⟨hi, -, hmessage⟩ := hc.receiving i lenTmp hphase
  have hanswer := N.length_answer (h, i) host.rounds
  have hn : bytes.length = n := by
    rw [hbytes, List.length_take, List.length_drop]
    omega
  have hwritten : host.message.take lenTmp ++ bytes ++ host.message.drop (lenTmp + n) =
      (N.answer (h, i) host.rounds).take (lenTmp + n) ++
        (N.before h host.rounds i).drop (lenTmp + n) := by
    have hfront : ((N.answer (h, i) host.rounds).take lenTmp).length = lenTmp := by
      rw [List.length_take]
      omega
    rw [hmessage, hbytes, List.take_left' hfront, List.take_add, ← List.drop_drop,
      List.drop_left' hfront, List.drop_drop]
  rw [Host.recv]
  simp only [hn, hwritten]
  rw [HostPhase.received]
  by_cases hmore : lenTmp + n < encMsgSize
  · rw [if_pos hmore, if_neg (by simp)]
    refine ⟨fun _ _ hj ↦ (nomatch hj), fun j t hj ↦ ?_, fun hnot ↦ absurd rfl (hnot _ _)⟩
    cases hj
    exact ⟨hi, hmore, rfl⟩
  · -- the answer is complete
    have hwhole : (N.answer (h, i) host.rounds).take (lenTmp + n) ++
        (N.before h host.rounds i).drop (lenTmp + n) = N.answer (h, i) host.rounds := by
      have hbefore := N.length_before h host.rounds i
      rw [List.take_of_length_le (by omega), List.drop_eq_nil_of_le (by omega), List.append_nil]
    rw [if_neg hmore, hwhole]
    by_cases hnext : i + 1 < N.quorumSize h
    · rw [if_pos hnext, if_neg (by simp)]
      refine ⟨fun _ _ hj ↦ (nomatch hj), fun j t hj ↦ ?_, fun hnot ↦ absurd rfl (hnot _ _)⟩
      cases hj
      exact ⟨hnext, hpos, by simp [Network.before]⟩
    · have hlast : i = N.quorumSize h - 1 := by omega
      rw [if_neg hnext, if_pos rfl]
      refine ⟨fun _ _ hj ↦ (nomatch hj), fun _ _ hj ↦ (nomatch hj), fun _ ↦ ?_⟩
      rw [hlast]
      rfl

variable [DecidableEq H]

/-- A connection carries the messages of its host one way and their answers the other way. -/
structure NetState.ConnConsistent (N : Network H S) (s : NetState H S) (c : Conn H) : Prop where
  requests : s.requests c = (List.range (s.served c)).map (N.message c.1)
  up : InFlight encMsgSize (N.message c.1) (s.takenOff N c) ((s.host c.1).sentTo c.2) (s.up c)
  down : InFlight encMsgSize (N.answer c) ((s.host c.1).receivedFrom c.2) (s.answered N c)
    (s.down c)

/-- A server that is at a message has the beginning of the next one of the connection, and one that
answers has the answer to the last one. -/
structure ServerPhase.Consistent (N : Network H S) (t : S) (served : Conn H → ℕ)
    (up : Conn H → Bytes) (phase : ServerPhase H) : Prop where
  receiving : ∀ c cipher, phase = .recvMsg c cipher →
    (N.server c = t ∧ c.2 < N.quorumSize c.1) ∧ cipher.length < encMsgSize ∧
      cipher = part encMsgSize (N.message c.1) (encMsgSize * served c)
        (encMsgSize * served c + cipher.length) ∧ (cipher = [] → up c ≠ [])
  sending : ∀ c cipher total, phase = .sendMsg c cipher total →
    (N.server c = t ∧ c.2 < N.quorumSize c.1) ∧ total < encMsgSize ∧
      ∃ n, served c = n + 1 ∧ cipher = N.answer c n

/-- **The invariant.** -/
structure NetState.Consistent (N : Network H S) (s : NetState H S) : Prop where
  host : ∀ h, (s.host h).Consistent N h
  conn : ∀ c : Conn H, c.2 < N.quorumSize c.1 → s.ConnConsistent N c
  server : ∀ t, (s.server t).Consistent N t s.served s.up

variable {s s' : NetState H S}

theorem consistent_init (N : Network H S) : (NetState.init N).Consistent N where
  host _ := ⟨fun _ _ hphase ↦ (nomatch hphase), fun _ _ hphase ↦ (nomatch hphase), fun _ ↦ rfl⟩
  conn _ _ := ⟨rfl, InFlight.nil, InFlight.nil⟩
  server _ := ⟨fun _ _ hphase ↦ (nomatch hphase), fun _ _ _ hphase ↦ (nomatch hphase)⟩

/-! ### The steps -/

/-- A round begins where nothing has been sent. -/
theorem NetState.Consistent.begin (h : s.Consistent N) (hstep : NetBegin N s s') :
    s'.Consistent N := by
  obtain ⟨k, hphase, hquorum⟩ := hstep
  have hmessage : (s.host k).message = N.message k (s.host k).rounds :=
    (h.host k).message fun i lenTmp hrecv ↦ by simp [hphase] at hrecv
  have hoffsets : ∀ (j : H) (i : ℕ),
      (Function.update s.host k { s.host k with phase := .sendMsg 0 0 } j).sentTo i =
          (s.host j).sentTo i ∧
        (Function.update s.host k { s.host k with phase := .sendMsg 0 0 } j).receivedFrom i =
          (s.host j).receivedFrom i := by
    intro j i
    rcases eq_or_ne j k with rfl | hj
    · rw [Function.update_self]
      simp [Host.sentTo, Host.receivedFrom, hphase, HostPhase.sentTo, HostPhase.receivedFrom]
    · rw [Function.update_of_ne hj]
      exact ⟨rfl, rfl⟩
  refine ⟨fun j ↦ ?_, fun c hc ↦ ?_, fun t ↦ ⟨(h.server t).receiving, (h.server t).sending⟩⟩
  · show (Function.update s.host k _ j).Consistent N j
    rcases eq_or_ne j k with rfl | hj
    · rw [Function.update_self]
      refine ⟨fun i total hsend ↦ ?_, fun _ _ hrecv ↦ (nomatch hrecv), fun _ ↦ hmessage⟩
      cases hsend
      exact ⟨hquorum, encMsgSize_pos⟩
    · rw [Function.update_of_ne hj]
      exact h.host j
  · have hup := (h.conn c hc).up
    have hdown := (h.conn c hc).down
    rw [← (hoffsets c.1 c.2).1] at hup
    rw [← (hoffsets c.1 c.2).2] at hdown
    exact ⟨(h.conn c hc).requests, hup, hdown⟩

/-- Both offsets of a host on a connection. -/
theorem offsets_hostSend {h : H} {i total n : ℕ} (hphase : (s.host h).phase = .sendMsg i total)
    (hle : total + n ≤ encMsgSize) {c : Conn H} (hc : c.2 < N.quorumSize c.1) :
    ((s.hostSend N h i total n).host c.1).sentTo c.2 =
        (s.host c.1).sentTo c.2 + (if c = (h, i) then n else 0) ∧
      ((s.hostSend N h i total n).host c.1).receivedFrom c.2 =
        (s.host c.1).receivedFrom c.2 := by
  obtain ⟨k, j⟩ := c
  show (Function.update s.host h _ k).sentTo j = _ ∧
    (Function.update s.host h _ k).receivedFrom j = _
  rcases eq_or_ne k h with rfl | hk
  · rw [Function.update_self, Host.sentTo_send hphase hc hle, Host.receivedFrom_send hphase]
    simp
  · rw [Function.update_of_ne hk]
    simp [hk]

/-- **A `send` of a host.** -/
theorem NetState.Consistent.hostSend (hs : s.Consistent N) {h : H} {i total n : ℕ}
    (hphase : (s.host h).phase = .sendMsg i total) (hle : total + n ≤ encMsgSize) :
    (s.hostSend N h i total n).Consistent N := by
  obtain ⟨hi, -⟩ := (hs.host h).sending i total hphase
  have hmessage : (s.host h).message = N.message h (s.host h).rounds :=
    (hs.host h).message fun j lenTmp hrecv ↦ by simp [hphase] at hrecv
  have hsentTo : (s.host h).sentTo i = encMsgSize * (s.host h).rounds + total := by
    simp [Host.sentTo, hphase, HostPhase.sentTo]
  have hnew : ((s.host h).message.drop total).take n = part encMsgSize (N.message h)
      ((s.host h).sentTo i) ((s.host h).sentTo i + n) := by
    rw [hmessage, hsentTo, part_within (N.length_message h _) hle]
  refine ⟨fun j ↦ ?_, fun c hc ↦ ?_, fun t ↦ ⟨fun c cipher hrecv ↦ ?_, (hs.server t).sending⟩⟩
  · show (Function.update s.host h _ j).Consistent N j
    rcases eq_or_ne j h with rfl | hj
    · rw [Function.update_self]
      exact (hs.host j).send hphase
    · rw [Function.update_of_ne hj]
      exact hs.host j
  · obtain ⟨hsent, hreceived⟩ := offsets_hostSend hphase hle hc
    have hup := (hs.conn c hc).up
    have hdown := (hs.conn c hc).down
    rw [← hreceived] at hdown
    refine ⟨(hs.conn c hc).requests, ?_, hdown⟩
    rw [hsent]
    show InFlight _ _ (s.takenOff N c) _ (Function.update s.up (h, i) _ c)
    by_cases hci : c = (h, i)
    · subst hci
      rw [Function.update_self, if_pos rfl]
      exact hup.push hnew
    · rw [Function.update_of_ne hci, if_neg hci]
      exact hup
  · obtain ⟨hserver, hlt, hcipher, hup⟩ := (hs.server t).receiving c cipher hrecv
    refine ⟨hserver, hlt, hcipher, fun hnil ↦ ?_⟩
    show Function.update s.up (h, i) _ c ≠ []
    by_cases hci : c = (h, i)
    · subst hci
      rw [Function.update_self]
      exact List.append_ne_nil_of_left_ne_nil (hup hnil) _
    · rw [Function.update_of_ne hci]
      exact hup hnil

/-- Both offsets of a host on a connection. -/
theorem offsets_hostRecv {h : H} {i lenTmp n : ℕ} (hphase : (s.host h).phase = .recvMsg i lenTmp)
    (hle : lenTmp + n ≤ encMsgSize) (hdown : n ≤ (s.down (h, i)).length) {c : Conn H}
    (hc : c.2 < N.quorumSize c.1) :
    ((s.hostRecv N h i lenTmp n).host c.1).receivedFrom c.2 =
        (s.host c.1).receivedFrom c.2 + (if c = (h, i) then n else 0) ∧
      ((s.hostRecv N h i lenTmp n).host c.1).sentTo c.2 = (s.host c.1).sentTo c.2 := by
  obtain ⟨k, j⟩ := c
  have hlength : ((s.down (h, i)).take n).length = n := by
    rw [List.length_take]
    omega
  show (Function.update s.host h _ k).receivedFrom j = _ ∧
    (Function.update s.host h _ k).sentTo j = _
  rcases eq_or_ne k h with rfl | hk
  · rw [Function.update_self, Host.receivedFrom_recv hphase hc (by omega),
      Host.sentTo_recv hphase, hlength]
    simp
  · rw [Function.update_of_ne hk]
    simp [hk]

/-- **A `recv` of a host.** -/
theorem NetState.Consistent.hostRecv (hs : s.Consistent N) {h : H} {i lenTmp n : ℕ}
    (hphase : (s.host h).phase = .recvMsg i lenTmp) (hle : lenTmp + n ≤ encMsgSize)
    (hlength : n ≤ (s.down (h, i)).length) : (s.hostRecv N h i lenTmp n).Consistent N := by
  obtain ⟨hi, -, -⟩ := (hs.host h).receiving i lenTmp hphase
  have hreceivedFrom : (s.host h).receivedFrom i = encMsgSize * (s.host h).rounds + lenTmp := by
    simp [Host.receivedFrom, hphase, HostPhase.receivedFrom]
  have hbytes : (s.down (h, i)).take n =
      ((N.answer (h, i) (s.host h).rounds).drop lenTmp).take n := by
    rw [(hs.conn (h, i) hi).down.take_eq hlength, hreceivedFrom,
      part_within (N.length_answer _ _) hle]
  refine ⟨fun j ↦ ?_, fun c hc ↦ ?_, fun t ↦ ⟨(hs.server t).receiving, (hs.server t).sending⟩⟩
  · show (Function.update s.host h _ j).Consistent N j
    rcases eq_or_ne j h with rfl | hj
    · rw [Function.update_self]
      exact (hs.host j).recv hphase hle hbytes
    · rw [Function.update_of_ne hj]
      exact hs.host j
  · obtain ⟨hreceived, hsent⟩ := offsets_hostRecv hphase hle hlength hc
    have hup := (hs.conn c hc).up
    have hdown := (hs.conn c hc).down
    rw [← hsent] at hup
    refine ⟨(hs.conn c hc).requests, hup, ?_⟩
    rw [hreceived]
    show InFlight _ _ _ (s.answered N c) (Function.update s.down (h, i) _ c)
    by_cases hci : c = (h, i)
    · subst hci
      rw [Function.update_self, if_pos rfl]
      exact hdown.pop hlength
    · rw [Function.update_of_ne hci, if_neg hci]
      exact hdown

/-! The steps of a server -/

/-- Nothing of another connection is in the hands of a server. -/
theorem ServerPhase.taken_received_of_ne (served : ℕ) {c c' : Conn H} (cipher : Bytes)
    (h : c ≠ c') : (ServerPhase.received N served c cipher).taken c' = 0 ∧
      (ServerPhase.received N served c cipher).owed c' = 0 := by
  rw [received]
  split_ifs <;> simp [taken, owed, h]

theorem ServerPhase.taken_sent (c c' : Conn H) (cipher : Bytes) (total : ℕ) :
    (ServerPhase.sent c cipher total).taken c' = 0 := by
  rw [sent]
  split_ifs <;> rfl

theorem ServerPhase.owed_sent_of_ne {c c' : Conn H} (cipher : Bytes) (total : ℕ) (h : c ≠ c') :
    (ServerPhase.sent c cipher total).owed c' = 0 := by
  rw [sent]
  split_ifs <;> simp [owed, h]

theorem ServerPhase.owed_sent_self (c : Conn H) (cipher : Bytes) {total : ℕ} :
    (ServerPhase.sent c cipher total).owed c = encMsgSize - total := by
  rw [sent]
  split_ifs with hmore
  · simp [owed]
  · simp only [owed]
    omega

variable [DecidableEq S]

/-- `select` moves no offset. -/
theorem offsets_select {t : S} (hphase : s.server t = .select) (c c' : Conn H) :
    NetState.takenOff N { s with server := Function.update s.server t (.recvMsg c []) } c' =
        s.takenOff N c' ∧
      NetState.answered N { s with server := Function.update s.server t (.recvMsg c []) } c' =
        s.answered N c' := by
  show encMsgSize * s.served c' + (Function.update s.server t _ (N.server c')).taken c' = _ ∧
    encMsgSize * s.served c' - (Function.update s.server t _ (N.server c')).owed c' = _
  rw [takenOff, answered]
  by_cases ht : N.server c' = t
  · rw [ht, Function.update_self, hphase]
    simp [ServerPhase.taken, ServerPhase.owed]
  · rw [Function.update_of_ne ht]
    exact ⟨rfl, rfl⟩

/-- **`select`** returns. -/
theorem NetState.Consistent.select (hs : s.Consistent N) {t : S} {c : Conn H}
    (hphase : s.server t = .select) (hserver : N.server c = t) (hc : c.2 < N.quorumSize c.1)
    (hup : s.up c ≠ []) :
    NetState.Consistent N { s with server := Function.update s.server t (.recvMsg c []) } := by
  refine ⟨hs.host, fun c' hc' ↦ ⟨(hs.conn c' hc').requests, ?_, ?_⟩, fun u ↦ ?_⟩
  · rw [(offsets_select hphase c c').1]
    exact (hs.conn c' hc').up
  · rw [(offsets_select hphase c c').2]
    exact (hs.conn c' hc').down
  · show (Function.update s.server t _ u).Consistent N u s.served s.up
    rcases eq_or_ne u t with rfl | hu
    · rw [Function.update_self]
      refine ⟨fun c' cipher hrecv ↦ ?_, fun _ _ _ hsend ↦ (nomatch hsend)⟩
      cases hrecv
      exact ⟨⟨hserver, hc⟩, encMsgSize_pos, part_self.symm, fun _ ↦ hup⟩
    · rw [Function.update_of_ne hu]
      exact hs.server u

omit [DecidableEq S] in
/-- What a server does on one connection leaves the others as they are. -/
theorem ServerPhase.Consistent.of_ne {t u : S} (hut : u ≠ t) {c : Conn H} (hserver : N.server c = t)
    {served : Conn H → ℕ} {up : Conn H → Bytes} {phase : ServerPhase H}
    (hphase : phase.Consistent N u served up) (n : ℕ) (queue : Bytes) :
    phase.Consistent N u (Function.update served c n) (Function.update up c queue) := by
  have hne : ∀ c', N.server c' = u → c' ≠ c := by
    rintro c' hc' rfl
    exact hut (hc'.symm.trans hserver)
  refine ⟨fun c' cipher hrecv ↦ ?_, fun c' cipher total hsend ↦ ?_⟩
  · obtain ⟨hc', h⟩ := hphase.receiving c' cipher hrecv
    rw [Function.update_of_ne (hne c' hc'.1), Function.update_of_ne (hne c' hc'.1)]
    exact ⟨hc', h⟩
  · obtain ⟨hc', h⟩ := hphase.sending c' cipher total hsend
    rw [Function.update_of_ne (hne c' hc'.1)]
    exact ⟨hc', h⟩

/-- The number of messages after a `recv` of a server. -/
theorem NetState.served_serverRecv (s : NetState H S) (t : S) (c : Conn H) (cipher : Bytes)
    (n : ℕ) : (s.serverRecv N t c cipher n).served = Function.update s.served c
      (if (cipher ++ (s.up c).take n).length < encMsgSize then s.served c else s.served c + 1) := by
  funext c'
  rw [served, NetState.serverRecv]
  dsimp only
  rcases eq_or_ne c' c with rfl | hne
  · rw [Function.update_self, Function.update_self]
    split_ifs
    · rfl
    · exact List.length_append
  · rw [Function.update_of_ne hne, Function.update_of_ne hne]
    rfl

omit [DecidableEq S] in
/-- What a server has taken off and sent on a connection that it receives on. -/
theorem offsets_of_recvMsg {c : Conn H} {cipher : Bytes}
    (hphase : s.server (N.server c) = .recvMsg c cipher) :
    s.takenOff N c = encMsgSize * s.served c + cipher.length ∧
      s.answered N c = encMsgSize * s.served c := by
  rw [takenOff, answered, hphase]
  simp [ServerPhase.taken, ServerPhase.owed]

/-- **A `recv` of a server** moves one offset. -/
theorem offsets_serverRecv {t : S} {c : Conn H} {cipher : Bytes} {n : ℕ}
    (hphase : s.server t = .recvMsg c cipher) (hserver : N.server c = t)
    (hle : cipher.length + n ≤ encMsgSize) (hup : n ≤ (s.up c).length) (c' : Conn H) :
    (s.serverRecv N t c cipher n).takenOff N c' =
        s.takenOff N c' + (if c' = c then n else 0) ∧
      (s.serverRecv N t c cipher n).answered N c' = s.answered N c' := by
  set cipher' := cipher ++ (s.up c).take n with hcipher'
  have hlength : cipher'.length = cipher.length + n := by
    rw [hcipher', List.length_append, List.length_take]
    omega
  by_cases hne : c' = c
  · subst hne
    obtain ⟨htakenOff, hanswered⟩ := offsets_of_recvMsg (hserver ▸ hphase)
    rw [htakenOff, hanswered, takenOff, answered, NetState.served_serverRecv,
      Function.update_self, NetState.serverRecv, if_pos rfl]
    dsimp only
    rw [hserver, Function.update_self, ← hcipher', ServerPhase.received]
    by_cases hmore : cipher'.length < encMsgSize
    · rw [if_pos hmore, if_pos hmore]
      simp only [ServerPhase.taken, ServerPhase.owed, if_true]
      omega
    · rw [if_neg hmore, if_neg hmore]
      simp only [ServerPhase.taken, ServerPhase.owed, if_true, Nat.mul_succ]
      omega
  · rw [takenOff, takenOff, answered, answered, NetState.served_serverRecv,
      Function.update_of_ne hne, NetState.serverRecv, if_neg hne]
    dsimp only
    by_cases ht : N.server c' = t
    · obtain ⟨htaken, howed⟩ := ServerPhase.taken_received_of_ne (N := N) (s.served c) cipher'
        (Ne.symm hne)
      rw [ht, Function.update_self, htaken, howed, hphase]
      simp [ServerPhase.taken, ServerPhase.owed, Ne.symm hne]
    · rw [Function.update_of_ne ht]
      exact ⟨rfl, rfl⟩

/-- **A `recv` of a server.** -/
theorem NetState.Consistent.serverRecv (hs : s.Consistent N) {t : S} {c : Conn H} {cipher : Bytes}
    {n : ℕ} (hphase : s.server t = .recvMsg c cipher) (hn : 0 < n)
    (hle : cipher.length + n ≤ encMsgSize) (hup : n ≤ (s.up c).length) :
    (s.serverRecv N t c cipher n).Consistent N := by
  obtain ⟨⟨hserver, hc⟩, -, hcipher, -⟩ := (hs.server t).receiving c cipher hphase
  have hoffsets := offsets_serverRecv hphase hserver hle hup
  obtain ⟨htakenOff, -⟩ := offsets_of_recvMsg (hserver.symm ▸ hphase)
  have hconn := hs.conn c hc
  -- what the server has now
  set cipher' := cipher ++ (s.up c).take n with hcipher'
  have hlength : cipher'.length = cipher.length + n := by
    rw [hcipher', List.length_append, List.length_take]
    omega
  have hpart : cipher' = part encMsgSize (N.message c.1) (encMsgSize * s.served c)
      (encMsgSize * s.served c + cipher'.length) := by
    rw [hlength, ← Nat.add_assoc, hcipher', hconn.up.take_eq hup, htakenOff,
      ← part_append (Nat.le_add_right _ cipher.length) (Nat.le_add_right _ n), ← hcipher]
  have hwhole : ¬ cipher'.length < encMsgSize → cipher' = N.message c.1 (s.served c) := by
    intro hmore
    rw [hpart, show cipher'.length = encMsgSize by omega, ← Nat.mul_succ,
      part_message (N.length_message _ _)]
  refine ⟨hs.host, fun c' hc' ↦ ⟨?_, ?_, ?_⟩, fun u ↦ ?_⟩
  · rw [NetState.served_serverRecv]
    show Function.update s.requests c _ c' = (List.range (Function.update s.served c _ c')).map _
    by_cases hne : c' = c
    · subst hne
      rw [Function.update_self, Function.update_self, ← hcipher']
      by_cases hmore : cipher'.length < encMsgSize
      · rw [if_pos hmore, if_pos hmore]
        exact hconn.requests
      · rw [if_neg hmore, if_neg hmore, List.range_succ, List.map_append, ← hconn.requests,
          hwhole hmore]
        rfl
    · rw [Function.update_of_ne hne, Function.update_of_ne hne]
      exact (hs.conn c' hc').requests
  · rw [(hoffsets c').1]
    show InFlight _ _ _ _ (Function.update s.up c _ c')
    by_cases hne : c' = c
    · subst hne
      rw [Function.update_self, if_pos rfl]
      exact hconn.up.pop hup
    · rw [Function.update_of_ne hne, if_neg hne]
      exact (hs.conn c' hc').up
  · rw [(hoffsets c').2]
    exact (hs.conn c' hc').down
  · rw [NetState.served_serverRecv]
    show (Function.update s.server t _ u).Consistent N u _ (Function.update s.up c _)
    rcases eq_or_ne u t with rfl | hu
    · rw [Function.update_self, ServerPhase.received, ← hcipher']
      by_cases hmore : cipher'.length < encMsgSize
      · rw [if_pos hmore, if_pos hmore, Function.update_eq_self]
        refine ⟨fun c' cipher'' hrecv ↦ ?_, fun _ _ _ hsend ↦ (nomatch hsend)⟩
        cases hrecv
        refine ⟨⟨hserver, hc⟩, hmore, hpart, fun hnil ↦ ?_⟩
        rw [hnil, List.length_nil] at hlength
        omega
      · rw [if_neg hmore, if_neg hmore]
        refine ⟨fun _ _ hrecv ↦ (nomatch hrecv), fun c' cipher'' total hsend ↦ ?_⟩
        cases hsend
        refine ⟨⟨hserver, hc⟩, encMsgSize_pos, s.served c, Function.update_self .., ?_⟩
        rw [hwhole hmore]
        rfl
    · rw [Function.update_of_ne hu]
      exact (hs.server u).of_ne hu hserver _ _

/-- **A `send` of a server** moves one offset. -/
theorem offsets_serverSend {t : S} {c : Conn H} {cipher : Bytes} {total n : ℕ}
    (hphase : s.server t = .sendMsg c cipher total) (hserver : N.server c = t)
    (hserved : 0 < s.served c) (hle : total + n ≤ encMsgSize) (c' : Conn H) :
    (s.serverSend t c cipher total n).takenOff N c' = s.takenOff N c' ∧
      (s.serverSend t c cipher total n).answered N c' =
        s.answered N c' + if c' = c then n else 0 := by
  show encMsgSize * s.served c' + (Function.update s.server t _ (N.server c')).taken c' = _ ∧
    encMsgSize * s.served c' - (Function.update s.server t _ (N.server c')).owed c' = _
  rw [takenOff, answered]
  by_cases hne : c' = c
  · subst hne
    have hmul := Nat.le_mul_of_pos_right encMsgSize hserved
    rw [hserver, Function.update_self, ServerPhase.taken_sent, ServerPhase.owed_sent_self, hphase,
      if_pos rfl]
    simp only [ServerPhase.taken, ServerPhase.owed, if_true, true_and]
    omega
  · rw [if_neg hne, Nat.add_zero]
    by_cases ht : N.server c' = t
    · rw [ht, Function.update_self, ServerPhase.taken_sent,
        ServerPhase.owed_sent_of_ne cipher _ (Ne.symm hne), hphase]
      simp [ServerPhase.taken, ServerPhase.owed, Ne.symm hne]
    · rw [Function.update_of_ne ht]
      exact ⟨rfl, rfl⟩

/-- **A `send` of a server.** -/
theorem NetState.Consistent.serverSend (hs : s.Consistent N) {t : S} {c : Conn H} {cipher : Bytes}
    {total n : ℕ} (hphase : s.server t = .sendMsg c cipher total)
    (hle : total + n ≤ encMsgSize) : (s.serverSend t c cipher total n).Consistent N := by
  obtain ⟨⟨hserver, hc⟩, htotal, r, hserved, hcipher⟩ :=
    (hs.server t).sending c cipher total hphase
  have hoffsets := offsets_serverSend hphase hserver (by omega) hle
  have hanswered : s.answered N c = encMsgSize * r + total := by
    rw [answered, hserver, hphase, hserved]
    simp only [ServerPhase.owed, if_true, Nat.mul_succ]
    omega
  have hnew : (cipher.drop total).take n =
      part encMsgSize (N.answer c) (s.answered N c) (s.answered N c + n) := by
    rw [hcipher, hanswered, part_within (N.length_answer _ _) hle]
  refine ⟨hs.host, fun c' hc' ↦ ⟨(hs.conn c' hc').requests, ?_, ?_⟩, fun u ↦ ?_⟩
  · rw [(hoffsets c').1]
    exact (hs.conn c' hc').up
  · rw [(hoffsets c').2]
    show InFlight _ _ _ _ (Function.update s.down c _ c')
    by_cases hne : c' = c
    · subst hne
      rw [Function.update_self, if_pos rfl]
      exact (hs.conn c' hc').down.push hnew
    · rw [Function.update_of_ne hne, if_neg hne]
      exact (hs.conn c' hc').down
  · show (Function.update s.server t _ u).Consistent N u s.served s.up
    rcases eq_or_ne u t with rfl | hu
    · rw [Function.update_self, ServerPhase.sent]
      split_ifs with hmore
      · refine ⟨fun _ _ hrecv ↦ (nomatch hrecv), fun c' cipher' total' hsend ↦ ?_⟩
        cases hsend
        exact ⟨⟨hserver, hc⟩, hmore, r, hserved, hcipher⟩
      · exact ⟨fun _ _ hrecv ↦ (nomatch hrecv), fun _ _ _ hsend ↦ (nomatch hsend)⟩
    · rw [Function.update_of_ne hu]
      exact hs.server u

theorem NetState.Consistent.call (hs : s.Consistent N) (hstep : NetCall N s s') :
    s'.Consistent N := by
  cases hstep with
  | hostSend h i total n hphase _ hle => exact hs.hostSend hphase hle
  | hostRecv h i lenTmp n hphase _ hle hdown => exact hs.hostRecv hphase hle hdown
  | select t c hphase hserver hc hup => exact hs.select hphase hserver hc hup
  | serverRecv t c cipher n hphase hn hle hup => exact hs.serverRecv hphase hn hle hup
  | serverSend t c cipher total n hphase _ hle => exact hs.serverSend hphase hle

/-- **The invariant holds in every state that is reached.** -/
theorem consistent_of_netReaches {rounds calls : ℕ} (h : NetReaches N rounds calls s) :
    s.Consistent N := by
  induction h with
  | init => exact consistent_init N
  | begin _ hstep ih => exact ih.begin hstep
  | call _ hstep ih => exact ih.call hstep

/-! ### Agreement -/

omit [DecidableEq S] in
/-- No server is behind its host, or more than a round ahead. -/
theorem NetState.Consistent.served_bounds (hs : s.Consistent N) {h : H} {i : ℕ}
    (hi : i < N.quorumSize h) :
    (s.host h).rounds ≤ s.served (h, i) ∧ s.served (h, i) ≤ (s.host h).rounds + 1 := by
  have hconn := hs.conn (h, i) hi
  have hup : encMsgSize * s.served (h, i) ≤ (s.host h).sentTo i :=
    (Nat.le_add_right _ _).trans hconn.up.le
  have hdown : (s.host h).receivedFrom i ≤ encMsgSize * s.served (h, i) :=
    hconn.down.le.trans (Nat.sub_le _ _)
  have hle : (s.host h).phase.sentTo i ≤ encMsgSize := by
    rcases hphase : (s.host h).phase with - | ⟨j, total⟩ | ⟨j, lenTmp⟩
    · exact Nat.zero_le _
    · have hlt := ((hs.host h).sending j total hphase).2
      simp only [HostPhase.sentTo]
      split_ifs <;> omega
    · exact le_rfl
  rw [Host.sentTo] at hup
  rw [Host.receivedFrom] at hdown
  have hpos := encMsgSize_pos
  constructor
  · refine Nat.le_of_mul_le_mul_left ?_ hpos
    omega
  · refine Nat.le_of_mul_le_mul_left ?_ hpos
    rw [Nat.mul_succ]
    omega

omit [DecidableEq S] in
/-- Between two rounds nothing is in flight. -/
theorem NetState.Consistent.quiet (hs : s.Consistent N) {h : H}
    (hphase : (s.host h).phase = .returned) {i : ℕ} (hi : i < N.quorumSize h) :
    s.served (h, i) = (s.host h).rounds ∧ s.up (h, i) = [] ∧ s.down (h, i) = [] := by
  have hconn := hs.conn (h, i) hi
  have hsentTo : (s.host h).sentTo i = encMsgSize * (s.host h).rounds := by
    simp [Host.sentTo, hphase, HostPhase.sentTo]
  have hreceived : (s.host h).receivedFrom i = encMsgSize * (s.host h).rounds := by
    simp [Host.receivedFrom, hphase, HostPhase.receivedFrom]
  have hup := hconn.up
  have hdown := hconn.down
  rw [hsentTo] at hup
  rw [hreceived] at hdown
  obtain ⟨hlower, -⟩ := hs.served_bounds hi
  have htaken : encMsgSize * s.served (h, i) ≤ encMsgSize * (s.host h).rounds :=
    (Nat.le_add_right _ _).trans hup.le
  have hserved : s.served (h, i) = (s.host h).rounds :=
    (Nat.le_of_mul_le_mul_left htaken encMsgSize_pos).antisymm hlower
  refine ⟨hserved, ?_, ?_⟩
  · have hlength := hup.length_add
    rw [takenOff, hserved] at hlength
    exact List.length_eq_zero_iff.1 (by omega)
  · have hlength := hdown.length_add
    rw [answered, hserved] at hlength
    exact List.length_eq_zero_iff.1 (by omega)

/-- **A round that is over is confirmed by every server of the list.** Whatever the order of the
system calls and however much each of them moves, a host that is outside the round has the message
that its servers have made of it, one round after the other; each of them has received the messages
of all rounds, in their order and nothing else, and nothing is left on the connections. At any time
a server has received those of the rounds that are over and at most one more. -/
theorem confirmed_of_netReaches {rounds calls : ℕ} (h : NetReaches N rounds calls s) (k : H) :
    ((s.host k).phase = .returned →
      (s.host k).message = N.message k (s.host k).rounds ∧
      ∀ i < N.quorumSize k,
        s.requests (k, i) = (List.range (s.host k).rounds).map (N.message k) ∧
          s.up (k, i) = [] ∧ s.down (k, i) = []) ∧
    ∀ i < N.quorumSize k, ∃ n, s.requests (k, i) = (List.range n).map (N.message k) ∧
      (s.host k).rounds ≤ n ∧ n ≤ (s.host k).rounds + 1 := by
  have hs := consistent_of_netReaches h
  refine ⟨fun hphase ↦ ⟨?_, fun i hi ↦ ?_⟩, fun i hi ↦ ?_⟩
  · exact (hs.host k).message fun i lenTmp hrecv ↦ by simp [hphase] at hrecv
  · obtain ⟨hserved, hup, hdown⟩ := hs.quiet hphase hi
    refine ⟨?_, hup, hdown⟩
    rw [← hserved]
    exact (hs.conn (k, i) hi).requests
  · exact ⟨s.served (k, i), (hs.conn (k, i) hi).requests, hs.served_bounds hi⟩

/-- A host with a server that adds one to each byte. -/
def oneServer : Network Unit Unit where
  quorumSize _ := 1
  server _ := ()
  original _ := List.replicate encMsgSize 0
  reply _ _ message := message.map (· + 1)
  length_original _ := List.length_replicate
  length_reply _ _ message h := by rw [List.length_map, h]

/-- A round whose calls move a message in pieces: the server begins to receive before the host has
sent everything. -/
theorem netReaches_oneServer : ∃ s, NetReaches oneServer 1 8 s ∧ (s.host ()).phase = .returned ∧
    (s.host ()).rounds = 1 := by
  have begun := NetReaches.init.begin (N := oneServer) (.mk () rfl Nat.one_pos)
  have sent := begun.call (.hostSend () 0 0 40 rfl (by decide) (by decide))
  have selected := sent.call (.select () ((), 0) rfl rfl Nat.one_pos (by decide))
  have sent := selected.call (.hostSend () 0 40 8 rfl (by decide) (by decide))
  have received := sent.call
    (.serverRecv () ((), 0) [] 45 rfl (by decide) (by decide) (by decide))
  have received := received.call
    (.serverRecv () ((), 0) _ 3 rfl (by decide) (by decide) (by decide))
  have answered := received.call (.serverSend () ((), 0) _ 0 48 rfl (by decide) (by decide))
  have received := answered.call (.hostRecv () 0 0 20 rfl (by decide) (by decide) (by decide))
  have received := received.call (.hostRecv () 0 20 28 rfl (by decide) (by decide) (by decide))
  exact ⟨_, received, rfl, rfl⟩

/-- The answer is written over the message. -/
theorem confirmed_of_netReaches_oneServer : ∃ s, NetReaches oneServer 1 8 s ∧
    (s.host ()).message = List.replicate encMsgSize 1 ∧
    s.requests ((), 0) = [List.replicate encMsgSize 0] := by
  obtain ⟨s, h, hphase, hrounds⟩ := netReaches_oneServer
  obtain ⟨hmessage, hrequests⟩ := (confirmed_of_netReaches h ()).1 hphase
  refine ⟨s, h, ?_, ?_⟩
  · rw [hmessage, hrounds]
    decide
  · rw [(hrequests 0 Nat.one_pos).1, hrounds]
    rfl

end LibSeal
