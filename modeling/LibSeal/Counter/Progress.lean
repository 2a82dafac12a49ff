import LibSeal.Counter.Agreement
import LibSeal.Logpoint.CounterService
import Mathlib.Algebra.BigOperators.Group.Finset.Piecewise
import Mathlib.Algebra.BigOperators.Ring.Finset
import Mathlib.Algebra.Order.BigOperators.Group.Finset
import Mathlib.Data.Fintype.BigOperators
import Mathlib.Logic.Equiv.Basic

/-!
# Rounds that end

A round waits for every server of the list, and a server waits for the rest of a message that it has
begun to receive. Still nobody waits for ever: as long as some host is in its round, some system
call can return, and the calls of a round are bounded, however little each of them moves
(`rounds_end`). The bound counts, for each connection, the bytes that are sent and received at
either end and the times that `select` has shown the connection (`NetState.work`).

With servers of the counter service the message of a host is never changed, not even for the time
that an answer is written over it (`message_eq_originalCiphertext`).
-/

namespace LibSeal

open Bytes Wire NetState

variable {H S : Type} [DecidableEq H]

/-! ### The work that is done -/

/-- A server is at a message of the connection. -/
def ServerPhase.atMessage (c : Conn H) : ServerPhase H → ℕ
  | recvMsg c' _ => if c' = c then 1 else 0
  | _ => 0

/-- What has been done on a connection. -/
def NetState.work (N : Network H S) (s : NetState H S) (c : Conn H) : ℕ :=
  (s.host c.1).sentTo c.2 + (s.host c.1).receivedFrom c.2 + s.takenOff N c + s.answered N c +
    (s.served c + (s.server (N.server c)).atMessage c)

/-- The number of rounds that a host has begun. -/
def Host.begun (host : Host) : ℕ := host.rounds + if host.phase = .returned then 0 else 1

variable {N : Network H S} {s s' : NetState H S}

omit [DecidableEq H] in
/-- A host sends nothing outside its rounds. -/
theorem Host.Consistent.sentTo_le {h : H} {host : Host} (hc : host.Consistent N h) (i : ℕ) :
    host.sentTo i ≤ encMsgSize * host.begun := by
  rw [Host.sentTo, Host.begun]
  rcases hphase : host.phase with - | ⟨j, total⟩ | ⟨j, lenTmp⟩
  · simp [HostPhase.sentTo]
  · have hlt := (hc.sending j total hphase).2
    simp only [HostPhase.sentTo, reduceCtorEq, if_false, Nat.mul_succ]
    split_ifs <;> omega
  · simp [HostPhase.sentTo, Nat.mul_succ]

/-- A server that is at a message has not come to its end. -/
theorem NetState.Consistent.served_add_le (hs : s.Consistent N) {c : Conn H}
    (hc : c.2 < N.quorumSize c.1) :
    s.served c + (s.server (N.server c)).atMessage c ≤ (s.host c.1).begun := by
  have hup := (hs.conn c hc).up
  have hsent := (hs.host c.1).sentTo_le c.2
  have hle : encMsgSize * s.served c ≤ s.takenOff N c := Nat.le_add_right _ _
  rcases hphase : s.server (N.server c) with - | ⟨c', cipher⟩ | ⟨c', cipher, total⟩
  · refine Nat.le_of_mul_le_mul_left ?_ encMsgSize_pos
    exact hle.trans (hup.le.trans hsent)
  · rw [ServerPhase.atMessage]
    by_cases hcc : c' = c
    · subst hcc
      obtain ⟨-, -, -, hnil⟩ := (hs.server _).receiving c' cipher hphase
      obtain ⟨htaken, -⟩ := offsets_of_recvMsg hphase
      rw [if_pos rfl]
      refine Nat.succ_le_of_lt (Nat.lt_of_mul_lt_mul_left (a := encMsgSize) ?_)
      rcases cipher with - | ⟨b, cipher⟩
      · have hlt := hup.ne_nil_iff.1 (hnil rfl)
        omega
      · have hlength : 0 < (b :: cipher).length := Nat.succ_pos _
        have hle' := hup.le
        omega
    · rw [if_neg hcc]
      refine Nat.le_of_mul_le_mul_left ?_ encMsgSize_pos
      exact hle.trans (hup.le.trans hsent)
  · refine Nat.le_of_mul_le_mul_left ?_ encMsgSize_pos
    exact hle.trans (hup.le.trans hsent)

/-- **The work of a round is bounded.** -/
theorem NetState.Consistent.work_le (hs : s.Consistent N) {c : Conn H}
    (hc : c.2 < N.quorumSize c.1) :
    s.work N c ≤ (4 * encMsgSize + 1) * (s.host c.1).begun := by
  have hconn := hs.conn c hc
  have hsent := (hs.host c.1).sentTo_le c.2
  have hserved := hs.served_add_le hc
  have hup := hconn.up.le
  have hdown := hconn.down.le
  have htaken : encMsgSize * s.served c ≤ s.takenOff N c := Nat.le_add_right _ _
  have hanswered : s.answered N c ≤ encMsgSize * s.served c := Nat.sub_le _ _
  rw [NetState.work, Nat.add_mul, Nat.one_mul, Nat.mul_assoc]
  omega

variable [DecidableEq S]

/-- What one of the calls changes: the work on one connection. -/
def WorksOn (N : Network H S) (s s' : NetState H S) (c : Conn H) (n : ℕ) : Prop :=
  (c.2 < N.quorumSize c.1 ∧ 0 < n) ∧
    ∀ c' : Conn H, c'.2 < N.quorumSize c'.1 → s'.work N c' = s.work N c' + if c' = c then n else 0

/-- **Every system call does some work.** -/
theorem NetState.Consistent.exists_worksOn (hs : s.Consistent N) (hstep : NetCall N s s') :
    ∃ c n, WorksOn N s s' c n := by
  cases hstep with
  | hostSend h i total n hphase hn hle =>
    obtain ⟨hi, -⟩ := (hs.host h).sending i total hphase
    refine ⟨(h, i), n, ⟨hi, hn⟩, fun c hc ↦ ?_⟩
    obtain ⟨hsent, hreceived⟩ := offsets_hostSend hphase hle hc
    rw [work, work, hsent, hreceived]
    show _ + _ + s.takenOff N c + s.answered N c +
      (s.served c + (s.server (N.server c)).atMessage c) = _
    omega
  | hostRecv h i lenTmp n hphase hn hle hdown =>
    obtain ⟨hi, -, -⟩ := (hs.host h).receiving i lenTmp hphase
    refine ⟨(h, i), n, ⟨hi, hn⟩, fun c hc ↦ ?_⟩
    obtain ⟨hreceived, hsent⟩ := offsets_hostRecv hphase hle hdown hc
    rw [work, work, hsent, hreceived]
    show _ + _ + s.takenOff N c + s.answered N c +
      (s.served c + (s.server (N.server c)).atMessage c) = _
    omega
  | select t c hphase hserver hc hup =>
    refine ⟨c, 1, ⟨hc, Nat.one_pos⟩, fun c' hc' ↦ ?_⟩
    obtain ⟨htaken, hanswered⟩ := offsets_select (N := N) hphase c c'
    have hat : (Function.update s.server t (.recvMsg c []) (N.server c')).atMessage c' =
        (s.server (N.server c')).atMessage c' + if c' = c then 1 else 0 := by
      by_cases ht : N.server c' = t
      · rw [ht, Function.update_self, hphase]
        simp [ServerPhase.atMessage, eq_comm]
      · have hne : c' ≠ c := by
          rintro rfl
          exact ht hserver
        rw [Function.update_of_ne ht, if_neg hne, Nat.add_zero]
    rw [work, work, htaken, hanswered]
    show _ + _ + _ + _ + (s.served c' + (Function.update s.server t _ _).atMessage c') = _
    rw [hat]
    dsimp only
    omega
  | serverRecv t c cipher n hphase hn hle hup =>
    obtain ⟨⟨hserver, hc⟩, -⟩ := (hs.server t).receiving c cipher hphase
    refine ⟨c, n, ⟨hc, hn⟩, fun c' hc' ↦ ?_⟩
    obtain ⟨htaken, hanswered⟩ := offsets_serverRecv hphase hserver hle hup c'
    -- the message that the server is at becomes one that it has served
    have hat : (s.serverRecv N t c cipher n).served c' +
        ((s.serverRecv N t c cipher n).server (N.server c')).atMessage c' =
          s.served c' + (s.server (N.server c')).atMessage c' := by
      rw [served_serverRecv]
      show _ + (Function.update s.server t _ (N.server c')).atMessage c' = _
      rw [ServerPhase.received]
      by_cases hne : c' = c
      · subst hne
        rw [hserver, Function.update_self, Function.update_self, hphase]
        split_ifs <;> simp [ServerPhase.atMessage]
      · rw [Function.update_of_ne hne]
        by_cases ht : N.server c' = t
        · rw [ht, Function.update_self, hphase]
          split_ifs <;> simp [ServerPhase.atMessage, Ne.symm hne]
        · rw [Function.update_of_ne ht]
    rw [work, work, htaken, hanswered, hat]
    show (s.host c'.1).sentTo c'.2 + (s.host c'.1).receivedFrom c'.2 + _ + _ + _ = _
    omega
  | serverSend t c cipher total n hphase hn hle =>
    obtain ⟨⟨hserver, hc⟩, -, r, hserved, -⟩ := (hs.server t).sending c cipher total hphase
    refine ⟨c, n, ⟨hc, hn⟩, fun c' hc' ↦ ?_⟩
    obtain ⟨htaken, hanswered⟩ := offsets_serverSend hphase hserver (by omega) hle c'
    have hat : (Function.update s.server t (.sent c cipher (total + n)) (N.server c')).atMessage
        c' = (s.server (N.server c')).atMessage c' := by
      by_cases ht : N.server c' = t
      · rw [ht, Function.update_self, hphase, ServerPhase.sent]
        split_ifs <;> rfl
      · rw [Function.update_of_ne ht]
    rw [work, work, htaken, hanswered]
    show (s.host c'.1).sentTo c'.2 + (s.host c'.1).receivedFrom c'.2 + _ + _ +
      (s.served c' + (Function.update s.server t _ _).atMessage c') = _
    rw [hat]
    omega

/-! ### The calls of a round -/

omit [DecidableEq S] in
/-- A round that begins has nothing done yet. -/
theorem work_begin (hstep : NetBegin N s s') (c : Conn H) : s'.work N c = s.work N c := by
  obtain ⟨k, hphase, -⟩ := hstep
  show (Function.update s.host k _ c.1).sentTo c.2 +
    (Function.update s.host k _ c.1).receivedFrom c.2 + _ + _ + _ = _
  rw [work]
  rcases eq_or_ne c.1 k with hk | hk
  · rw [hk, Function.update_self]
    simp only [Host.sentTo, Host.receivedFrom, hphase, HostPhase.sentTo, HostPhase.receivedFrom,
      Nat.not_lt_zero, if_false, ite_self]
    rfl
  · rw [Function.update_of_ne hk]
    rfl

/-- A host that has begun a round is in it until it has ended it. -/
theorem begun_call (hstep : NetCall N s s') (k : H) :
    (s'.host k).begun = (s.host k).begun := by
  cases hstep with
  | hostSend h i total n hphase =>
    show (Function.update s.host h _ k).begun = _
    rcases eq_or_ne k h with rfl | hk
    · rw [Function.update_self, Host.begun, Host.begun, Host.send, hphase,
        if_neg (HostPhase.sent_ne_returned _ _ _ _), if_neg (by simp)]
    · rw [Function.update_of_ne hk]
  | hostRecv h i lenTmp n hphase =>
    show (Function.update s.host h _ k).begun = _
    rcases eq_or_ne k h with rfl | hk
    · rw [Function.update_self, Host.begun, Host.begun, Host.recv, hphase]
      dsimp only
      split_ifs <;> simp_all
    · rw [Function.update_of_ne hk]
  | select | serverRecv | serverSend => rfl

variable [Fintype H]

/-- What has been done on all connections. -/
def NetState.totalWork (N : Network H S) (s : NetState H S) : ℕ :=
  ∑ k, ∑ i ∈ Finset.range (N.quorumSize k), s.work N (k, i)

omit [DecidableEq S] in
theorem WorksOn.totalWork_eq {c : Conn H} {n : ℕ} (h : WorksOn N s s' c n) :
    s'.totalWork N = s.totalWork N + n := by
  obtain ⟨⟨hc, -⟩, hwork⟩ := h
  have hinner : ∀ k, ∑ i ∈ Finset.range (N.quorumSize k), s'.work N (k, i) =
      ∑ i ∈ Finset.range (N.quorumSize k), s.work N (k, i) + if k = c.1 then n else 0 := by
    intro k
    rw [Finset.sum_congr rfl fun i hi ↦ hwork (k, i) (Finset.mem_range.1 hi),
      Finset.sum_add_distrib]
    congr 1
    rcases eq_or_ne k c.1 with rfl | hk
    · rw [if_pos rfl]
      simp only [Prod.ext_iff, true_and]
      rw [Finset.sum_ite_eq', if_pos (Finset.mem_range.2 hc)]
    · rw [if_neg hk]
      refine Finset.sum_eq_zero fun i _ ↦ if_neg ?_
      rintro rfl
      exact hk rfl
  rw [totalWork, Finset.sum_congr rfl fun k _ ↦ hinner k, Finset.sum_add_distrib,
    Finset.sum_ite_eq', if_pos (Finset.mem_univ c.1)]
  rfl

theorem calls_le_totalWork {rounds calls : ℕ} (h : NetReaches N rounds calls s) :
    calls ≤ s.totalWork N := by
  induction h with
  | init => exact Nat.zero_le _
  | begin _ hstep ih =>
    refine ih.trans (Nat.le_of_eq ?_)
    exact Finset.sum_congr rfl fun k _ ↦ Finset.sum_congr rfl fun i _ ↦
      (work_begin hstep (k, i)).symm
  | call h hstep ih =>
    obtain ⟨c, n, hworks⟩ := (consistent_of_netReaches h).exists_worksOn hstep
    have hn := hworks.1.2
    rw [hworks.totalWork_eq]
    omega

theorem sum_begun {rounds calls : ℕ} (h : NetReaches N rounds calls s) :
    ∑ k, (s.host k).begun = rounds := by
  induction h with
  | init => exact Finset.sum_eq_zero fun k _ ↦ rfl
  | call _ hstep ih =>
    rw [← ih]
    exact Finset.sum_congr rfl fun k _ ↦ begun_call hstep k
  | @begin _ _ s _ _ hstep ih =>
    obtain ⟨k, hphase, -⟩ := hstep
    have heach : ∀ j, (Function.update s.host k { s.host k with phase := .sendMsg 0 0 } j).begun =
        (s.host j).begun + if j = k then 1 else 0 := by
      intro j
      rcases eq_or_ne j k with rfl | hj
      · rw [Function.update_self, Host.begun, Host.begun, hphase]
        simp
      · rw [Function.update_of_ne hj, if_neg hj, Nat.add_zero]
    rw [Finset.sum_congr rfl fun j _ ↦ heach j, Finset.sum_add_distrib, ih, Finset.sum_ite_eq',
      if_pos (Finset.mem_univ k)]

/-! ### Somebody can go on -/

omit [Fintype H] in
/-- A server that is at a message can go on, or the host that has begun to send it can. -/
theorem NetState.Consistent.exists_of_server (hs : s.Consistent N) {t : S}
    (ht : s.server t ≠ .select) : ∃ s', NetCall N s s' := by
  rcases hphase : s.server t with - | ⟨c, cipher⟩ | ⟨c, cipher, total⟩
  · exact absurd hphase ht
  · obtain ⟨⟨rfl, hc⟩, hlt, -, hnil⟩ := (hs.server t).receiving c cipher hphase
    by_cases hup : s.up c = []
    · -- some of the message has come, and the rest has not been sent
      have hlength := (hs.conn c hc).up.length_add
      have hpos : 0 < cipher.length := List.length_pos_iff.2 fun h ↦ hnil h hup
      rw [hup, (offsets_of_recvMsg hphase).1, Host.sentTo, List.length_nil, Nat.zero_add] at hlength
      rcases hhost : (s.host c.1).phase with - | ⟨i, total⟩ | ⟨i, lenTmp⟩
      · rw [hhost, HostPhase.sentTo] at hlength
        simp only [encMsgSize] at *
        omega
      · have htotal := ((hs.host c.1).sending i total hhost).2
        exact ⟨_, .hostSend c.1 i total 1 hhost Nat.one_pos htotal⟩
      · rw [hhost, HostPhase.sentTo] at hlength
        simp only [encMsgSize] at *
        omega
    · exact ⟨_, .serverRecv _ c cipher 1 hphase Nat.one_pos hlt (List.length_pos_iff.2 hup)⟩
  · obtain ⟨-, htotal, -⟩ := (hs.server t).sending c cipher total hphase
    exact ⟨_, .serverSend t c cipher total 1 hphase Nat.one_pos htotal⟩

omit [Fintype H] in
/-- **Nobody waits for ever**: while a host is in its round, some call can return. -/
theorem NetState.Consistent.exists_call (hs : s.Consistent N) {k : H}
    (hk : (s.host k).phase ≠ .returned) : ∃ s', NetCall N s s' := by
  rcases hphase : (s.host k).phase with - | ⟨i, total⟩ | ⟨i, lenTmp⟩
  · exact absurd hphase hk
  · obtain ⟨-, htotal⟩ := (hs.host k).sending i total hphase
    exact ⟨_, .hostSend k i total 1 hphase Nat.one_pos htotal⟩
  · obtain ⟨hi, hlt, -⟩ := (hs.host k).receiving i lenTmp hphase
    by_cases hdown : s.down (k, i) = []
    · by_cases hserver : s.server (N.server (k, i)) = .select
      · -- the server has not looked at the message yet, which has been sent
        have hup := (hs.conn (k, i) hi).up.length_add
        have hreceived := (hs.conn (k, i) hi).down.length_add
        simp only [takenOff, answered, Host.sentTo, Host.receivedFrom, hphase, hserver,
          HostPhase.sentTo, HostPhase.receivedFrom, ServerPhase.taken, ServerPhase.owed,
          Nat.lt_irrefl, if_false, if_true, hdown, List.length_nil] at hup hreceived
        have hne : s.up (k, i) ≠ [] := by
          rw [← List.length_pos_iff]
          simp only [encMsgSize] at *
          omega
        exact ⟨_, .select _ (k, i) hserver rfl hi hne⟩
      · exact hs.exists_of_server hserver
    · exact ⟨_, .hostRecv k i lenTmp 1 hphase Nat.one_pos hlt (List.length_pos_iff.2 hdown)⟩

omit [Fintype H] in
/-- Outside the rounds nobody has anything to do. -/
theorem NetState.Consistent.not_call (hs : s.Consistent N)
    (hreturned : ∀ k, (s.host k).phase = .returned) : ¬ NetCall N s s' := by
  intro hstep
  cases hstep with
  | hostSend h i total n hphase => simp [hreturned h] at hphase
  | hostRecv h i lenTmp n hphase => simp [hreturned h] at hphase
  | select t c hphase hserver hc hup =>
    exact hup (hs.quiet (hreturned c.1) hc).2.1
  | serverRecv t c cipher n hphase hn hle hup =>
    obtain ⟨⟨-, hc⟩, -⟩ := (hs.server t).receiving c cipher hphase
    rw [(hs.quiet (hreturned c.1) hc).2.1, List.length_nil] at hup
    omega
  | serverSend t c cipher total n hphase hn hle =>
    obtain ⟨⟨rfl, hc⟩, htotal, r, hserved, -⟩ := (hs.server t).sending c cipher total hphase
    obtain ⟨hrounds, -, hdown⟩ := hs.quiet (hreturned c.1) hc
    have hlength := (hs.conn c hc).down.length_add
    rw [hdown, answered, hphase, Host.receivedFrom, hreturned, hrounds] at hlength
    simp only [HostPhase.receivedFrom, ServerPhase.owed, if_true, List.length_nil] at hlength
    have hle : encMsgSize ≤ encMsgSize * (s.host c.1).rounds := by
      rw [← hrounds, hserved]
      exact Nat.le_mul_of_pos_right _ (Nat.succ_pos r)
    omega

/-- **Rounds end.** The system calls of any number of rounds are bounded, by the length of the lists
of the hosts that have begun them, and when no call can return any more every host has ended its
round. -/
theorem rounds_end {rounds calls : ℕ} (h : NetReaches N rounds calls s) :
    ∑ k, (s.host k).begun = rounds ∧
      calls ≤ (4 * encMsgSize + 1) * ∑ k, N.quorumSize k * (s.host k).begun ∧
      ((∀ s', ¬ NetCall N s s') ↔ ∀ k, (s.host k).phase = .returned) := by
  have hs := consistent_of_netReaches h
  refine ⟨sum_begun h, (calls_le_totalWork h).trans ?_, fun hstuck k ↦ ?_, fun hall s' ↦ ?_⟩
  · rw [Finset.mul_sum]
    refine Finset.sum_le_sum fun k _ ↦ ?_
    calc ∑ i ∈ Finset.range (N.quorumSize k), s.work N (k, i)
        ≤ ∑ _i ∈ Finset.range (N.quorumSize k), (4 * encMsgSize + 1) * (s.host k).begun :=
          Finset.sum_le_sum fun i hi ↦ hs.work_le (Finset.mem_range.1 hi)
      _ = (4 * encMsgSize + 1) * (N.quorumSize k * (s.host k).begun) := by
          rw [Finset.sum_const_nat fun _ _ ↦ rfl, Finset.card_range, Nat.mul_left_comm]
  · by_contra hk
    obtain ⟨s', hstep⟩ := hs.exists_call hk
    exact hstuck s' hstep
  · exact hs.not_call hall

/-- Nothing is left to do behind the round with the one server. -/
theorem rounds_end_oneServer : ∃ s, NetReaches oneServer 1 8 s ∧
    8 ≤ (4 * encMsgSize + 1) * ∑ k, oneServer.quorumSize k * (s.host k).begun ∧
    ∀ s', ¬ NetCall oneServer s s' := by
  obtain ⟨s, h, hphase, -⟩ := netReaches_oneServer
  obtain ⟨-, hcalls, hstuck⟩ := rounds_end h
  exact ⟨s, h, hcalls, hstuck.2 fun _ ↦ hphase⟩

/-! ### The servers of the counter service -/

/-- Encryption keeps the length, and adds a tag of 16 bytes. -/
def AesGcm.Sized (G : AesGcm) : Prop :=
  ∀ key iv plaintext, (G.encrypt key iv plaintext).1.length = plaintext.length ∧
    (G.encrypt key iv plaintext).2.length = 16

/-- What a server has decrypted is as long as what it was. -/
theorem AesGcm.Sized.length_decrypt {G : AesGcm} (hG : G.Authentic) (hsized : G.Sized)
    {key iv tag ciphertext plaintext : Bytes}
    (h : G.decrypt key iv tag ciphertext = some plaintext) :
    plaintext.length = ciphertext.length := by
  have hlength := (hsized key iv plaintext).1
  rw [(hG _ _ _ _ _).1 h] at hlength
  exact hlength.symm

/-- An answer is as long as a message, also behind a failed authentication. -/
theorem length_serverReply {G : AesGcm} (hG : G.Authentic) (hsized : G.Sized)
    {unverified message : Bytes} (hunverified : unverified.length = 16)
    (hmessage : message.length = encMsgSize) :
    (serverReply G unverified message).length = encMsgSize := by
  have hclear : ((sslDecrypt G message).getD unverified).length = 16 := by
    rcases hdecrypt : sslDecrypt G message with - | clear
    · exact hunverified
    · have hlength := hsized.length_decrypt hG hdecrypt
      rw [List.length_drop, hmessage] at hlength
      exact hlength
  obtain ⟨hciphertext, htag⟩ := hsized counterKey (ascii "0123456789012345")
    ((sslDecrypt G message).getD unverified)
  rw [serverReply]
  simp only [List.length_append, htag, hciphertext, hclear]
  decide

/-- The counter service: some servers, and hosts that have the constant `original_ciphertext`. What
is in the buffer of a server behind a failed authentication is `unverified`. -/
def counterService (G : AesGcm) (hG : G.Authentic) (hsized : G.Sized) (quorumSize : H → ℕ)
    (server : Conn H → S) (unverified : Conn H → ℕ → Bytes)
    (hunverified : ∀ c n, (unverified c n).length = 16) : Network H S where
  quorumSize
  server
  original _ := originalCiphertext
  reply c n message := serverReply G (unverified c n) message
  length_original _ := by decide
  length_reply c n _ hmessage := length_serverReply hG hsized (hunverified c n) hmessage

section

omit [DecidableEq H] [DecidableEq S] [Fintype H]

variable {G : AesGcm} {hG : G.Authentic} {hsized : G.Sized} {quorumSize : H → ℕ}
  {server : Conn H → S} {unverified : Conn H → ℕ → Bytes}
  {hunverified : ∀ c n, (unverified c n).length = 16}

/-- The message is the constant in every round. -/
theorem message_counterService (h : (sslDecrypt G originalCiphertext).isSome = true) (k : H)
    (r : ℕ) : (counterService G hG hsized quorumSize server unverified hunverified).message k r =
      originalCiphertext := by
  induction r with
  | zero => rfl
  | succ r ih =>
    rw [Network.message, ih]
    exact serverReply_originalCiphertext hG _ h

theorem answer_counterService (h : (sslDecrypt G originalCiphertext).isSome = true) (c : Conn H)
    (r : ℕ) : (counterService G hG hsized quorumSize server unverified hunverified).answer c r =
      originalCiphertext := by
  rw [Network.answer, message_counterService h]
  exact serverReply_originalCiphertext hG _ h

end

variable {G : AesGcm} {hG : G.Authentic} {hsized : G.Sized} {quorumSize : H → ℕ}
  {server : Conn H → S} {unverified : Conn H → ℕ → Bytes}
  {hunverified : ∀ c n, (unverified c n).length = 16}

omit [Fintype H] in
/-- **Nobody changes `original_ciphertext`.** With the servers of the counter service a host has the
constant of its enclave in every state that is reached, also in the middle of an answer, and a
server is never sent anything else. -/
theorem message_eq_originalCiphertext (h : (sslDecrypt G originalCiphertext).isSome = true)
    {rounds calls : ℕ} {s : NetState H S}
    (hs : NetReaches (counterService G hG hsized quorumSize server unverified hunverified) rounds
      calls s) (k : H) :
    (s.host k).message = originalCiphertext ∧
      ∀ i < quorumSize k, ∀ message ∈ s.requests (k, i), message = originalCiphertext := by
  have hconsistent := consistent_of_netReaches hs
  constructor
  · by_cases hrecv : ∃ i lenTmp, (s.host k).phase = .recvMsg i lenTmp
    · -- the constant is being written over itself
      obtain ⟨i, lenTmp, hphase⟩ := hrecv
      obtain ⟨-, -, hmessage⟩ := (hconsistent.host k).receiving i lenTmp hphase
      have hbefore : (counterService G hG hsized quorumSize server unverified hunverified).before k
          (s.host k).rounds i = originalCiphertext := by
        cases i with
        | zero => exact message_counterService h k _
        | succ i => exact answer_counterService h (k, i) _
      rw [hmessage, answer_counterService h, hbefore, List.take_append_drop]
    · rw [(hconsistent.host k).message fun i lenTmp hphase ↦ hrecv ⟨i, lenTmp, hphase⟩,
        message_counterService h]
  · intro i hi message hmem
    rw [(hconsistent.conn (k, i) hi).requests] at hmem
    obtain ⟨n, -, rfl⟩ := List.mem_map.1 hmem
    exact message_counterService h k n

/-- A cipher that has the constant of the enclave, and exchanges its two plaintexts. -/
def swapGcm : AesGcm where
  encrypt _ _ plaintext :=
    (Equiv.swap originalPlaintext (originalCiphertext.drop 32) plaintext,
      (originalCiphertext.drop 16).take 16)
  decrypt _ _ tag ciphertext :=
    if tag = (originalCiphertext.drop 16).take 16 then
      some (Equiv.swap originalPlaintext (originalCiphertext.drop 32) ciphertext)
    else none

theorem authentic_swapGcm : swapGcm.Authentic := by
  intro key iv tag ciphertext plaintext
  simp only [swapGcm, Prod.mk.injEq, Option.ite_none_right_eq_some, Option.some.injEq]
  constructor
  · rintro ⟨rfl, rfl⟩
    exact ⟨Equiv.swap_apply_self _ _ _, rfl⟩
  · rintro ⟨rfl, rfl⟩
    exact ⟨rfl, Equiv.swap_apply_self _ _ _⟩

theorem sized_swapGcm : swapGcm.Sized := by
  intro key iv plaintext
  refine ⟨?_, rfl⟩
  simp only [swapGcm, Equiv.swap_apply_def]
  split_ifs with h₁ h₂
  · rw [h₁]
    decide
  · rw [h₂]
    decide
  · rfl

/-- A host with one server of the counter service. -/
def oneCounterServer : Network Unit Unit :=
  counterService swapGcm authentic_swapGcm sized_swapGcm (fun _ ↦ 1) (fun _ ↦ ())
    (fun _ _ ↦ List.replicate 16 0) fun _ _ ↦ List.length_replicate

theorem isSome_sslDecrypt_swapGcm : (sslDecrypt swapGcm originalCiphertext).isSome = true := by
  decide

/-- The constant is still there behind a round with the server. -/
theorem message_eq_originalCiphertext_oneServer : ∃ s, NetReaches oneCounterServer 1 5 s ∧
    (s.host ()).rounds = 1 ∧ (s.host ()).message = originalCiphertext := by
  have begun := NetReaches.init.begin (N := oneCounterServer) (.mk () rfl Nat.one_pos)
  have sent := begun.call (.hostSend () 0 0 48 rfl (by decide) (by decide))
  have selected := sent.call (.select () ((), 0) rfl rfl Nat.one_pos (by decide))
  have received := selected.call
    (.serverRecv () ((), 0) [] 48 rfl (by decide) (by decide) (by decide))
  have answered := received.call (.serverSend () ((), 0) _ 0 48 rfl (by decide) (by decide))
  have received := answered.call (.hostRecv () 0 0 48 rfl (by decide) (by decide) (by decide))
  exact ⟨_, received, rfl,
    (message_eq_originalCiphertext isSome_sslDecrypt_swapGcm received ()).1⟩

end LibSeal
