import LibSeal.Data.Bytes
import Mathlib.Logic.Function.Basic

/-!
# The network of the monotonic counter service

The hosts of some enclaves talk to the servers of the counter service over TCP. A host runs
`mcservice_network_round`: it sends its message to the servers of its list, one after the other, and
then receives the answers in the same order, each over the message it has just sent. A server waits
in `select`, takes one message off a connection that is readable (`recvMsg`), and answers it there
(`sendMsg`), before it looks at any other connection.

Each `send` and each `recv` is a step, and moves as many bytes as it likes, but at least one. What
is in flight on a connection is a queue of bytes in each direction. The steps of all hosts and
servers come in any order (`NetCall`); what a server makes of a message is whatever `reply` says.

A connection is an entry of a list of servers: two entries may name the same server, and several
hosts may have it in their lists. All of them have been accepted. A host is in one round at a time:
its `original_ciphertext` and its connections are those of all its threads, and a round that another
thread began meanwhile would take its bytes off them.
-/

namespace LibSeal

open Bytes

/-- `ENC_MSG_SIZE` -/
def encMsgSize : ℕ := 48

/-- The connection of a host to the server at a place in its list. -/
abbrev Conn (H : Type) : Type := H × ℕ

/-- The hosts, the servers, and what the servers answer. -/
structure Network (H S : Type) where
  /-- `quorum_size` -/
  quorumSize : H → ℕ
  /-- The server at the other end of a connection. -/
  server : Conn H → S
  /-- `original_ciphertext` at the start. -/
  original : H → Bytes
  /-- What the server makes of a message, the `n`-th on its connection. -/
  reply : Conn H → ℕ → Bytes → Bytes
  length_original : ∀ h, (original h).length = encMsgSize
  length_reply : ∀ c n message, message.length = encMsgSize →
    (reply c n message).length = encMsgSize

/-- Where a host is in `mcservice_network_round`. -/
inductive HostPhase where
  /-- Outside. -/
  | returned
  /-- In the loop of `sendMsg`, with `servers[i]`. -/
  | sendMsg (i total : ℕ)
  /-- In the loop of `recvMsg`, with `servers[i]`. -/
  | recvMsg (i lenTmp : ℕ)
  deriving DecidableEq

/-- `send` has taken `n` bytes. -/
def HostPhase.sent (quorumSize i total n : ℕ) : HostPhase :=
  if total + n < encMsgSize then .sendMsg i (total + n)
  else if i + 1 < quorumSize then .sendMsg (i + 1) 0
  else .recvMsg 0 0

/-- `recv` has given `n` bytes. -/
def HostPhase.received (quorumSize i lenTmp n : ℕ) : HostPhase :=
  if lenTmp + n < encMsgSize then .recvMsg i (lenTmp + n)
  else if i + 1 < quorumSize then .recvMsg (i + 1) 0
  else .returned

/-- A host, with the number of rounds it has completed. -/
structure Host where
  /-- `original_ciphertext` -/
  message : Bytes
  phase : HostPhase
  rounds : ℕ

/-- The host after a `send` of `n` bytes. -/
def Host.send (host : Host) (quorumSize i total n : ℕ) : Host :=
  { host with phase := .sent quorumSize i total n }

/-- The host after a `recv` that has written some bytes over its message. -/
def Host.recv (host : Host) (quorumSize i lenTmp : ℕ) (bytes : Bytes) : Host :=
  let phase := HostPhase.received quorumSize i lenTmp bytes.length
  { message := host.message.take lenTmp ++ bytes ++ host.message.drop (lenTmp + bytes.length)
    phase
    rounds := if phase = .returned then host.rounds + 1 else host.rounds }

/-- Where a server is: in `select`, or in one of the loops of `read_process_message`. -/
inductive ServerPhase (H : Type) where
  | select
  /-- The bytes of the message that have been received. -/
  | recvMsg (c : Conn H) (cipher : Bytes)
  /-- The answer, and how much of it has been sent. -/
  | sendMsg (c : Conn H) (cipher : Bytes) (total : ℕ)

variable {H S : Type}

/-- The server when the loop of `recvMsg` has some bytes. The message has come when they are all
there, and `read_process_message` goes on with its answer. -/
def ServerPhase.received (N : Network H S) (served : ℕ) (c : Conn H) (cipher : Bytes) :
    ServerPhase H :=
  if cipher.length < encMsgSize then .recvMsg c cipher
  else .sendMsg c (N.reply c served cipher) 0

/-- The server when it has sent some of its answer. -/
def ServerPhase.sent (c : Conn H) (cipher : Bytes) (total : ℕ) : ServerPhase H :=
  if total < encMsgSize then .sendMsg c cipher total else .select

/-- The hosts, the servers and what is in flight, with the messages that have been received on each
connection. -/
structure NetState (H S : Type) where
  host : H → Host
  server : S → ServerPhase H
  /-- The bytes on the way to the server. -/
  up : Conn H → Bytes
  /-- The bytes on the way to the host. -/
  down : Conn H → Bytes
  /-- The messages that the server has taken off whole. -/
  requests : Conn H → List Bytes

/-- The number of messages that a server has taken off a connection. -/
def NetState.served (s : NetState H S) (c : Conn H) : ℕ := (s.requests c).length

/-- Nothing has been sent. -/
def NetState.init (N : Network H S) : NetState H S where
  host h := ⟨N.original h, .returned, 0⟩
  server _ := .select
  up _ := []
  down _ := []
  requests _ := []

variable [DecidableEq H] [DecidableEq S]

/-- The effect of a `send` of a host. -/
def NetState.hostSend (N : Network H S) (s : NetState H S) (h : H) (i total n : ℕ) :
    NetState H S :=
  { s with
    host := Function.update s.host h ((s.host h).send (N.quorumSize h) i total n)
    up := Function.update s.up (h, i) (s.up (h, i) ++ ((s.host h).message.drop total).take n) }

/-- The effect of a `recv` of a host. -/
def NetState.hostRecv (N : Network H S) (s : NetState H S) (h : H) (i lenTmp n : ℕ) :
    NetState H S :=
  { s with
    host := Function.update s.host h
      ((s.host h).recv (N.quorumSize h) i lenTmp ((s.down (h, i)).take n))
    down := Function.update s.down (h, i) ((s.down (h, i)).drop n) }

/-- The effect of a `recv` of a server. -/
def NetState.serverRecv (N : Network H S) (s : NetState H S) (t : S) (c : Conn H) (cipher : Bytes)
    (n : ℕ) : NetState H S :=
  let cipher := cipher ++ (s.up c).take n
  { s with
    server := Function.update s.server t (.received N (s.served c) c cipher)
    up := Function.update s.up c ((s.up c).drop n)
    requests := Function.update s.requests c
      (if cipher.length < encMsgSize then s.requests c else s.requests c ++ [cipher]) }

/-- The effect of a `send` of a server. -/
def NetState.serverSend (s : NetState H S) (t : S) (c : Conn H) (cipher : Bytes) (total n : ℕ) :
    NetState H S :=
  { s with
    server := Function.update s.server t (.sent c cipher (total + n))
    down := Function.update s.down c (s.down c ++ (cipher.drop total).take n) }

/-- A host enters `mcservice_network_round`. With no servers it leaves at once. -/
inductive NetBegin (N : Network H S) (s : NetState H S) : NetState H S → Prop where
  | mk (h : H) (hphase : (s.host h).phase = .returned) (hquorum : 0 < N.quorumSize h) :
    NetBegin N s { s with host := Function.update s.host h { s.host h with phase := .sendMsg 0 0 } }

/-- A system call of a host or of a server returns. -/
inductive NetCall (N : Network H S) (s : NetState H S) : NetState H S → Prop where
  | hostSend (h : H) (i total n : ℕ) (hphase : (s.host h).phase = .sendMsg i total) (hn : 0 < n)
    (hle : total + n ≤ encMsgSize) : NetCall N s (s.hostSend N h i total n)
  | hostRecv (h : H) (i lenTmp n : ℕ) (hphase : (s.host h).phase = .recvMsg i lenTmp) (hn : 0 < n)
    (hle : lenTmp + n ≤ encMsgSize) (hdown : n ≤ (s.down (h, i)).length) :
    NetCall N s (s.hostRecv N h i lenTmp n)
  | select (t : S) (c : Conn H) (hphase : s.server t = .select) (hserver : N.server c = t)
    (hc : c.2 < N.quorumSize c.1) (hup : s.up c ≠ []) :
    NetCall N s { s with server := Function.update s.server t (.recvMsg c []) }
  | serverRecv (t : S) (c : Conn H) (cipher : Bytes) (n : ℕ)
    (hphase : s.server t = .recvMsg c cipher) (hn : 0 < n)
    (hle : cipher.length + n ≤ encMsgSize) (hup : n ≤ (s.up c).length) :
    NetCall N s (s.serverRecv N t c cipher n)
  | serverSend (t : S) (c : Conn H) (cipher : Bytes) (total n : ℕ)
    (hphase : s.server t = .sendMsg c cipher total) (hn : 0 < n)
    (hle : total + n ≤ encMsgSize) : NetCall N s (s.serverSend t c cipher total n)

/-- The states that any interleaving leads to, after some rounds have been begun and some system
calls have returned. -/
inductive NetReaches (N : Network H S) : ℕ → ℕ → NetState H S → Prop where
  | init : NetReaches N 0 0 (.init N)
  | begin {rounds calls : ℕ} {s s' : NetState H S} (h : NetReaches N rounds calls s)
    (hstep : NetBegin N s s') : NetReaches N (rounds + 1) calls s'
  | call {rounds calls : ℕ} {s s' : NetState H S} (h : NetReaches N rounds calls s)
    (hstep : NetCall N s s') : NetReaches N rounds (calls + 1) s'

end LibSeal
