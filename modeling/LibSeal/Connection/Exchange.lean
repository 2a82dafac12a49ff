import LibSeal.Connection.Faithful

/-!
# Exchanges on a persistent connection

What reaches the auditor of the requests and replies on one connection. The log cannot see where a
message ends; it only sees the direction change. So an exchange is audited on its own exactly when
its bytes are a block, which they are when the connection is used in strict alternation: a request
is over before the reply begins, and the reply is over before the next request begins
(`run_exchanges`).

HTTP/1.1 permits more. Pipelined requests run into one block (`pipelined`), and an interim reply
that the server sends between the head and the body of a request cuts the request in two
(`interimReply`). Outside the enclave the first two slots are dropped by design (`singleExchange`).
-/

namespace LibSeal

open Bytes KeyedMachine

/-- The request that `logpoint_log` is called with. -/
def LogEntry.request (e : LogEntry) : Bytes := (e.req.getD []).take e.reqLen

/-- The reply that `logpoint_log` is called with. -/
def LogEntry.reply (e : LogEntry) : Bytes := (e.rep.getD []).take e.repLen

/-- The calls of `logpoint_log` in a run of the callbacks of one connection. -/
def auditorCalls (sgx : Bool) (cbs : List Callback) : Except CFault (List (Bytes × Bytes)) :=
  (ConnectionLog.init.run sgx (cbs.map fun cb ↦ ((), cb))).map fun r ↦
    r.2.map fun o ↦ (o.2.2.request, o.2.2.reply)

/-- An exchange in strict alternation: the pieces of a request, then the pieces of its reply, with
any interim replies in front of it. -/
structure Exchange where
  requests : List Transfer
  replies : List Transfer
  requests_ne_nil : requests ≠ []
  replies_ne_nil : replies ≠ []
  side_of_mem_requests : ∀ t ∈ requests, t.side = .request
  side_of_mem_replies : ∀ t ∈ replies, t.side = .reply

namespace Exchange

/-- The transfers of an exchange. -/
def transfers (x : Exchange) : List Transfer := x.requests ++ x.replies

/-- The bytes of the request. -/
def requestBytes (x : Exchange) : Bytes := x.requests.flatMap fun t ↦ t.chunk.bytes

/-- The bytes of the replies. -/
def replyBytes (x : Exchange) : Bytes := x.replies.flatMap fun t ↦ t.chunk.bytes

/-- What an `unsigned int` can count. -/
def Fits (x : Exchange) : Prop :=
  x.requestBytes.length < uintSize ∧ x.replyBytes.length < uintSize

variable (x : Exchange)

theorem sideBytes_request : sideBytes .request x.transfers = x.requestBytes := by
  have hreq : (x.requests.filter fun t ↦ t.side = .request) = x.requests :=
    List.filter_eq_self.2 fun t ht ↦ by simp [x.side_of_mem_requests t ht]
  have hrep : (x.replies.filter fun t ↦ t.side = .request) = [] :=
    List.filter_eq_nil_iff.2 fun t ht ↦ by simp [x.side_of_mem_replies t ht]
  rw [sideBytes, transfers, List.filter_append, hreq, hrep, List.append_nil, requestBytes]

theorem sideBytes_reply : sideBytes .reply x.transfers = x.replyBytes := by
  have hreq : (x.requests.filter fun t ↦ t.side = .reply) = [] :=
    List.filter_eq_nil_iff.2 fun t ht ↦ by simp [x.side_of_mem_requests t ht]
  have hrep : (x.replies.filter fun t ↦ t.side = .reply) = x.replies :=
    List.filter_eq_self.2 fun t ht ↦ by simp [x.side_of_mem_replies t ht]
  rw [sideBytes, transfers, List.filter_append, hreq, hrep, List.nil_append, replyBytes]

theorem blockFits_iff : BlockFits x.transfers ↔ x.Fits := by
  rw [BlockFits, sideBytes_request, sideBytes_reply, Fits]

/-- The auditor is called with the two sides of an exchange. -/
theorem request_blockEntry : (blockEntry x.transfers).request = x.requestBytes := by
  rw [LogEntry.request, ← x.sideBytes_request]
  exact List.take_length

theorem reply_blockEntry : (blockEntry x.transfers).reply = x.replyBytes := by
  rw [LogEntry.reply, getD_rep_blockEntry, ← x.sideBytes_reply]
  exact List.take_length

/-! ### Exchanges are blocks -/

theorem transfers_ne_nil : x.transfers ≠ [] :=
  List.append_ne_nil_of_left_ne_nil x.requests_ne_nil _

/-- No request follows a reply inside an exchange. -/
theorem isChain_transfers : x.transfers.IsChain fun t u ↦ sameBlock t u := by
  have hrequest : ∀ {t u : Transfer}, t.side = .request → sameBlock t u = true := by
    intro t u ht
    simp [sameBlock, ht]
  have hreply : ∀ {t u : Transfer}, u.side = .reply → sameBlock t u = true := by
    intro t u hu
    simp [sameBlock, hu]
  refine List.isChain_append.2 ⟨?_, ?_, ?_⟩
  · exact List.Pairwise.isChain (List.pairwise_of_forall_mem_list fun t ht u _ ↦
      hrequest (x.side_of_mem_requests t ht))
  · exact List.Pairwise.isChain (List.pairwise_of_forall_mem_list fun t _ u hu ↦
      hreply (x.side_of_mem_replies u hu))
  · exact fun t ht u _ ↦ hrequest (x.side_of_mem_requests t (List.mem_of_getLast? ht))

/-- A request follows a reply between two exchanges. -/
theorem not_sameBlock (y : Exchange) :
    ∃ hx hy, sameBlock (x.transfers.getLast hx) (y.transfers.head hy) = false := by
  refine ⟨x.transfers_ne_nil, y.transfers_ne_nil, ?_⟩
  have hlast : x.transfers.getLast x.transfers_ne_nil = x.replies.getLast x.replies_ne_nil :=
    List.getLast_append_of_right_ne_nil _ _ _
  have hhead : y.transfers.head y.transfers_ne_nil = y.requests.head y.requests_ne_nil :=
    List.head_append_of_ne_nil _
  rw [hlast, hhead, sameBlock, x.side_of_mem_replies _ (List.getLast_mem _),
    y.side_of_mem_requests _ (List.head_mem _)]
  rfl

end Exchange

/-- **Exchanges in strict alternation are the blocks of the connection.** -/
theorem blocks_exchanges (xs : List Exchange) :
    blocks (xs.flatMap Exchange.transfers) = xs.map Exchange.transfers := by
  have hfirst : ((xs.flatMap Exchange.transfers).dropWhile fun t ↦ t.side = .reply) =
      (xs.map Exchange.transfers).flatten := by
    rcases xs with - | ⟨x, xs⟩
    · rfl
    · obtain ⟨t, ts, ht⟩ := List.exists_cons_of_ne_nil x.requests_ne_nil
      have hside := x.side_of_mem_requests t (by rw [ht]; exact List.mem_cons_self)
      rw [List.flatMap_cons, Exchange.transfers, ht, List.cons_append, List.cons_append,
        List.dropWhile_cons_of_neg (by simp [hside]), List.map_cons, List.flatten_cons,
        Exchange.transfers, ht]
      rfl
  rw [blocks, hfirst]
  refine List.splitBy_flatten ?_ ?_ ?_
  · intro hnil
    obtain ⟨x, -, hx⟩ := List.mem_map.1 hnil
    exact x.transfers_ne_nil hx
  · intro b hb
    obtain ⟨x, -, rfl⟩ := List.mem_map.1 hb
    exact x.isChain_transfers
  · rw [List.isChain_map]
    exact List.Pairwise.isChain (List.pairwise_of_forall fun x y ↦ x.not_sameBlock y)

/-! ### What the auditor is called with -/

/-- The calls of `logpoint_log` in the life of one connection are the entries of its blocks. -/
theorem auditorCalls_lifetime {answers : Answers} (hanswers : answers.Succeed) (ts : List Transfer)
    (halloc : ∀ t ∈ ts, t.answers.Succeed) (hfits : ∀ b ∈ blocks ts, BlockFits b) :
    auditorCalls true (lifetime answers ts) =
      .ok ((blocks ts).map fun b ↦ ((blockEntry b).request, (blockEntry b).reply)) := by
  have hlife : run (callback true) none (lifetime answers ts) =
      .ok (none, (blocks ts).map blockEntry) := by
    rw [run_lifetime true none hanswers ts halloc, if_pos hfits]
    rfl
  have hkeyed := runKeyed_map_tag (k := ()) (s := fun _ ↦ none) hlife
  -- in the enclave an entry reaches the auditor as it was passed on
  have hadd := addEntries_sgx 0 (((blocks ts).map blockEntry).map fun e ↦ ((), e)).unzip.2
  rw [List.unzip_snd] at hadd
  have hrun : ConnectionLog.init.run true ((lifetime answers ts).map fun cb ↦ ((), cb)) =
      .ok (⟨_, 0⟩, _) := run_iff_runKeyed.2 ⟨_, _, hkeyed, hadd, rfl⟩
  rw [auditorCalls, hrun]
  refine congrArg Except.ok ?_
  dsimp only
  rw [List.map_map, List.map_map, List.map_map, List.zip_map', List.map_map]
  rfl

/-- **Strict alternation is audited exchange by exchange.** For every list of exchanges and every
way of cutting them into pieces, the auditor is called once for each exchange, in order, with the
whole of its request and its reply. -/
theorem run_exchanges {answers : Answers} (hanswers : answers.Succeed) (xs : List Exchange)
    (halloc : ∀ x ∈ xs, ∀ t ∈ x.transfers, t.answers.Succeed) (hfits : ∀ x ∈ xs, x.Fits) :
    auditorCalls true (lifetime answers (xs.flatMap Exchange.transfers)) =
      .ok (xs.map fun x ↦ (x.requestBytes, x.replyBytes)) := by
  have halloc' : ∀ t ∈ xs.flatMap Exchange.transfers, t.answers.Succeed := by
    intro t ht
    obtain ⟨x, hx, ht⟩ := List.mem_flatMap.1 ht
    exact halloc x hx t ht
  have hfits' : ∀ b ∈ blocks (xs.flatMap Exchange.transfers), BlockFits b := by
    rw [blocks_exchanges]
    exact List.forall_mem_map.2 fun x hx ↦ x.blockFits_iff.2 (hfits x hx)
  rw [auditorCalls_lifetime hanswers _ halloc' hfits', blocks_exchanges, List.map_map]
  refine congrArg Except.ok (List.map_congr_left fun x _ ↦ ?_)
  show ((blockEntry x.transfers).request, (blockEntry x.transfers).reply) = _
  rw [x.request_blockEntry, x.reply_blockEntry]

/-! ### Orders that HTTP permits -/

/-- A piece of data, with room to log it. -/
def piece (side : Side) (s : String) (h : (ascii s).length < uintSize) : Transfer :=
  ⟨side, ⟨ascii s, h⟩, roomy⟩

/-- Two requests, the second in two pieces, and a reply to each. -/
def getA : String := "GET /a HTTP/1.1\r\n\r\n"
def putHead : String := "PUT /b HTTP/1.1\r\nContent-Length: 1\r\nExpect: 100-continue\r\n\r\n"
def putBody : String := "b"
def replyA : String := "HTTP/1.1 200 OK\r\nContent-Length: 1\r\n\r\na"
def replyB : String := "HTTP/1.1 204 No Content\r\n\r\n"

/-- The interim reply to the head of a request. -/
def goOn : String := "HTTP/1.1 100 Continue\r\n\r\n"

/-- The two exchanges in strict alternation. -/
def alternating : List Exchange :=
  [{ requests := [piece .request getA (by decide)]
     replies := [piece .reply replyA (by decide)]
     requests_ne_nil := by decide
     replies_ne_nil := by decide
     side_of_mem_requests := fun _ ht ↦ List.mem_singleton.1 ht ▸ rfl
     side_of_mem_replies := fun _ ht ↦ List.mem_singleton.1 ht ▸ rfl },
    { requests := [piece .request putHead (by decide), piece .request putBody (by decide)]
      replies := [piece .reply replyB (by decide)]
      requests_ne_nil := by decide
      replies_ne_nil := by decide
      side_of_mem_requests := by simp [piece]
      side_of_mem_replies := fun _ ht ↦ List.mem_singleton.1 ht ▸ rfl }]

/-- Both are audited on their own. -/
theorem run_alternating :
    auditorCalls true (lifetime roomy (alternating.flatMap Exchange.transfers)) =
      .ok (alternating.map fun x ↦ (x.requestBytes, x.replyBytes)) := by
  have hroomy : roomy.Succeed := ⟨rfl, rfl⟩
  refine run_exchanges hroomy alternating ?_ ?_
  · intro x hx t ht
    have hanswers : ∀ x ∈ alternating, ∀ t ∈ x.transfers, t.answers = roomy := by
      simp +contextual [alternating, Exchange.transfers, piece, or_imp]
    exact hanswers x hx t ht ▸ hroomy
  · unfold Exchange.Fits
    decide

/-- The request is handed to the auditor in one call, whole and with its reply. -/
def HandedOn (calls : List (Bytes × Bytes)) (request reply : Bytes) : Prop :=
  ∃ c, calls.filter (fun c ↦ request.isPrefixOf c.1) = [c] ∧ c.1 = request ∧ reply <:+: c.2

theorem HandedOn.mem {calls : List (Bytes × Bytes)} {request reply : Bytes}
    (h : HandedOn calls request reply) : request ∈ calls.map Prod.fst := by
  obtain ⟨c, hc, rfl, -⟩ := h
  have hmem : c ∈ calls.filter fun c' ↦ c.1.isPrefixOf c'.1 := hc ▸ List.mem_singleton_self c
  exact List.mem_map_of_mem (List.mem_filter.1 hmem).1

/-- The second request is sent before the first reply. -/
def pipelined : List Transfer :=
  [piece .request getA (by decide), piece .request (putHead ++ putBody) (by decide),
    piece .reply replyA (by decide), piece .reply replyB (by decide)]

/-- The server asks for the body of the request. -/
def interimReply : List Transfer :=
  [piece .request putHead (by decide), piece .reply goOn (by decide),
    piece .request putBody (by decide), piece .reply replyB (by decide)]

/-- One request and its reply. -/
def singleExchange : List Transfer :=
  [piece .request getA (by decide), piece .reply replyA (by decide)]

/-- Pipelined requests are not told apart, a request with an interim reply inside it is handed on in
two halves, and outside the enclave the first exchange is not handed on at all. -/
theorem not_handedOn :
    (∃ calls, auditorCalls true (lifetime roomy pipelined) = .ok calls ∧
      ¬ HandedOn calls (ascii getA) (ascii replyA)) ∧
    (∃ calls, auditorCalls true (lifetime roomy interimReply) = .ok calls ∧
      ¬ HandedOn calls (ascii (putHead ++ putBody)) (ascii replyB)) ∧
    ∃ calls, auditorCalls false (lifetime roomy singleExchange) = .ok calls ∧
      ¬ HandedOn calls (ascii getA) (ascii replyA) := by
  refine ⟨⟨_, rfl, fun h ↦ ?_⟩, ⟨_, rfl, fun h ↦ ?_⟩, _, rfl, fun h ↦ ?_⟩
  · exact absurd h.mem (by decide +kernel)
  · exact absurd h.mem (by decide +kernel)
  · exact absurd h.mem (by decide +kernel)

end LibSeal
