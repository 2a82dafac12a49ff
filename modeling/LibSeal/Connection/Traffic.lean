import LibSeal.Connection.Exchange

/-!
# Traffic

The exchanges of an application as they travel. Clients and servers exchange messages on any number
of connections, some of them persistent, in pieces of any size, and the callbacks of all connections
come in any order. What the log hands on (`exists_run_of_traffic`) are the exchanges, each of them
once and whole, and those of one connection in the order in which they were sent.

This is the build for the enclave. Outside it the second exchange waits for ever.
-/

namespace LibSeal

open Bytes KeyedMachine

/-- How the exchanges of an application are written, and those that can be audited. The lengths of
their messages are counted with an `int`. -/
structure WireFormat (X : Type) where
  request : X → Bytes
  reply : X → Bytes
  Readable : X → Prop
  request_lt {x : X} (h : Readable x) : (request x).length < 2147483648
  reply_lt {x : X} (h : Readable x) : (reply x).length < 2147483648

variable {X : Type} {W : WireFormat X}

/-- An exchange in pieces, for each of which there is room in the log. -/
structure CarriedExchange (W : WireFormat X) where
  exchange : X
  pieces : Exchange
  request_eq : pieces.requestBytes = W.request exchange
  reply_eq : pieces.replyBytes = W.reply exchange
  readable : W.Readable exchange
  succeed : ∀ t ∈ pieces.transfers, t.answers.Succeed

namespace CarriedExchange

variable (x : CarriedExchange W)

/-- What the log hands on. -/
def entry : LogEntry := blockEntry x.pieces.transfers

theorem blockFits : BlockFits x.pieces.transfers := by
  have hrequest := W.request_lt x.readable
  have hreply := W.reply_lt x.readable
  rw [x.pieces.blockFits_iff, Exchange.Fits, x.request_eq, x.reply_eq]
  exact ⟨hrequest.trans (by decide), hreply.trans (by decide)⟩

/-- It has the two messages, with their lengths. -/
theorem messages_entry :
    x.entry.req = some (W.request x.exchange) ∧
      x.entry.reqLen = (W.request x.exchange).length ∧
      x.entry.rep.getD [] = W.reply x.exchange ∧
      x.entry.repLen = (W.reply x.exchange).length := by
  refine ⟨?_, ?_, ?_, ?_⟩
  · rw [← x.request_eq, ← x.pieces.sideBytes_request]
    rfl
  · rw [← x.request_eq, ← x.pieces.sideBytes_request]
    rfl
  · rw [← x.reply_eq, ← x.pieces.sideBytes_reply]
    exact getD_rep_blockEntry _
  · rw [← x.reply_eq, ← x.pieces.sideBytes_reply]
    rfl

end CarriedExchange

/-- A connection, from its creation to its end. -/
structure WireConnection (W : WireFormat X) where
  answers : Answers
  exchanges : List (CarriedExchange W)
  succeed : answers.Succeed

/-- Its callbacks. -/
def WireConnection.callbacks (c : WireConnection W) : List Callback :=
  lifetime c.answers (c.exchanges.flatMap fun x ↦ x.pieces.transfers)

/-- Callbacks of some connections, in any order. The same `SSL` object may serve one connection
after the other. -/
structure Traffic (W : WireFormat X) (K : Type) [DecidableEq K] where
  callbacks : List (K × Callback)
  connections : K → List (WireConnection W)
  proj_callbacks : ∀ k, proj k callbacks = (connections k).flatMap WireConnection.callbacks

/-- The exchanges on the connections of an object, as they are sent. -/
def Traffic.exchanges {K : Type} [DecidableEq K] (T : Traffic W K) (k : K) :
    List (CarriedExchange W) :=
  (T.connections k).flatMap WireConnection.exchanges

/-- A connection by itself. -/
def WireConnection.traffic (c : WireConnection W) : Traffic W Unit where
  callbacks := c.callbacks.map fun cb ↦ ((), cb)
  connections _ := [c]
  proj_callbacks _ := by rw [proj_map_self, List.flatMap_singleton]

/-! ### The log -/

/-- What the connections of one object hand on. -/
theorem run_connections (cs : List (WireConnection W)) :
    run (callback true) none (cs.flatMap WireConnection.callbacks) =
      .ok (none, (cs.flatMap WireConnection.exchanges).map CarriedExchange.entry) := by
  induction cs with
  | nil => rfl
  | cons c cs ih =>
    have hblocks : blocks (c.exchanges.flatMap fun x ↦ x.pieces.transfers) =
        c.exchanges.map fun x ↦ x.pieces.transfers := by
      have h := blocks_exchanges (c.exchanges.map CarriedExchange.pieces)
      rw [List.flatMap_map, List.map_map] at h
      exact h
    have halloc : ∀ t ∈ c.exchanges.flatMap fun x ↦ x.pieces.transfers, t.answers.Succeed := by
      intro t ht
      obtain ⟨x, -, ht⟩ := List.mem_flatMap.1 ht
      exact x.succeed t ht
    have hfits : ∀ b ∈ blocks (c.exchanges.flatMap fun x ↦ x.pieces.transfers), BlockFits b := by
      rw [hblocks]
      exact List.forall_mem_map.2 fun x _ ↦ x.blockFits
    have hlife : run (callback true) none c.callbacks =
        .ok (none, c.exchanges.map CarriedExchange.entry) := by
      rw [WireConnection.callbacks, run_lifetime true none c.succeed _ halloc, if_pos hfits,
        hblocks, show ignoreSlots true = 0 from rfl, List.drop_zero, List.map_map]
      rfl
    rw [List.flatMap_cons, run_append hlife, ih, List.flatMap_cons, List.map_append]
    rfl

/-- **What the log hands on** are the exchanges of all connections, those of each in their order. -/
theorem exists_run_of_traffic {K : Type} [DecidableEq K] (T : Traffic W K) :
    ∃ (log : ConnectionLog K) (ys : List (K × CarriedExchange W)),
      ConnectionLog.init.run true T.callbacks =
        .ok (log, ys.map fun y ↦ (y.1, y.2.entry, y.2.entry)) ∧
      ∀ k, proj k ys = T.exchanges k := by
  have hconn : ∀ k, run (callback true) none (proj k T.callbacks) =
      .ok (none, (T.exchanges k).map CarriedExchange.entry) := by
    intro k
    rw [T.proj_callbacks]
    exact run_connections (T.connections k)
  obtain ⟨⟨conns, os⟩, hkeyed⟩ := exists_runKeyed (s := fun _ ↦ none) fun k ↦ ⟨_, hconn k⟩
  have hproj : ∀ k, proj k os = (T.exchanges k).map CarriedExchange.entry := by
    intro k
    have h := (run_of_runKeyed hkeyed k).symm.trans (hconn k)
    exact (Prod.mk.inj (Except.ok.inj h)).2
  obtain ⟨ys, rfl, hys⟩ := exists_of_proj_eq_map hproj
  refine ⟨⟨conns, 0⟩, ys, run_iff_runKeyed.2 ⟨_, _, hkeyed, addEntries_sgx _ _, ?_⟩, hys⟩
  simp only [List.map_map, List.zip_map', Function.comp_def]

/-! ### Exchanges in pieces -/

theorem WireFormat.pieces_lt {x : X} (h : W.Readable x) (n : ℕ) :
    ((W.request x).take n).length < uintSize ∧ ((W.request x).drop n).length < uintSize ∧
      (W.reply x).length < uintSize := by
  have hrequest : (W.request x).length < uintSize := (W.request_lt h).trans (by decide)
  refine ⟨?_, ?_, (W.reply_lt h).trans (by decide)⟩
  · exact (List.length_take_le' n _).trans_lt hrequest
  · rw [List.length_drop]
    exact (Nat.sub_le _ _).trans_lt hrequest

theorem roomy_succeed : roomy.Succeed :=
  ⟨rfl, rfl⟩

/-- An exchange whose request comes in two pieces. -/
def CarriedExchange.inPieces (W : WireFormat X) {x : X} (h : W.Readable x) (n : ℕ) :
    CarriedExchange W where
  exchange := x
  pieces :=
    { requests := [⟨.request, ⟨(W.request x).take n, (W.pieces_lt h n).1⟩, roomy⟩,
        ⟨.request, ⟨(W.request x).drop n, (W.pieces_lt h n).2.1⟩, roomy⟩]
      replies := [⟨.reply, ⟨W.reply x, (W.pieces_lt h n).2.2⟩, roomy⟩]
      requests_ne_nil := List.cons_ne_nil _ _
      replies_ne_nil := List.cons_ne_nil _ _
      side_of_mem_requests := by simp
      side_of_mem_replies := by simp }
  request_eq := by simp [Exchange.requestBytes]
  reply_eq := by simp [Exchange.replyBytes]
  readable := h
  succeed := by simp [Exchange.transfers, Answers.Succeed, roomy]

/-! ### How many exchanges there are -/

theorem length_handOver_le (c : LogConnection) : (handOver c).2.length ≤ 1 := by
  rw [handOver]
  rcases c.slot with - | e
  · exact Nat.zero_le 1
  · dsimp only
    split_ifs
    · exact Nat.zero_le 1
    · exact le_rfl

/-- A callback hands on one entry at most. -/
theorem length_passed_le {c c' : Option LogConnection} {cb : Callback} {passed : List LogEntry}
    (h : callback true c cb = .ok (c', passed)) : passed.length ≤ 1 := by
  cases cb with
  | newConnection answers =>
    obtain ⟨-, rfl⟩ := Prod.mk.inj (Except.ok.inj h)
    exact Nat.zero_le 1
  | request req answers =>
    rcases c with - | c
    · obtain ⟨-, rfl⟩ := Prod.mk.inj (Except.ok.inj h)
      exact Nat.zero_le 1
    · have hpassed : passed.length ≤ (handOver c).2.length := by
        simp only [callback, logHttpsRequest] at h
        split_ifs at h
        · split at h
          · cases h
          · obtain ⟨block, -, h⟩ := CFault.bind_eq_ok.1 h
            cases block <;> cases h <;> exact le_rfl
        · split at h
          · cases h
          · obtain ⟨block, -, h⟩ := CFault.bind_eq_ok.1 h
            cases block <;> cases h <;> exact Nat.zero_le _
      exact hpassed.trans (length_handOver_le c)
  | reply rep answers =>
    simp only [callback, logHttpsReply] at h
    split at h
    · cases h
      exact Nat.zero_le 1
    · split at h
      · cases h
        exact Nat.zero_le 1
      · obtain ⟨block, -, h⟩ := CFault.bind_eq_ok.1 h
        cases block <;> cases h <;> exact Nat.zero_le 1
  | freeConnection =>
    rcases c with - | c
    · obtain ⟨-, rfl⟩ := Prod.mk.inj (Except.ok.inj h)
      exact Nat.zero_le 1
    · obtain ⟨-, rfl⟩ := Prod.mk.inj (Except.ok.inj h)
      exact length_handOver_le c

theorem length_out_le {K : Type} [DecidableEq K] {cbs : List (K × Callback)}
    {log log' : ConnectionLog K} {out : List (K × LogEntry × LogEntry)}
    (h : log.run true cbs = .ok (log', out)) : out.length ≤ cbs.length := by
  induction cbs generalizing log out with
  | nil =>
    obtain ⟨-, rfl⟩ := Prod.mk.inj (Except.ok.inj h)
    exact le_rfl
  | cons cb cbs ih =>
    obtain ⟨⟨log₁, out₁⟩, hstep, h⟩ := CFault.bind_eq_ok.1 h
    obtain ⟨⟨log₂, out₂⟩, hrest, h⟩ := CFault.bind_eq_ok.1 h
    obtain ⟨⟨c, passed⟩, hcallback, hstep⟩ := CFault.bind_eq_ok.1 hstep
    obtain ⟨⟨initialized, logged⟩, -, hstep⟩ := CFault.bind_eq_ok.1 hstep
    obtain ⟨-, rfl⟩ := Prod.mk.inj (Except.ok.inj hstep)
    obtain ⟨rfl, rfl⟩ := Prod.mk.inj (Except.ok.inj h)
    have hone := length_passed_le hcallback
    have hrest' := ih hrest
    rw [List.length_append, List.length_map, List.length_zip, List.length_cons]
    omega

end LibSeal
