import LibSeal.Connection.Faithful
import LibSeal.Data.Simulation

/-!
# Allocations that fail

What a connection should hold when allocations fail: a piece for which there is no room is dropped,
and what the slot held before stays. This is a machine of its own (`receive`), whose slots are the
pieces that were kept. The log follows it (`Uncorrupted`) exactly if at every step the allocation
does not fail that it relies on (`uncorrupted_iff`): `malloc` where a request needs a new slot,
since the slot is used at once, and `realloc` where the buffer holds something, since the answer
overwrites the only pointer while the length stays. A first piece may fail without harm.
-/

namespace LibSeal

open KeyedMachine Simulation

/-! ### What a connection should hold -/

/-- The pieces that a slot holds. -/
structure KeptPieces where
  requests : List Chunk
  replies : List Chunk

/-- The bytes of pieces, one behind the other. -/
def bytesOf (pieces : List Chunk) : Bytes := pieces.flatMap Chunk.bytes

/-- A connection, with what it holds. While requests are logged there is a slot. -/
structure KeptConnection where
  logRequest : Bool
  ignoreSlots : ℕ
  slot : Option KeptPieces
  isSome_slot : logRequest = true → slot.isSome = true

namespace KeptConnection

/-- The slot is taken away, and a new one made if there is room. -/
def renew (x : KeptConnection) (answers : Answers) : KeptConnection where
  logRequest := false
  ignoreSlots := if x.slot.isSome then x.ignoreSlots - 1 else x.ignoreSlots
  slot := if answers.malloc then some ⟨[], []⟩ else none
  isSome_slot := by simp

theorem slot_renew (x : KeptConnection) (answers : Answers) :
    (x.renew answers).slot = if answers.malloc then some ⟨[], []⟩ else none := rfl

/-- What is passed on of a slot that is taken away. -/
def passed (x : KeptConnection) : List KeptPieces :=
  if 0 < x.ignoreSlots then [] else x.slot.toList

/-- A piece of a request is kept if there is a slot and room for it. -/
def keepRequest (x : KeptConnection) (req : Chunk) (answers : Answers) : KeptConnection :=
  match x.slot, answers.realloc with
  | some k, some _ => ⟨true, x.ignoreSlots, some { k with requests := k.requests ++ [req] },
      fun _ ↦ rfl⟩
  | _, _ => x

/-- A piece of a reply is kept if there is a slot and room for it. -/
def keepReply (x : KeptConnection) (rep : Chunk) (answers : Answers) : KeptConnection :=
  match x.slot, answers.realloc with
  | some k, some _ => ⟨false, x.ignoreSlots, some { k with replies := k.replies ++ [rep] },
      by simp⟩
  | _, _ => x

theorem keepRequest_of_slot {x : KeptConnection} {k : KeptPieces} (h : x.slot = some k)
    (req : Chunk) (answers : Answers) :
    x.keepRequest req answers = if answers.realloc.isSome then
        ⟨true, x.ignoreSlots, some { k with requests := k.requests ++ [req] }, fun _ ↦ rfl⟩
      else x := by
  rw [keepRequest, h]
  cases answers.realloc <;> rfl

theorem keepReply_of_slot {x : KeptConnection} {k : KeptPieces} (h : x.slot = some k)
    (rep : Chunk) (answers : Answers) :
    x.keepReply rep answers = if answers.realloc.isSome then
        ⟨false, x.ignoreSlots, some { k with replies := k.replies ++ [rep] }, by simp⟩
      else x := by
  rw [keepReply, h]
  cases answers.realloc <;> rfl

end KeptConnection

/-- What a callback should do to its connection, and what it should pass on. -/
def receive (sgx : Bool) (x : Option KeptConnection) :
    Callback → Option KeptConnection × List KeptPieces
  | .newConnection answers =>
    (if answers.malloc then some ⟨false, ignoreSlots sgx, none, by simp⟩ else x, [])
  | .request req answers =>
    match x with
    | none => (none, [])
    | some x =>
      if x.logRequest then (some (x.keepRequest req answers), [])
      else (some ((x.renew answers).keepRequest req answers), x.passed)
  | .reply rep answers => (x.map fun x ↦ x.keepReply rep answers, [])
  | .freeConnection => (none, x.elim [] KeptConnection.passed)

/-! ### What the log holds -/

/-- The buffers of an entry hold the bytes of the pieces, as many as the lengths say. A null pointer
holds nothing. -/
structure LogEntry.Holds (e : LogEntry) (k : KeptPieces) : Prop where
  req : e.req.getD [] = bytesOf k.requests
  reqLen : e.reqLen = (bytesOf k.requests).length
  rep : e.rep.getD [] = bytesOf k.replies
  repLen : e.repLen = (bytesOf k.replies).length

/-- A connection of the log is what it should be. -/
structure LogConnection.Represents (c : LogConnection) (x : KeptConnection) : Prop where
  logRequest : c.logRequest = x.logRequest
  ignoreSlots : c.ignoreSlots = x.ignoreSlots
  slot : Option.Rel LogEntry.Holds c.slot x.slot

/-- Either both have a slot, and the one holds what the other has, or neither has. -/
theorem LogConnection.Represents.slot_cases {c : LogConnection} {x : KeptConnection}
    (h : c.Represents x) :
    (c.slot = none ∧ x.slot = none) ∨
      ∃ e k, c.slot = some e ∧ x.slot = some k ∧ LogEntry.Holds e k := by
  have hslot := h.slot
  generalize c.slot = d, x.slot = y at hslot
  cases hslot with
  | some he => exact Or.inr ⟨_, _, rfl, rfl, he⟩
  | none => exact Or.inl ⟨rfl, rfl⟩

/-- What `logpoint_log` is called with for an entry has no null buffer with a positive length. -/
def LogEntry.LoggedWhole (sgx : Bool) (e : LogEntry) : Prop :=
  ∃ e', stripReply sgx e = .ok e' ∧ (e'.req = none → e'.reqLen = 0) ∧
    (e'.rep = none → e'.repLen = 0)

/-- An entry that is passed on is what it should be. -/
def LogEntry.PassedWhole (sgx : Bool) (e : LogEntry) (k : KeptPieces) : Prop :=
  e.Holds k ∧ e.LoggedWhole sgx

/-- Of an entry, `add_entry_to_list` changes the length of the reply, and does not make it
longer. -/
theorem stripReply_cases {sgx : Bool} {e e' : LogEntry} (h : stripReply sgx e = .ok e') :
    e'.req = e.req ∧ e'.reqLen = e.reqLen ∧ e'.rep = e.rep ∧ e'.repLen ≤ e.repLen := by
  rw [stripReply] at h
  split_ifs at h
  · obtain rfl := Except.ok.inj h
    exact ⟨rfl, rfl, rfl, le_rfl⟩
  · split at h
    · cases h
    · split at h
      · split_ifs at h
        · obtain rfl := Except.ok.inj h
          exact ⟨rfl, rfl, rfl, Nat.sub_le _ _⟩
        · obtain rfl := Except.ok.inj h
          exact ⟨rfl, rfl, rfl, le_rfl⟩
      · cases h

theorem LogEntry.Holds.loggedWhole (sgx : Bool) {e : LogEntry} {k : KeptPieces} (h : e.Holds k) :
    e.LoggedWhole sgx := by
  have hwf : e.WellFormed := by rw [LogEntry.WellFormed, h.rep, h.repLen]
  obtain ⟨e', he'⟩ := exists_stripReply sgx hwf
  obtain ⟨hreq, hreqLen, hrep, hrepLen⟩ := stripReply_cases he'
  refine ⟨e', he', fun hnone ↦ ?_, fun hnone ↦ ?_⟩
  · rw [hreqLen, h.reqLen, ← h.req, ← hreq, hnone]
    rfl
  · rw [h.repLen, ← h.rep, ← hrep, hnone] at hrepLen
    exact Nat.le_zero.1 hrepLen

/-! ### When the log follows -/

/-- **There is room for a piece** behind those that are held: the buffer grows, to a length that can
be counted, or it holds nothing that could be lost. -/
def HasRoom (held : List Chunk) (data : Chunk) (answers : Answers) : Prop :=
  if answers.realloc.isSome then (bytesOf held).length + data.bytes.length < uintSize
  else bytesOf held = []

/-- The pieces that the next piece of a request comes behind. -/
def KeptConnection.currentRequests (x : KeptConnection) : List Chunk :=
  if x.logRequest then x.slot.elim [] KeptPieces.requests else []

/-- **The allocations that a callback relies on do not fail.** -/
def AllocationsSuffice (x : Option KeptConnection) : Callback → Prop
  | .newConnection _ => True
  | .request req answers => ∀ c ∈ x, (c.logRequest = false → answers.malloc = true) ∧
      HasRoom c.currentRequests req answers
  | .reply rep answers => ∀ c ∈ x, ∀ k ∈ c.slot, HasRoom k.replies rep answers
  | .freeConnection => True

theorem bytesOf_concat (held : List Chunk) (data : Chunk) :
    bytesOf (held ++ [data]) = bytesOf held ++ data.bytes := by
  rw [bytesOf, List.flatMap_append, List.flatMap_singleton]
  rfl

/-- **What growing a buffer does** to one that holds certain pieces. -/
theorem growBuffer_cases {p : Option Bytes} {len : ℕ} {held : List Chunk}
    (hp : p.getD [] = bytesOf held) (hlen : len = (bytesOf held).length) (data : Chunk)
    (answers : Answers) :
    (answers.realloc = none ∧ growBuffer p len data answers = .ok none) ∨
    (answers.realloc.isSome = true ∧ HasRoom held data answers ∧
      growBuffer p len data answers = .ok (some (bytesOf (held ++ [data]))) ∧
      (len + data.bytes.length) % uintSize = (bytesOf (held ++ [data])).length) ∨
    (answers.realloc.isSome = true ∧ ¬ HasRoom held data answers ∧
      growBuffer p len data answers = .error .outOfBounds) := by
  rcases hanswer : answers.realloc with - | junk
  · refine Or.inl ⟨rfl, ?_⟩
    rw [growBuffer, hanswer]
    rfl
  · have hsome : answers.realloc.isSome = true := by rw [hanswer]; rfl
    have hp' : (p.getD []).length = len := by rw [hp, hlen]
    have hgrow := growBuffer_eq hp' data hsome
    have hroom : HasRoom held data answers ↔ len + data.bytes.length < uintSize := by
      rw [HasRoom, if_pos hsome, hlen]
    by_cases hfit : len + data.bytes.length < uintSize
    · refine Or.inr (Or.inl ⟨rfl, hroom.2 hfit, ?_, ?_⟩)
      · rw [hgrow, if_pos hfit, hp, bytesOf_concat]
      · rw [Nat.mod_eq_of_lt hfit, bytesOf_concat, List.length_append, hlen]
    · exact Or.inr (Or.inr ⟨rfl, fun h ↦ hfit (hroom.1 h), by rw [hgrow, if_neg hfit]⟩)

/-! ### Single callbacks -/

section

variable (sgx : Bool) {c : LogConnection} {x : KeptConnection}

theorem forall₂_passed (h : c.Represents x) :
    List.Forall₂ (LogEntry.PassedWhole sgx) (handOver c).2 x.passed := by
  rw [handOver, KeptConnection.passed, ← h.ignoreSlots]
  obtain ⟨hcs, hxs⟩ | ⟨e, k, hcs, hxs, he⟩ := h.slot_cases
  · rw [hcs, hxs]
    dsimp only
    split_ifs <;> exact .nil
  · rw [hcs, hxs]
    dsimp only
    split_ifs
    · exact .nil
    · exact .cons ⟨he, he.loggedWhole sgx⟩ .nil

theorem logRequest_handOver (c : LogConnection) : (handOver c).1.logRequest = c.logRequest := by
  rw [handOver]
  split
  · rfl
  · split_ifs <;> rfl

theorem ignoreSlots_handOver (c : LogConnection) :
    (handOver c).1.ignoreSlots = if c.slot.isSome then c.ignoreSlots - 1 else c.ignoreSlots := by
  rw [handOver]
  rcases hslot : c.slot with - | e
  · rfl
  · dsimp only
    split_ifs with hpos hsome hsome
    · rfl
    · exact absurd rfl hsome
    · show c.ignoreSlots = c.ignoreSlots - 1
      omega
    · exact absurd rfl hsome

/-- The connection whose slot a request is logged to, where it is a new one. -/
theorem represents_renew (h : c.Represents x) (hlog : c.logRequest = false) (answers : Answers) :
    LogConnection.Represents { (handOver c).1 with slot := newSlot answers } (x.renew answers) where
  logRequest := (logRequest_handOver c).trans hlog
  ignoreSlots := by
    have hsome : c.slot.isSome = x.slot.isSome := by
      obtain ⟨hcs, hxs⟩ | ⟨e, k, hcs, hxs, -⟩ := h.slot_cases
      · rw [hcs, hxs]
        rfl
      · rw [hcs, hxs]
        rfl
    show (handOver c).1.ignoreSlots = if x.slot.isSome then x.ignoreSlots - 1 else x.ignoreSlots
    rw [ignoreSlots_handOver, hsome, h.ignoreSlots]
  slot := by
    rw [newSlot, KeptConnection.slot_renew]
    split_ifs
    · exact .some ⟨rfl, rfl, rfl, rfl⟩
    · exact .none

/-- **What becomes of a grown buffer** is right exactly if there was room. -/
theorem exists_map_growBuffer_iff {p : Option Bytes} {len : ℕ} {held : List Chunk}
    (hp : p.getD [] = bytesOf held) (hlen : len = (bytesOf held).length) (data : Chunk)
    (answers : Answers) {store : Option Bytes → LogConnection} {kept : KeptConnection}
    (hfailed : (store none).Represents x ↔ bytesOf held = [])
    (hstored : (len + data.bytes.length) % uintSize = (bytesOf (held ++ [data])).length →
      (store (some (bytesOf (held ++ [data])))).Represents kept) :
    (∃ d, (growBuffer p len data answers).map store = .ok d ∧
        d.Represents (if answers.realloc.isSome then kept else x)) ↔
      HasRoom held data answers := by
  obtain ⟨hnone, hgrow⟩ | ⟨hsome, hroom, hgrow, hsize⟩ | ⟨hsome, hroom, hgrow⟩ :=
    growBuffer_cases hp hlen data answers
  · -- the pointer is gone, and the length is not
    rw [hgrow, HasRoom, hnone, ← hfailed]
    exact ⟨fun ⟨d, hd, hx⟩ ↦ Except.ok.inj hd ▸ hx, fun hx ↦ ⟨_, rfl, hx⟩⟩
  · refine iff_of_true ⟨_, by rw [hgrow]; rfl, ?_⟩ hroom
    rw [if_pos hsome]
    exact hstored hsize
  · refine iff_of_false ?_ hroom
    rintro ⟨d, hd, -⟩
    rw [hgrow] at hd
    cases hd

/-- The connection behind `realloc` in `log_https_request`, by its answer. -/
def storedRequest (c : LogConnection) (e : LogEntry) (req : Chunk) : Option Bytes → LogConnection
  | none => { c with slot := some { e with req := none } }
  | some block =>
    { c with
      slot := some { e with
        req := some block, reqLen := (e.reqLen + req.bytes.length) % uintSize }
      logRequest := true }

/-- The connection behind `realloc` in `log_https_reply`, by its answer. -/
def storedReply (c : LogConnection) (e : LogEntry) (rep : Chunk) : Option Bytes → LogConnection
  | none => { c with slot := some { e with rep := none } }
  | some block =>
    { c with
      slot := some { e with
        rep := some block, repLen := (e.repLen + rep.bytes.length) % uintSize }
      logRequest := false }

/-- What is left of `log_https_request` once the slot is there. -/
def storeRequest (c : LogConnection) (req : Chunk) (answers : Answers) :
    Except CFault LogConnection :=
  match c.slot with
  | none => .error .nullDereference
  | some e => (growBuffer e.req e.reqLen req answers).map (storedRequest c e req)

theorem logHttpsRequest_eq (c : LogConnection) (req : Chunk) (answers : Answers) :
    logHttpsRequest (some c) req answers =
      if c.logRequest then (storeRequest c req answers).map fun c ↦ (some c, [])
      else (storeRequest { (handOver c).1 with slot := newSlot answers } req answers).map fun d ↦
        (some d, (handOver c).2) := by
  rw [logHttpsRequest]
  rcases hlog : c.logRequest with - | -
  · simp only [Bool.not_false, if_true, storeRequest]
    rcases newSlot answers with - | e
    · rfl
    · dsimp only
      rcases growBuffer e.req e.reqLen req answers with f | (- | block) <;> rfl
  · simp only [Bool.not_true, Bool.false_eq_true, if_false, if_true, storeRequest]
    rcases c.slot with - | e
    · rfl
    · dsimp only
      rcases growBuffer e.req e.reqLen req answers with f | (- | block) <;> rfl

theorem logHttpsReply_eq {c : LogConnection} {e : LogEntry} (hslot : c.slot = some e) (rep : Chunk)
    (answers : Answers) :
    logHttpsReply (some c) rep answers =
      ((growBuffer e.rep e.repLen rep answers).map (storedReply c e rep)).map fun d ↦
        (some d, []) := by
  rw [logHttpsReply]
  simp only [hslot]
  rcases growBuffer e.rep e.repLen rep answers with f | (- | block) <;> rfl

/-- **A piece of a request is kept as it should be exactly if there is a slot and room for it.** -/
theorem storeRequest_follows_iff (h : c.Represents x) (req : Chunk) (answers : Answers) :
    (∃ d, storeRequest c req answers = .ok d ∧ d.Represents (x.keepRequest req answers)) ↔
      x.slot.isSome = true ∧ HasRoom (x.slot.elim [] KeptPieces.requests) req answers := by
  rw [storeRequest]
  obtain ⟨hcs, hxs⟩ | ⟨e, k, hcs, hxs, he⟩ := h.slot_cases
  · simp [hcs, hxs]
  · rw [hcs, hxs, KeptConnection.keepRequest_of_slot hxs]
    simp only [Option.isSome_some, true_and, Option.elim_some]
    refine exists_map_growBuffer_iff he.req he.reqLen req answers ⟨fun hd ↦ ?_, fun hempty ↦ ?_⟩
      fun hsize ↦ ⟨rfl, h.ignoreSlots, .some ⟨rfl, hsize, he.rep, he.repLen⟩⟩
    · have hslot := hd.slot
      rw [hxs] at hslot
      obtain ⟨he'⟩ := hslot
      exact he'.req.symm
    · refine ⟨h.logRequest, h.ignoreSlots, ?_⟩
      rw [hxs]
      exact .some ⟨hempty.symm, he.reqLen, he.rep, he.repLen⟩

/-- A result that comes with what is passed on. -/
theorem exists_map_ok_iff {r : Except CFault LogConnection} {es : List LogEntry}
    {ks : List KeptPieces} (hes : List.Forall₂ (LogEntry.PassedWhole sgx) es ks) :
    (∃ c' es', (r.map fun d ↦ (some d, es)) = .ok (c', es') ∧
        Option.Rel LogConnection.Represents c' (some x) ∧
        List.Forall₂ (LogEntry.PassedWhole sgx) es' ks) ↔
      ∃ d, r = .ok d ∧ d.Represents x := by
  constructor
  · rintro ⟨c', es', hmap, hc', -⟩
    rcases r with f | d
    · cases hmap
    · obtain ⟨rfl, rfl⟩ := Prod.mk.inj (Except.ok.inj hmap)
      obtain ⟨hd⟩ := hc'
      exact ⟨d, rfl, hd⟩
  · rintro ⟨d, rfl, hd⟩
    exact ⟨some d, es, rfl, .some hd, hes⟩

/-- **A request follows exactly if its allocations suffice.** -/
theorem logHttpsRequest_follows_iff (h : c.Represents x) (req : Chunk) (answers : Answers) :
    (∃ c' es, logHttpsRequest (some c) req answers = .ok (c', es) ∧
        Option.Rel LogConnection.Represents c' (receive sgx (some x) (.request req answers)).1 ∧
        List.Forall₂ (LogEntry.PassedWhole sgx) es
          (receive sgx (some x) (.request req answers)).2) ↔
      AllocationsSuffice (some x) (.request req answers) := by
  have hsuffice : AllocationsSuffice (some x) (.request req answers) ↔
      (x.logRequest = false → answers.malloc = true) ∧
        HasRoom x.currentRequests req answers := by
    rw [AllocationsSuffice]
    simp
  rw [hsuffice, logHttpsRequest_eq, receive, KeptConnection.currentRequests, h.logRequest]
  rcases hlog : x.logRequest with - | -
  · have hstore := storeRequest_follows_iff (represents_renew h (h.logRequest.trans hlog) answers)
      req answers
    simp only [Bool.false_eq_true, if_false, true_implies]
    rw [exists_map_ok_iff sgx (forall₂_passed sgx h), hstore, KeptConnection.slot_renew]
    rcases answers.malloc with - | -
    · simp
    · simp
  · have hstore := storeRequest_follows_iff h req answers
    rw [and_iff_right (x.isSome_slot hlog)] at hstore
    simp only [if_true, Bool.true_eq_false, false_implies, true_and]
    rw [exists_map_ok_iff sgx .nil, hstore]

/-- **A reply follows exactly if its allocation suffices.** -/
theorem logHttpsReply_follows_iff (h : c.Represents x) (rep : Chunk) (answers : Answers) :
    (∃ c' es, logHttpsReply (some c) rep answers = .ok (c', es) ∧
        Option.Rel LogConnection.Represents c' (some (x.keepReply rep answers)) ∧
        List.Forall₂ (LogEntry.PassedWhole sgx) es []) ↔
      ∀ k ∈ x.slot, HasRoom k.replies rep answers := by
  obtain ⟨hcs, hxs⟩ | ⟨e, k, hcs, hxs, he⟩ := h.slot_cases
  · have hskip : logHttpsReply (some c) rep answers = .ok (some c, []) := by
      simp only [logHttpsReply, hcs]
    have hkeep : x.keepReply rep answers = x := by rw [KeptConnection.keepReply, hxs]
    rw [hskip, hkeep, hxs]
    exact iff_of_true ⟨some c, [], rfl, .some h, .nil⟩ (by simp)
  · rw [logHttpsReply_eq hcs, exists_map_ok_iff sgx .nil, KeptConnection.keepReply_of_slot hxs, hxs]
    simp only [Option.mem_def, Option.some.injEq, forall_eq']
    refine exists_map_growBuffer_iff he.rep he.repLen rep answers ⟨fun hd ↦ ?_, fun hempty ↦ ?_⟩
      fun hsize ↦ ⟨rfl, h.ignoreSlots, .some ⟨he.req, he.reqLen, rfl, hsize⟩⟩
    · have hslot := hd.slot
      rw [hxs] at hslot
      obtain ⟨he'⟩ := hslot
      exact he'.rep.symm
    · refine ⟨h.logRequest, h.ignoreSlots, ?_⟩
      rw [hxs]
      exact .some ⟨he.req, he.reqLen, hempty.symm, he.repLen⟩

/-- **A callback follows exactly if its allocations suffice.** -/
theorem callback_follows_iff {c : Option LogConnection} {x : Option KeptConnection}
    (h : Option.Rel LogConnection.Represents c x) (cb : Callback) :
    Follows (callback sgx) (receive sgx) (Option.Rel LogConnection.Represents)
        (LogEntry.PassedWhole sgx) c x [cb] ↔
      AllocationsSuffice x cb := by
  rw [follows_singleton]
  cases cb with
  | newConnection answers =>
    refine iff_of_true ⟨_, [], rfl, ?_, .nil⟩ trivial
    rw [logNewConnection, receive]
    split_ifs
    · exact .some ⟨rfl, rfl, .none⟩
    · exact h
  | request req answers =>
    cases h with
    -- a connection without a record loses the piece on both levels
    | none => exact iff_of_true ⟨none, [], rfl, .none, .nil⟩ (by simp [AllocationsSuffice])
    | some hc => exact logHttpsRequest_follows_iff sgx hc req answers
  | reply rep answers =>
    cases h with
    | none => exact iff_of_true ⟨none, [], rfl, .none, .nil⟩ (by simp [AllocationsSuffice])
    | @some c x hc =>
      have hsuffice : AllocationsSuffice (some x) (.reply rep answers) ↔
          ∀ k ∈ x.slot, HasRoom k.replies rep answers := by
        simp [AllocationsSuffice]
      rw [hsuffice]
      exact logHttpsReply_follows_iff sgx hc rep answers
  | freeConnection =>
    cases h with
    | none => exact iff_of_true ⟨none, [], rfl, .none, .nil⟩ trivial
    | some hc => exact iff_of_true ⟨none, _, rfl, .none, forall₂_passed sgx hc⟩ trivial

end

/-! ### Where the pieces come from -/

/-- The pieces of requests that a run receives. -/
def requestPieces (cbs : List Callback) : List Chunk :=
  cbs.filterMap fun
    | .request req _ => some req
    | _ => none

/-- The pieces of replies that a run receives. -/
def replyPieces (cbs : List Callback) : List Chunk :=
  cbs.filterMap fun
    | .reply rep _ => some rep
    | _ => none

/-- What is held was received, in this order. -/
def KeptPieces.From (requests replies : List Chunk) (k : KeptPieces) : Prop :=
  k.requests.Sublist requests ∧ k.replies.Sublist replies

/-- What a connection holds was received. -/
def SlotFrom (requests replies : List Chunk) (x : Option KeptConnection) : Prop :=
  ∀ c ∈ x, ∀ k ∈ c.slot, k.From requests replies

theorem KeptPieces.From.mono {requests replies : List Chunk} {k : KeptPieces}
    (h : k.From requests replies) (requests' replies' : List Chunk) :
    k.From (requests ++ requests') (replies ++ replies') :=
  ⟨h.1.trans (List.sublist_append_left _ _), h.2.trans (List.sublist_append_left _ _)⟩

section

variable {x : KeptConnection} {requests replies : List Chunk}

/-- A new slot holds nothing. -/
theorem slotFrom_renew (x : KeptConnection) (answers : Answers) :
    ∀ k ∈ (x.renew answers).slot, k.From requests replies := by
  intro k hk
  rw [KeptConnection.slot_renew] at hk
  split_ifs at hk
  · cases hk
    exact ⟨List.nil_sublist _, List.nil_sublist _⟩
  · cases hk

theorem slotFrom_keepRequest (h : ∀ k ∈ x.slot, k.From requests replies) (req : Chunk)
    (answers : Answers) :
    ∀ k ∈ (x.keepRequest req answers).slot, k.From (requests ++ [req]) replies := by
  intro k' hk'
  rcases hxs : x.slot with - | k
  · rw [KeptConnection.keepRequest, hxs] at hk'
    simp only [hxs] at hk'
    cases hk'
  · have hk := h k hxs
    rw [KeptConnection.keepRequest_of_slot hxs] at hk'
    split_ifs at hk'
    · cases hk'
      exact ⟨hk.1.append_right [req], hk.2⟩
    · obtain rfl : k = k' := Option.some.inj (hxs.symm.trans hk')
      exact ⟨hk.1.trans (List.sublist_append_left _ _), hk.2⟩

theorem slotFrom_keepReply (h : ∀ k ∈ x.slot, k.From requests replies) (rep : Chunk)
    (answers : Answers) :
    ∀ k ∈ (x.keepReply rep answers).slot, k.From requests (replies ++ [rep]) := by
  intro k' hk'
  rcases hxs : x.slot with - | k
  · rw [KeptConnection.keepReply, hxs] at hk'
    simp only [hxs] at hk'
    cases hk'
  · have hk := h k hxs
    rw [KeptConnection.keepReply_of_slot hxs] at hk'
    split_ifs at hk'
    · cases hk'
      exact ⟨hk.1, hk.2.append_right [rep]⟩
    · obtain rfl : k = k' := Option.some.inj (hxs.symm.trans hk')
      exact ⟨hk.1, hk.2.trans (List.sublist_append_left _ _)⟩

theorem from_of_mem_passed (h : ∀ k ∈ x.slot, k.From requests replies) :
    ∀ k ∈ x.passed, k.From requests replies := by
  intro k hk
  rw [KeptConnection.passed] at hk
  split_ifs at hk
  · cases hk
  · exact h k (Option.mem_toList.1 hk)

end

/-- A callback adds at most its own piece. -/
theorem slotFrom_receive (sgx : Bool) {x : Option KeptConnection} {requests replies : List Chunk}
    (h : SlotFrom requests replies x) (cb : Callback) :
    SlotFrom (requests ++ requestPieces [cb]) (replies ++ replyPieces [cb])
        (receive sgx x cb).1 ∧
      ∀ k ∈ (receive sgx x cb).2,
        k.From (requests ++ requestPieces [cb]) (replies ++ replyPieces [cb]) := by
  have hmono : SlotFrom (requests ++ requestPieces [cb]) (replies ++ replyPieces [cb]) x :=
    fun c hc k hk ↦ (h c hc k hk).mono _ _
  cases cb with
  | newConnection answers =>
    refine ⟨?_, List.forall_mem_nil _⟩
    rw [receive]
    split_ifs
    · rintro c hc k hk
      cases hc
      cases hk
    · exact hmono
  | request req answers =>
    cases x with
    | none => exact ⟨hmono, List.forall_mem_nil _⟩
    | some x =>
      have hreplies : replies ++ replyPieces [.request req answers] = replies :=
        List.append_nil replies
      rw [hreplies] at hmono ⊢
      rw [receive]
      split_ifs
      · -- the piece joins the request that is kept
        refine ⟨?_, List.forall_mem_nil _⟩
        rintro c hc
        cases hc
        exact slotFrom_keepRequest (h x rfl) req answers
      · -- what was kept is passed on, and the piece begins the next request
        refine ⟨?_, from_of_mem_passed (hmono x rfl)⟩
        rintro c hc
        cases hc
        exact slotFrom_keepRequest (slotFrom_renew x answers) req answers
  | reply rep answers =>
    cases x with
    | none => exact ⟨hmono, List.forall_mem_nil _⟩
    | some x =>
      have hrequests : requests ++ requestPieces [.reply rep answers] = requests :=
        List.append_nil requests
      rw [hrequests]
      refine ⟨?_, List.forall_mem_nil _⟩
      rintro c hc
      cases hc
      exact slotFrom_keepReply (h x rfl) rep answers
  | freeConnection =>
    refine ⟨fun c hc ↦ absurd hc (Option.not_mem_none c), ?_⟩
    cases x with
    | none => exact List.forall_mem_nil _
    | some x => exact from_of_mem_passed (hmono x rfl)

/-- A run adds at most the pieces that it receives. -/
theorem slotFrom_specRun (sgx : Bool) (cbs : List Callback) {x : Option KeptConnection}
    {requests replies : List Chunk} (h : SlotFrom requests replies x) :
    SlotFrom (requests ++ requestPieces cbs) (replies ++ replyPieces cbs)
        (specRun (receive sgx) x cbs).1 ∧
      ∀ k ∈ (specRun (receive sgx) x cbs).2,
        k.From (requests ++ requestPieces cbs) (replies ++ replyPieces cbs) := by
  induction cbs generalizing x requests replies with
  | nil =>
    rw [requestPieces, replyPieces, List.filterMap_nil, List.filterMap_nil, List.append_nil,
      List.append_nil]
    exact ⟨h, List.forall_mem_nil _⟩
  | cons cb cbs ih =>
    have hreq : requestPieces (cb :: cbs) = requestPieces [cb] ++ requestPieces cbs :=
      List.filterMap_append (l := [cb])
    have hrep : replyPieces (cb :: cbs) = replyPieces [cb] ++ replyPieces cbs :=
      List.filterMap_append (l := [cb])
    obtain ⟨hslot, hpassed⟩ := slotFrom_receive sgx h cb
    obtain ⟨hslot', hpassed'⟩ := ih hslot
    rw [hreq, hrep, ← List.append_assoc, ← List.append_assoc]
    exact ⟨hslot', List.forall_mem_append.2 ⟨fun k hk ↦ (hpassed k hk).mono _ _, hpassed'⟩⟩

/-- All that is held or passed on in a run was received in it. -/
def ReceivedOnly (sgx : Bool) (cbs : List Callback) : Prop :=
  SlotFrom (requestPieces cbs) (replyPieces cbs) (specRun (receive sgx) none cbs).1 ∧
    ∀ k ∈ (specRun (receive sgx) none cbs).2, k.From (requestPieces cbs) (replyPieces cbs)

theorem receivedOnly (sgx : Bool) (cbs : List Callback) : ReceivedOnly sgx cbs :=
  @slotFrom_specRun sgx cbs none [] [] fun c hc ↦ absurd hc (Option.not_mem_none c)

/-! ### Runs -/

/-- **Nothing is corrupted** in a run of the callbacks of a connection: after every callback the log
holds what it should hold and has passed on what it should have passed on, without a fault. What it
should hold is made of pieces received, of which a failed call takes none away. -/
def Uncorrupted (sgx : Bool) (cbs : List Callback) : Prop :=
  ∀ cbs', cbs' <+: cbs →
    Follows (callback sgx) (receive sgx) (Option.Rel LogConnection.Represents)
        (LogEntry.PassedWhole sgx) none none cbs' ∧
      ReceivedOnly sgx cbs'

/-- **Nothing is corrupted exactly if no allocation fails that is relied on.** -/
theorem uncorrupted_iff (sgx : Bool) (cbs : List Callback) :
    Uncorrupted sgx cbs ↔ AllSteps (receive sgx) AllocationsSuffice none cbs := by
  rw [← forall_prefix_follows_iff (fun c x cb h ↦ callback_follows_iff sgx h cb) .none]
  exact forall₂_congr fun cbs' _ ↦ and_iff_left (receivedOnly sgx cbs')

/-- A second piece of a request, for which there is no room. -/
def failedRealloc : List Callback :=
  [.newConnection roomy, (transfer .request 1).callback,
    .request (transfer .request 2).chunk ⟨true, none⟩]

/-- A request for which there is no slot. -/
def failedMalloc : List Callback :=
  [.newConnection roomy, .request (transfer .request 1).chunk ⟨false, none⟩]

/-- The first piece is lost while its length stays, and that is what is logged; a slot that is not
there is dereferenced. -/
theorem not_uncorrupted_of_failure :
    ¬ Uncorrupted true failedRealloc ∧ ¬ Uncorrupted true failedMalloc ∧
      run (callback true) none (failedRealloc ++ [.freeConnection]) =
        .ok (none, [⟨1, 0, none, none⟩]) ∧
      run (callback true) none failedMalloc = .error .nullDereference := by
  refine ⟨fun h ↦ ?_, fun h ↦ ?_, rfl, rfl⟩
  · obtain ⟨⟨c, es, hrun, hc, -⟩, -⟩ := h _ (List.prefix_refl _)
    have hlost : run (callback true) none failedRealloc =
        .ok (some ⟨true, 0, some ⟨1, 0, none, none⟩⟩, []) := rfl
    rw [hlost] at hrun
    cases hrun
    obtain ⟨hc⟩ := hc
    obtain ⟨he⟩ := hc.slot
    exact absurd (he.reqLen.trans (congrArg List.length he.req).symm) (by decide)
  · obtain ⟨⟨c, es, hrun, -, -⟩, -⟩ := h _ (List.prefix_refl _)
    have hfault : run (callback true) none failedMalloc = .error .nullDereference := rfl
    rw [hfault] at hrun
    cases hrun

end LibSeal
