import LibSeal.Auditing.Http
import LibSeal.Auditing.Tuple
import LibSeal.Data.Interleaving

/-!
# The time of a Dropbox event

`processEventPair` of `auditing/auditors/dropbox/main.cpp` counts an event with one atomic addition
to `monotonic_counter`, drops what the addition returns, and reads the counter again for every row
of the event. An addition of another thread between the two shows in the rows: then one event has
several times, and two events one (`not_event_eq_iff_time_eq_of_late_reads`). The auditors of Git
and of ownCloud use what their atomic addition returns.

If no event is counted while rows of another are still without their time, the time of a row tells
its event (`event_eq_iff_time_eq`), up to the `2 ^ 32` times that `to_str`, which takes an `int`,
can write.

The files of a request or a response are found by `parse_commit_batch` and `parse_list`, which are
parameters here: nothing depends on how many rows they yield and what is in them.
-/

namespace LibSeal

open Bytes Interleaving

/-- `parse_commit_batch` and `parse_list`: the statements for the files in a payload. -/
structure DropboxParsers where
  parseCommitBatch : Bytes → Except CFault (List Bytes)
  parseList : Bytes → Bytes → Except CFault (List Bytes)

/-- A row that is handed to `insert_statement`: which event it belongs to, counted from 0, and what
its tuple is made of. -/
structure TimedRow where
  event : ℕ
  table : ℕ
  time : ℤ
  statement : Bytes
  deriving DecidableEq

/-- The text that is handed over. -/
def TimedRow.tuple (r : TimedRow) : Bytes := fileTuple r.time r.statement

/-- What threads in `processEventPair` share, with two observations: the number of additions, and
the rows in the order in which they are handed over. -/
structure EventTimeState where
  monotonicCounter : ℕ
  events : ℕ
  inserted : List TimedRow

/-- The start of the process. -/
def EventTimeState.init : EventTimeState := ⟨0, 0, []⟩

/-- The atomic steps of `processEventPair`. -/
inductive EventStep where
  /-- `__atomic_fetch_add(&monotonic_counter, 1, __ATOMIC_RELAXED)` -/
  | fetchAdd (table : ℕ) (statements : List Bytes)
  /-- `to_str(monotonic_counter)` -/
  | readCounter (event table : ℕ) (statement : Bytes)
  /-- `insert_stmt_fn(table, result.c_str())` -/
  | insertStmt (row : TimedRow)
  deriving DecidableEq

/-- The files of an exchange, and the table they go to: `list` or `commit_batch`. -/
def eventStatements (P : DropboxParsers) (evReq evRsp : Event) :
    Except CFault (ℕ × List Bytes) := do
  let payload (e : Event) : Except CFault Bytes :=
    match e.getParam .http httpHeaderPayload with
    | none => .error .nullDereference
    | some p =>
      match p.getValueBytes with
      | none => .error .nullDereference
      | some block => stringAt block
  if evReq.paramContains .http httpHeaderRequest (ascii "/list") then
    return (0, ← P.parseList (← payload evReq) (← payload evRsp))
  else if evReq.paramContains .http httpHeaderRequest (ascii "/commit_batch") then
    return (1, ← P.parseCommitBatch (← payload evReq))
  else return (0, [])

/-- `processEventPair`: an exchange without files is no event. -/
def processEventPair (P : DropboxParsers) (evReq evRsp : Event) :
    Except CFault (List EventStep) := do
  let (table, statements) ← eventStatements P evReq evRsp
  return if statements.isEmpty then [] else [.fetchAdd table statements]

/-- What a step does. The loop over the statements reads the counter in every round and inserts the
row before the next. -/
def EventStep.exec : EventStep → EventTimeState → EventTimeState × List EventStep
  | .fetchAdd table statements, s =>
    ({ s with monotonicCounter := (s.monotonicCounter + 1) % 2 ^ 64, events := s.events + 1 },
      statements.map (.readCounter s.events table))
  | .readCounter event table statement, s =>
    (s, [.insertStmt ⟨event, table, toInt32 s.monotonicCounter, statement⟩])
  | .insertStmt row, s => ({ s with inserted := s.inserted ++ [row] }, [])

/-- Threads that run `processEventPair`. -/
def eventSystem (P : DropboxParsers) : System EventTimeState EventStep where
  exec := EventStep.exec
  IsCall l := ∃ evReq evRsp, processEventPair P evReq evRsp = .ok l

/-- **An event is counted only when every row of the others has its time**, and while there are
times. -/
def CountsAlone {T : Type} (c : Config T EventTimeState EventStep) (i : EventStep) : Prop :=
  ∀ table statements, i = .fetchAdd table statements → c.shared.events < 2 ^ 32 ∧
    ∀ u event table' statement, .readCounter event table' statement ∉ c.code u

/-- The time of a row is the number of its event. -/
def TimedRow.HasTime (r : TimedRow) (events : ℕ) : Prop :=
  r.event < events ∧ r.time = toInt32 (r.event + 1 : ℕ)

/-- What holds of a step that is to come: a row without its time belongs to the last event. -/
def EventStep.InTime (events : ℕ) : EventStep → Prop
  | .fetchAdd .. => True
  | .readCounter event .. => event + 1 = events
  | .insertStmt row => row.HasTime events

/-- What holds while every event is counted alone. -/
structure EventInvariant {T : Type} (c : Config T EventTimeState EventStep) : Prop where
  counter : c.shared.monotonicCounter = c.shared.events
  events_le : c.shared.events ≤ 2 ^ 32
  inserted : ∀ r ∈ c.shared.inserted, r.HasTime c.shared.events
  code : ∀ t, ∀ i ∈ c.code t, i.InTime c.shared.events

theorem TimedRow.HasTime.succ {r : TimedRow} {events : ℕ} (h : r.HasTime events) :
    r.HasTime (events + 1) := ⟨h.1.trans (Nat.lt_succ_self _), h.2⟩

/-- A step that waits for no time is not concerned by another event. -/
theorem EventStep.InTime.succ {i : EventStep} {events : ℕ} (h : i.InTime events)
    (hread : ∀ event table statement, i ≠ .readCounter event table statement) :
    i.InTime (events + 1) := by
  cases i with
  | fetchAdd => trivial
  | readCounter event table statement => exact absurd rfl (hread event table statement)
  | insertStmt row => exact TimedRow.HasTime.succ h

variable {T : Type}

theorem EventInvariant.init : EventInvariant (.init .init : Config T EventTimeState EventStep) where
  counter := rfl
  events_le := Nat.zero_le _
  inserted := List.forall_mem_nil _
  code _ := List.forall_mem_nil _

variable [DecidableEq T]

/-- After a thread has been resumed, its own steps and those of the others are in time. -/
theorem inTime_resume {c : Config T EventTimeState EventStep} {t : T} {s : EventTimeState}
    {l : List EventStep} (hl : ∀ i ∈ l, EventStep.InTime s.events i)
    (hothers : ∀ u, ∀ i ∈ c.code u, i.InTime s.events) :
    ∀ u, ∀ i ∈ (c.resume t s l).code u, i.InTime s.events :=
  (Config.forall_code_resume (p := fun l ↦ ∀ i ∈ l, EventStep.InTime s.events i)).2
    ⟨hl, fun u _ ↦ hothers u⟩

/-- What a call has to do needs no time yet. -/
theorem inTime_of_processEventPair {P : DropboxParsers} {evReq evRsp : Event} {l : List EventStep}
    (h : processEventPair P evReq evRsp = .ok l) (events : ℕ) : ∀ i ∈ l, i.InTime events := by
  obtain ⟨⟨table, statements⟩, -, hl⟩ := CFault.bind_eq_ok.1 h
  cases hl
  split_ifs
  · exact List.forall_mem_nil _
  · exact List.forall_mem_singleton.2 trivial

/-- **A step** keeps the invariant. -/
theorem EventInvariant.step {c : Config T EventTimeState EventStep} (h : EventInvariant c) {t : T}
    {i : EventStep} {rest : List EventStep} (hcode : c.code t = i :: rest) (hok : CountsAlone c i) :
    EventInvariant (c.resume t (i.exec c.shared).1 ((i.exec c.shared).2 ++ rest)) := by
  have hmem := h.code t
  rw [hcode, List.forall_mem_cons] at hmem
  obtain ⟨hi, hrest⟩ := hmem
  cases i with
  | fetchAdd table statements =>
    obtain ⟨hlt, hnone⟩ := hok table statements rfl
    -- no thread waits for a time, so only the new rows do
    have hsucc : ∀ u, ∀ j ∈ c.code u, j.InTime (c.shared.events + 1) := by
      intro u j hj
      refine (h.code u j hj).succ fun event table' statement heq ↦ ?_
      exact hnone u event table' statement (heq ▸ hj)
    refine ⟨?_, Nat.succ_le_of_lt hlt, fun r hr ↦ (h.inserted r hr).succ,
      inTime_resume (List.forall_mem_append.2 ⟨?_, ?_⟩) hsucc⟩
    · show (c.shared.monotonicCounter + 1) % 2 ^ 64 = c.shared.events + 1
      rw [h.counter]
      exact Nat.mod_eq_of_lt (by omega)
    · exact List.forall_mem_map.2 fun _ _ ↦ rfl
    · exact fun j hj ↦ hsucc t j (hcode ▸ List.mem_cons_of_mem _ hj)
  | readCounter event table statement =>
    have hevent : event + 1 = c.shared.events := hi
    have htime : TimedRow.HasTime ⟨event, table, toInt32 c.shared.monotonicCounter, statement⟩
        c.shared.events := by
      refine ⟨hevent ▸ Nat.lt_succ_self event, ?_⟩
      rw [h.counter, hevent]
    exact ⟨h.counter, h.events_le, h.inserted, inTime_resume
      (List.forall_mem_append.2 ⟨List.forall_mem_singleton.2 htime, hrest⟩) h.code⟩
  | insertStmt row =>
    exact ⟨h.counter, h.events_le,
      List.forall_mem_append.2 ⟨h.inserted, List.forall_mem_singleton.2 hi⟩,
      inTime_resume hrest h.code⟩

/-- **If every event is counted alone, the time of a row tells its event**, in every state that any
number of threads reach: the rows of one event have one time, and those of two events two. -/
theorem event_eq_iff_time_eq {P : DropboxParsers} {c : Config T EventTimeState EventStep}
    (h : Interleaving.Reaches (eventSystem P) (fun c _ i ↦ CountsAlone c i) .init c) :
    ∀ r ∈ c.shared.inserted, ∀ s ∈ c.shared.inserted, r.event = s.event ↔ r.time = s.time := by
  have hinv : EventInvariant c := by
    refine h.invariant .init ?_ fun c t i rest hc hcode hok ↦ hc.step hcode hok
    intro c t l hc _ ⟨evReq, evRsp, hl⟩
    exact ⟨hc.counter, hc.events_le, hc.inserted,
      inTime_resume (inTime_of_processEventPair hl _) hc.code⟩
  intro r hr s hs
  obtain ⟨hrlt, hrtime⟩ := hinv.inserted r hr
  obtain ⟨hslt, hstime⟩ := hinv.inserted s hs
  have hle := hinv.events_le
  rw [hrtime, hstime, toInt32_eq_iff]
  omega

/-! ### Concrete runs -/

/-- A request for a listing. -/
def listRequest : Event :=
  (Event.add .empty ⟨.http, httpHeaderRequest, .string (ascii "POST /list HTTP/1.1")⟩).add
    ⟨.http, httpHeaderPayload, .bytes (ascii "host_key=K&" ++ [0, 0]) 12⟩

/-- A listing of two files. -/
def listingText : Bytes :=
  ascii "\x7b\"list\": [\x7b\"blocklist\": \"b1\", \"path\": \"/a\", \"size\": 1\x7d, " ++
    ascii "\x7b\"blocklist\": \"b2\", \"path\": \"/b\", \"size\": 2\x7d]"

/-- The response with this listing. -/
def listResponse : Event :=
  Event.add .empty ⟨.http, httpHeaderPayload, .bytes (listingText ++ [0, 0]) 102⟩

/-- The statements for the two files. -/
def listedStatements : List Bytes :=
  [fileStatement (ascii "K") (ascii "/a") 1 (ascii "b1"),
    fileStatement (ascii "K") (ascii "/b") 2 (ascii "b2")]

/-- Parsers that find the files of this listing. -/
def listingParsers : DropboxParsers where
  parseCommitBatch _ := .ok []
  parseList req content :=
    .ok (if req = ascii "host_key=K&" ∧ content = listingText then listedStatements else [])

theorem processEventPair_listing :
    processEventPair listingParsers listRequest listResponse =
      .ok [.fetchAdd 0 listedStatements] := by
  decide +kernel

/-- One thread, one event: both rows have its time. -/
theorem event_eq_iff_time_eq_of_one_event :
    ∃ c : Config Unit EventTimeState EventStep,
      c.shared.inserted.map TimedRow.event = [0, 0] ∧
        ∀ r ∈ c.shared.inserted, ∀ s ∈ c.shared.inserted, r.event = s.event ↔ r.time = s.time := by
  have h1 : Interleaving.Reaches (eventSystem listingParsers) (fun c _ i ↦ CountsAlone c i)
      .init _ :=
    .call () _ .init rfl ⟨listRequest, listResponse, processEventPair_listing⟩
  have hcode : ∀ u : Unit, ∀ event table statement,
      EventStep.readCounter event table statement ∉ [EventStep.fetchAdd 0 listedStatements] :=
    fun _ _ _ _ h ↦ nomatch List.mem_singleton.1 h
  have h2 := h1.step () (.fetchAdd 0 listedStatements) [] rfl fun _ _ _ ↦ ⟨by decide, hcode⟩
  have h3 := h2.step () (.readCounter 0 0 _) _ rfl fun _ _ h ↦ nomatch h
  have h4 := h3.step () (.insertStmt _) _ rfl fun _ _ h ↦ nomatch h
  have h5 := h4.step () (.readCounter 0 0 _) _ rfl fun _ _ h ↦ nomatch h
  have h6 := h5.step () (.insertStmt _) _ rfl fun _ _ h ↦ nomatch h
  exact ⟨_, rfl, event_eq_iff_time_eq h6⟩

/-- The schedule in which the second thread counts its event between two rows of the first. -/
def lateReads : List (Turn Bool EventStep) :=
  [.call false [.fetchAdd 0 listedStatements], .call true [.fetchAdd 0 listedStatements],
    .step false, .step false, .step false, .step true, .step false, .step false, .step true,
    .step true]

/-- Two threads, two events: the second row of the first event has the time of the second event. -/
theorem not_event_eq_iff_time_eq_of_late_reads :
    ∃ c : Config Bool EventTimeState EventStep,
      Interleaving.Reaches (eventSystem listingParsers) (fun _ _ _ ↦ True) .init c ∧
        (∃ r ∈ c.shared.inserted, ∃ s ∈ c.shared.inserted, r.event = s.event ∧ r.time ≠ s.time) ∧
        ∃ r ∈ c.shared.inserted, ∃ s ∈ c.shared.inserted, r.event ≠ s.event ∧ r.time = s.time := by
  refine ⟨Config.run (eventSystem listingParsers) (.init .init) lateReads,
    Interleaving.Reaches.init.run ?_, ?_⟩
  · intro t l hmem
    have hl : l = [.fetchAdd 0 listedStatements] := by
      rcases t with - | - <;> simpa [lateReads] using hmem
    exact hl ▸ ⟨listRequest, listResponse, processEventPair_listing⟩
  · decide +kernel

end LibSeal
