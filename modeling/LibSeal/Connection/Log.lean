import LibSeal.Data.KeyedMachine
import LibSeal.Data.Memory

/-!
# The connection log

The callbacks of `auditing/logpoint.c`: the TLS library calls `log_https_request` for every piece of
plaintext it has read from a client and `log_https_reply` for every piece it is about to write, and
the log collects the pieces of an exchange in the **slot** of the connection. Nothing in the data
marks the end of an exchange. A slot is handed on, to `add_entry_to_list` and from there to the
auditor, when a request piece follows a reply piece, and when the connection is freed.

## Two layers

What the callbacks do to a connection depends on that connection only. It is modelled on the
connection alone (`callback`), together with the entries passed to `add_entry_to_list` on the way.
`add_entry_to_list` itself acts on a static variable that all connections share (`initialized`), so
the whole log (`ConnectionLog`) is the family of the connections with that variable next to it.

## Integers and memory

Lengths are `unsigned int`: a sum of lengths is reduced modulo `2 ^ 32` wherever the source computes
it in that type, and so is the size given to `realloc`. Every allocation may fail; its answer is
part of the callback. The build for Squid, and what `my_fprintf` prints, are not modelled.
-/

namespace LibSeal

/-- `UINT_MAX + 1` -/
abbrev uintSize : ℕ := 4294967296

/-- The data of one callback: what an `unsigned int` can count. -/
structure Chunk where
  bytes : Bytes
  length_lt : bytes.length < uintSize

/-- `struct log_entry` -/
structure LogEntry where
  reqLen : ℕ
  repLen : ℕ
  /-- The request buffer; `none` is a null pointer. -/
  req : Option Bytes
  /-- The reply buffer; `none` is a null pointer. -/
  rep : Option Bytes
  deriving DecidableEq

/-- `struct log_connection`, without the copy of its key. -/
structure LogConnection where
  /-- Whether the last piece was one of a request. -/
  logRequest : Bool
  /-- How many slots are still to be dropped instead of handed on. -/
  ignoreSlots : ℕ
  slot : Option LogEntry

/-- The answers of the allocator during one callback. -/
structure Answers where
  /-- Whether `malloc` finds room for a `log_entry` or a `log_connection`. -/
  malloc : Bool
  /-- The answer to the `realloc` of a buffer. -/
  realloc : Allocation

/-- A callback of the TLS library. -/
inductive Callback where
  /-- `log_new_connection` -/
  | newConnection (answers : Answers)
  /-- `log_https_request` -/
  | request (req : Chunk) (answers : Answers)
  /-- `log_https_reply` -/
  | reply (rep : Chunk) (answers : Answers)
  /-- `log_free_connection` -/
  | freeConnection

/-! ### One connection -/

/-- `new_slot` -/
def newSlot (answers : Answers) : Option LogEntry :=
  if answers.malloc then some ⟨0, 0, none, none⟩ else none

/-- Take the slot away from a connection and pass it on, unless it is one of the first to be
ignored. -/
def handOver (c : LogConnection) : LogConnection × List LogEntry :=
  match c.slot with
  | none => (c, [])
  | some e =>
    if c.ignoreSlots > 0 then
      ({ c with ignoreSlots := c.ignoreSlots - 1, slot := none }, [])
    else ({ c with slot := none }, [e])

/-- `p = realloc(p, len + *n); memcpy(p + len, data, *n)`, where `len + *n` is an `unsigned int`.
The result is `none` when the reallocation fails. -/
def growBuffer (p : Option Bytes) (len : ℕ) (data : Chunk) (answers : Answers) :
    Except CFault (Option Bytes) :=
  match Memory.realloc answers.realloc p ((len + data.bytes.length) % uintSize) with
  | none => .ok none
  | some block => (Memory.memcpy block len data.bytes).map some

/-- `log_https_request` -/
def logHttpsRequest (c : Option LogConnection) (req : Chunk) (answers : Answers) :
    Except CFault (Option LogConnection × List LogEntry) :=
  match c with
  | none => .ok (none, []) -- unknown connection
  | some c =>
    let (c, passed) :=
      if !c.logRequest then
        let (c, passed) := handOver c
        ({ c with slot := newSlot answers }, passed)
      else (c, []) -- else we continue to log to the same slot
    match c.slot with
    | none => .error .nullDereference
    | some e => do
      match ← growBuffer e.req e.reqLen req answers with
      | none => return (some { c with slot := some { e with req := none } }, passed)
      | some block =>
        let e := { e with req := some block, reqLen := (e.reqLen + req.bytes.length) % uintSize }
        return (some { c with slot := some e, logRequest := true }, passed)

/-- `log_https_reply` -/
def logHttpsReply (c : Option LogConnection) (rep : Chunk) (answers : Answers) :
    Except CFault (Option LogConnection × List LogEntry) :=
  match c with
  | none => .ok (none, []) -- unknown connection
  | some c =>
    match c.slot with
    | none => .ok (some c, []) -- logging a reply without having a request first
    | some e => do
      match ← growBuffer e.rep e.repLen rep answers with
      | none => return (some { c with slot := some { e with rep := none } }, [])
      | some block =>
        let e := { e with rep := some block, repLen := (e.repLen + rep.bytes.length) % uintSize }
        return (some { c with slot := some e, logRequest := false }, [])

/-- The slots that `log_new_connection` sets a connection up to ignore. -/
def ignoreSlots (sgx : Bool) : ℕ := if sgx then 0 else 2

/-- `log_new_connection` -/
def logNewConnection (sgx : Bool) (c : Option LogConnection) (answers : Answers) :
    Option LogConnection :=
  if answers.malloc then some ⟨false, ignoreSlots sgx, none⟩ else c

/-- `log_free_connection` -/
def logFreeConnection (c : Option LogConnection) : Option LogConnection × List LogEntry :=
  match c with
  | none => (none, []) -- unknown connection
  | some c => (none, (handOver c).2)

/-- The effect of a callback on its connection, and the entries passed to `add_entry_to_list`. -/
def callback (sgx : Bool) (c : Option LogConnection) :
    Callback → Except CFault (Option LogConnection × List LogEntry)
  | .newConnection answers => .ok (logNewConnection sgx c answers, [])
  | .request req answers => logHttpsRequest c req answers
  | .reply rep answers => logHttpsReply c rep answers
  | .freeConnection => .ok (logFreeConnection c)

/-! ### Handing an entry on -/

/-- Outside the enclave, cut off the bytes `01 00` that end the reply. -/
def stripReply (sgx : Bool) (e : LogEntry) : Except CFault LogEntry :=
  if sgx || e.repLen < 2 then .ok e
  else
    match e.rep with
    | none => .error .nullDereference
    | some rep =>
      match rep[e.repLen - 2]?, rep[e.repLen - 1]? with
      | some a, some b =>
        .ok (if a = 1 ∧ b = 0 then { e with repLen := e.repLen - 2 } else e)
      | _, _ => .error .outOfBounds

/-- Outside the enclave, the first call initialises the log and sets `initialized` to -1; any other
call adds one and waits until it reads -1. -/
def awaitInitialized (sgx : Bool) (initialized : ℤ) : Except CFault ℤ :=
  if sgx then .ok initialized
  else if initialized = 0 then .ok (-1)
  else if initialized + 1 = -1 then .ok (initialized + 1)
  else .error .blocked

/-- `add_entry_to_list`: the new value of `initialized`, and the entry as `logpoint_log` gets it. -/
def addEntryToList (sgx : Bool) (initialized : ℤ) (e : LogEntry) :
    Except CFault (ℤ × LogEntry) := do
  let e ← stripReply sgx e
  let initialized ← awaitInitialized sgx initialized
  return (initialized, e)

/-! ### The whole log -/

variable {K : Type} [DecidableEq K]

/-- The static variables of the file. The hash map is a finite map, of which the part that has been
written to matters. -/
structure ConnectionLog (K : Type) where
  connections : K → Option LogConnection
  initialized : ℤ

/-- No connections. -/
def ConnectionLog.init : ConnectionLog K := ⟨fun _ ↦ none, 0⟩

/-- `add_entry_to_list` for each of a list of entries. -/
def addEntries (sgx : Bool) : ℤ → List LogEntry → Except CFault (ℤ × List LogEntry)
  | initialized, [] => .ok (initialized, [])
  | initialized, e :: es => do
    let (initialized, e) ← addEntryToList sgx initialized e
    let (initialized, es) ← addEntries sgx initialized es
    return (initialized, e :: es)

/-- A callback on the log: the entries passed to `add_entry_to_list`, with their connection, each
with the entry that `logpoint_log` gets for it. -/
def ConnectionLog.step (sgx : Bool) (log : ConnectionLog K) (cb : K × Callback) :
    Except CFault (ConnectionLog K × List (K × LogEntry × LogEntry)) := do
  let (c, passed) ← callback sgx (log.connections cb.1) cb.2
  let (initialized, logged) ← addEntries sgx log.initialized passed
  return (⟨Function.update log.connections cb.1 c, initialized⟩,
    (passed.zip logged).map fun e ↦ (cb.1, e))

/-- A run of callbacks, one after the other. -/
def ConnectionLog.run (sgx : Bool) :
    ConnectionLog K → List (K × Callback) →
      Except CFault (ConnectionLog K × List (K × LogEntry × LogEntry))
  | log, [] => .ok (log, [])
  | log, cb :: cbs => do
    let (log, es) ← log.step sgx cb
    let (log, es') ← log.run sgx cbs
    return (log, es ++ es')

end LibSeal
