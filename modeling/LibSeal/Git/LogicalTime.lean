import LibSeal.Connection.Faithful
import LibSeal.Git.Push
import LibSeal.Git.Relations
import Mathlib.Data.List.GetD

/-!
# Logical time and real time

The connection log with the Git auditor behind it. The rows of an exchange carry the value that
`logictime` has when the auditor gets the exchange, and the auditor gets it when its slot is handed
on: with the next request of the same connection, or when the connection is freed. The reply may
have been sent long before.

So the time of an exchange is the order of the callbacks that *end* the slots
(`time_lt_iff_position_lt`). It is not the order of the exchanges: on a connection that is kept
alive an exchange waits, and an exchange that begins and ends on another connection in the meantime
gets the earlier time (`not_respectsRealOrder_keptAlive`).

A callback is atomic here, and the place of a callback in the run is its real time. What the auditor
finds in memory that it has not written (`junk`) may be different at every callback.
-/

namespace LibSeal

open Bytes

variable {K : Type}

/-! ### The log with its auditor -/

/-- The message that the auditor gets as a buffer and a length. -/
def messageBytes (p : Option Bytes) (len : ℕ) : Except CFault Bytes :=
  match p with
  | none => if len = 0 then .ok [] else .error .nullDereference
  | some b => if b.length < len then .error .outOfBounds else .ok (b.take len)

/-- `logpoint_log`, up to the execution of the statements. -/
def logpointLogGit (junk : ℕ → UInt8) (logictime : ℕ) (e : LogEntry) :
    Except CFault (ℕ × List (InsertCall .git)) := do
  let req ← messageBytes e.req e.reqLen
  let rsp ← messageBytes e.rep e.repLen
  libsealProcessLogAtRuntime junk logictime req rsp

/-- An exchange that the auditor has processed. -/
structure ProcessedExchange (K : Type) where
  connection : K
  /-- The value of `logictime` when the auditor got it. -/
  logictime : ℕ
  calls : List (InsertCall .git)

/-- The `time` of its rows, an `int`. -/
def ProcessedExchange.time (X : ProcessedExchange K) : ℤ := toInt32 X.logictime

/-- The log, and `logictime`. -/
structure AuditedLog (K : Type) where
  log : ConnectionLog K
  logictime : ℕ

/-- `unsigned long long logictime = 1;` -/
def AuditedLog.init : AuditedLog K := ⟨.init, 1⟩

/-- The auditor gets some entries, one after the other. -/
def processEntries (junk : ℕ → UInt8) :
    ℕ → List (K × LogEntry) → Except CFault (ℕ × List (ProcessedExchange K))
  | logictime, [] => .ok (logictime, [])
  | logictime, (k, e) :: es => do
    let (next, calls) ← logpointLogGit junk logictime e
    let (last, processed) ← processEntries junk next es
    return (last, ⟨k, logictime, calls⟩ :: processed)

/-! ### What the auditor draws -/

/-- **What the auditor makes of an exchange** are rows with the time that it has drawn, and it draws
the next one if there are any. -/
theorem rows_of_logpointLogGit {junk : ℕ → UInt8} {t next : ℕ} {e : LogEntry}
    {calls : List (InsertCall .git)} (h : logpointLogGit junk t e = .ok (next, calls))
    (ht : t < 2147483647) :
    AreRowsAt (toInt32 t) calls ∧ t ≤ next ∧ next ≤ t + 1 ∧ (calls ≠ [] → t < next) := by
  obtain ⟨req, -, h⟩ := CFault.bind_eq_ok.1 h
  obtain ⟨rsp, -, h⟩ := CFault.bind_eq_ok.1 h
  obtain ⟨evReq, -, h⟩ := CFault.bind_eq_ok.1 h
  obtain ⟨evRsp, -, h⟩ := CFault.bind_eq_ok.1 h
  obtain ⟨hrows, hnext⟩ := areRowsAt_of_processEvents h
  refine ⟨hrows, ?_⟩
  rcases hnext with ⟨rfl, hnil⟩ | hnext
  · exact ⟨le_rfl, Nat.le_succ _, fun hne ↦ absurd hnil hne⟩
  · have hmod : next = t + 1 := by omega
    exact ⟨by omega, by omega, fun _ ↦ by omega⟩

namespace ProcessedExchange

/-- An exchange has been processed while `logictime` went from one value to another. -/
structure DrawnIn (start stop : ℕ) (X : ProcessedExchange K) : Prop where
  rows : AreRowsAt X.time X.calls
  start_le : start ≤ X.logictime
  lt_stop : X.calls ≠ [] → X.logictime < stop

theorem DrawnIn.mono {start start' stop stop' : ℕ} {X : ProcessedExchange K}
    (h : X.DrawnIn start stop) (hstart : start' ≤ start) (hstop : stop ≤ stop') :
    X.DrawnIn start' stop' :=
  ⟨h.rows, hstart.trans h.start_le, fun hne ↦ (h.lt_stop hne).trans_le hstop⟩

end ProcessedExchange

theorem drawnIn_of_processEntries {junk : ℕ → UInt8} {t t' : ℕ} {es : List (K × LogEntry)}
    {ps : List (ProcessedExchange K)} (h : processEntries junk t es = .ok (t', ps))
    (ht : t + ps.length ≤ 2147483647) :
    t ≤ t' ∧ t' ≤ t + ps.length ∧ ∀ X ∈ ps, X.DrawnIn t t' := by
  induction es generalizing t ps with
  | nil =>
    obtain ⟨rfl, rfl⟩ := Prod.mk.inj (Except.ok.inj h)
    exact ⟨le_rfl, le_rfl, fun _ hX ↦ nomatch hX⟩
  | cons p es ih =>
    obtain ⟨k, e⟩ := p
    obtain ⟨⟨next, calls⟩, hlog, h⟩ := CFault.bind_eq_ok.1 h
    obtain ⟨⟨last, processed⟩, hrest, h⟩ := CFault.bind_eq_ok.1 h
    obtain ⟨rfl, rfl⟩ := Prod.mk.inj (Except.ok.inj h)
    rw [List.length_cons] at ht ⊢
    obtain ⟨hrows, hle, hsucc, hlt⟩ := rows_of_logpointLogGit hlog (by omega)
    obtain ⟨hle', hlast, hdrawn⟩ := ih hrest (by omega)
    refine ⟨hle.trans hle', by omega, List.forall_mem_cons.2 ⟨?_, ?_⟩⟩
    · exact ⟨hrows, le_rfl, fun hne ↦ (hlt hne).trans_le hle'⟩
    · exact fun X hX ↦ (hdrawn X hX).mono hle le_rfl

theorem connection_of_processEntries {junk : ℕ → UInt8} {t t' : ℕ} {es : List (K × LogEntry)}
    {ps : List (ProcessedExchange K)} (h : processEntries junk t es = .ok (t', ps)) :
    ∀ X ∈ ps, ∃ e, (X.connection, e) ∈ es := by
  induction es generalizing t ps with
  | nil =>
    obtain ⟨rfl, rfl⟩ := Prod.mk.inj (Except.ok.inj h)
    exact fun _ hX ↦ nomatch hX
  | cons p es ih =>
    obtain ⟨k, e⟩ := p
    obtain ⟨⟨next, calls⟩, -, h⟩ := CFault.bind_eq_ok.1 h
    obtain ⟨⟨last, processed⟩, hrest, h⟩ := CFault.bind_eq_ok.1 h
    obtain ⟨rfl, rfl⟩ := Prod.mk.inj (Except.ok.inj h)
    refine List.forall_mem_cons.2 ⟨⟨e, List.mem_cons_self⟩, fun X hX ↦ ?_⟩
    obtain ⟨e', he'⟩ := ih hrest X hX
    exact ⟨e', List.mem_cons_of_mem _ he'⟩

theorem exists_getElem_of_mem_getD {α : Type} {out : List (List α)} {n : ℕ} {X : α}
    (h : X ∈ out.getD n []) : ∃ hn : n < out.length, X ∈ out[n] := by
  rcases lt_or_ge n out.length with hn | hn
  · rw [List.getD_eq_getElem _ _ hn] at h
    exact ⟨hn, h⟩
  · rw [List.getD_eq_default _ _ hn] at h
    exact absurd h List.not_mem_nil

/-! ### Runs -/

variable [DecidableEq K]

namespace AuditedLog

/-- A callback, and what is processed with it. -/
def step (sgx : Bool) (junk : ℕ → UInt8) (s : AuditedLog K) (cb : K × Callback) :
    Except CFault (AuditedLog K × List (ProcessedExchange K)) := do
  let (log, out) ← s.log.step sgx cb
  let (logictime, processed) ← processEntries junk s.logictime (out.map fun o ↦ (o.1, o.2.2))
  return (⟨log, logictime⟩, processed)

/-- A run of callbacks. It yields, for each callback, what is processed with it. -/
def run (sgx : Bool) : (ℕ → ℕ → UInt8) → AuditedLog K → List (K × Callback) →
    Except CFault (AuditedLog K × List (List (ProcessedExchange K)))
  | _, s, [] => .ok (s, [])
  | junk, s, cb :: cbs => do
    let (s, processed) ← s.step sgx (junk 0) cb
    let (s, out) ← run sgx (fun n ↦ junk (n + 1)) s cbs
    return (s, processed :: out)

end AuditedLog

/-! ### Real order -/

/-- What a callback is for. -/
inductive CallbackKind where
  | newConnection
  | request
  | reply
  | freeConnection
  deriving DecidableEq

/-- What a callback is for. -/
def Callback.kind : Callback → CallbackKind
  | .newConnection _ => .newConnection
  | .request _ _ => .request
  | .reply _ _ => .reply
  | .freeConnection => .freeConnection

/-- What the callback at some place of a run is for, if it is for this connection. -/
def kindAt (cbs : List (K × Callback)) (k : K) (n : ℕ) : Option CallbackKind :=
  (cbs[n]?.filter fun cb ↦ cb.1 = k).map fun cb ↦ cb.2.kind

theorem kindAt_eq_some_iff {cbs : List (K × Callback)} {k : K} {n : ℕ} {kind : CallbackKind} :
    kindAt cbs k n = some kind ↔ ∃ cb, cbs[n]? = some (k, cb) ∧ cb.kind = kind := by
  simp [kindAt]

/-- The callback at some place is one with which a slot of the connection ends. -/
def EndsSlot (cbs : List (K × Callback)) (k : K) (n : ℕ) : Prop :=
  kindAt cbs k n = some .request ∨ kindAt cbs k n = some .freeConnection

instance (cbs : List (K × Callback)) (k : K) (n : ℕ) : Decidable (EndsSlot cbs k n) :=
  inferInstanceAs (Decidable (_ ∨ _))

theorem EndsSlot.exists_callback {cbs : List (K × Callback)} {k : K} {n : ℕ}
    (h : EndsSlot cbs k n) : ∃ cb, cbs[n]? = some (k, cb) := by
  rcases h with h | h
  · obtain ⟨cb, hcb, -⟩ := kindAt_eq_some_iff.1 h
    exact ⟨cb, hcb⟩
  · obtain ⟨cb, hcb, -⟩ := kindAt_eq_some_iff.1 h
    exact ⟨cb, hcb⟩

/-- An exchange of a connection in a run of callbacks: the places of its first request piece, of its
last reply piece, and of the callback that ends its slot. -/
structure IsExchange (cbs : List (K × Callback)) (k : K) (first last ended : ℕ) : Prop where
  first_lt_last : first < last
  last_lt_ended : last < ended
  request : kindAt cbs k first = some .request
  reply : kindAt cbs k last = some .reply
  endsSlot : EndsSlot cbs k ended
  /-- The connection goes on, with requests first and then with replies. -/
  pieces : ∀ n ≤ last, first ≤ n → kindAt cbs k n ≠ some .newConnection ∧
    kindAt cbs k n ≠ some .freeConnection
  no_request_after_reply : ∀ n ≤ last, ∀ m < n, first ≤ m → kindAt cbs k m = some .reply →
    kindAt cbs k n ≠ some .request
  /-- Nothing comes between the last reply and the end. -/
  next : ∀ n < ended, last < n → kindAt cbs k n = none
  /-- Between an earlier request and the first one something else has happened. -/
  previous : ∀ n < first, kindAt cbs k n = some .request →
    ∃ m < first, n < m ∧ kindAt cbs k m ≠ none ∧ kindAt cbs k m ≠ some .request

/-- **Logical time respects real order** in a run: if an exchange is over before another one begins,
on another connection, and both yield rows, the rows of the first have the smaller time. -/
def RespectsRealOrder (sgx : Bool) (junk : ℕ → ℕ → UInt8) (cbs : List (K × Callback)) : Prop :=
  ∀ s out, AuditedLog.init.run sgx junk cbs = .ok (s, out) →
    ∀ k l firstX lastX endX firstY lastY endY X Y, k ≠ l →
      IsExchange cbs k firstX lastX endX → IsExchange cbs l firstY lastY endY → lastX < firstY →
      X ∈ out.getD endX [] → Y ∈ out.getD endY [] → X.calls ≠ [] → Y.calls ≠ [] → X.time < Y.time

/-! ### Times are drawn in the order in which slots end -/

namespace AuditedLog

variable {sgx : Bool} {s s' : AuditedLog K}

theorem run_cons_iff {junk : ℕ → ℕ → UInt8} {cb : K × Callback} {cbs : List (K × Callback)}
    {out : List (List (ProcessedExchange K))} :
    s.run sgx junk (cb :: cbs) = .ok (s', out) ↔
      ∃ t ps, s.step sgx (junk 0) cb = .ok (t, ps) ∧ ∃ out',
        t.run sgx (fun n ↦ junk (n + 1)) cbs = .ok (s', out') ∧ out = ps :: out' := by
  constructor
  · intro h
    obtain ⟨⟨t, ps⟩, hstep, h⟩ := CFault.bind_eq_ok.1 h
    obtain ⟨⟨s'', out'⟩, hrun, h⟩ := CFault.bind_eq_ok.1 h
    obtain ⟨rfl, rfl⟩ := Prod.mk.inj (Except.ok.inj h)
    exact ⟨t, ps, hstep, out', hrun, rfl⟩
  · intro ⟨t, ps, hstep, out', hrun, hout⟩
    rw [run, hstep]
    show (t.run sgx _ cbs >>= _) = _
    rw [hrun, hout]
    rfl

theorem drawnIn_of_step {junk : ℕ → UInt8} {cb : K × Callback} {ps : List (ProcessedExchange K)}
    (h : s.step sgx junk cb = .ok (s', ps)) (ht : s.logictime + ps.length ≤ 2147483647) :
    s.logictime ≤ s'.logictime ∧ s'.logictime ≤ s.logictime + ps.length ∧
      ∀ X ∈ ps, X.DrawnIn s.logictime s'.logictime := by
  obtain ⟨⟨log, es⟩, -, h⟩ := CFault.bind_eq_ok.1 h
  obtain ⟨⟨t, ps'⟩, hprocess, h⟩ := CFault.bind_eq_ok.1 h
  obtain ⟨rfl, rfl⟩ := Prod.mk.inj (Except.ok.inj h)
  exact drawnIn_of_processEntries hprocess ht

/-- **Times are drawn in the order of the callbacks.** -/
theorem pairwise_of_run {junk : ℕ → ℕ → UInt8} {cbs : List (K × Callback)}
    {out : List (List (ProcessedExchange K))} (h : s.run sgx junk cbs = .ok (s', out))
    (ht : s.logictime + out.flatten.length ≤ 2147483647) :
    (s.logictime ≤ s'.logictime ∧ s'.logictime ≤ s.logictime + out.flatten.length) ∧
      (∀ ps ∈ out, ∀ X ∈ ps, X.DrawnIn s.logictime s'.logictime) ∧
        out.Pairwise fun ps qs ↦ ∀ X ∈ ps, ∀ Y ∈ qs, X.calls ≠ [] → X.logictime < Y.logictime := by
  induction cbs generalizing s junk out with
  | nil =>
    obtain ⟨rfl, rfl⟩ := Prod.mk.inj (Except.ok.inj h)
    exact ⟨⟨le_rfl, le_rfl⟩, List.forall_mem_nil _, List.Pairwise.nil⟩
  | cons cb cbs ih =>
    obtain ⟨t, ps, hstep, out', hrun, rfl⟩ := run_cons_iff.1 h
    rw [List.flatten_cons, List.length_append] at ht ⊢
    obtain ⟨hle, hbound, hdrawn⟩ := drawnIn_of_step hstep (by omega)
    obtain ⟨⟨hle', hbound'⟩, hlater, hpairwise⟩ := ih hrun (by omega)
    refine ⟨⟨hle.trans hle', by omega⟩, List.forall_mem_cons.2 ⟨?_, ?_⟩, List.pairwise_cons.2
      ⟨?_, hpairwise⟩⟩
    · exact fun X hX ↦ (hdrawn X hX).mono le_rfl hle'
    · exact fun qs hqs X hX ↦ (hlater qs hqs X hX).mono hle le_rfl
    · intro qs hqs X hX Y hY hrows
      exact ((hdrawn X hX).lt_stop hrows).trans_le (hlater qs hqs Y hY).start_le

/-- A reply hands no entry on. -/
theorem passed_of_logHttpsReply {c c' : Option LogConnection} {rep : Chunk} {answers : Answers}
    {passed : List LogEntry} (h : logHttpsReply c rep answers = .ok (c', passed)) :
    passed = [] := by
  unfold logHttpsReply at h
  split at h
  · cases h
    rfl
  · split at h
    · cases h
      rfl
    · obtain ⟨block, -, h⟩ := CFault.bind_eq_ok.1 h
      cases block <;> cases h <;> rfl

/-- Only a request and the freeing of a connection hand an entry on. -/
theorem kind_of_passed {c c' : Option LogConnection} {cb : Callback} {passed : List LogEntry}
    (h : callback sgx c cb = .ok (c', passed)) (hne : passed ≠ []) :
    cb.kind = .request ∨ cb.kind = .freeConnection := by
  cases cb with
  | newConnection answers =>
    obtain ⟨-, rfl⟩ := Prod.mk.inj (Except.ok.inj h)
    exact absurd rfl hne
  | request req answers => exact Or.inl rfl
  | reply rep answers => exact absurd (passed_of_logHttpsReply h) hne
  | freeConnection => exact Or.inr rfl

theorem endsSlot_of_step {junk : ℕ → UInt8} {cb : K × Callback} {ps : List (ProcessedExchange K)}
    (h : s.step sgx junk cb = .ok (s', ps)) {X : ProcessedExchange K} (hX : X ∈ ps) :
    cb.1 = X.connection ∧ (cb.2.kind = .request ∨ cb.2.kind = .freeConnection) := by
  obtain ⟨⟨log, out⟩, hlog, h⟩ := CFault.bind_eq_ok.1 h
  obtain ⟨⟨t, ps'⟩, hprocess, h⟩ := CFault.bind_eq_ok.1 h
  obtain ⟨rfl, rfl⟩ := Prod.mk.inj (Except.ok.inj h)
  obtain ⟨⟨c, passed⟩, hcallback, hlog⟩ := CFault.bind_eq_ok.1 hlog
  obtain ⟨⟨initialized, logged⟩, -, hlog⟩ := CFault.bind_eq_ok.1 hlog
  obtain ⟨rfl, rfl⟩ := Prod.mk.inj (Except.ok.inj hlog)
  obtain ⟨e, he⟩ := connection_of_processEntries hprocess X hX
  obtain ⟨o, ho, heq⟩ := List.mem_map.1 he
  obtain ⟨p, hp, rfl⟩ := List.mem_map.1 ho
  have hne : passed ≠ [] := List.ne_nil_of_mem (List.of_mem_zip hp).1
  exact ⟨(Prod.mk.inj heq).1, kind_of_passed hcallback hne⟩

/-- **What is processed with a callback is of its connection, whose slot ends.** -/
theorem endsSlot_of_run {junk : ℕ → ℕ → UInt8} {cbs : List (K × Callback)}
    {out : List (List (ProcessedExchange K))} (h : s.run sgx junk cbs = .ok (s', out)) {n : ℕ}
    {X : ProcessedExchange K} (hX : X ∈ out.getD n []) : EndsSlot cbs X.connection n := by
  induction cbs generalizing s junk out n with
  | nil =>
    obtain ⟨rfl, rfl⟩ := Prod.mk.inj (Except.ok.inj h)
    exact nomatch hX
  | cons cb cbs ih =>
    obtain ⟨t, ps, hstep, out', hrun, rfl⟩ := run_cons_iff.1 h
    cases n with
    | zero =>
      obtain ⟨hconnection, hkind⟩ := endsSlot_of_step hstep hX
      have hat : kindAt (cb :: cbs) X.connection 0 = some cb.2.kind :=
        kindAt_eq_some_iff.2 ⟨cb.2, congrArg some (Prod.ext hconnection rfl), rfl⟩
      rw [EndsSlot, hat, Option.some.injEq, Option.some.injEq]
      exact hkind
    | succ n =>
      rw [List.getD_cons_succ] at hX
      exact ih hrun hX

/-- What is processed with an earlier callback has the smaller time. -/
theorem time_lt_of_lt {junk : ℕ → ℕ → UInt8} {cbs : List (K × Callback)}
    {out : List (List (ProcessedExchange K))} (h : AuditedLog.init.run sgx junk cbs = .ok (s', out))
    (hcount : out.flatten.length < 2147483647) {i j : ℕ} (hij : i < j) {X Y : ProcessedExchange K}
    (hX : X ∈ out.getD i []) (hY : Y ∈ out.getD j []) (hrowsX : X.calls ≠ [])
    (hrowsY : Y.calls ≠ []) : X.time < Y.time := by
  have hstart : (AuditedLog.init : AuditedLog K).logictime = 1 := rfl
  obtain ⟨⟨-, hbound⟩, hdrawn, hpairwise⟩ := pairwise_of_run h (by omega)
  obtain ⟨hi, hX⟩ := exists_getElem_of_mem_getD hX
  obtain ⟨hj, hY⟩ := exists_getElem_of_mem_getD hY
  have hlt : X.logictime < Y.logictime :=
    List.pairwise_iff_getElem.1 hpairwise i j hi hj hij X hX Y hY hrowsX
  have hstop := (hdrawn _ (List.getElem_mem _) Y hY).lt_stop hrowsY
  rw [ProcessedExchange.time, ProcessedExchange.time, toInt32_of_lt (by omega),
    toInt32_of_lt (by omega)]
  exact Int.ofNat_lt.2 hlt

/-- The rows of an exchange have its time. -/
theorem areRowsAt_of_run {junk : ℕ → ℕ → UInt8} {cbs : List (K × Callback)}
    {out : List (List (ProcessedExchange K))} (h : AuditedLog.init.run sgx junk cbs = .ok (s', out))
    (hcount : out.flatten.length < 2147483647) {n : ℕ} {X : ProcessedExchange K}
    (hX : X ∈ out.getD n []) : AreRowsAt X.time X.calls := by
  have hstart : (AuditedLog.init : AuditedLog K).logictime = 1 := rfl
  obtain ⟨-, hdrawn, -⟩ := pairwise_of_run h (by omega)
  obtain ⟨hn, hX⟩ := exists_getElem_of_mem_getD hX
  exact (hdrawn _ (List.getElem_mem hn) X hX).rows

end AuditedLog

/-! ### A connection that is kept alive -/

/-- The two messages of a push, as one piece each. -/
def pushRequest : Callback := .request ⟨pushMaster.message.text, by decide +kernel⟩ roomy

@[inherit_doc pushRequest]
def pushReply : Callback := .reply ⟨plainResult.message.text, by decide +kernel⟩ roomy

/-- A push is answered, and its connection is kept alive. Then another one begins and is answered,
and its connection is freed at once. -/
def keptAlive : List (Bool × Callback) :=
  [(true, .newConnection roomy), (false, .newConnection roomy), (true, pushRequest),
    (true, pushReply), (false, pushRequest), (false, pushReply), (false, .freeConnection),
    (true, .freeConnection)]

/-- The exchange of the first connection is over before that of the second begins. -/
theorem isExchange_keptAlive :
    IsExchange keptAlive true 2 3 7 ∧ IsExchange keptAlive false 4 5 6 :=
  ⟨⟨by decide, by decide, rfl, rfl, by decide, by decide, by decide, by decide, by decide⟩,
    ⟨by decide, by decide, rfl, rfl, by decide, by decide, by decide, by decide, by decide⟩⟩

/-- What is processed when the connections are freed: the first push has not the smaller time. -/
theorem exists_run_keptAlive :
    ∃ s out, AuditedLog.init.run true (fun _ _ ↦ 0) keptAlive = .ok (s, out) ∧
      out.flatten.length = 2 ∧ ∃ X ∈ out.getD 7 [], ∃ Y ∈ out.getD 6 [],
        (X.connection = true ∧ Y.connection = false) ∧ X.calls ≠ [] ∧ Y.calls ≠ [] ∧
          ¬ X.time < Y.time := by
  have hcheck : (match AuditedLog.init.run true (fun _ _ ↦ 0) keptAlive with
      | .ok (_, out) => out.flatten.length == 2 && (out.getD 7 []).any fun X ↦
        (out.getD 6 []).any fun Y ↦ (X.connection && !Y.connection) &&
          (!X.calls.isEmpty && (!Y.calls.isEmpty && !decide (X.time < Y.time)))
      | .error _ => false) = true := by decide +kernel
  split at hcheck
  next s out hrun =>
    refine ⟨s, out, hrun, ?_⟩
    simpa using hcheck
  next => exact nomatch hcheck

/-- **On a connection that is kept alive, an exchange gets its time when the slot ends.** -/
theorem not_respectsRealOrder_keptAlive :
    ¬ RespectsRealOrder true (fun _ _ ↦ 0) keptAlive := by
  intro h
  obtain ⟨s, out, hrun, -, X, hX, Y, hY, -, hrowsX, hrowsY, hlt⟩ := exists_run_keptAlive
  obtain ⟨hfirst, hsecond⟩ := isExchange_keptAlive
  exact hlt (h s out hrun true false 2 3 7 4 5 6 X Y (by decide) hfirst hsecond (by decide) hX hY
    hrowsX hrowsY)

/-! ### The order of times -/

/-- **Which of two exchanges has the smaller time**: the one whose slot has ended first, by the next
request of its connection or by the freeing of it. -/
theorem time_lt_iff_position_lt {sgx : Bool} {junk : ℕ → ℕ → UInt8} {cbs : List (K × Callback)}
    {s : AuditedLog K} {out : List (List (ProcessedExchange K))}
    (hrun : AuditedLog.init.run sgx junk cbs = .ok (s, out))
    (hcount : out.flatten.length < 2147483647) {i j : ℕ} {X Y : ProcessedExchange K}
    (hX : X ∈ out.getD i []) (hY : Y ∈ out.getD j []) (hne : X.connection ≠ Y.connection)
    (hrowsX : X.calls ≠ []) (hrowsY : Y.calls ≠ []) :
    (EndsSlot cbs X.connection i ∧ EndsSlot cbs Y.connection j) ∧
      (AreRowsAt X.time X.calls ∧ AreRowsAt Y.time Y.calls) ∧ (X.time < Y.time ↔ i < j) := by
  have hendX := AuditedLog.endsSlot_of_run hrun hX
  have hendY := AuditedLog.endsSlot_of_run hrun hY
  refine ⟨⟨hendX, hendY⟩, ⟨AuditedLog.areRowsAt_of_run hrun hcount hX,
    AuditedLog.areRowsAt_of_run hrun hcount hY⟩, ?_, ?_⟩
  · intro hlt
    rcases lt_trichotomy i j with hij | rfl | hji
    · exact hij
    · obtain ⟨cb, hcb⟩ := hendX.exists_callback
      obtain ⟨cb', hcb'⟩ := hendY.exists_callback
      exact absurd (Prod.mk.inj (Option.some.inj (hcb.symm.trans hcb'))).1 hne
    · exact absurd (AuditedLog.time_lt_of_lt hrun hcount hji hY hX hrowsY hrowsX) hlt.not_gt
  · intro hij
    exact AuditedLog.time_lt_of_lt hrun hcount hij hX hY hrowsX hrowsY

/-- The two pushes: the one whose connection is freed first has the smaller time. -/
theorem time_lt_iff_position_lt_keptAlive :
    ∃ s out, AuditedLog.init.run true (fun _ _ ↦ 0) keptAlive = .ok (s, out) ∧
      ∃ X ∈ out.getD 7 [], ∃ Y ∈ out.getD 6 [],
        (EndsSlot keptAlive Y.connection 6 ∧ EndsSlot keptAlive X.connection 7) ∧
          (AreRowsAt Y.time Y.calls ∧ AreRowsAt X.time X.calls) ∧ (Y.time < X.time ↔ 6 < 7) := by
  obtain ⟨s, out, hrun, hcount, X, hX, Y, hY, ⟨htrue, hfalse⟩, hrowsX, hrowsY, -⟩ :=
    exists_run_keptAlive
  have hne : Y.connection ≠ X.connection := by
    rw [htrue, hfalse]
    exact Bool.false_ne_true
  exact ⟨s, out, hrun, X, hX, Y, hY,
    time_lt_iff_position_lt hrun (hcount.trans_lt (by decide)) hY hX hne hrowsY hrowsX⟩

end LibSeal
