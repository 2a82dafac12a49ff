import LibSeal.Auditing.RowTimes
import LibSeal.Connection.Traffic
import LibSeal.Git.LogicalTime
import LibSeal.Logpoint.Storage

/-!
# Traffic with an auditor behind it

The log with any of the three auditors, and the database behind the auditor. What is to be known of
an auditor is what it makes of one exchange (`AuditedFormat`); then the rest follows for all traffic
(`Traffic.exists_logsAs`): the run ends, and the tables hold the rows of all exchanges, in the order
in which their slots have ended, while `lasthash` goes along the chain of their calls.
-/

namespace LibSeal

open Bytes KeyedMachine

/-! ### The log with its auditor -/

/-- What an auditor finds in memory that it has not written. -/
structure AuditorMemory where
  junk : ℕ → UInt8
  stack : ℕ → UInt8
  reqJunk : ℕ → JsmnTok
  rspJunk : ℕ → JsmnTok

/-- Memory that is all zero. -/
def AuditorMemory.zero : AuditorMemory where
  junk _ := 0
  stack _ := 0
  reqJunk _ := ⟨.undefined, 0, 0, 0⟩
  rspJunk _ := ⟨.undefined, 0, 0, 0⟩

/-- The messages, as an auditor gets them. -/
def AuditorMemory.exchange (m : AuditorMemory) (req rsp : Bytes) : RawExchange :=
  ⟨req, rsp, m.junk, m.stack, m.reqJunk, m.rspJunk⟩

namespace Auditor

variable (A : Auditor) (uncompress : ℕ → Bytes → Option Bytes)

/-- `logpoint_log`, up to the execution of the statements. -/
def logpointLog (m : AuditorMemory) (counter : ℕ) (e : LogEntry) :
    Except CFault (ℕ × List (InsertCall A)) := do
  let req ← messageBytes e.req e.reqLen
  let rsp ← messageBytes e.rep e.repLen
  A.libsealProcessLogAtRuntime uncompress counter (m.exchange req rsp)

/-- The auditor gets some entries, one after the other. -/
def logEntries (m : AuditorMemory) : ℕ → List LogEntry → Except CFault (ℕ × List (InsertCall A))
  | counter, [] => .ok (counter, [])
  | counter, e :: es => do
    let (next, calls) ← A.logpointLog uncompress m counter e
    let (last, calls') ← logEntries m next es
    return (last, calls ++ calls')

end Auditor

/-- The log, and the counter of the auditor. -/
structure AuditorLog (K : Type) where
  log : ConnectionLog K
  counter : ℕ

namespace AuditorLog

variable {K : Type} [DecidableEq K]

/-- Before the first connection. -/
def init (A : Auditor) : AuditorLog K := ⟨.init, A.counterInit⟩

variable (A : Auditor) (uncompress : ℕ → Bytes → Option Bytes)

/-- A callback, and the calls of `insert_statement` that follow from it. -/
def step (m : AuditorMemory) (s : AuditorLog K) (cb : K × Callback) :
    Except CFault (AuditorLog K × List (InsertCall A)) := do
  let (log, out) ← s.log.step true cb
  let (counter, calls) ← A.logEntries uncompress m s.counter (out.map fun o ↦ o.2.2)
  return (⟨log, counter⟩, calls)

/-- A run of callbacks. At each of them there may be something else in memory. -/
def run : (ℕ → AuditorMemory) → AuditorLog K → List (K × Callback) →
    Except CFault (AuditorLog K × List (InsertCall A))
  | _, s, [] => .ok (s, [])
  | mem, s, cb :: cbs => do
    let (s, calls) ← step A uncompress (mem 0) s cb
    let (s, calls') ← run (fun n ↦ mem (n + 1)) s cbs
    return (s, calls ++ calls')

/-! ### The Git auditor -/

omit [DecidableEq K] in
theorem logEntries_git (m : AuditorMemory) (t : ℕ) (es : List (K × LogEntry)) :
    Auditor.git.logEntries uncompress m t (es.map Prod.snd) =
      (processEntries m.junk t es).map fun p ↦ (p.1, p.2.flatMap ProcessedExchange.calls) := by
  induction es generalizing t with
  | nil => rfl
  | cons p es ih =>
    obtain ⟨k, e⟩ := p
    have hlog : Auditor.git.logpointLog uncompress m t e = logpointLogGit m.junk t e := rfl
    rw [List.map_cons, Auditor.logEntries, processEntries, hlog]
    rcases logpointLogGit m.junk t e with - | ⟨next, calls⟩
    · rfl
    · show (Auditor.git.logEntries uncompress m next (es.map Prod.snd) >>= _) =
        (processEntries m.junk next es >>= _).map _
      rw [ih]
      rcases processEntries m.junk next es with - | ⟨last, processed⟩ <;> rfl

theorem step_git (m : AuditorMemory) (s : AuditedLog K) (cb : K × Callback) :
    step .git uncompress m ⟨s.log, s.logictime⟩ cb =
      (s.step true m.junk cb).map fun p ↦
        (⟨p.1.log, p.1.logictime⟩, p.2.flatMap ProcessedExchange.calls) := by
  rw [step, AuditedLog.step]
  rcases s.log.step true cb with - | ⟨log, out⟩
  · rfl
  · have hentries : Auditor.git.logEntries uncompress m s.logictime (out.map fun o ↦ o.2.2) =
        (processEntries m.junk s.logictime (out.map fun o ↦ (o.1, o.2.2))).map fun p ↦
          (p.1, p.2.flatMap ProcessedExchange.calls) := by
      rw [← logEntries_git, List.map_map]
      rfl
    show (Auditor.git.logEntries uncompress m s.logictime (out.map _) >>= _) =
      (processEntries m.junk s.logictime (out.map _) >>= _).map _
    rw [hentries]
    rcases processEntries m.junk s.logictime _ with - | ⟨next, processed⟩ <;> rfl

/-- **The log of the Git auditor** is the one in which the times are drawn as the slots end. -/
theorem run_git (mem : ℕ → AuditorMemory) (s : AuditedLog K) (cbs : List (K × Callback)) :
    run .git uncompress mem ⟨s.log, s.logictime⟩ cbs =
      (s.run true (fun n ↦ (mem n).junk) cbs).map fun p ↦
        (⟨p.1.log, p.1.logictime⟩, p.2.flatten.flatMap ProcessedExchange.calls) := by
  induction cbs generalizing mem s with
  | nil => rfl
  | cons cb cbs ih =>
    rw [run, AuditedLog.run, step_git]
    rcases s.step true (mem 0).junk cb with - | ⟨t, processed⟩
    · rfl
    · show (run .git uncompress (fun n ↦ mem (n + 1)) ⟨t.log, t.logictime⟩ cbs >>= _) =
        (t.run true (fun n ↦ (mem (n + 1)).junk) cbs >>= _).map _
      rw [ih]
      rcases t.run true (fun n ↦ (mem (n + 1)).junk) cbs with - | ⟨t', pss⟩
      · rfl
      · show Except.ok (_, _ ++ _) =
          Except.ok (_, (processed :: pss).flatten.flatMap ProcessedExchange.calls)
        rw [List.flatten_cons, List.flatMap_append]

end AuditorLog

/-! ### What an auditor makes of an exchange -/

/-- **What is known of an auditor**: of every exchange that it can read it makes some rows, which
can be stored as they are, whatever it finds in memory, within limits. -/
structure AuditedFormat (A : Auditor) (uncompress : ℕ → Bytes → Option Bytes) {X R D : Type}
    (W : WireFormat X) (B : RowStore R D) where
  MemoryOk : AuditorMemory → Prop
  call : R → InsertCall A
  /-- The counter before an exchange, the exchange, the counter behind it, and the rows. -/
  Makes : ℕ → X → ℕ → List R → Prop
  le_succ {t next : ℕ} {x : X} {rows : List R} (h : Makes t x next rows) : next ≤ t + 1
  isCallOf {t next : ℕ} (ht : t < 2147483647) {x : X} {rows : List R} (hx : W.Readable x)
    (h : Makes t x next rows) : ∀ r ∈ rows, B.IsCallOf (call r) r
  exists_makes {m : AuditorMemory} (hm : MemoryOk m) {t : ℕ} (ht : t < 2147483647) {x : X}
    (hx : W.Readable x) : ∃ next rows, Makes t x next rows ∧
      A.libsealProcessLogAtRuntime uncompress t (m.exchange (W.request x) (W.reply x)) =
        .ok (next, rows.map call)

namespace AuditedFormat

variable {A : Auditor} {uncompress : ℕ → Bytes → Option Bytes} {X R D : Type} {W : WireFormat X}
  {B : RowStore R D} (F : AuditedFormat A uncompress W B)

/-- What it makes of some exchanges, one after the other. -/
inductive History : ℕ → List X → ℕ → List R → Prop where
  | nil (t : ℕ) : History t [] t []
  | cons {t next last : ℕ} {x : X} {xs : List X} {rows rows' : List R}
    (h : F.Makes t x next rows) (hrest : History next xs last rows') :
    History t (x :: xs) last (rows ++ rows')

variable {F} {t next last : ℕ} {xs xs' : List X} {rows rows' : List R}

theorem History.append (h : F.History t xs next rows) (h' : F.History next xs' last rows') :
    F.History t (xs ++ xs') last (rows ++ rows') := by
  induction h with
  | nil t => exact h'
  | cons hx _ ih =>
    rw [List.cons_append, List.append_assoc]
    exact .cons hx (ih h')

theorem History.le_add (h : F.History t xs last rows) : last ≤ t + xs.length := by
  induction h with
  | nil t => exact le_rfl
  | cons hx _ ih =>
    have hnext := F.le_succ hx
    rw [List.length_cons]
    omega

/-- Its rows are called for as they are stored. -/
theorem History.isCallOf (h : F.History t xs last rows) (ht : t + xs.length < 2147483648)
    (hxs : ∀ x ∈ xs, W.Readable x) : List.Forall₂ B.IsCallOf (rows.map F.call) rows := by
  rw [List.forall₂_map_left_iff, List.forall₂_same]
  induction h with
  | nil t => exact List.forall_mem_nil _
  | cons hx _ ih =>
    obtain ⟨hfirst, hothers⟩ := List.forall_mem_cons.1 hxs
    have hnext := F.le_succ hx
    rw [List.length_cons] at ht
    exact List.forall_mem_append.2 ⟨F.isCallOf (by omega) hfirst hx, ih (by omega) hothers⟩

variable (F) in
/-- The auditor gets the two messages of an exchange. -/
theorem exists_logpointLog {m : AuditorMemory} (hm : F.MemoryOk m) {t : ℕ} (ht : t < 2147483647)
    (x : CarriedExchange W) : ∃ next rows, F.Makes t x.exchange next rows ∧
      A.logpointLog uncompress m t x.entry = .ok (next, rows.map F.call) := by
  obtain ⟨next, rows, hmakes, hprocess⟩ := F.exists_makes hm ht x.readable
  obtain ⟨hreq, hreqLen, hrep, hrepLen⟩ := x.messages_entry
  have hrequest : messageBytes x.entry.req x.entry.reqLen = .ok (W.request x.exchange) := by
    rw [hreq, hreqLen, messageBytes, if_neg (lt_irrefl _), List.take_length]
  have hreply : messageBytes x.entry.rep x.entry.repLen = .ok (W.reply x.exchange) := by
    rw [hrepLen]
    rcases hblock : x.entry.rep with - | b
    · rw [hblock, Option.getD_none] at hrep
      rw [messageBytes, ← hrep]
      rfl
    · rw [hblock, Option.getD_some] at hrep
      rw [messageBytes, hrep, if_neg (lt_irrefl _), List.take_length]
  exact ⟨next, rows, hmakes,
    CFault.bind_eq_ok.2 ⟨_, hrequest, CFault.bind_eq_ok.2 ⟨_, hreply, hprocess⟩⟩⟩

/-- Entries, one after the other. -/
theorem exists_logEntries {m : AuditorMemory} (hm : F.MemoryOk m) {t : ℕ}
    (xs : List (CarriedExchange W)) (ht : t + xs.length < 2147483648) : ∃ last rows,
      F.History t (xs.map CarriedExchange.exchange) last rows ∧
        A.logEntries uncompress m t (xs.map CarriedExchange.entry) =
          .ok (last, rows.map F.call) := by
  induction xs generalizing t with
  | nil => exact ⟨t, [], .nil t, rfl⟩
  | cons x xs ih =>
    rw [List.length_cons] at ht
    obtain ⟨next, rows, hmakes, hlog⟩ :=
      F.exists_logpointLog hm (show t < 2147483647 by omega) x
    have hnext := F.le_succ hmakes
    have hroom : next + xs.length < 2147483648 := by omega
    obtain ⟨last, rows', hhistory, hrest⟩ := ih hroom
    refine ⟨last, rows ++ rows', .cons hmakes hhistory,
      CFault.bind_eq_ok.2 ⟨_, hlog, CFault.bind_eq_ok.2 ⟨_, hrest, ?_⟩⟩⟩
    rw [List.map_append]
    rfl

/-- The same for a run of callbacks. -/
theorem exists_run {K : Type} [DecidableEq K] {mem : ℕ → AuditorMemory}
    (hmem : ∀ n, F.MemoryOk (mem n)) {cbs : List (K × Callback)} {log log' : ConnectionLog K}
    {out : List (K × LogEntry × LogEntry)} (hrun : log.run true cbs = .ok (log', out))
    {ys : List (CarriedExchange W)} (hout : out.map (fun o ↦ o.2.2) = ys.map CarriedExchange.entry)
    {t : ℕ} (ht : t + ys.length < 2147483648) : ∃ last rows,
      F.History t (ys.map CarriedExchange.exchange) last rows ∧
        AuditorLog.run A uncompress mem ⟨log, t⟩ cbs = .ok (⟨log', last⟩, rows.map F.call) := by
  induction cbs generalizing log out ys t mem with
  | nil =>
    obtain ⟨rfl, rfl⟩ := Prod.mk.inj (Except.ok.inj hrun)
    obtain rfl : ys = [] := List.map_eq_nil_iff.1 hout.symm
    exact ⟨t, [], .nil t, rfl⟩
  | cons cb cbs ih =>
    obtain ⟨⟨log₁, out₁⟩, hstep, hrun⟩ := CFault.bind_eq_ok.1 hrun
    obtain ⟨⟨log₂, out₂⟩, hrest, hrun⟩ := CFault.bind_eq_ok.1 hrun
    obtain ⟨rfl, rfl⟩ := Prod.mk.inj (Except.ok.inj hrun)
    rw [List.map_append] at hout
    obtain ⟨ys₁, ys₂, rfl, hys₁, hys₂⟩ := List.map_eq_append_iff.1 hout.symm
    rw [List.length_append] at ht
    obtain ⟨next, rows, hhistory, hentries⟩ :=
      exists_logEntries (hmem 0) (t := t) ys₁ (by omega)
    have hnext := hhistory.le_add
    rw [List.length_map] at hnext
    have hroom : next + ys₂.length < 2147483648 := by omega
    obtain ⟨last, rows', hhistory', hruns⟩ :=
      ih (fun n ↦ hmem (n + 1)) hrest hys₂.symm hroom
    rw [hys₁] at hentries
    have hfirst : AuditorLog.step A uncompress (mem 0) ⟨log, t⟩ cb =
        .ok (⟨log₁, next⟩, rows.map F.call) :=
      CFault.bind_eq_ok.2 ⟨_, hstep, CFault.bind_eq_ok.2 ⟨_, hentries, rfl⟩⟩
    refine ⟨last, rows ++ rows', ?_, CFault.bind_eq_ok.2 ⟨_, hfirst,
      CFault.bind_eq_ok.2 ⟨_, hruns, ?_⟩⟩⟩
    · rw [List.map_append]
      exact hhistory.append hhistory'
    · rw [List.map_append]
      rfl

end AuditedFormat

/-! ### Numbered rows -/

section

variable {X α : Type}

/-- The rows of some exchanges, of which the first has a number. -/
def numberedRows (rows : ℕ → X → List α) (t : ℕ) (xs : List X) : List α :=
  (xs.zipIdx t).flatMap fun (x, n) ↦ rows n x

theorem numberedRows_cons (rows : ℕ → X → List α) (t : ℕ) (x : X) (xs : List X) :
    numberedRows rows t (x :: xs) = rows t x ++ numberedRows rows (t + 1) xs := by
  rw [numberedRows, List.zipIdx_cons, List.flatMap_cons]
  rfl

theorem mem_numberedRows {rows : ℕ → X → List α} {t : ℕ} {xs : List X} {r : α} :
    r ∈ numberedRows rows t xs ↔ ∃ (n : ℕ) (x : X), xs[n]? = some x ∧ r ∈ rows (t + n) x := by
  rw [numberedRows, List.mem_flatMap]
  constructor
  · rintro ⟨⟨x, m⟩, hmem, hr⟩
    obtain ⟨n, hn⟩ := List.mem_iff_getElem?.1 hmem
    rw [List.getElem?_zipIdx, Option.map_eq_some_iff] at hn
    obtain ⟨y, hy, heq⟩ := hn
    cases heq
    exact ⟨n, x, hy, hr⟩
  · rintro ⟨n, x, hx, hr⟩
    refine ⟨(x, t + n), List.mem_iff_getElem?.2 ⟨n, ?_⟩, hr⟩
    rw [List.getElem?_zipIdx, hx, Option.map_some]

end

/-! ### Traffic -/

section

variable {A : Auditor} {uncompress : ℕ → Bytes → Option Bytes} {X R D : Type} {W : WireFormat X}
  {B : RowStore R D} {K : Type} [DecidableEq K]

/-- What becomes of the traffic: the exchanges in the order in which their slots end, and the state
that the calls of `insert_statement` leave. -/
structure Traffic.LogsAs (T : Traffic W K) (A : Auditor) (uncompress : ℕ → Bytes → Option Bytes)
    (B : RowStore R D) (d : D) (cfg : BuildConfig) (P : Platform) (mem : ℕ → AuditorMemory)
    (signs : ℕ → Option Signature) (ys : List (K × CarriedExchange W)) (st : LogState D) :
    Prop where
  /-- Every exchange is there, those of a connection as they were sent. -/
  order : ∀ k, proj k ys = T.exchanges k
  /-- The log hands them on in this order. -/
  handsOn : ∃ log, ConnectionLog.init.run true T.callbacks =
    .ok (log, ys.map fun y ↦ (y.1, y.2.entry, y.2.entry))
  logs : ∃ s calls, AuditorLog.run A uncompress mem (.init A) T.callbacks = .ok (s, calls) ∧
    insertCalls cfg P (B.engine cfg.addHash) (.init d) calls signs = .ok st

/-- The exchanges that the log has handed on. -/
def exchangesOf (ys : List (K × CarriedExchange W)) : List X := ys.map fun y ↦ y.2.exchange

/-- **Traffic leaves the rows of its exchanges.** -/
theorem Traffic.exists_logsAs (T : Traffic W K) (F : AuditedFormat A uncompress W B) (d : D)
    (hcount : T.callbacks.length < 2147483647) {cfg : BuildConfig} (hdo : cfg.doInsert = true)
    (P : Platform) (mem : ℕ → AuditorMemory) (hmem : ∀ n, F.MemoryOk (mem n))
    {signs : ℕ → Option Signature} (hsigns : cfg.signs = true → ∀ n, (signs n).isSome = true) :
    ∃ ys st last rows, T.LogsAs A uncompress B d cfg P mem signs ys st ∧
      F.History A.counterInit (exchangesOf ys) last rows ∧ st.db.content = rows.foldl B.put d ∧
        st.lasthash = newLasthashes cfg P HashText.empty (rows.map F.call) := by
  obtain ⟨log, ys, hrun, hys⟩ := exists_run_of_traffic T
  have hlength : ys.length ≤ T.callbacks.length := by
    have hout := length_out_le hrun
    rwa [List.length_map] at hout
  have hinit : A.counterInit ≤ 1 := by
    cases A <;> decide
  have hout : (ys.map fun y ↦ (y.1, y.2.entry, y.2.entry)).map (fun o ↦ o.2.2) =
      (ys.map Prod.snd).map CarriedExchange.entry := by
    rw [List.map_map, List.map_map]
    rfl
  obtain ⟨last, rows, hhistory, hcalls⟩ := F.exists_run hmem hrun hout (t := A.counterInit)
    (by rw [List.length_map]; omega)
  rw [List.map_map] at hhistory
  have hreadable : ∀ x ∈ exchangesOf ys, W.Readable x :=
    List.forall_mem_map.2 fun y _ ↦ y.2.readable
  have hempty : BetweenCalls (LogState.init d) := ⟨rfl, rfl, rfl⟩
  have hstored := insertCalls_of_safe (P := P) hdo
    (AuditedFormat.History.isCallOf hhistory (by rw [List.length_map]; omega) hreadable) hsigns
    hempty
  exact ⟨ys, _, last, rows, ⟨hys, ⟨log, hrun⟩, _, _, hcalls, hstored⟩, hhistory, rfl, rfl⟩

/-- The exchanges of a connection by itself are processed in their order. -/
theorem exchangesOf_of_logsAs {c : WireConnection W} {d : D} {cfg : BuildConfig} {P : Platform}
    {mem : ℕ → AuditorMemory} {signs : ℕ → Option Signature}
    {ys : List (Unit × CarriedExchange W)} {st : LogState D}
    (h : c.traffic.LogsAs A uncompress B d cfg P mem signs ys st) :
    exchangesOf ys = c.exchanges.map CarriedExchange.exchange := by
  have horder := h.order ()
  rw [Traffic.exchanges, WireConnection.traffic, List.flatMap_singleton, proj,
    List.filter_eq_self.2 fun _ _ ↦ by simp] at horder
  rw [← horder, exchangesOf, List.map_map]
  rfl

end

theorem newline_notMem_textPlain : 10 ∉ ascii "text/plain" := by
  decide

theorem newline_notMem_okLine : 10 ∉ ascii "HTTP/1.1 200 OK" := by
  decide

def someSignature : Signature := ⟨Vector.replicate 8 0, Vector.replicate 8 0⟩

end LibSeal
