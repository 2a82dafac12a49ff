import LibSeal.Git.Exchanges
import LibSeal.Logpoint.AuditedTraffic

/-!
# From the wire to the tables

The way of Git exchanges through the whole of the log. Clients and a server exchange messages on any
number of connections, some of them persistent, in pieces of any size; the callbacks of all
connections come in any order; what a connection has collected is handed to the auditor when its
slot ends, parsed, turned into rows, chained and stored.

What is in the tables afterwards (`isAudited_of_traffic`) are the rows of the exchanges, each once
and nothing else. The exchanges are numbered in the order in which their slots have ended, in which
those of one connection follow each other as they were sent, and the number is the time of the rows.
-/

namespace LibSeal

open Bytes

/-! ### Histories -/

/-- How Git exchanges are written. -/
def gitWire : WireFormat GitExchange where
  request := GitExchange.request
  reply := GitExchange.reply
  Readable := GitExchange.Readable
  request_lt h := h.request_lt
  reply_lt h := h.reply_lt

/-- A history of some exchanges, the first of which is processed at a time. -/
inductive IsHistory : ℕ → List GitExchange → List GitEvent → Prop where
  | nil (t : ℕ) : IsHistory t [] []
  | cons {t : ℕ} {x : GitExchange} {e : GitEvent} {xs : List GitExchange} {es : List GitEvent}
    (h : x.IsEvent t e) (hrest : IsHistory (t + 1) xs es) : IsHistory t (x :: xs) (e :: es)

namespace IsHistory

variable {t : ℕ} {xs xs' : List GitExchange} {es es' : List GitEvent}

theorem append (h : IsHistory t xs es) (h' : IsHistory (t + xs.length) xs' es') :
    IsHistory t (xs ++ xs') (es ++ es') := by
  induction h with
  | nil t => exact h'
  | @cons t x e xs es hx _ ih =>
    refine .cons hx (ih ?_)
    rwa [Nat.add_right_comm, Nat.add_assoc]

/-- The events of a history are those of its exchanges, each with its number. -/
theorem exists_of_mem {e : GitEvent} (h : IsHistory t xs es) (he : e ∈ es) :
    ∃ (n : ℕ) (x : GitExchange), xs[n]? = some x ∧ x.IsEvent (t + n : ℕ) e := by
  induction h with
  | nil t => exact nomatch he
  | @cons t x f xs es hx _ ih =>
    rcases List.mem_cons.1 he with rfl | he
    · exact ⟨0, x, rfl, hx⟩
    · obtain ⟨n, y, hy, hevent⟩ := ih he
      refine ⟨n + 1, y, hy, ?_⟩
      rwa [show t + (n + 1) = t + 1 + n by omega]

theorem exists_mem {n : ℕ} {x : GitExchange} (h : IsHistory t xs es) (hx : xs[n]? = some x) :
    ∃ e ∈ es, x.IsEvent (t + n : ℕ) e := by
  induction h generalizing n with
  | nil t => exact nomatch hx
  | @cons t y f xs es hy _ ih =>
    cases n with
    | zero =>
      obtain rfl := Option.some.inj hx
      exact ⟨f, List.mem_cons_self, hy⟩
    | succ n =>
      obtain ⟨e, he, hevent⟩ := ih hx
      refine ⟨e, List.mem_cons_of_mem _ he, ?_⟩
      rwa [show t + (n + 1) = t + 1 + n by omega]

theorem chronological (h : IsHistory t xs es) : Chronological es := by
  induction h with
  | nil t => exact List.Pairwise.nil
  | @cons t x e xs es hx hrest ih =>
    refine List.pairwise_cons.2 ⟨fun f hf ↦ ?_, ih⟩
    obtain ⟨n, y, -, hevent⟩ := hrest.exists_of_mem hf
    rw [hx.time_eq, hevent.time_eq]
    omega

end IsHistory

/-- **What the auditor makes of Git exchanges**: one event of each, with its number. -/
def gitFormat (uncompress : ℕ → Bytes → Option Bytes) :
    AuditedFormat .git uncompress gitWire gitStore where
  MemoryOk _ := True
  call := GitRow.call
  Makes t x next rows := next = t + 1 ∧ ∃ e : GitEvent, x.IsEvent t e ∧ rows = e.rows
  le_succ h := h.1.le
  isCallOf := by
    rintro t next ht x rows hx ⟨-, e, he, rfl⟩ r hr
    have hmem := he.perm.mem_iff.1 hr
    have htime : SqlText.FitsInt64 t := SqlText.fitsInt64_of_lt (Nat.lt_succ_of_lt ht)
    exact isCallOf_call (GitExchange.Readable.safe hx r hmem)
      (GitExchange.integersFit_of_mem_rows htime r hmem)
  exists_makes := by
    intro m _ t ht x hx
    obtain ⟨e, he, hprocess⟩ := GitExchange.exists_processed m.junk ht hx
    exact ⟨_, _, ⟨rfl, e, he, rfl⟩, hprocess⟩

/-- The rows are those of a history. -/
theorem exists_isHistory {uncompress : ℕ → Bytes → Option Bytes} {t last : ℕ}
    {xs : List GitExchange} {rows : List GitRow}
    (h : (gitFormat uncompress).History t xs last rows) :
    ∃ es, IsHistory t xs es ∧ rows = es.flatMap GitEvent.rows := by
  induction h with
  | nil t => exact ⟨[], .nil t, rfl⟩
  | cons hx _ ih =>
    obtain ⟨rfl, e, he, rfl⟩ := hx
    obtain ⟨es, hes, rfl⟩ := ih
    exact ⟨e :: es, .cons he hes, rfl⟩

/-! ### The tables -/

/-- The tables hold the rows of some exchanges and nothing else; the time of a row is the number of
its exchange. -/
structure IsAudited (xs : List GitExchange) (db : GitDatabase) : Prop where
  mem_updates : ∀ u, u ∈ db.updates.rows ↔
    ∃ (n : ℕ) (x : GitExchange), xs[n]? = some x ∧ GitRow.update u ∈ x.rows ((n + 1 : ℕ) : ℤ)
  mem_advertisements : ∀ a, a ∈ db.advertisements.rows ↔
    ∃ (n : ℕ) (x : GitExchange), xs[n]? = some x ∧ GitRow.advertisement a ∈ x.rows ((n + 1 : ℕ) : ℤ)

/-- **A history of exchanges is stored.** -/
theorem IsHistory.isAudited {xs : List GitExchange} {es : List GitEvent} (h : IsHistory 1 xs es) :
    IsAudited xs (.ofHistory es) := by
  have hrow : ∀ r : GitRow, (∃ e ∈ es, r ∈ e.rows) ↔
      ∃ (n : ℕ) (x : GitExchange), xs[n]? = some x ∧ r ∈ x.rows ((n + 1 : ℕ) : ℤ) := by
    intro r
    constructor
    · rintro ⟨e, he, hr⟩
      obtain ⟨n, x, hx, hevent⟩ := h.exists_of_mem he
      rw [Nat.add_comm] at hevent
      exact ⟨n, x, hx, hevent.perm.mem_iff.1 hr⟩
    · rintro ⟨n, x, hx, hr⟩
      obtain ⟨e, he, hevent⟩ := h.exists_mem hx
      rw [Nat.add_comm] at hevent
      exact ⟨e, he, hevent.perm.mem_iff.2 hr⟩
  refine ⟨fun u ↦ ?_, fun a ↦ ?_⟩
  · rw [GitDatabase.updates_ofHistory h.chronological, List.mem_flatMap, ← hrow]
    simp [GitEvent.rows]
  · rw [GitDatabase.advertisements_ofHistory h.chronological, List.mem_flatMap, ← hrow]
    simp [GitEvent.rows]

/-- The traffic leaves the tables of a history. -/
theorem Traffic.exists_isHistory {K : Type} [DecidableEq K] (T : Traffic gitWire K)
    (hcount : T.callbacks.length < 2147483647) {cfg : BuildConfig} (hdo : cfg.doInsert = true)
    (P : Platform) (uncompress : ℕ → Bytes → Option Bytes) (mem : ℕ → AuditorMemory)
    (signs : ℕ → Option Signature) (hsigns : cfg.signs = true → ∀ n, (signs n).isSome = true) :
    ∃ ys st es, T.LogsAs .git uncompress gitStore .init cfg P mem signs ys st ∧
      IsHistory 1 (exchangesOf ys) es ∧ st.db.content = .ofHistory es ∧
      st.lasthash = newLasthashes cfg P HashText.empty
        ((es.flatMap GitEvent.rows).map GitRow.call) := by
  obtain ⟨ys, st, last, rows, hlogs, hhistory, hdb, hhash⟩ := T.exists_logsAs
    (gitFormat uncompress) .init hcount hdo P mem (fun _ ↦ trivial) hsigns
  obtain ⟨es, hes, rfl⟩ := LibSeal.exists_isHistory hhistory
  exact ⟨ys, st, es, hlogs, hes, hdb, hhash⟩

/-- The rows are stored in the run in which the times are drawn as the slots end. -/
theorem Traffic.LogsAs.exists_auditedLog {K : Type} [DecidableEq K] {T : Traffic gitWire K}
    {uncompress : ℕ → Bytes → Option Bytes} {d : GitDatabase} {cfg : BuildConfig} {P : Platform}
    {mem : ℕ → AuditorMemory} {signs : ℕ → Option Signature}
    {ys : List (K × CarriedExchange gitWire)} {st : LogState GitDatabase}
    (h : T.LogsAs .git uncompress gitStore d cfg P mem signs ys st) :
    ∃ s pss, AuditedLog.init.run true (fun n ↦ (mem n).junk) T.callbacks = .ok (s, pss) ∧
      insertCalls cfg P (gitStore.engine cfg.addHash) (.init d)
        (pss.flatten.flatMap ProcessedExchange.calls) signs = .ok st := by
  obtain ⟨s, calls, hrun, hstored⟩ := h.logs
  have hgit := AuditorLog.run_git uncompress mem (AuditedLog.init : AuditedLog K) T.callbacks
  rcases hlog : AuditedLog.init.run true (fun n ↦ (mem n).junk) T.callbacks with fault | ⟨s', pss⟩
  · rw [hlog] at hgit
    exact nomatch hgit.symm.trans hrun
  · rw [hlog] at hgit
    obtain ⟨-, rfl⟩ := Prod.mk.inj (Except.ok.inj (hgit.symm.trans hrun))
    exact ⟨s', pss, rfl, hstored⟩

/-- **Every exchange is stored once**, and nothing else is. For any order of the callbacks of any
number of connections, any pieces, and whatever the auditor finds in memory, the run ends and the
tables hold the rows of all exchanges, numbered in the order in which their slots have ended, with
the times that are drawn as they end; and where rows are chained, `lasthash` is the head of the
chain of the rows in the tables. -/
theorem isAudited_of_traffic {K : Type} [DecidableEq K] (T : Traffic gitWire K)
    (hcount : T.callbacks.length < 2147483647) {cfg : BuildConfig} (hdo : cfg.doInsert = true)
    (P : Platform) (uncompress : ℕ → Bytes → Option Bytes) (mem : ℕ → AuditorMemory)
    (signs : ℕ → Option Signature) (hsigns : cfg.signs = true → ∀ n, (signs n).isSome = true) :
    ∃ ys st, T.LogsAs .git uncompress gitStore .init cfg P mem signs ys st ∧
      IsAudited (exchangesOf ys) st.db.content ∧
      (∃ s pss, AuditedLog.init.run true (fun n ↦ (mem n).junk) T.callbacks = .ok (s, pss) ∧
        insertCalls cfg P (gitStore.engine cfg.addHash) (.init .init)
          (pss.flatten.flatMap ProcessedExchange.calls) signs = .ok st) ∧
      (cfg.addHash = true → ∃ rows : List GitRow,
        rows.filterMap GitRow.update? = st.db.content.updates.rows ∧
        rows.filterMap GitRow.advertisement? = st.db.content.advertisements.rows ∧
        st.lasthash = HashChain.head (sha256 P) chainText HashText.empty
          (rows.map GitRow.call)) := by
  obtain ⟨ys, st, es, hlogs, hes, hdb, hhash⟩ :=
    T.exists_isHistory hcount hdo P uncompress mem signs hsigns
  refine ⟨ys, st, hlogs, hdb ▸ hes.isAudited, hlogs.exists_auditedLog,
    fun hadd ↦ ⟨es.flatMap GitEvent.rows, ?_, ?_, ?_⟩⟩
  · rw [hdb, GitDatabase.updates_ofHistory hes.chronological,
      GitEvent.filterMap_update?_flatMap_rows]
  · rw [hdb, GitDatabase.advertisements_ofHistory hes.chronological,
      GitEvent.filterMap_advertisement?_flatMap_rows]
  · rw [hhash, newLasthashes_eq_head hadd]

/-! ### A push and an advertisement on one connection -/

theorem repositoryOf_infoRefsLine :
    repositoryOf (infoRefsLine (ascii "/r.git/")) = .ok (ascii "/r.git/") := by
  decide +kernel

/-- A server that shows the branch at no commit. -/
def masterAtZero : RefAdvertisement :=
  advertise [⟨masterRef, zeroId⟩] (by decide) (by decide) (by decide)

theorem readable_push : (GitExchange.push pushMaster plainResult).Readable where
  request_lt := by decide +kernel
  reply_lt := by decide +kernel
  parses := Or.inl rfl
  quotable := ⟨⟨by decide, by decide⟩, by decide⟩

/-- It is asked for its references. -/
def askedAfterPush : GitExchange :=
  .infoRefs (infoRefs (ascii "/r.git/") (by decide) repositoryOf_infoRefsLine)
    (infoRefsReply (ascii "OK") (by decide) masterAtZero (by decide))

theorem readable_askedAfterPush : askedAfterPush.Readable where
  request_lt := by decide +kernel
  reply_lt := by decide +kernel
  parses := by
    show masterAtZero.FirstTold
    unfold RefAdvertisement.FirstTold
    decide
  quotable := ⟨⟨by decide, by decide⟩, by decide⟩

/-- A push that creates the branch, and then an advertisement, on a connection that is kept
alive. -/
def pushThenRefs : WireConnection gitWire where
  answers := roomy
  exchanges := [.inPieces gitWire readable_push 50,
    .inPieces gitWire readable_askedAfterPush 20]
  succeed := roomy_succeed

/-- The tables hold both. -/
theorem isAudited_of_traffic_keptAlive : ∃ ys st,
    pushThenRefs.traffic.LogsAs .git (fun _ _ ↦ none) gitStore .init ⟨true, true, true, true⟩
      twoRowPlatform (fun _ ↦ .zero) (fun _ ↦ some someSignature) ys st ∧
    IsAudited [.push pushMaster plainResult, askedAfterPush] st.db.content := by
  obtain ⟨ys, st, hlogs, haudited, -⟩ := isAudited_of_traffic pushThenRefs.traffic
    (by decide +kernel) (show (⟨true, true, true, true⟩ : BuildConfig).doInsert = true from rfl)
    twoRowPlatform (fun _ _ ↦ none) (fun _ ↦ .zero) (fun _ ↦ some someSignature) fun _ _ ↦ rfl
  rw [exchangesOf_of_logsAs hlogs] at haudited
  exact ⟨ys, st, hlogs, haudited⟩

end LibSeal
