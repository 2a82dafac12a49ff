import LibSeal.Git.History
import LibSeal.Git.Push
import LibSeal.Logpoint.Storage

/-!
# The rows of Git exchanges

An exchange of a Git server, as it is on the wire, and the rows that it comes to. The auditor makes
exactly these rows of it (`exists_processed`), in the order of the names, and they are stored as
they are (`isCallOf_call`), as long as the exchange is one that it can read
(`GitExchange.Readable`): nothing in it needs escaping in SQL, and it is none of those on which its
parsers fail.
-/

namespace LibSeal

open Bytes SqlText LoggedRow

/-! ### Rows as they are stored -/

/-- The type of an update that a stored text stands for. -/
def UpdateType.ofText (s : Bytes) : Option UpdateType :=
  [UpdateType.delete, .create, .update].find? fun type ↦ s = [type.char]

/-- The row as it is logged. -/
def GitRow.logged : GitRow → LoggedRow
  | update u => .pushed u.time u.repo u.branch u.cid u.type u.result
  | advertisement a => .advertised a.time a.repo a.branch a.cid

/-- The integers of the row are stored as integers. -/
def GitRow.IntegersFit : GitRow → Prop
  | update u => FitsInt64 u.time ∧ FitsInt64 u.result
  | advertisement a => FitsInt64 a.time

/-- The row that the values of an `INSERT` make. -/
def GitRow.ofValues (table : Bytes) (values : List SqlValue) : Option GitRow :=
  if table = ascii "updates" then
    match values with
    | [time, .text repo, .text branch, .text cid, .text type, result] => do
      let time ← sqlInteger time
      let type ← UpdateType.ofText type
      let result ← sqlInteger result
      return .update ⟨time, repo, branch, cid, type, result⟩
    | _ => none
  else if table = ascii "advertisements" then
    match values with
    | [time, .text repo, .text branch, .text cid] => do
      let time ← sqlInteger time
      return .advertisement ⟨time, repo, branch, cid⟩
    | _ => none
  else none

/-- The database of the Git auditor. -/
def gitStore : RowStore GitRow GitDatabase where
  logged := GitRow.logged
  IntegersFit := GitRow.IntegersFit
  ofValues := GitRow.ofValues
  insert := GitDatabase.insert
  ofValues_values := by
    rintro (⟨time, repo, branch, cid, type, result⟩ | ⟨time, repo, branch, cid⟩) hfit
    · obtain ⟨htime, hresult⟩ : FitsInt64 time ∧ FitsInt64 result := hfit
      have htype : UpdateType.ofText [type.char] = some type := by
        rcases type with - | - | - <;> rfl
      simp [GitRow.logged, LoggedRow.values, LoggedRow.table, GitRow.ofValues, toStr, htype,
        sqlInteger_ofInt, htime, hresult,
        show (CString.ofBuffer (ascii "updates")).bytes = ascii "updates" by decide]
    · have htime : FitsInt64 time := hfit
      simp [GitRow.logged, LoggedRow.values, LoggedRow.table, GitRow.ofValues, toStr,
        sqlInteger_ofInt, htime,
        show (CString.ofBuffer (ascii "advertisements")).bytes = ascii "advertisements" by decide,
        show ¬ ascii "advertisements" = ascii "updates" by decide]

/-- A row is called for as it is stored. -/
theorem isCallOf_call {r : GitRow} (h : r.logged.Safe) (hfit : r.IntegersFit) :
    gitStore.IsCallOf r.call r := by
  rcases r with u | a
  · exact ⟨rfl, rfl, h, hfit⟩
  · exact ⟨rfl, rfl, h, hfit⟩

/-! ### Exchanges -/

/-- The row of a command. -/
def Command.row (time : ℤ) (repo : Bytes) (accepted : Command → Bool) (c : Command) : UpdateRow :=
  ⟨time, repo, c.name.bytes, c.new.bytes, c.type, if accepted c then 1 else 0⟩

/-- The row of an advertised reference. -/
def Ref.row (time : ℤ) (repo : Bytes) (r : Ref) : AdvertisementRow :=
  ⟨time, repo, r.name.bytes, r.id.bytes⟩

/-- An exchange of a Git server: a push, or a request for its references. -/
inductive GitExchange where
  | push (req : PushRequest) (rsp : PushResult)
  | infoRefs (req : InfoRefsRequest) (rsp : InfoRefsReply req.service)

namespace GitExchange

/-- The bytes of the request. -/
def request : GitExchange → Bytes
  | push req _ => req.message.text
  | infoRefs req _ => req.message.text

/-- The bytes of the reply. -/
def reply : GitExchange → Bytes
  | push _ rsp => rsp.message.text
  | infoRefs _ rsp => rsp.message.text

/-- The rows of an exchange, with a time, in the order in which they are sent. -/
def rows (time : ℤ) : GitExchange → List GitRow
  | push req rsp => req.list.commands.map fun c ↦
    .update (c.row time req.repository rsp.accepts)
  | infoRefs req rsp => rsp.advertisement.refs.map fun r ↦
    .advertisement (r.row time req.repository)

/-- What the auditor can read and SQLite can read again. -/
structure Readable (x : GitExchange) : Prop where
  request_lt : x.request.length < 2147483648
  reply_lt : x.reply.length < 2147483648
  parses : match x with
    | push _ rsp => rsp.IsTerminated
    | infoRefs _ rsp => rsp.advertisement.FirstTold
  quotable : match x with
    | push req _ => Quotable req.repository ∧ ∀ c ∈ req.list.commands, quote ∉ c.name.bytes
    | infoRefs req rsp =>
      Quotable req.repository ∧ ∀ r ∈ rsp.advertisement.refs, quote ∉ r.name.bytes

theorem quote_notMem_id (id : ObjectId) : quote ∉ id.bytes :=
  fun h ↦ absurd (id.isHex_bytes _ h) (by decide)

/-- The rows of an exchange need no escaping. -/
theorem Readable.safe {x : GitExchange} (h : x.Readable) {time : ℤ} :
    ∀ r ∈ x.rows time, r.logged.Safe := by
  rcases x with ⟨req, rsp⟩ | ⟨req, rsp⟩
  · refine List.forall_mem_map.2 fun c hc ↦ ⟨h.quotable.1, ⟨h.quotable.2 c hc, c.name.zero_notMem⟩,
      quote_notMem_id c.new, c.new.zero_notMem⟩
  · refine List.forall_mem_map.2 fun r hr ↦ ⟨h.quotable.1, ⟨h.quotable.2 r hr, r.name.zero_notMem⟩,
      quote_notMem_id r.id, r.id.zero_notMem⟩

/-- The outcome of a command is 0 or 1, and the time is not too late. -/
theorem integersFit_of_mem_rows {x : GitExchange} {time : ℤ} (htime : FitsInt64 time) :
    ∀ r ∈ x.rows time, r.IntegersFit := by
  rcases x with ⟨req, rsp⟩ | ⟨req, rsp⟩
  · refine List.forall_mem_map.2 fun c _ ↦ ⟨htime, ?_⟩
    rw [Command.row]
    dsimp only
    split_ifs <;> decide
  · exact List.forall_mem_map.2 fun r _ ↦ htime

/-- An exchange is one event of the history. -/
structure IsEvent (x : GitExchange) (time : ℤ) (e : GitEvent) : Prop where
  time_eq : e.time = time
  perm : e.rows.Perm (x.rows time)

/-- The event of a push whose commands have been sorted. -/
theorem isEvent_push {req : PushRequest} (rsp : PushResult) (time : ℤ) {sorted : List Command}
    (hperm : sorted.Perm req.list.commands) :
    ∃ e, (push req rsp).IsEvent time e ∧ e.rows = sorted.map fun c ↦
      .update (c.row time req.repository rsp.accepts) := by
  have hnodup : ((sorted.map (Command.row time req.repository rsp.accepts)).map
      UpdateRow.key).Nodup := by
    rw [List.map_map]
    refine List.Nodup.of_map (fun k ↦ k.2.2) ?_
    rw [List.map_map]
    exact (hperm.map fun c ↦ c.name.bytes).nodup_iff.2 req.list.nodup
  refine ⟨.push time (sorted.map (Command.row time req.repository rsp.accepts))
    (List.forall_mem_map.2 fun c _ ↦ rfl) hnodup, ⟨rfl, ?_⟩, ?_⟩
  · rw [GitEvent.rows, GitEvent.updates, GitEvent.advertisements, List.map_map, List.map_nil,
      List.append_nil]
    exact hperm.map _
  · rw [GitEvent.rows, GitEvent.updates, GitEvent.advertisements, List.map_map, List.map_nil,
      List.append_nil]
    rfl

/-- The event of an advertisement whose references have been sorted. -/
theorem isEvent_infoRefs {req : InfoRefsRequest} (rsp : InfoRefsReply req.service) (time : ℤ)
    {sorted : List Ref} (hperm : sorted.Perm rsp.advertisement.refs) :
    ∃ e, (infoRefs req rsp).IsEvent time e ∧ e.rows = sorted.map fun r ↦
      .advertisement (r.row time req.repository) := by
  have hnodup : ((sorted.map (Ref.row time req.repository)).map AdvertisementRow.key).Nodup := by
    rw [List.map_map]
    refine List.Nodup.of_map (fun k ↦ k.2.2) ?_
    rw [List.map_map]
    exact (hperm.map fun r ↦ r.name.bytes).nodup_iff.2 rsp.advertisement.nodup
  refine ⟨.advertise time (sorted.map (Ref.row time req.repository))
    (List.forall_mem_map.2 fun r _ ↦ rfl) hnodup, ⟨rfl, ?_⟩, ?_⟩
  · rw [GitEvent.rows, GitEvent.updates, GitEvent.advertisements, List.map_map, List.map_nil,
      List.nil_append]
    exact hperm.map _
  · rw [GitEvent.rows, GitEvent.updates, GitEvent.advertisements, List.map_map, List.map_nil,
      List.nil_append]
    rfl

/-- **What the auditor makes of an exchange** that it can read: one event, with the time at which it
gets it. -/
theorem exists_processed (junk : ℕ → UInt8) {time : ℕ} (htime : time < 2147483647)
    {x : GitExchange} (h : x.Readable) : ∃ e, x.IsEvent time e ∧
      libsealProcessLogAtRuntime junk time x.request x.reply =
        .ok (time + 1, e.rows.map GitRow.call) := by
  have hnext : (time + 1) % 18446744073709551616 = time + 1 := Nat.mod_eq_of_lt (by omega)
  have hint : toInt32 time = time := toInt32_of_lt (by omega)
  rcases x with ⟨req, rsp⟩ | ⟨req, rsp⟩
  · obtain ⟨sorted, hperm, -, hprocess⟩ := exists_libsealProcessLogAtRuntime_of_isTerminated junk
      time h.request_lt h.reply_lt h.parses
    obtain ⟨e, he, hrows⟩ := isEvent_push rsp time hperm
    refine ⟨e, he, ?_⟩
    rw [hnext, hint] at hprocess
    rw [hrows, List.map_map]
    exact hprocess
  · obtain ⟨evReq, hevReq, hparsedReq⟩ :=
      req.message.httpToEvent_text junk (firstLineName_of_get req.get) h.request_lt
    obtain ⟨evRsp, hevRsp, hparsedRsp⟩ :=
      rsp.message.httpToEvent_text junk (firstLineName_of_http rsp.http) h.reply_lt
    obtain ⟨sorted, hperm, -, hprocess⟩ := exists_processEvents_of_transform
      (show time < 2147483648 by omega) rsp.advertisement.nodup
      (transformEvents_infoRefs h.parses hparsedReq hparsedRsp)
    obtain ⟨e, he, hrows⟩ := isEvent_infoRefs rsp time hperm
    refine ⟨e, he, ?_⟩
    rw [libsealProcessLogAtRuntime, request, reply, hevReq, hevRsp, hrows, List.map_map]
    exact hprocess

end GitExchange

end LibSeal
