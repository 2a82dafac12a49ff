import LibSeal.Logpoint.Storage
import LibSeal.OwnCloud.Polls
import LibSeal.OwnCloud.Soundness
import LibSeal.OwnCloud.UpdateText

/-!
# The rows of ownCloud exchanges

An exchange with ownCloud, as it is on the wire, and the batch of operations that it passes on, if
any: from a member to the server or from the server to a member. The auditor makes one row of a
batch, and none of anything else, and the logical time moves on with every exchange
(`libsealProcessLogAtRuntime_eq`).
-/

namespace LibSeal

open Bytes SqlText LoggedRow Json

/-! ### Batches -/

/-- Operations on the document of a session, with who sent them and who receives them. The server
is 0, and one of the two. -/
structure Batch where
  esid : Bytes
  sender : ℤ
  receiver : ℤ
  operations : List Operation
  server : sender = 0 ∨ receiver = 0

/-- What is logged of the operations. -/
def Batch.update (b : Batch) : Bytes := b.operations.flatMap Operation.command

/-- A batch, as it is stored. -/
structure OwnCloudRow where
  time : ℕ
  esid : Bytes
  sender : ℤ
  receiver : ℤ
  upd : Bytes
  server : sender = 0 ∨ receiver = 0

namespace OwnCloudRow

/-- The row as it is logged. -/
def logged (r : OwnCloudRow) : LoggedRow :=
  if r.sender = 0 then .served r.time r.esid (toStr r.receiver) r.upd
  else .added r.time r.esid (toStr r.sender) r.upd

/-- The call that hands it over. -/
def call (r : OwnCloudRow) : InsertCall .owncloud :=
  insertSync (syncTuple r.time r.esid (toStr r.sender) (toStr r.receiver) r.upd)

/-- The row in the table. -/
def syncRow (r : OwnCloudRow) : SyncRow :=
  ⟨r.time, .ofBuffer r.esid, r.sender, r.receiver, .ofBuffer r.upd⟩

/-- The integers of the row are stored as integers. -/
def IntegersFit (r : OwnCloudRow) : Prop :=
  FitsInt64 r.time ∧ FitsInt64 r.sender ∧ FitsInt64 r.receiver

/-- The row that the values of an `INSERT` make, if the auditor can have called for it. -/
def ofValues (values : List SqlValue) : Option OwnCloudRow :=
  match values with
  | [time, .text esid, sender, receiver, .text upd] => do
    let time ← sqlInteger time
    let sender ← sqlInteger sender
    let receiver ← sqlInteger receiver
    if h : (sender = 0 ∨ receiver = 0) ∧ 0 ≤ time then
      some ⟨time.toNat, esid, sender, receiver, upd, h.1⟩
    else none
  | _ => none

theorem toStr_zero : toStr 0 = ascii "0" := by
  decide

/-- Sent by a member or by the server, the row has the same tuple and the same values. -/
theorem logged_eq (r : OwnCloudRow) :
    r.logged.table = .ofBuffer (ascii "sync") ∧
      r.logged.tuple = syncTuple r.time r.esid (toStr r.sender) (toStr r.receiver) r.upd ∧
      r.logged.values = [.number (ofNat r.time), .text r.esid, .number (toStr r.sender),
        .number (toStr r.receiver), .text r.upd] ∧
      (r.logged.Safe ↔ Quotable r.esid ∧ Quotable r.upd) := by
  rw [logged]
  split_ifs with hserver
  · rw [hserver, toStr_zero]
    refine ⟨rfl, rfl, rfl, ?_⟩
    simp only [LoggedRow.Safe, isNumber_toStr, true_and]
  · rw [r.server.resolve_left hserver, toStr_zero]
    refine ⟨rfl, rfl, rfl, ?_⟩
    simp only [LoggedRow.Safe, isNumber_toStr, true_and]

end OwnCloudRow

namespace OwnCloudDatabase

/-- The table is empty. -/
def init : OwnCloudDatabase := ⟨.empty⟩

/-- The effect of an `INSERT`. -/
def insert (db : OwnCloudDatabase) (r : OwnCloudRow) : Option OwnCloudDatabase :=
  (db.sync.insert r.syncRow).map fun sync ↦ ⟨sync⟩

end OwnCloudDatabase

/-- The database of the ownCloud auditor. -/
def owncloudStore : RowStore OwnCloudRow OwnCloudDatabase where
  logged := OwnCloudRow.logged
  IntegersFit := OwnCloudRow.IntegersFit
  ofValues table values := if table = ascii "sync" then OwnCloudRow.ofValues values else none
  insert := OwnCloudDatabase.insert
  ofValues_values := by
    rintro r ⟨htime, hsender, hreceiver⟩
    have hsync : (CString.ofBuffer (ascii "sync")).bytes = ascii "sync" := by decide
    have hnumber : ∀ n : ℤ, FitsInt64 n → sqlInteger (.number (toStr n)) = some n := by
      intro n hn
      rw [toStr, sqlInteger_ofInt, if_pos hn]
    have htime : sqlInteger (.number (ofNat r.time)) = some (r.time : ℤ) := hnumber _ htime
    obtain ⟨htable, -, hvalues, -⟩ := r.logged_eq
    rw [htable, hsync, if_pos rfl, hvalues, OwnCloudRow.ofValues]
    simp only [htime, hnumber _ hsender, hnumber _ hreceiver, bind, Option.bind,
      dif_pos (And.intro r.server (Int.natCast_nonneg r.time)), Int.toNat_natCast]

/-- Rows go to the table. -/
theorem owncloudStore_foldl_put (db : OwnCloudDatabase) (rows : List OwnCloudRow) :
    rows.foldl owncloudStore.put db = ⟨db.sync.insertAll (rows.map OwnCloudRow.syncRow)⟩ := by
  induction rows generalizing db with
  | nil => rfl
  | cons r rows ih =>
    have hput : owncloudStore.put db r = ⟨(db.sync.insert r.syncRow).getD db.sync⟩ := by
      show ((db.sync.insert _).map _).getD db = _
      cases db.sync.insert r.syncRow <;> rfl
    rw [List.foldl_cons, ih, hput]
    rfl

/-- A row is called for as it is stored. -/
theorem owncloudStore_isCallOf {r : OwnCloudRow} (hesid : Quotable r.esid)
    (hupd : Quotable r.upd) (hfit : r.IntegersFit) : owncloudStore.IsCallOf r.call r := by
  obtain ⟨htable, htuple, -, hsafe⟩ := r.logged_eq
  exact ⟨htable.symm, congrArg CString.ofBuffer htuple.symm, hsafe.2 ⟨hesid, hupd⟩, hfit⟩

/-! ### Exchanges -/

/-- An exchange with ownCloud. A synchronisation passes on operations of a member, or operations to
a member, or none; the other polls have another command. -/
inductive OwnCloudExchange where
  | added (req : SyncRequest) (rsp : ResultReply)
    (ops : HasOperations (req.views.drop 9) owncloudClientOps)
  | served (req : SyncRequest) (rsp : ResultReply)
    (ops : HasOperations (rsp.views.drop 3) owncloudOps)
  | refused (req : SyncRequest) (rsp : ResultReply)
  | command (req : CommandRequest) (rsp : ResultReply)
  | other (req rsp : HttpMessage)

/-- The two messages are those of a poll that succeeds. -/
def IsPoll (req rsp : HttpMessage) : Prop :=
  contains req.startLine owncloudCmdDocsPoll = true ∧
    contains rsp.startLine (ascii "200 OK") = true

namespace OwnCloudExchange

/-- The two messages. -/
def messages : OwnCloudExchange → HttpMessage × HttpMessage
  | added req rsp _ | served req rsp _ | refused req rsp => (req.message, rsp.message)
  | command req rsp => (req.message, rsp.message)
  | other req rsp => (req, rsp)

/-- The operations that are passed on, if there are any of a supported type. -/
def batch : OwnCloudExchange → Option Batch
  | added req _ ops =>
    if ops.operations = [] then none else some ⟨req.esid, req.member, 0, ops.operations, .inr rfl⟩
  | served req _ ops =>
    if ops.operations = [] then none else some ⟨req.esid, 0, req.member, ops.operations, .inl rfl⟩
  | refused _ _ | command _ _ | other _ _ => none

/-- The row of an exchange, with a time. -/
def rows (time : ℕ) (x : OwnCloudExchange) : List OwnCloudRow :=
  (x.batch.map fun b ↦ ⟨time, b.esid, b.sender, b.receiver, b.update, b.server⟩).toList

/-- What the auditor can read and SQLite can read again. -/
structure Readable (x : OwnCloudExchange) : Prop where
  request_lt : x.messages.1.text.length < 2147483648
  reply_lt : x.messages.2.text.length < 2147483648
  isRequest : firstLineName (x.messages.1.startLine ++ [13]) = .ok httpHeaderRequest
  isReply : firstLineName (x.messages.2.startLine ++ [13]) = .ok httpHeaderResponse
  parses : match x with
    | added _ rsp _ => IsPoll x.messages.1 x.messages.2 ∧ rsp.result = owncloudAdded
    | served _ rsp _ => IsPoll x.messages.1 x.messages.2 ∧
      (rsp.result = owncloudNewops ∨ rsp.result = owncloudConflict)
    | refused _ rsp => IsPoll x.messages.1 x.messages.2 ∧ rsp.result ≠ owncloudAdded ∧
      rsp.result ≠ owncloudNewops ∧ rsp.result ≠ owncloudConflict
    | command req _ => IsPoll x.messages.1 x.messages.2 ∧ req.command ≠ owncloudSyncops
    | other _ _ => ¬ IsPoll x.messages.1 x.messages.2
  quotable : ∀ b ∈ x.batch, Quotable b.esid ∧ Quotable b.update

/-- Sender and receiver of a batch are the server and the member of a request. -/
theorem fitsInt64_of_mem_batch {x : OwnCloudExchange} {b : Batch} (hb : b ∈ x.batch) :
    FitsInt64 b.sender ∧ FitsInt64 b.receiver := by
  have hserver : FitsInt64 0 := by decide
  cases x with
  | added req rsp ops =>
    simp only [batch, Option.mem_def, Option.ite_none_left_eq_some, Option.some.injEq] at hb
    obtain ⟨-, rfl⟩ := hb
    exact ⟨req.member_fits, hserver⟩
  | served req rsp ops =>
    simp only [batch, Option.mem_def, Option.ite_none_left_eq_some, Option.some.injEq] at hb
    obtain ⟨-, rfl⟩ := hb
    exact ⟨hserver, req.member_fits⟩
  | refused | command | other => exact nomatch hb

/-- The rows of an exchange are stored as they are. -/
theorem Readable.isCallOf {x : OwnCloudExchange} (h : x.Readable) {time : ℕ}
    (htime : FitsInt64 time) : ∀ r ∈ x.rows time, owncloudStore.IsCallOf r.call r := by
  intro r hr
  obtain ⟨b, hb, rfl⟩ := Option.map_eq_some_iff.1 (Option.mem_toList.1 hr)
  obtain ⟨hesid, hupd⟩ := h.quotable b hb
  exact owncloudStore_isCallOf hesid hupd ⟨htime, fitsInt64_of_mem_batch hb⟩

end OwnCloudExchange

/-! ### What is logged of an exchange -/

theorem paramIs_of_owncloudValueString {e : Event} {name text : Bytes}
    (h : owncloudValueString e name = .ok text) (value : Bytes) :
    e.paramIs .owncloud name value = (text == value) := by
  rw [owncloudValueString] at h
  rw [Event.paramIs]
  rcases hparam : e.getParam .owncloud name with - | p
  · rw [hparam] at h
    cases h
  · rw [hparam] at h
    rw [← Except.ok.inj h]

/-- What is logged of a synchronisation, when its fields have been read. -/
theorem syncCalls_of_fields {id : ℕ} {evReq evRsp : Event} {esid sender receiver update : Bytes}
    (hcommand : owncloudValueString evReq owncloudCommand = .ok owncloudSyncops)
    (hfields : syncFields evReq evRsp = .ok (sender, receiver, update))
    (hesid : owncloudValueString evReq owncloudEsid = .ok esid) :
    syncCalls id evReq evRsp = .ok (if update = [] then [] else
      [insertSync (syncTuple id esid sender receiver update)]) := by
  have hsync : evReq.paramIs .owncloud owncloudCommand owncloudSyncops = true := by
    rw [paramIs_of_owncloudValueString hcommand, beq_self_eq_true]
  rw [syncCalls, if_pos hsync, hfields, CFault.ok_bind]
  dsimp only
  by_cases hempty : update = []
  · rw [if_pos hempty, if_neg (not_not.2 hempty)]
    rfl
  · rw [if_neg hempty, if_pos hempty, hesid]
    rfl

/-- What is found of a request for a synchronisation. -/
theorem owncloudValueString_withArgs (e : Event) (esid member : Bytes) :
    owncloudValueString (withArgs (withCommand e owncloudSyncops) esid member) owncloudCommand =
        .ok owncloudSyncops ∧
      owncloudValueString (withArgs (withCommand e owncloudSyncops) esid member) owncloudEsid =
        .ok esid ∧
      owncloudValueString (withArgs (withCommand e owncloudSyncops) esid member)
        owncloudMemberid = .ok member := by
  simp only [withArgs, withCommand, owncloudValueString_addText]
  exact ⟨rfl, rfl, rfl⟩

/-- Operations that a member sends. -/
theorem syncCalls_added (id : ℕ) (e e' : Event) (esid member update : Bytes) :
    syncCalls id ((withArgs (withCommand e owncloudSyncops) esid member).addText owncloudUpdate
        update) (withResult e' owncloudAdded) =
      .ok (if update = [] then [] else
        [insertSync (syncTuple id esid member (ascii "0") update)]) := by
  obtain ⟨hcommand, hesid, hmember⟩ := owncloudValueString_withArgs e esid member
  refine syncCalls_of_fields ?_ ?_ ?_
  · rw [owncloudValueString_addText, if_neg (by decide), hcommand]
  · have hresult : owncloudValueString (withResult e' owncloudAdded) owncloudResult =
        .ok owncloudAdded := by
      rw [withResult, owncloudValueString_addText, if_pos rfl]
    rw [syncFields, hresult, CFault.ok_bind, if_pos rfl, owncloudValueString_addText,
      if_neg (by decide), hmember, CFault.ok_bind, owncloudValueString_addText, if_pos rfl]
    rfl
  · rw [owncloudValueString_addText, if_neg (by decide), hesid]

/-- Operations that a member is sent. -/
theorem syncCalls_served (id : ℕ) (e e' : Event) (esid member update : Bytes) {result : Bytes}
    (h : result = owncloudNewops ∨ result = owncloudConflict) :
    syncCalls id (withArgs (withCommand e owncloudSyncops) esid member)
        ((withResult e' result).addText owncloudUpdate update) =
      .ok (if update = [] then [] else
        [insertSync (syncTuple id esid (ascii "0") member update)]) := by
  obtain ⟨hcommand, hesid, hmember⟩ := owncloudValueString_withArgs e esid member
  refine syncCalls_of_fields hcommand ?_ hesid
  have hadded : ¬ result = owncloudAdded := by
    rcases h with rfl | rfl <;> decide
  have hresult : owncloudValueString ((withResult e' result).addText owncloudUpdate update)
      owncloudResult = .ok result := by
    rw [owncloudValueString_addText, if_neg (by decide), withResult, owncloudValueString_addText,
      if_pos rfl]
  rw [syncFields, hresult, CFault.ok_bind, if_neg hadded, if_pos h, hmember, CFault.ok_bind,
    owncloudValueString_addText, if_pos rfl]
  rfl

/-- A synchronisation without operations. -/
theorem syncCalls_refused (id : ℕ) (e e' : Event) (esid member : Bytes) {result : Bytes}
    (hadded : result ≠ owncloudAdded)
    (hserved : ¬ (result = owncloudNewops ∨ result = owncloudConflict)) :
    syncCalls id (withArgs (withCommand e owncloudSyncops) esid member) (withResult e' result) =
      .ok [] := by
  obtain ⟨hcommand, hesid, -⟩ := owncloudValueString_withArgs e esid member
  have hresult : owncloudValueString (withResult e' result) owncloudResult = .ok result := by
    rw [withResult, owncloudValueString_addText, if_pos rfl]
  have hfields : syncFields (withArgs (withCommand e owncloudSyncops) esid member)
      (withResult e' result) = .ok ([], [], []) := by
    rw [syncFields, hresult, CFault.ok_bind, if_neg hadded, if_neg hserved]
    rfl
  exact syncCalls_of_fields hcommand hfields hesid

/-- Another command. -/
theorem syncCalls_command (id : ℕ) (e e' : Event) {command : Bytes}
    (h : command ≠ owncloudSyncops) : syncCalls id (withCommand e command) e' = .ok [] := by
  have hcommand : owncloudValueString (withCommand e command) owncloudCommand = .ok command := by
    rw [withCommand, owncloudValueString_addText, if_pos rfl]
  rw [syncCalls, paramIs_of_owncloudValueString hcommand, if_neg (by simpa using h)]

/-- The body is none of the parameters that the auditor adds. -/
theorem getHttpPayloadLength_addText (e : Event) (name text : Bytes) :
    getHttpPayloadLength (e.addText name text) = getHttpPayloadLength e := by
  have hpayload : (e.addText name text).getParam .http httpHeaderPayload =
      e.getParam .http httpHeaderPayload :=
    Event.getParam_add_of_protocol_ne e _ (show Protocol.owncloud ≠ .http by decide)
  rw [getHttpPayloadLength, getHttpPayloadLength, getHttpPayload, getHttpPayload, hpayload]

theorem HasOperations.update_eq_nil_iff {views : List JsonView} {key : Bytes}
    (ops : HasOperations views key) : ops.update = [] ↔ ops.operations = [] := by
  constructor
  · intro h
    rcases hops : ops.operations with - | ⟨op, rest⟩
    · rfl
    · rw [HasOperations.update, hops, List.flatMap_cons, Operation.command_eq] at h
      cases h
  · intro h
    rw [HasOperations.update, h]
    rfl

/-- The tokens of the two bodies are read. -/
theorem exists_docsPoll {evReq evRsp : Event} {stored : ℕ → UInt8}
    {req rsp : ObjectMessage} (hreq : req.message.ParsedTo stored httpHeaderRequest evReq)
    (hrsp : rsp.message.ParsedTo stored httpHeaderResponse evRsp) {command result : Bytes}
    {further further' : Fields} (hcommand : FirstMember req.members owncloudCommand command further)
    (hresult : FirstMember rsp.members owncloudResult result further')
    (reqJunk rspJunk : ℕ → JsmnTok) : ∃ reqTokens rspTokens reqPayload rspPayload,
      reqTokens.map (JsmnTok.view reqPayload) = req.views ∧
        rspTokens.map (JsmnTok.view rspPayload) = rsp.views ∧
          docsPoll reqJunk rspJunk (evReq.addText owncloudWhat owncloudWhatPoll) evRsp =
            pollTokens (evReq.addText owncloudWhat owncloudWhatPoll) evRsp reqTokens rspTokens
              reqPayload rspPayload := by
  obtain ⟨reqBlock, reqLength, reqTokens, hreqPayload, hreqTokens, hreqViews⟩ :=
    req.exists_tokens hreq hcommand (by decide) reqJunk
  obtain ⟨rspBlock, rspLength, rspTokens, hrspPayload, hrspTokens, hrspViews⟩ :=
    rsp.exists_tokens hrsp hresult (by decide) rspJunk
  refine ⟨reqTokens, rspTokens, reqBlock, rspBlock, hreqViews, hrspViews, ?_⟩
  rw [docsPoll, getHttpPayloadLength_addText, hreqPayload, CFault.ok_bind]
  dsimp only
  rw [hrspPayload, CFault.ok_bind]
  dsimp only
  rw [hreqTokens, CFault.ok_bind, hrspTokens, CFault.ok_bind]

/-- A poll is read. -/
theorem pollCalls_of_isPoll {evReq evRsp : Event} {req rsp : HttpMessage} {stored : ℕ → UInt8}
    (hreq : req.ParsedTo stored httpHeaderRequest evReq)
    (hrsp : rsp.ParsedTo stored httpHeaderResponse evRsp) (reqJunk rspJunk : ℕ → JsmnTok)
    (id : ℕ) :
    (IsPoll req rsp → pollCalls reqJunk rspJunk id evReq evRsp =
        docsPoll reqJunk rspJunk (evReq.addText owncloudWhat owncloudWhatPoll) evRsp >>=
          fun events ↦ syncCalls id events.1 events.2) ∧
      (¬ IsPoll req rsp → pollCalls reqJunk rspJunk id evReq evRsp = .ok []) := by
  have hisPoll : docsIsPoll evReq = contains req.startLine owncloudCmdDocsPoll := by
    rw [docsIsPoll, Event.paramContains, hreq.startLine]
    rfl
  have hisOK : owncloudIsOK evRsp = contains rsp.startLine (ascii "200 OK") := by
    rw [owncloudIsOK, Event.paramContains, hrsp.startLine]
    rfl
  have hboth : (docsIsPoll evReq && owncloudIsOK evRsp) = true ↔ IsPoll req rsp := by
    rw [hisPoll, hisOK, Bool.and_eq_true, IsPoll]
  refine ⟨fun h ↦ ?_, fun h ↦ ?_⟩
  · rw [pollCalls, if_pos (hboth.2 h)]
    rfl
  · rw [pollCalls, if_neg fun hpoll ↦ h (hboth.1 hpoll)]

/-- The tokens of the two bodies of a poll are read. -/
theorem exists_pollCalls {evReq evRsp : Event} {stored : ℕ → UInt8} {req rsp : ObjectMessage}
    (hreq : req.message.ParsedTo stored httpHeaderRequest evReq)
    (hrsp : rsp.message.ParsedTo stored httpHeaderResponse evRsp)
    (hpoll : IsPoll req.message rsp.message) {command result : Bytes} {further further' : Fields}
    (hcommand : FirstMember req.members owncloudCommand command further)
    (hresult : FirstMember rsp.members owncloudResult result further')
    (reqJunk rspJunk : ℕ → JsmnTok) (id : ℕ) : ∃ reqTokens rspTokens reqPayload rspPayload,
      reqTokens.map (JsmnTok.view reqPayload) = req.views ∧
        rspTokens.map (JsmnTok.view rspPayload) = rsp.views ∧
          pollCalls reqJunk rspJunk id evReq evRsp =
            pollTokens (evReq.addText owncloudWhat owncloudWhatPoll) evRsp reqTokens rspTokens
              reqPayload rspPayload >>= fun events ↦ syncCalls id events.1 events.2 := by
  obtain ⟨reqTokens, rspTokens, reqPayload, rspPayload, hreqViews, hrspViews, hdocs⟩ :=
    exists_docsPoll hreq hrsp hcommand hresult reqJunk rspJunk
  refine ⟨reqTokens, rspTokens, reqPayload, rspPayload, hreqViews, hrspViews, ?_⟩
  rw [(pollCalls_of_isPoll hreq hrsp reqJunk rspJunk id).1 hpoll, hdocs]

namespace OwnCloudExchange

variable {x : OwnCloudExchange}

/-- The row of operations that a member sends, or is sent. -/
theorem map_call_rows {views : List JsonView} {key : Bytes} (ops : HasOperations views key)
    (time : ℕ) (b : Batch) (hb : b.operations = ops.operations)
    (hx : x.batch = if ops.operations = [] then none else some b) :
    (x.rows time).map OwnCloudRow.call = if ops.update = [] then [] else
      [insertSync (syncTuple time b.esid (toStr b.sender) (toStr b.receiver) ops.update)] := by
  rw [rows, hx]
  by_cases hempty : ops.operations = []
  · rw [if_pos hempty, if_pos (ops.update_eq_nil_iff.2 hempty)]
    rfl
  · rw [if_neg hempty, if_neg (mt ops.update_eq_nil_iff.1 hempty), HasOperations.update, ← hb]
    rfl

/-- **What the auditor makes of an exchange** that it can read: its row, if it has one; and the time
moves on. -/
theorem libsealProcessLogAtRuntime_eq (junk : ℕ → UInt8) (reqJunk rspJunk : ℕ → JsmnTok) {time : ℕ}
    (htime : time < 2147483647) (h : x.Readable) :
    OwnCloud.libsealProcessLogAtRuntime junk reqJunk rspJunk time x.messages.1.text
        x.messages.2.text = .ok (time + 1, (x.rows time).map OwnCloudRow.call) := by
  obtain ⟨evReq, hevReq, hreq⟩ := x.messages.1.httpToEvent_text junk h.isRequest h.request_lt
  obtain ⟨evRsp, hevRsp, hrsp⟩ := x.messages.2.httpToEvent_text junk h.isReply h.reply_lt
  have hnext : (time + 1) % 18446744073709551616 = time + 1 := Nat.mod_eq_of_lt (by omega)
  suffices hcalls : pollCalls reqJunk rspJunk time evReq evRsp =
      .ok ((x.rows time).map OwnCloudRow.call) by
    rw [OwnCloud.libsealProcessLogAtRuntime, hevReq, CFault.ok_bind, hevRsp, CFault.ok_bind]
    dsimp only
    rw [hcalls, hnext]
    rfl
  have hparses := h.parses
  cases x with
  | added req rsp ops =>
    obtain ⟨hisPoll, hadded⟩ := hparses
    obtain ⟨reqTokens, rspTokens, reqPayload, rspPayload, hreqViews, hrspViews, hcalls⟩ :=
      exists_pollCalls hreq hrsp hisPoll req.first rsp.first reqJunk rspJunk time
    rw [hcalls, pollTokens_of_sync _ _ hreqViews hrspViews]
    dsimp only
    rw [if_pos hadded, updateBehind_of_views _ hreqViews ops, hadded]
    have hrows : ((added req rsp ops).rows time).map OwnCloudRow.call = _ :=
      map_call_rows ops time ⟨req.esid, req.member, 0, ops.operations, .inr rfl⟩ rfl rfl
    rw [hrows, OwnCloudRow.toStr_zero]
    exact syncCalls_added _ _ _ _ _ _
  | served req rsp ops =>
    obtain ⟨hisPoll, hserved⟩ := hparses
    have hadded : ¬ rsp.result = owncloudAdded := by
      rcases hserved with h | h <;> rw [h] <;> decide
    obtain ⟨reqTokens, rspTokens, reqPayload, rspPayload, hreqViews, hrspViews, hcalls⟩ :=
      exists_pollCalls hreq hrsp hisPoll req.first rsp.first reqJunk rspJunk time
    rw [hcalls, pollTokens_of_sync _ _ hreqViews hrspViews]
    dsimp only
    rw [if_neg hadded, if_pos hserved, updateBehind_of_views _ hrspViews ops]
    have hrows : ((served req rsp ops).rows time).map OwnCloudRow.call = _ :=
      map_call_rows ops time ⟨req.esid, 0, req.member, ops.operations, .inl rfl⟩ rfl rfl
    rw [hrows, OwnCloudRow.toStr_zero]
    exact syncCalls_served _ _ _ _ _ _ hserved
  | refused req rsp =>
    obtain ⟨hisPoll, hadded, hnewops, hconflict⟩ := hparses
    have hserved := not_or.2 ⟨hnewops, hconflict⟩
    obtain ⟨reqTokens, rspTokens, reqPayload, rspPayload, hreqViews, hrspViews, hcalls⟩ :=
      exists_pollCalls hreq hrsp hisPoll req.first rsp.first reqJunk rspJunk time
    rw [hcalls, pollTokens_of_sync _ _ hreqViews hrspViews]
    dsimp only
    rw [if_neg hadded, if_neg hserved]
    exact syncCalls_refused _ _ _ _ _ hadded hserved
  | command req rsp =>
    obtain ⟨hisPoll, hcommand⟩ := hparses
    obtain ⟨reqTokens, rspTokens, reqPayload, rspPayload, hreqViews, hrspViews, hcalls⟩ :=
      exists_pollCalls hreq hrsp hisPoll req.first rsp.first reqJunk rspJunk time
    rw [hcalls, pollTokens_of_command _ _ hreqViews hrspViews hcommand]
    exact syncCalls_command _ _ _ hcommand
  | other req rsp => exact (pollCalls_of_isPoll hreq hrsp reqJunk rspJunk time).2 hparses

end OwnCloudExchange

end LibSeal
