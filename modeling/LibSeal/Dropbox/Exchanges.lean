import LibSeal.Auditing.HttpMessage
import LibSeal.Dropbox.Base64
import LibSeal.Dropbox.EmptyList
import LibSeal.Logpoint.Storage

/-!
# The rows of Dropbox exchanges

An exchange with Dropbox, as it is on the wire, and the rows that it comes to: an upload, a listing,
or anything else. The auditor makes exactly these rows of it (`libsealProcessLogAtRuntime_eq`).

Bodies are sent by their length. The parser overwrites the last byte of such a body, and the
auditor's parsers read up to there; so every part of a message is one of what is left of its body
(`SizedMessage.found`), and the text of an upload may lack its last character as long as that is one
of the padding. A body in chunks has no end for them.
-/

namespace LibSeal

open Bytes SqlText LoggedRow Json

/-! ### Rows as they are stored -/

/-- A file of an upload or of a listing. The size of a file that is deleted is -1. -/
structure DropboxFile where
  path : Bytes
  size : ℤ
  blocklist : Bytes
  deriving DecidableEq

/-- The account that is written into every row. -/
def dropboxAccount : Bytes := ascii "8796754824148"

namespace DropboxFile

/-- The statement for a file. -/
def statement (hostKey : Bytes) (f : DropboxFile) : Bytes :=
  fileStatement hostKey f.path f.size f.blocklist

/-- The row of a file. -/
def row (time : ℤ) (hostKey : Bytes) (f : DropboxFile) : FileRow :=
  ⟨time, dropboxAccount, hostKey, f.path, f.size, f.blocklist⟩

/-- Nothing in the row needs escaping. -/
def IsQuotable (f : DropboxFile) : Prop := Quotable f.path ∧ Quotable f.blocklist

end DropboxFile

/-- A row, and its table. -/
inductive DropboxRow where
  | listed (time : ℤ) (hostKey : Bytes) (f : DropboxFile)
  | committed (time : ℤ) (hostKey : Bytes) (f : DropboxFile)

namespace DropboxRow

/-- The row as it is logged. -/
def logged : DropboxRow → LoggedRow
  | listed time hostKey f => .listed time hostKey f.path f.size f.blocklist
  | committed time hostKey f => .committed time hostKey f.path f.size f.blocklist

/-- The call that hands it over. -/
def call : DropboxRow → InsertCall .dropbox
  | listed time hostKey f => insertFile 0 (fileTuple time (f.statement hostKey))
  | committed time hostKey f => insertFile 1 (fileTuple time (f.statement hostKey))

/-- The row of `list`. -/
def listed? : DropboxRow → Option FileRow
  | listed time hostKey f => some (f.row time hostKey)
  | committed .. => none

/-- The row of `commit_batch`. -/
def committed? : DropboxRow → Option FileRow
  | listed .. => none
  | committed time hostKey f => some (f.row time hostKey)

/-- The integers of the row are stored as integers. -/
def IntegersFit : DropboxRow → Prop
  | listed time _ f | committed time _ f => FitsInt64 time ∧ FitsInt64 f.size

/-- The row that the values of an `INSERT` make. -/
def ofValues (table : Bytes) (values : List SqlValue) : Option DropboxRow :=
  match values with
  | [time, .text account, .text hostKey, .text path, size, .text blocklist] => do
    let time ← sqlInteger time
    let size ← sqlInteger size
    if account ≠ dropboxAccount then none
    else if table = ascii "list" then return .listed time hostKey ⟨path, size, blocklist⟩
    else if table = ascii "commit_batch" then
      return .committed time hostKey ⟨path, size, blocklist⟩
    else none
  | _ => none

end DropboxRow

namespace DropboxDatabase

/-- The tables are empty. -/
def init : DropboxDatabase := ⟨.empty, .empty⟩

/-- The effect of an `INSERT`. -/
def insert (db : DropboxDatabase) : DropboxRow → Option DropboxDatabase
  | .listed time hostKey f => (db.list.insert (f.row time hostKey)).map fun list ↦
    { db with list }
  | .committed time hostKey f => (db.commitBatch.insert (f.row time hostKey)).map fun commitBatch ↦
    { db with commitBatch }

end DropboxDatabase

/-- The database of the Dropbox auditor. -/
def dropboxStore : RowStore DropboxRow DropboxDatabase where
  logged := DropboxRow.logged
  IntegersFit := DropboxRow.IntegersFit
  ofValues := DropboxRow.ofValues
  insert := DropboxDatabase.insert
  ofValues_values := by
    have hlist : (CString.ofBuffer (ascii "list")).bytes = ascii "list" := by decide
    have hcommit : (CString.ofBuffer (ascii "commit_batch")).bytes = ascii "commit_batch" := by
      decide
    have hne : ¬ ascii "commit_batch" = ascii "list" := by decide
    rintro (⟨time, hostKey, f⟩ | ⟨time, hostKey, f⟩) ⟨htime, hsize⟩
    · simp [DropboxRow.logged, LoggedRow.values, LoggedRow.table, DropboxRow.ofValues, toStr,
        dropboxAccount, hlist, sqlInteger_ofInt, htime, hsize]
    · simp [DropboxRow.logged, LoggedRow.values, LoggedRow.table, DropboxRow.ofValues, toStr,
        dropboxAccount, hcommit, hne, sqlInteger_ofInt, htime, hsize]

/-- Rows go to their tables. -/
theorem dropboxStore_foldl_put (db : DropboxDatabase) (rows : List DropboxRow) :
    rows.foldl dropboxStore.put db = ⟨db.list.insertAll (rows.filterMap DropboxRow.listed?),
      db.commitBatch.insertAll (rows.filterMap DropboxRow.committed?)⟩ := by
  induction rows generalizing db with
  | nil => rfl
  | cons r rows ih =>
    rw [List.foldl_cons, ih]
    rcases r with ⟨time, hostKey, f⟩ | ⟨time, hostKey, f⟩
    · have hput : dropboxStore.put db (.listed time hostKey f) =
          { db with list := (db.list.insert (f.row time hostKey)).getD db.list } := by
        show ((db.list.insert _).map _).getD db = _
        cases db.list.insert (f.row time hostKey) <;> rfl
      rw [hput]
      rfl
    · have hput : dropboxStore.put db (.committed time hostKey f) =
          { db with commitBatch :=
            (db.commitBatch.insert (f.row time hostKey)).getD db.commitBatch } := by
        show ((db.commitBatch.insert _).map _).getD db = _
        cases db.commitBatch.insert (f.row time hostKey) <;> rfl
      rw [hput]
      rfl

/-- A row is called for as it is stored. -/
theorem dropboxStore_isCallOf {r : DropboxRow} (h : r.logged.Safe) (hfit : r.IntegersFit) :
    dropboxStore.IsCallOf r.call r := by
  rcases r with ⟨time, hostKey, f⟩ | ⟨time, hostKey, f⟩
  · exact ⟨rfl, rfl, h, hfit⟩
  · exact ⟨rfl, rfl, h, hfit⟩

/-! ### Messages -/

/-- A text has a parameter: where its name occurs first, the value follows, up to an ampersand or to
the end. -/
def HasParameter (name value s : Bytes) : Prop :=
  ∃ front rest, s = front ++ (name ++ (value ++ rest)) ∧ find name s = some front.length ∧
    '&'.toUInt8 ∉ value ∧ ∀ b ∈ rest.head?, b = '&'.toUInt8

theorem HasParameter.parameterIn_eq {name value s : Bytes} (h : HasParameter name value s) :
    parameterIn name s = .ok value := by
  obtain ⟨front, rest, rfl, hfind, hvalue, hrest⟩ := h
  have hdrop : (front ++ (name ++ (value ++ rest))).drop (front.length + name.length) =
      value ++ rest := by
    rw [← List.drop_drop, List.drop_left, List.drop_left]
  have hfront : (front ++ name).length = front.length + name.length := List.length_append
  rw [parameterIn, hfind, posAdd, hdrop, ← List.append_assoc, ← hfront]
  rcases rest with - | ⟨b, rest⟩
  · rw [List.append_nil, List.idxOf?_eq_none_iff.2 hvalue, substr_append_none]
  · rw [hrest b rfl, idxOf?_append_cons hvalue, ← List.append_assoc, substr_append_append]

/-- A message with a body that is sent by its length. -/
structure SizedMessage where
  message : HttpMessage
  /-- What the auditor finds of the body. -/
  found : Bytes
  last : UInt8
  body_eq : message.body = .contentLength (found ++ [last])
  zero_notMem : 0 ∉ found

/-- All but the last byte of the body is found. -/
theorem SizedMessage.payloadString_eq (m : SizedMessage) {junk : ℕ → UInt8} {name : Bytes}
    {e : Event} (h : m.message.ParsedTo junk name e) : payloadString e = .ok m.found := by
  have hpayload := h.payload
  rw [m.body_eq, HttpBody.block, List.dropLast_concat, Option.map_some] at hpayload
  rw [payloadString, hpayload]
  exact stringAt_append_zero m.zero_notMem _

/-- An array of files, as it is sent for a host. A size is read as an `int`. -/
structure FileArray (hostKey : Bytes) where
  items : JsonItems
  files : List DropboxFile
  size_int : ∀ f ∈ files, -2147483648 ≤ f.size ∧ f.size < 2147483648
  entries : FileEntries hostKey items.toList (files.map (DropboxFile.statement hostKey))
  endsArray : ∀ rest, EndsArray (Json.array items).text rest

/-- A request for a listing. -/
structure ListRequest extends SizedMessage where
  hostKey : Bytes
  contains_list : contains message.startLine (ascii "/list") = true
  hasParameter : HasParameter (ascii "host_key=") hostKey found

/-- A listing. There is white space behind the colon. -/
structure ListReply (hostKey : Bytes) extends SizedMessage where
  array : FileArray hostKey
  front : Bytes
  space : White
  gap : List White
  rest : Bytes
  found_eq : found = front ++ (ascii "\"list\":" ++
    space.byte :: (textOf (gap.map .white) ++ ((Json.array array.items).text ++ rest)))
  find_eq : find (ascii "\"list\":") found = some front.length

/-- An upload: compressed files in base 64, in any spelling, to which not more than the padding is
missing. -/
structure CommitRequest extends SizedMessage where
  hostKey : Bytes
  array : FileArray hostKey
  before : List White
  after : List White
  compressed : Bytes
  letters : ℕ
  pieces : List Bytes
  not_contains_list : contains message.startLine (ascii "/list") = false
  contains_commit : contains message.startLine (ascii "/commit_batch") = true
  hasParameter_host : HasParameter (ascii "host_key=") hostKey found
  hasParameter_info : HasParameter (ascii "commit_info=") pieces.flatten found
  spelled : List.Forall₂ Spelling ((base64Encode compressed).take letters) pieces
  complete : compressed.length ≤ letters * 3 / 4

/-- The text that is compressed. -/
def CommitRequest.document (req : CommitRequest) : Bytes :=
  documentText req.before (.array req.array.items) req.after

/-- The files of a listing are found. -/
theorem ListReply.parseList_eq {req : ListRequest} (rsp : ListReply req.hostKey)
    (junk : ℕ → JsmnTok) : parseList junk req.found rsp.found =
      .ok (rsp.array.files.map (DropboxFile.statement req.hostKey)) := by
  have hcontent : rsp.found.drop (rsp.front.length + 7) = rsp.space.byte ::
      (textOf (rsp.gap.map .white) ++ ((Json.array rsp.array.items).text ++ rsp.rest)) := by
    rw [rsp.found_eq, ← List.drop_drop, List.drop_left]
    rfl
  rw [LibSeal.parseList_eq req.hasParameter.parameterIn_eq,
    listText_eq rsp.find_eq hcontent (rsp.array.endsArray _), CFault.ok_bind,
    fileStatements_of_entries junk rsp.array.entries]

/-- The files of an upload are found. -/
theorem CommitRequest.parseCommitBatch_eq (req : CommitRequest)
    {uncompress : ℕ → Bytes → Option Bytes}
    (huncompress : uncompress 8192 req.compressed = some req.document) {stack : ℕ → UInt8}
    (hzero : ∃ i, req.document.length ≤ i ∧ i < 8192 ∧ stack i = 0) (junk : ℕ → JsmnTok) :
    parseCommitBatch uncompress stack junk req.found =
      .ok (req.array.files.map (DropboxFile.statement req.hostKey)) := by
  have hletters : ∀ b ∈ (base64Encode req.compressed).take req.letters, b ∈ base64Alphabet :=
    fun b hb ↦ mem_base64Alphabet_of_mem_base64Encode (List.mem_of_mem_take hb)
  have hnone : ∀ b ∈ ([] : Bytes).head?, b ∉ base64Chars := fun _ h ↦ (nomatch h)
  have hdecode := base64Decode_take_base64Encode req.compressed req.letters hnone
  rw [List.append_nil, List.take_of_length_le req.complete] at hdecode
  rw [parseCommitBatch_eq_of_spelling uncompress stack junk req.hasParameter_host.parameterIn_eq
    req.hasParameter_info.parameterIn_eq hletters req.spelled, hdecode, huncompress]
  dsimp only
  rw [CommitRequest.document, commitInfoText_eq hzero req.array.endsArray, CFault.ok_bind,
    fileStatements_of_entries junk req.array.entries]

/-! ### Exchanges -/

/-- An exchange with Dropbox: a listing, an upload, or something else. -/
inductive DropboxExchange where
  | list (req : ListRequest) (rsp : ListReply req.hostKey)
  | commit (req : CommitRequest) (rsp : HttpMessage)
  | other (req rsp : HttpMessage)

namespace DropboxExchange

/-- The two messages. -/
def messages : DropboxExchange → HttpMessage × HttpMessage
  | list req rsp => (req.message, rsp.message)
  | commit req rsp => (req.message, rsp)
  | other req rsp => (req, rsp)

/-- The host that lists or uploads files. -/
def hostKey : DropboxExchange → Bytes
  | list req _ => req.hostKey
  | commit req _ => req.hostKey
  | other _ _ => []

/-- The files that are listed or uploaded. -/
def files : DropboxExchange → List DropboxFile
  | list _ rsp => rsp.array.files
  | commit req _ => req.array.files
  | other _ _ => []

/-- The rows of an exchange, with a time. -/
def rows (time : ℤ) : DropboxExchange → List DropboxRow
  | list req rsp => rsp.array.files.map (.listed time req.hostKey)
  | commit req _ => req.array.files.map (.committed time req.hostKey)
  | other _ _ => []

/-- What the auditor can read and SQLite can read again. The text of an upload leaves some room in
the buffer behind it. -/
structure Readable (uncompress : ℕ → Bytes → Option Bytes) (limit : ℕ) (x : DropboxExchange) :
    Prop where
  request_lt : x.messages.1.text.length < 2147483648
  reply_lt : x.messages.2.text.length < 2147483648
  isRequest : firstLineName (x.messages.1.startLine ++ [13]) = .ok httpHeaderRequest
  isReply : firstLineName (x.messages.2.startLine ++ [13]) = .ok httpHeaderResponse
  parses : match x with
    | list _ _ => True
    | commit req _ => uncompress 8192 req.compressed = some req.document ∧
      req.document.length ≤ limit
    | other req _ => contains req.startLine (ascii "/list") = false ∧
      contains req.startLine (ascii "/commit_batch") = false
  quotable : Quotable x.hostKey ∧ ∀ f ∈ x.files, f.IsQuotable
  /-- The path is part of the key. -/
  nodup : (x.files.map DropboxFile.path).Nodup

variable {uncompress : ℕ → Bytes → Option Bytes} {limit : ℕ} {x : DropboxExchange}

/-- The rows of an exchange need no escaping. -/
theorem Readable.safe (h : x.Readable uncompress limit) {time : ℤ} :
    ∀ r ∈ x.rows time, r.logged.Safe := by
  obtain ⟨hhost, hfiles⟩ := h.quotable
  rcases x with ⟨req, rsp⟩ | ⟨req, rsp⟩ | ⟨req, rsp⟩
  · exact List.forall_mem_map.2 fun f hf ↦ ⟨hhost, hfiles f hf⟩
  · exact List.forall_mem_map.2 fun f hf ↦ ⟨hhost, hfiles f hf⟩
  · exact List.forall_mem_nil _

/-- The integers of the rows fit. -/
theorem integersFit_of_mem_rows {time : ℤ} (htime : FitsInt64 time) :
    ∀ r ∈ x.rows time, r.IntegersFit := by
  have hsize : ∀ {hostKey : Bytes} (array : FileArray hostKey), ∀ f ∈ array.files,
      FitsInt64 f.size := by
    intro hostKey array f hf
    obtain ⟨hlow, hhigh⟩ := array.size_int f hf
    exact ⟨by omega, by omega⟩
  rcases x with ⟨req, rsp⟩ | ⟨req, rsp⟩ | ⟨req, rsp⟩
  · exact List.forall_mem_map.2 fun f hf ↦ ⟨htime, hsize rsp.array f hf⟩
  · exact List.forall_mem_map.2 fun f hf ↦ ⟨htime, hsize req.array f hf⟩
  · exact List.forall_mem_nil _

/-- What the auditor calls for when it has found the files. -/
theorem eventCalls_of_files {P : DropboxParsers} {evReq evRsp : Event} {hostKey : Bytes}
    {table time : ℕ} (htime : time < 2147483647) {files : List DropboxFile}
    (h : eventStatements P evReq evRsp = .ok (table, files.map (DropboxFile.statement hostKey))) :
    eventCalls P time evReq evRsp =
      .ok (if files.isEmpty then time else time + 1, files.map fun f ↦
        insertFile table (fileTuple (time + 1 : ℕ) (f.statement hostKey))) := by
  have hnext : (time + 1) % 18446744073709551616 = time + 1 := Nat.mod_eq_of_lt (by omega)
  have hint : toInt32 ((time + 1 : ℕ) : ℤ) = (time + 1 : ℕ) := toInt32_of_lt (by omega)
  rw [eventCalls, h, CFault.ok_bind]
  dsimp only
  rw [List.isEmpty_map]
  rcases files with - | ⟨f, files⟩
  · rfl
  · rw [hnext, hint, List.isEmpty_cons, if_neg Bool.false_ne_true, List.map_map]
    rfl

/-- **What the auditor makes of an exchange** that it can read: its rows, with the next number if
there are any. -/
theorem libsealProcessLogAtRuntime_eq (junk : ℕ → UInt8) (tokens : ℕ → JsmnTok) {stack : ℕ → UInt8}
    (hzero : ∃ i, limit ≤ i ∧ i < 8192 ∧ stack i = 0) {time : ℕ} (htime : time < 2147483647)
    (h : x.Readable uncompress limit) :
    Dropbox.libsealProcessLogAtRuntime (dropboxParsers uncompress stack tokens) junk time
        x.messages.1.text x.messages.2.text =
      .ok (if x.files.isEmpty then time else time + 1,
        (x.rows (time + 1 : ℕ)).map DropboxRow.call) := by
  obtain ⟨evReq, hevReq, hparsedReq⟩ := x.messages.1.httpToEvent_text junk h.isRequest
    h.request_lt
  obtain ⟨evRsp, hevRsp, hparsedRsp⟩ := x.messages.2.httpToEvent_text junk h.isReply h.reply_lt
  have hcontains : ∀ value, evReq.paramContains .http httpHeaderRequest value =
      contains x.messages.1.startLine value := by
    intro value
    rw [Event.paramContains, hparsedReq.startLine]
    rfl
  rw [Dropbox.libsealProcessLogAtRuntime, hevReq, CFault.ok_bind, hevRsp, CFault.ok_bind]
  rcases x with ⟨req, rsp⟩ | ⟨req, rsp⟩ | ⟨req, rsp⟩
  · have hstatements : eventStatements (dropboxParsers uncompress stack tokens) evReq evRsp =
        .ok (0, rsp.array.files.map (DropboxFile.statement req.hostKey)) := by
      rw [eventStatements, if_pos ((hcontains _).trans req.contains_list)]
      show (payloadString evReq >>= fun s ↦ payloadString evRsp >>= fun t ↦
        parseList tokens s t >>= fun statements ↦ .ok (0, statements)) = _
      rw [req.payloadString_eq hparsedReq, CFault.ok_bind, rsp.payloadString_eq hparsedRsp,
        CFault.ok_bind, rsp.parseList_eq, CFault.ok_bind]
    rw [eventCalls_of_files htime hstatements, rows, List.map_map]
    rfl
  · obtain ⟨huncompress, hlimit⟩ := h.parses
    obtain ⟨i, hi, hlt, hstack⟩ := hzero
    have hparse := req.parseCommitBatch_eq huncompress ⟨i, hlimit.trans hi, hlt, hstack⟩ tokens
    have hstatements : eventStatements (dropboxParsers uncompress stack tokens) evReq evRsp =
        .ok (1, req.array.files.map (DropboxFile.statement req.hostKey)) := by
      have hlist := (hcontains (ascii "/list")).trans req.not_contains_list
      rw [eventStatements, if_neg (Bool.eq_false_iff.1 hlist),
        if_pos ((hcontains _).trans req.contains_commit)]
      show (payloadString evReq >>= fun s ↦ parseCommitBatch uncompress stack tokens s >>=
        fun statements ↦ .ok (1, statements)) = _
      rw [req.payloadString_eq hparsedReq, CFault.ok_bind, hparse, CFault.ok_bind]
    rw [eventCalls_of_files htime hstatements, rows, List.map_map]
    rfl
  · have hlist := (hcontains (ascii "/list")).trans h.parses.1
    have hcommit := (hcontains (ascii "/commit_batch")).trans h.parses.2
    have hstatements : eventStatements (dropboxParsers uncompress stack tokens) evReq evRsp =
        .ok (0, ([] : List DropboxFile).map (DropboxFile.statement [])) := by
      rw [eventStatements, if_neg (Bool.eq_false_iff.1 hlist), if_neg (Bool.eq_false_iff.1 hcommit)]
      rfl
    rw [eventCalls_of_files htime hstatements]
    rfl

end DropboxExchange

end LibSeal
