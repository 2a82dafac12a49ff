import LibSeal.Logpoint.AuditedTraffic
import LibSeal.OwnCloud.Exchanges

/-!
# Synchronisations, from the wire to the table

The way of ownCloud exchanges through the log. Every exchange is numbered, in the order in which
their slots have ended, and the table has one row for each that passes on operations, with this
number for its time, and nothing else (`syncRows_of_traffic`).
-/

namespace LibSeal

open Bytes Json

/-! ### Rows of exchanges -/

/-- How ownCloud exchanges are written. -/
def owncloudWire : WireFormat OwnCloudExchange where
  request x := x.messages.1.text
  reply x := x.messages.2.text
  Readable := OwnCloudExchange.Readable
  request_lt h := h.request_lt
  reply_lt h := h.reply_lt

/-- **What the auditor makes of ownCloud exchanges.** -/
def owncloudFormat (uncompress : ℕ → Bytes → Option Bytes) :
    AuditedFormat .owncloud uncompress owncloudWire owncloudStore where
  MemoryOk _ := True
  call := OwnCloudRow.call
  Makes t x next rows := next = t + 1 ∧ rows = x.rows t
  le_succ h := h.1.le
  isCallOf := by
    rintro t next ht x rows hx ⟨-, rfl⟩
    exact OwnCloudExchange.Readable.isCallOf hx (SqlText.fitsInt64_of_lt (Nat.lt_succ_of_lt ht))
  exists_makes := by
    intro m _ t ht x hx
    exact ⟨_, _, ⟨rfl, rfl⟩,
      OwnCloudExchange.libsealProcessLogAtRuntime_eq m.junk m.reqJunk m.rspJunk ht hx⟩

/-- **The rows of the traffic** are those of its exchanges. -/
theorem rows_eq_of_history {uncompress : ℕ → Bytes → Option Bytes} {t last : ℕ}
    {xs : List OwnCloudExchange} {rows : List OwnCloudRow}
    (h : (owncloudFormat uncompress).History t xs last rows) :
    rows = numberedRows (fun n x ↦ x.rows n) t xs := by
  induction h with
  | nil t => rfl
  | cons hx _ ih =>
    obtain ⟨rfl, rfl⟩ := hx
    rw [ih, numberedRows_cons]

/-! ### The table -/

/-- A batch with a time, as it is stored. -/
def Batch.syncRow (time : ℕ) (b : Batch) : SyncRow :=
  ⟨time, .ofBuffer b.esid, b.sender, b.receiver, .ofBuffer b.update⟩

/-- The batches of some exchanges, with the numbers of the exchanges. -/
def syncRows (xs : List OwnCloudExchange) : List SyncRow :=
  numberedRows (fun n x ↦ (x.batch.map (Batch.syncRow n)).toList) 1 xs

theorem map_syncRow_numberedRows (t : ℕ) (xs : List OwnCloudExchange) :
    (numberedRows (fun n x ↦ x.rows n) t xs).map OwnCloudRow.syncRow =
      numberedRows (fun n x ↦ (x.batch.map (Batch.syncRow n)).toList) t xs := by
  rw [numberedRows, numberedRows, List.map_flatMap]
  refine List.flatMap_congr fun p _ ↦ ?_
  dsimp only
  rw [OwnCloudExchange.rows]
  cases p.1.batch <;> rfl

/-- Rows are in the order of time. -/
theorem pairwise_time (t : ℕ) (xs : List OwnCloudExchange) :
    (numberedRows (fun n x ↦ (x.batch.map (Batch.syncRow n)).toList) t xs).Pairwise
      fun r s ↦ r.time < s.time := by
  have htime : ∀ (n : ℕ) (x : OwnCloudExchange), ∀ r ∈ (x.batch.map (Batch.syncRow n)).toList,
      r.time = n := by
    intro n x r hr
    obtain ⟨b, -, rfl⟩ := Option.map_eq_some_iff.1 (Option.mem_toList.1 hr)
    rfl
  induction xs generalizing t with
  | nil => exact .nil
  | cons x xs ih =>
    rw [numberedRows_cons]
    refine List.pairwise_append.2 ⟨?_, ih (t + 1), fun r hr s hs ↦ ?_⟩
    · cases x.batch with
      | none => exact .nil
      | some b => exact List.pairwise_singleton _ _
    · obtain ⟨n, y, -, hs⟩ := mem_numberedRows.1 hs
      have hr := htime t x r hr
      have hs := htime (t + 1 + n) y s hs
      omega

theorem pairwise_time_syncRows (xs : List OwnCloudExchange) :
    (syncRows xs).Pairwise fun r s ↦ r.time < s.time := pairwise_time 1 xs

/-- The content after some exchanges. -/
theorem rows_foldl_owncloudStore (xs : List OwnCloudExchange) :
    ((numberedRows (fun n x ↦ x.rows n) 1 xs).foldl owncloudStore.put .init).sync.rows =
      syncRows xs := by
  rw [owncloudStore_foldl_put, map_syncRow_numberedRows]
  refine Table.rows_insertAll _ ?_
  exact List.Pairwise.map SyncRow.time (fun _ _ h ↦ h.ne) (pairwise_time_syncRows xs)

/-- The traffic leaves the table of its exchanges. -/
theorem Traffic.exists_syncRows {K : Type} [DecidableEq K]
    (uncompress : ℕ → Bytes → Option Bytes) (T : Traffic owncloudWire K)
    (hcount : T.callbacks.length < 2147483647) {cfg : BuildConfig} (hdo : cfg.doInsert = true)
    (P : Platform) (mem : ℕ → AuditorMemory) (signs : ℕ → Option Signature)
    (hsigns : cfg.signs = true → ∀ n, (signs n).isSome = true) :
    ∃ ys st, T.LogsAs .owncloud uncompress owncloudStore .init cfg P mem signs ys st ∧
      st.db.content.sync.rows = syncRows (exchangesOf ys) ∧
      st.lasthash = newLasthashes cfg P HashText.empty
        ((numberedRows (fun n x ↦ x.rows n) 1 (exchangesOf ys)).map OwnCloudRow.call) := by
  obtain ⟨ys, st, last, rows, hlogs, hhistory, hdb, hhash⟩ := T.exists_logsAs
    (owncloudFormat uncompress) .init hcount hdo P mem (fun _ ↦ trivial) hsigns
  obtain rfl : rows = numberedRows (fun n x ↦ x.rows n) 1 (exchangesOf ys) :=
    rows_eq_of_history hhistory
  exact ⟨ys, st, hlogs, hdb ▸ rows_foldl_owncloudStore _, hhash⟩

/-- **Every batch is stored once**, in the order in which the slots of the exchanges have ended, and
nothing else is. For any order of the callbacks of any number of connections, any pieces, and
whatever the auditor finds in memory, the run ends, the table holds the batches of all exchanges
with the numbers of the exchanges for their times, and where rows are chained, `lasthash` is the
head of the chain of the rows in the table. -/
theorem syncRows_of_traffic {K : Type} [DecidableEq K] (uncompress : ℕ → Bytes → Option Bytes)
    (T : Traffic owncloudWire K) (hcount : T.callbacks.length < 2147483647) {cfg : BuildConfig}
    (hdo : cfg.doInsert = true) (P : Platform) (mem : ℕ → AuditorMemory)
    (signs : ℕ → Option Signature)
    (hsigns : cfg.signs = true → ∀ n, (signs n).isSome = true) :
    ∃ ys st, T.LogsAs .owncloud uncompress owncloudStore .init cfg P mem signs ys st ∧
      st.db.content.sync.rows = syncRows (exchangesOf ys) ∧
      (cfg.addHash = true → ∃ rows : List OwnCloudRow,
        rows.map OwnCloudRow.syncRow = st.db.content.sync.rows ∧
        st.lasthash = HashChain.head (sha256 P) chainText HashText.empty
          (rows.map OwnCloudRow.call)) := by
  obtain ⟨ys, st, hlogs, hrows, hhash⟩ :=
    T.exists_syncRows uncompress hcount hdo P mem signs hsigns
  refine ⟨ys, st, hlogs, hrows, fun hadd ↦
    ⟨numberedRows (fun n x ↦ x.rows n) 1 (exchangesOf ys), ?_, ?_⟩⟩
  · rw [hrows, map_syncRow_numberedRows]
    rfl
  · rw [hhash, newLasthashes_eq_head hadd]

/-! ### Two synchronisations on one connection -/

theorem newline_notMem_pollLine :
    10 ∉ ascii "POST /apps/documents/session/user/poll HTTP/1.1" := by
  decide

/-- A message with an object and a line break behind it. -/
def objectMessage (startLine : Bytes) (hline : 10 ∉ startLine) (fields : Fields) :
    ObjectMessage where
  message := plainMessage startLine (ascii "text/plain")
    (documentText [] (.object (.compact fields)) [] ++ [10]) hline newline_notMem_textPlain
    (List.append_ne_nil_of_right_ne_nil _ (List.cons_ne_nil _ _))
  before := []
  members := .compact fields
  after := []
  body := .sized _ _

/-- A text can be a string as it is. -/
def PlainText (s : Bytes) : Prop := ∀ b ∈ s, b ≠ 0 ∧ b ≠ '"'.toUInt8 ∧ b ≠ '\\'.toUInt8

instance (s : Bytes) : Decidable (PlainText s) :=
  inferInstanceAs (Decidable (∀ b ∈ s, b ≠ 0 ∧ b ≠ '"'.toUInt8 ∧ b ≠ '\\'.toUInt8))

theorem plainText_names : (PlainText owncloudCommand ∧ PlainText owncloudSyncops) ∧
    (PlainText owncloudArgs ∧ PlainText owncloudEsid ∧ PlainText owncloudMemberId) ∧
    PlainText owncloudClientOps ∧ PlainText owncloudResult ∧ PlainText owncloudOps := by
  decide +kernel

theorem plainText_values :
    PlainText owncloudAdded ∧ PlainText owncloudNewops ∧ PlainText (ascii "e") := by
  decide +kernel

/-- The arguments of a member of the session `e`. -/
def memberArgs (member : ℤ) (more : Fields) : Fields :=
  plainField owncloudEsid plainText_names.2.1.2.1
      (.string (plainString (ascii "e") plainText_values.2.2)) ::
    plainField owncloudMemberId plainText_names.2.1.2.2 (.literal (.int member)) :: more

/-- A member synchronises. -/
def memberPoll (member : ℤ) (hlow : -2147483648 ≤ member) (hhigh : member < 2147483648)
    (more : Fields) : SyncRequest where
  toObjectMessage := objectMessage (ascii "POST /apps/documents/session/user/poll HTTP/1.1")
    newline_notMem_pollLine
    [plainField owncloudCommand plainText_names.1.1
      (.string (plainString owncloudSyncops plainText_names.1.2)),
      plainField owncloudArgs plainText_names.2.1.1 (.object (.compact (memberArgs member more)))]
  esid := ascii "e"
  member := member
  args := .compact (memberArgs member more)
  argsKey := plainString owncloudArgs plainText_names.2.1.1
  memberKey := plainString owncloudMemberId plainText_names.2.1.2.2
  memberValue := .literal (.int member)
  more := []
  rest := more
  first := ⟨_, _, JsonMembers.toList_compact _, stringText_plainString _ _,
    textValue_plainString _ _⟩
  argsKey_eq := stringText_plainString _ _
  session := ⟨_, _, JsonMembers.toList_compact _, stringText_plainString _ _,
    textValue_plainString _ _⟩
  memberKey_eq := stringText_plainString _ _
  memberValue_eq := .int (intValue_int hlow hhigh)
  member_fits := ⟨by omega, by omega⟩

/-- A reply with a result. -/
def pollReply (result : Bytes) (hresult : PlainText result) (more : Fields) : ResultReply where
  toObjectMessage := objectMessage (ascii "HTTP/1.1 200 OK") newline_notMem_okLine
    (plainField owncloudResult plainText_names.2.2.2.1 (.string (plainString result hresult)) ::
      more)
  result := result
  further := more
  first := ⟨_, _, JsonMembers.toList_compact _, stringText_plainString _ _,
    textValue_plainString _ _⟩

/-- The array with the removal of a character. -/
def oneRemoval : JsonItems := .compact [.object (.compact removal)]

theorem elements_oneRemoval : Elements oneRemoval.toList [some (.removeText 7 1)] := by
  rw [oneRemoval, JsonItems.toList_compact]
  refine .cons ⟨_, rfl, ?_, ?_⟩ .nil <;> rw [JsonMembers.toList_compact]
  · exact element_removal
  · exact (by decide +kernel : (fieldViews removal).IsChain NotOptypeObject)

/-- The removal behind a key that comes next. -/
def removalBehind {views : List JsonView} {key : Bytes} (hkey : PlainText key)
    (rest : List JsonView)
    (h : views = .chars 1 (plainString key hkey) :: (valueViews (.array oneRemoval) ++ rest)) :
    HasOperations views key where
  front := []
  name := .chars 1 (plainString key hkey)
  items := oneRemoval
  rest := rest
  elements := [some (.removeText 7 1)]
  views_eq := h
  string_ne := List.forall_mem_nil _
  string_eq := stringText_plainString _ _
  isElements := elements_oneRemoval

theorem int_bounds : (-2147483648 ≤ (7 : ℤ) ∧ (7 : ℤ) < 2147483648) ∧
    -2147483648 ≤ (8 : ℤ) ∧ (8 : ℤ) < 2147483648 := by
  decide

/-- The member 7 removes a character. -/
def removalAdded : OwnCloudExchange :=
  .added
    (memberPoll 7 int_bounds.1.1 int_bounds.1.2
      [plainField owncloudClientOps plainText_names.2.2.1 (.array oneRemoval)])
    (pollReply owncloudAdded plainText_values.1 [])
    (removalBehind plainText_names.2.2.1 [] (by decide +kernel))

/-- The member 8 is told. -/
def removalServed : OwnCloudExchange :=
  .served (memberPoll 8 int_bounds.2.1 int_bounds.2.2 [])
    (pollReply owncloudNewops plainText_values.2.1
      [plainField owncloudOps plainText_names.2.2.2.2 (.array oneRemoval)])
    (removalBehind plainText_names.2.2.2.2 [] (by decide +kernel))

theorem readable_removalAdded : removalAdded.Readable where
  request_lt := by decide +kernel
  reply_lt := by decide +kernel
  isRequest := firstLineName_of_post
    ⟨ascii " /apps/documents/session/user/poll HTTP/1.1", by decide⟩
  isReply := firstLineName_of_http ⟨ascii "/1.1 200 OK", by decide⟩
  parses := ⟨⟨by decide +kernel, by decide +kernel⟩, rfl⟩
  quotable := by
    intro b hb
    obtain rfl := Option.some.inj hb
    exact ⟨⟨by decide, by decide⟩, by decide +kernel, by decide +kernel⟩

theorem readable_removalServed : removalServed.Readable where
  request_lt := by decide +kernel
  reply_lt := by decide +kernel
  isRequest := firstLineName_of_post
    ⟨ascii " /apps/documents/session/user/poll HTTP/1.1", by decide⟩
  isReply := firstLineName_of_http ⟨ascii "/1.1 200 OK", by decide⟩
  parses := ⟨⟨by decide +kernel, by decide +kernel⟩, .inl rfl⟩
  quotable := by
    intro b hb
    obtain rfl := Option.some.inj hb
    exact ⟨⟨by decide, by decide⟩, by decide +kernel, by decide +kernel⟩

/-- Both synchronisations, on a connection that is kept alive. -/
def addedThenServed : WireConnection owncloudWire where
  answers := roomy
  exchanges := [.inPieces owncloudWire readable_removalAdded 50,
    .inPieces owncloudWire readable_removalServed 20]
  succeed := roomy_succeed

/-- The table holds both batches. -/
theorem syncRows_of_traffic_keptAlive : ∃ ys st,
    addedThenServed.traffic.LogsAs .owncloud (fun _ _ ↦ none) owncloudStore .init
      ⟨true, true, true, true⟩ twoRowPlatform (fun _ ↦ .zero) (fun _ ↦ some someSignature) ys st ∧
    st.db.content.sync.rows.map (fun r ↦ (r.time, r.sender, r.receiver)) =
      [(1, 7, 0), (2, 0, 8)] := by
  obtain ⟨ys, st, hlogs, hrows, -⟩ := syncRows_of_traffic (fun _ _ ↦ none) addedThenServed.traffic
    (by decide +kernel) (show (⟨true, true, true, true⟩ : BuildConfig).doInsert = true from rfl)
    twoRowPlatform (fun _ ↦ .zero) (fun _ ↦ some someSignature) fun _ _ ↦ rfl
  rw [exchangesOf_of_logsAs hlogs] at hrows
  refine ⟨ys, st, hlogs, ?_⟩
  rw [hrows]
  rfl

end LibSeal
