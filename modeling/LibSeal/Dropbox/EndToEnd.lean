import LibSeal.Dropbox.Exchanges
import LibSeal.Logpoint.AuditedTraffic

/-!
# Uploads and listings, from the wire to the tables

The way of Dropbox exchanges through the log. What is in the tables afterwards
(`filesAudited_of_traffic`) are the files of the exchanges, each once and nothing else. An exchange
without files leaves no trace. The others are numbered, in the order in which their slots have
ended, and the number is the time of their rows.
-/

namespace LibSeal

open Bytes Json

/-! ### Exchanges with files -/

/-- How Dropbox exchanges are written. -/
def dropboxWire (uncompress : ℕ → Bytes → Option Bytes) (limit : ℕ) :
    WireFormat DropboxExchange where
  request x := x.messages.1.text
  reply x := x.messages.2.text
  Readable x := x.Readable uncompress limit
  request_lt h := h.request_lt
  reply_lt h := h.reply_lt

/-- The exchanges with files. -/
def withFiles (xs : List DropboxExchange) : List DropboxExchange :=
  xs.filter fun x ↦ !x.files.isEmpty

namespace DropboxExchange

/-- The files that are listed. -/
def listedRows (time : ℤ) : DropboxExchange → List FileRow
  | list req rsp => rsp.array.files.map (DropboxFile.row time req.hostKey)
  | commit _ _ | other _ _ => []

/-- The files that are uploaded. -/
def committedRows (time : ℤ) : DropboxExchange → List FileRow
  | list _ _ | other _ _ => []
  | commit req _ => req.array.files.map (DropboxFile.row time req.hostKey)

variable {x : DropboxExchange} {time : ℤ}

theorem rows_eq_nil (h : x.files = []) : x.rows time = [] := by
  rcases x with ⟨req, rsp⟩ | ⟨req, rsp⟩ | ⟨req, rsp⟩
  · exact List.map_eq_nil_iff.2 h
  · exact List.map_eq_nil_iff.2 h
  · rfl

theorem filterMap_listed?_rows (x : DropboxExchange) :
    (x.rows time).filterMap DropboxRow.listed? = x.listedRows time := by
  rcases x with ⟨req, rsp⟩ | ⟨req, rsp⟩ | ⟨req, rsp⟩
  · rw [rows, List.filterMap_map]
    exact congrFun List.filterMap_eq_map _
  · rw [rows, List.filterMap_map]
    exact List.filterMap_eq_nil_iff.2 fun _ _ ↦ rfl
  · rfl

theorem filterMap_committed?_rows (x : DropboxExchange) :
    (x.rows time).filterMap DropboxRow.committed? = x.committedRows time := by
  rcases x with ⟨req, rsp⟩ | ⟨req, rsp⟩ | ⟨req, rsp⟩
  · rw [rows, List.filterMap_map]
    exact List.filterMap_eq_nil_iff.2 fun _ _ ↦ rfl
  · rw [rows, List.filterMap_map]
    exact congrFun List.filterMap_eq_map _
  · rfl

/-- The files of an exchange have different keys. -/
theorem nodup_key {hostKey : Bytes} {files : List DropboxFile}
    (h : (files.map DropboxFile.path).Nodup) :
    ((files.map (DropboxFile.row time hostKey)).map FileRow.key).Nodup := by
  refine List.Nodup.of_map (fun k ↦ k.2.2.2) ?_
  rw [List.map_map, List.map_map]
  exact h

theorem nodup_listedRows (h : (x.files.map DropboxFile.path).Nodup) :
    ((x.listedRows time).map FileRow.key).Nodup := by
  rcases x with ⟨req, rsp⟩ | ⟨req, rsp⟩ | ⟨req, rsp⟩
  · exact nodup_key h
  · exact List.nodup_nil
  · exact List.nodup_nil

theorem nodup_committedRows (h : (x.files.map DropboxFile.path).Nodup) :
    ((x.committedRows time).map FileRow.key).Nodup := by
  rcases x with ⟨req, rsp⟩ | ⟨req, rsp⟩ | ⟨req, rsp⟩
  · exact List.nodup_nil
  · exact nodup_key h
  · exact List.nodup_nil

theorem time_of_mem_listedRows {r : FileRow} (h : r ∈ x.listedRows time) : r.time = time := by
  rcases x with ⟨req, rsp⟩ | ⟨req, rsp⟩ | ⟨req, rsp⟩
  · obtain ⟨f, -, rfl⟩ := List.mem_map.1 h
    rfl
  · exact absurd h List.not_mem_nil
  · exact absurd h List.not_mem_nil

theorem time_of_mem_committedRows {r : FileRow} (h : r ∈ x.committedRows time) :
    r.time = time := by
  rcases x with ⟨req, rsp⟩ | ⟨req, rsp⟩ | ⟨req, rsp⟩
  · exact absurd h List.not_mem_nil
  · obtain ⟨f, -, rfl⟩ := List.mem_map.1 h
    rfl
  · exact absurd h List.not_mem_nil

end DropboxExchange

/-! ### Their rows -/

/-- **What the auditor makes of Dropbox exchanges**, when there is a NUL in the buffer for an
upload. -/
def dropboxFormat (uncompress : ℕ → Bytes → Option Bytes) (limit : ℕ) :
    AuditedFormat .dropbox uncompress (dropboxWire uncompress limit) dropboxStore where
  MemoryOk m := ∃ i, limit ≤ i ∧ i < 8192 ∧ m.stack i = 0
  call := DropboxRow.call
  Makes t x next rows := next = (if x.files.isEmpty then t else t + 1) ∧ rows = x.rows (t + 1 : ℕ)
  le_succ := by
    rintro t next x rows ⟨rfl, -⟩
    split_ifs
    · exact Nat.le_succ t
    · exact le_rfl
  isCallOf := by
    rintro t next ht x rows hx ⟨-, rfl⟩ r hr
    have htime : SqlText.FitsInt64 (t + 1 : ℕ) := SqlText.fitsInt64_of_lt (Nat.succ_lt_succ ht)
    exact dropboxStore_isCallOf (DropboxExchange.Readable.safe hx r hr)
      (DropboxExchange.integersFit_of_mem_rows htime r hr)
  exists_makes := by
    intro m hm t ht x hx
    exact ⟨_, _, ⟨rfl, rfl⟩,
      DropboxExchange.libsealProcessLogAtRuntime_eq m.junk m.reqJunk hm ht hx⟩

/-- Rows with different times have different keys. -/
theorem nodup_numberedRows {rows : ℕ → DropboxExchange → List FileRow}
    (htime : ∀ (time : ℕ) (x : DropboxExchange), ∀ r ∈ rows time x, r.time = time) (t : ℕ)
    {xs : List DropboxExchange}
    (hnd : ∀ (time : ℕ), ∀ x ∈ xs, ((rows time x).map FileRow.key).Nodup) :
    ((numberedRows rows t xs).map FileRow.key).Nodup := by
  induction xs generalizing t with
  | nil => exact List.nodup_nil
  | cons x xs ih =>
    rw [numberedRows_cons, List.map_append]
    refine List.nodup_append.2 ⟨hnd _ x List.mem_cons_self,
      ih (t + 1) fun time y hy ↦ hnd time y (List.mem_cons_of_mem x hy), ?_⟩
    intro k hk k' hk' heq
    obtain ⟨r, hr, rfl⟩ := List.mem_map.1 hk
    obtain ⟨s, hs, rfl⟩ := List.mem_map.1 hk'
    obtain ⟨n, y, -, hs⟩ := mem_numberedRows.1 hs
    have hr := htime _ _ r hr
    have hs := htime _ _ s hs
    have hsame : r.time = s.time := congrArg Prod.fst heq
    omega

/-- **The rows of the traffic** are those of its exchanges with files. -/
theorem rows_eq_numberedRows {uncompress : ℕ → Bytes → Option Bytes} {limit t last : ℕ}
    {xs : List DropboxExchange} {rows : List DropboxRow}
    (h : (dropboxFormat uncompress limit).History t xs last rows) :
    rows = numberedRows (fun n ↦ DropboxExchange.rows n) (t + 1) (withFiles xs) := by
  induction h with
  | nil t => rfl
  | @cons t next last x xs rows rows' hx _ ih =>
    obtain ⟨rfl, rfl⟩ := hx
    rcases hfiles : x.files with - | ⟨f, files⟩
    · have hskip : withFiles (x :: xs) = withFiles xs :=
        List.filter_cons_of_neg (by simp [hfiles])
      rw [ih, DropboxExchange.rows_eq_nil hfiles, hfiles, hskip]
      rfl
    · have hkeep : withFiles (x :: xs) = x :: withFiles xs :=
        List.filter_cons_of_pos (by simp [hfiles])
      rw [ih, hfiles, hkeep, numberedRows_cons]
      rfl

/-! ### The tables -/

/-- The tables hold the files of some exchanges and nothing else; the time of a row is the number of
its exchange. -/
structure FilesAudited (xs : List DropboxExchange) (db : DropboxDatabase) : Prop where
  mem_list : ∀ r, r ∈ db.list.rows ↔ ∃ (n : ℕ) (x : DropboxExchange), xs[n]? = some x ∧
    r ∈ x.listedRows ((n + 1 : ℕ) : ℤ)
  mem_commitBatch : ∀ r, r ∈ db.commitBatch.rows ↔ ∃ (n : ℕ) (x : DropboxExchange),
    xs[n]? = some x ∧ r ∈ x.committedRows ((n + 1 : ℕ) : ℤ)

theorem filterMap_listed?_numberedRows (t : ℕ) (xs : List DropboxExchange) :
    (numberedRows (fun n ↦ DropboxExchange.rows n) t xs).filterMap DropboxRow.listed? =
      numberedRows (fun n ↦ DropboxExchange.listedRows n) t xs := by
  rw [numberedRows, List.filterMap_flatMap]
  exact List.flatMap_congr fun p _ ↦ p.1.filterMap_listed?_rows

theorem filterMap_committed?_numberedRows (t : ℕ) (xs : List DropboxExchange) :
    (numberedRows (fun n ↦ DropboxExchange.rows n) t xs).filterMap DropboxRow.committed? =
      numberedRows (fun n ↦ DropboxExchange.committedRows n) t xs := by
  rw [numberedRows, List.filterMap_flatMap]
  exact List.flatMap_congr fun p _ ↦ p.1.filterMap_committed?_rows

/-- The content after exchanges with files. -/
theorem rows_foldl_numberedRows {xs : List DropboxExchange}
    (hnd : ∀ x ∈ xs, (x.files.map DropboxFile.path).Nodup) :
    let db := (numberedRows (fun n ↦ DropboxExchange.rows n) 1 xs).foldl dropboxStore.put .init
    db.list.rows = numberedRows (fun n ↦ DropboxExchange.listedRows n) 1 xs ∧
      db.commitBatch.rows = numberedRows (fun n ↦ DropboxExchange.committedRows n) 1 xs := by
  dsimp only
  rw [dropboxStore_foldl_put, filterMap_listed?_numberedRows, filterMap_committed?_numberedRows]
  constructor
  · exact Table.rows_insertAll _ (nodup_numberedRows
      (fun _ _ _ ↦ DropboxExchange.time_of_mem_listedRows) 1
      fun time x hx ↦ DropboxExchange.nodup_listedRows (hnd x hx))
  · exact Table.rows_insertAll _ (nodup_numberedRows
      (fun _ _ _ ↦ DropboxExchange.time_of_mem_committedRows) 1
      fun time x hx ↦ DropboxExchange.nodup_committedRows (hnd x hx))

/-- The traffic leaves the tables of its exchanges with files. -/
theorem Traffic.exists_filesAudited {K : Type} [DecidableEq K]
    {uncompress : ℕ → Bytes → Option Bytes} {limit : ℕ}
    (T : Traffic (dropboxWire uncompress limit) K) (hcount : T.callbacks.length < 2147483647)
    {cfg : BuildConfig} (hdo : cfg.doInsert = true) (P : Platform) (mem : ℕ → AuditorMemory)
    (hmem : ∀ n, ∃ i, limit ≤ i ∧ i < 8192 ∧ (mem n).stack i = 0) (signs : ℕ → Option Signature)
    (hsigns : cfg.signs = true → ∀ n, (signs n).isSome = true) :
    ∃ ys st, T.LogsAs .dropbox uncompress dropboxStore .init cfg P mem signs ys st ∧
      FilesAudited (withFiles (exchangesOf ys)) st.db.content ∧
      (st.db.content.list.rows =
          numberedRows (fun n ↦ DropboxExchange.listedRows n) 1 (withFiles (exchangesOf ys)) ∧
        st.db.content.commitBatch.rows =
          numberedRows (fun n ↦ DropboxExchange.committedRows n) 1 (withFiles (exchangesOf ys))) ∧
      st.lasthash = newLasthashes cfg P HashText.empty
        ((numberedRows (fun n ↦ DropboxExchange.rows n) 1 (withFiles (exchangesOf ys))).map
          DropboxRow.call) := by
  obtain ⟨ys, st, last, rows, hlogs, hhistory, hdb, hhash⟩ := T.exists_logsAs
    (dropboxFormat uncompress limit) .init hcount hdo P mem hmem hsigns
  obtain rfl : rows = numberedRows (fun n ↦ DropboxExchange.rows n) 1
    (withFiles (exchangesOf ys)) := rows_eq_numberedRows hhistory
  have hnd : ∀ x ∈ withFiles (exchangesOf ys), (x.files.map DropboxFile.path).Nodup := by
    intro x hx
    obtain ⟨y, -, rfl⟩ := List.mem_map.1 (List.mem_of_mem_filter hx)
    exact y.2.readable.nodup
  obtain ⟨hlist, hcommit⟩ := rows_foldl_numberedRows hnd
  rw [← hdb] at hlist hcommit
  refine ⟨ys, st, hlogs, ⟨fun r ↦ ?_, fun r ↦ ?_⟩, ⟨hlist, hcommit⟩, hhash⟩
  · rw [hlist, mem_numberedRows]
    simp only [Nat.add_comm 1]
  · rw [hcommit, mem_numberedRows]
    simp only [Nat.add_comm 1]

/-- **Every file is stored once**, and nothing else is. For any order of the callbacks of any number
of connections, any pieces, and whatever the auditor finds in memory but for a NUL in the buffer for
an upload, the run ends and the tables hold the files of all exchanges, which are numbered in the
order in which their slots have ended, those without files left out; and where rows are chained,
`lasthash` is the head of the chain of the rows in the tables. -/
theorem filesAudited_of_traffic {K : Type} [DecidableEq K] {uncompress : ℕ → Bytes → Option Bytes}
    {limit : ℕ} (T : Traffic (dropboxWire uncompress limit) K)
    (hcount : T.callbacks.length < 2147483647) {cfg : BuildConfig} (hdo : cfg.doInsert = true)
    (P : Platform) (mem : ℕ → AuditorMemory)
    (hmem : ∀ n, ∃ i, limit ≤ i ∧ i < 8192 ∧ (mem n).stack i = 0) (signs : ℕ → Option Signature)
    (hsigns : cfg.signs = true → ∀ n, (signs n).isSome = true) :
    ∃ ys st, T.LogsAs .dropbox uncompress dropboxStore .init cfg P mem signs ys st ∧
      FilesAudited (withFiles (exchangesOf ys)) st.db.content ∧
      (cfg.addHash = true → ∃ rows : List DropboxRow,
        rows.filterMap DropboxRow.listed? = st.db.content.list.rows ∧
        rows.filterMap DropboxRow.committed? = st.db.content.commitBatch.rows ∧
        st.lasthash = HashChain.head (sha256 P) chainText HashText.empty
          (rows.map DropboxRow.call)) := by
  obtain ⟨ys, st, hlogs, haudited, hcontent, hhash⟩ :=
    T.exists_filesAudited hcount hdo P mem hmem signs hsigns
  refine ⟨ys, st, hlogs, haudited, fun hadd ↦
    ⟨numberedRows (fun n ↦ DropboxExchange.rows n) 1 (withFiles (exchangesOf ys)), ?_, ?_, ?_⟩⟩
  · rw [hcontent.1, filterMap_listed?_numberedRows]
  · rw [hcontent.2, filterMap_committed?_numberedRows]
  · rw [hhash, newLasthashes_eq_head hadd]

/-! ### An upload and a listing on one connection -/

/-- A message of which a part is found. -/
def sizedMessage (startLine found : Bytes) (last : UInt8) (hline : 10 ∉ startLine)
    (hfound : 0 ∉ found) : SizedMessage where
  message := plainMessage startLine (ascii "text/plain") (found ++ [last]) hline
    newline_notMem_textPlain (List.append_ne_nil_of_right_ne_nil _ (List.cons_ne_nil _ _))
  found := found
  last := last
  body_eq := rfl
  zero_notMem := hfound

/-- A file as it is sent. -/
def plainFile (path : Bytes) (hpath : ∀ b ∈ path, b ≠ 0 ∧ b ≠ '"'.toUInt8 ∧ b ≠ '\\'.toUInt8)
    (size : ℤ) (blocklist : Bytes)
    (hblocklist : ∀ b ∈ blocklist, b ≠ 0 ∧ b ≠ '"'.toUInt8 ∧ b ≠ '\\'.toUInt8) : Json :=
  .object (.compact [pathField path hpath, sizeField size, blocklistField blocklist hblocklist])

theorem isFileKey_plainField {k : Bytes}
    (hk : ∀ b ∈ k, b ≠ 0 ∧ b ≠ '"'.toUInt8 ∧ b ≠ '\\'.toUInt8) (hkey : k ∈ fileKeys) (v : Json) :
    isFileKey (plainField k hk v) = true := by
  rw [isFileKey, plainField, stringText_plainString]
  exact decide_eq_true hkey

theorem fileEntry_plainFile (hostKey : Bytes) {path : Bytes}
    (hpath : ∀ b ∈ path, b ≠ 0 ∧ b ≠ '"'.toUInt8 ∧ b ≠ '\\'.toUInt8) {size : ℤ}
    (hlow : -2147483648 ≤ size) (hhigh : size < 2147483648) {blocklist : Bytes}
    (hblocklist : ∀ b ∈ blocklist, b ≠ 0 ∧ b ≠ '"'.toUInt8 ∧ b ≠ '\\'.toUInt8) :
    FileEntry hostKey (plainFile path hpath size blocklist hblocklist)
      (fileStatement hostKey path size blocklist) := by
  have hnames : ascii "path" ∈ fileKeys ∧ ascii "size" ∈ fileKeys ∧
      ascii "blocklist" ∈ fileKeys := by decide
  have hp : isFileKey (pathField path hpath) = true := isFileKey_plainField _ hnames.1 _
  have hs : isFileKey (sizeField size) = true := isFileKey_plainField _ hnames.2.1 _
  have hb : isFileKey (blocklistField blocklist hblocklist) = true :=
    isFileKey_plainField _ hnames.2.2 _
  have hfields : OnlyKeys (JsonMembers.compact [pathField path hpath, sizeField size,
      blocklistField blocklist hblocklist]).toList := by
    rw [JsonMembers.toList_compact]
    exact onlyKeys_cons hp (.string _) (onlyKeys_cons hs (.literal _)
      (onlyKeys_cons hb (.string _) (List.forall_mem_nil _)))
  have hkeys : ((JsonMembers.compact [pathField path hpath, sizeField size,
      blocklistField blocklist hblocklist]).toList.filter isFileKey).Perm
      [pathField path hpath, sizeField size, blocklistField blocklist hblocklist] := by
    rw [JsonMembers.toList_compact, List.filter_eq_self.2 (by simp [hp, hs, hb])]
  exact .mk hfields hkeys (stringText_plainString _ _) (stringText_plainString _ _)
    (stringText_plainString _ _) (textValue_plainString _ _) (intValue_int hlow hhigh)
    (textValue_plainString _ _)

/-- The array that is uploaded. -/
def uploadedArray : FileArray (ascii "K") where
  items := .compact twoFiles
  files := [⟨ascii "/b", 1, ascii "y"⟩]
  size_int := by decide
  entries := fileEntries_twoFiles
  endsArray := endsArray (by decide +kernel)

theorem quotable_x : ∀ b ∈ ascii "x", b ≠ 0 ∧ b ≠ '"'.toUInt8 ∧ b ≠ '\\'.toUInt8 := by
  decide +kernel

/-- A listing without the uploaded file. -/
def listedArray : FileArray (ascii "K") where
  items := .compact [plainFile (ascii "/z") (by decide +kernel) 2 (ascii "x") quotable_x]
  files := [⟨ascii "/z", 2, ascii "x"⟩]
  size_int := by decide
  entries := by
    rw [JsonItems.toList_compact]
    exact .file (fileEntry_plainFile _ _ (by decide +kernel) (by decide +kernel) _)
      (.few (List.forall_mem_nil _) (by decide +kernel))
  endsArray := endsArray (by decide +kernel)

/-- The letters of the upload, without the padding. -/
def uploadedLetters : Bytes := (base64Encode twoFilesCompressed).take 71

/-- The upload; the parser overwrites its padding. -/
def uploadRequest : CommitRequest where
  toSizedMessage := sizedMessage (ascii "POST /commit_batch HTTP/1.1")
    (ascii "host_key=K&commit_info=" ++ uploadedLetters) '~'.toUInt8 (by decide +kernel)
    (by decide +kernel)
  hostKey := ascii "K"
  array := uploadedArray
  before := []
  after := []
  compressed := twoFilesCompressed
  letters := 71
  pieces := uploadedLetters.map fun b ↦ [b]
  not_contains_list := by decide +kernel
  contains_commit := by decide +kernel
  hasParameter_host := ⟨[], ascii "&commit_info=" ++ uploadedLetters, by decide +kernel,
    by decide +kernel, by decide +kernel, fun _ h ↦ (Option.some.inj h).symm⟩
  hasParameter_info := ⟨ascii "host_key=K&", [], by decide +kernel, by decide +kernel,
    by decide +kernel, fun _ h ↦ (nomatch h)⟩
  spelled := by
    rw [List.forall₂_map_right_iff, uploadedLetters, List.forall₂_same]
    exact fun b _ ↦ .literal b
  complete := by decide +kernel

/-- The host asks for a listing. -/
def uploadListed : DropboxExchange :=
  .list
    { toSizedMessage := sizedMessage (ascii "POST /list HTTP/1.1") (ascii "host_key=K")
        '&'.toUInt8 (by decide +kernel) (by decide +kernel)
      hostKey := ascii "K"
      contains_list := by decide +kernel
      hasParameter := ⟨[], [], by decide +kernel, by decide +kernel, by decide +kernel,
        fun _ h ↦ (nomatch h)⟩ }
    { toSizedMessage := sizedMessage (ascii "HTTP/1.1 200 OK")
        (ascii "\x7b\"list\": " ++ (Json.array listedArray.items).text) '\x7d'.toUInt8
        newline_notMem_okLine (by decide +kernel)
      array := listedArray
      front := ascii "\x7b"
      space := .space
      gap := []
      rest := []
      found_eq := by decide +kernel
      find_eq := by decide +kernel }

/-- The server has taken the upload. -/
def uploadReply : HttpMessage :=
  plainMessage (ascii "HTTP/1.1 200 OK") (ascii "text/plain") (ascii "OK")
    newline_notMem_okLine newline_notMem_textPlain (List.cons_ne_nil _ _)

theorem readable_upload :
    (DropboxExchange.commit uploadRequest uploadReply).Readable uncompressTwoFiles 4096 where
  request_lt := by decide +kernel
  reply_lt := by decide +kernel
  isRequest := firstLineName_of_post ⟨ascii " /commit_batch HTTP/1.1", by decide⟩
  isReply := firstLineName_of_http ⟨ascii "/1.1 200 OK", by decide⟩
  parses := ⟨by decide +kernel, by decide +kernel⟩
  quotable := ⟨⟨by decide, by decide⟩, by
    intro f hf
    rw [List.mem_singleton.1 hf]
    exact ⟨⟨by decide, by decide⟩, by decide, by decide⟩⟩
  nodup := List.nodup_singleton _

theorem readable_uploadListed : uploadListed.Readable uncompressTwoFiles 4096 where
  request_lt := by decide +kernel
  reply_lt := by decide +kernel
  isRequest := firstLineName_of_post ⟨ascii " /list HTTP/1.1", by decide⟩
  isReply := firstLineName_of_http ⟨ascii "/1.1 200 OK", by decide⟩
  parses := trivial
  quotable := ⟨⟨by decide, by decide⟩, by
    intro f hf
    rw [List.mem_singleton.1 hf]
    exact ⟨⟨by decide, by decide⟩, by decide, by decide⟩⟩
  nodup := List.nodup_singleton _

/-- An upload, and then a listing, on a connection that is kept alive. -/
def uploadThenList : WireConnection (dropboxWire uncompressTwoFiles 4096) where
  answers := roomy
  exchanges := [.inPieces (dropboxWire uncompressTwoFiles 4096) readable_upload 30,
    .inPieces (dropboxWire uncompressTwoFiles 4096) readable_uploadListed 20]
  succeed := roomy_succeed

/-- The tables hold both. -/
theorem filesAudited_of_traffic_keptAlive : ∃ ys st,
    uploadThenList.traffic.LogsAs .dropbox uncompressTwoFiles dropboxStore .init
      ⟨true, true, true, true⟩ twoRowPlatform (fun _ ↦ .zero) (fun _ ↦ some someSignature) ys st ∧
    FilesAudited [.commit uploadRequest uploadReply, uploadListed] st.db.content := by
  obtain ⟨ys, st, hlogs, haudited, -⟩ := filesAudited_of_traffic uploadThenList.traffic
    (by decide +kernel) (show (⟨true, true, true, true⟩ : BuildConfig).doInsert = true from rfl)
    twoRowPlatform (fun _ ↦ .zero) (fun _ ↦ ⟨8191, by decide, by decide, rfl⟩)
    (fun _ ↦ some someSignature) fun _ _ ↦ rfl
  rw [exchangesOf_of_logsAs hlogs] at haudited
  exact ⟨ys, st, hlogs, haudited⟩

end LibSeal
