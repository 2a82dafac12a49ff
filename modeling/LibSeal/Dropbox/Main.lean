import LibSeal.Auditing.Jsmn
import LibSeal.Dropbox.EventTime

/-!
# The files of an exchange

The parsers of `auditing/auditors/dropbox/main.cpp`. `parse_list` cuts an array out of a reply by
counting brackets, and `parse_commit_batch` one out of what a parameter of the request decodes and
decompresses to. Both go through the array's tokens with one loop, which looks for the names
`blocklist`, `path` and `size` among all strings, wherever they stand, and makes a statement out of
every three of them ("sometimes doing something stupid like that works better than something more
clever").

zlib's `uncompress` is a parameter: what it writes to a buffer of so many bytes, unless it fails. It
puts no NUL behind that, and the buffer is read as a C string with whatever was in it before.
-/

namespace LibSeal

open Bytes Interleaving

/-! ### Parameters of a request -/

/-- `s.find(name) + name.length()` to the next `&`, or to the end. -/
def parameterIn (name s : Bytes) : Except CFault Bytes :=
  let start := posAdd (find name s) name.length
  substr s start ((s.drop start).idxOf? '&'.toUInt8)

/-- `strtol(v, NULL, 16)` for a `v` of two characters, in which a prefix `0x` has no digits behind
it. -/
def strtolHex (v : Bytes) : ℤ :=
  let s := (cStr v).dropWhile isSpace
  let negative := s.head? == some '-'.toUInt8
  let digits := if negative || s.head? == some '+'.toUInt8 then s.tail else s
  let values := digits.map hexValue
  let n : ℕ := (values.takeWhile Option.isSome).foldl (fun n d ↦ 16 * n + d.getD 0) 0
  if negative then -n else n

/-- `decode_url_encoding`. Behind the last character of a string stands a NUL, and nothing behind
that. -/
def decodeUrlEncoding : Bytes → Except CFault Bytes
  | [] => .ok []
  | b :: str =>
    if b = '-'.toUInt8 then (decodeUrlEncoding str).map ('+'.toUInt8 :: ·)
    else if b = '_'.toUInt8 then (decodeUrlEncoding str).map ('/'.toUInt8 :: ·)
    else if b = '~'.toUInt8 then (decodeUrlEncoding str).map ('='.toUInt8 :: ·)
    else if b = '%'.toUInt8 then
      match str with
      | [] => .error .outOfBounds
      | [x] => .ok [UInt8.ofInt (strtolHex [x, 0])]
      | x :: y :: str => (decodeUrlEncoding str).map (UInt8.ofInt (strtolHex [x, y]) :: ·)
    else (decodeUrlEncoding str).map (b :: ·)

/-! ### Base 64 -/

/-- `base64_chars` -/
def base64Chars : Bytes :=
  ascii "ABCDEFGHIJKLMNOPQRSTUVWXYZ" ++ ascii "abcdefghijklmnopqrstuvwxyz" ++ ascii "0123456789+/"

/-- What four characters stand for; of fewer than four, the bytes that are complete. -/
def base64Groups : Bytes → Bytes
  | a :: b :: c :: d :: s =>
    ((a <<< 2) + ((b &&& 0x30) >>> 4)) :: (((b &&& 0xf) <<< 4) + ((c &&& 0x3c) >>> 2)) ::
      (((c &&& 0x3) <<< 6) + d) :: base64Groups s
  | [a, b, c] => [(a <<< 2) + ((b &&& 0x30) >>> 4), ((b &&& 0xf) <<< 4) + ((c &&& 0x3c) >>> 2)]
  | [a, b] => [(a <<< 2) + ((b &&& 0x30) >>> 4)]
  | _ => []

/-- `base64_decode`, up to the first character that is not in the alphabet. -/
def base64Decode (s : Bytes) : Bytes :=
  base64Groups ((s.takeWhile (· ∈ base64Chars)).map fun b ↦ UInt8.ofNat (base64Chars.idxOf b))

/-! ### Files -/

/-- The loops that count the brackets of a text, when `n` are open: how many characters stand in
front of the bracket that closes the last of them, or in all. -/
def arrayEnd (n : ℤ) : Bytes → ℕ
  | [] => 0
  | c :: s =>
    if c = '['.toUInt8 then arrayEnd (n + 1) s + 1
    else if c = ']'.toUInt8 then if n - 1 = 0 then 0 else arrayEnd (n - 1) s + 1
    else arrayEnd n s + 1

/-- `parse_commit_batch` takes this for the array at the beginning of a text. -/
def cutCommitInfo (commitInfo : Bytes) : Bytes := commitInfo.take (arrayEnd 0 commitInfo + 1)

/-- `parse_list` takes this for the array at `start`. -/
def cutList (content : Bytes) (start : ℕ) : Except CFault Bytes :=
  substr content start (some (arrayEnd 0 (content.drop start) + 1))

/-- The strings that are taken for keys of a file. -/
def fileKeys : List Bytes := [ascii "blocklist", ascii "path", ascii "size"]

/-- The variables of the loop over the tokens. -/
structure FileFields where
  done : ℕ
  size : ℤ
  path : Bytes
  blocklist : Bytes
  deriving DecidableEq

namespace FileFields

def init : FileFields := ⟨0, 0, [], []⟩

/-- The value of a key, as a string and as an integer. -/
def set (f : FileFields) (key string : Bytes) (int : ℤ) : FileFields :=
  if key = ascii "blocklist" then { f with blocklist := string, done := f.done + 1 }
  else if key = ascii "path" then { f with path := string, done := f.done + 1 }
  else if key = ascii "size" then { f with size := int, done := f.done + 1 }
  else f

/-- `if (done == 3)` -/
def push (hostKey : Bytes) (f : FileFields) : List Bytes × FileFields :=
  if f.done = 3 then ([fileStatement hostKey f.path f.size f.blocklist], { f with done := 0 })
  else ([], f)

end FileFields

/-- The loop over the tokens: the statements that are pushed. -/
def fileLoop (hostKey str : Bytes) : List JsmnTok → FileFields → Except CFault (List Bytes)
  | [], _ => .ok []
  | t :: tokens, f =>
    let key := jsonGetString t str
    if key ∈ fileKeys then
      match tokens with
      | [] => .error .outOfBounds
      | v :: tokens =>
        let (statements, f) := (f.set key (jsonGetString v str) (jsonGetInt v str)).push hostKey
        (fileLoop hostKey str tokens f).map (statements ++ ·)
    else
      let (statements, f) := f.push hostKey
      (fileLoop hostKey str tokens f).map (statements ++ ·)

/-- The statements for an array of files. -/
def fileStatements (junk : ℕ → JsmnTok) (hostKey str : Bytes) : Except CFault (List Bytes) :=
  let nbtokens := jsonGetNrTokens str
  if nbtokens ≤ 0 then .ok []
  else
    let tokens := jsonReadTokens junk str nbtokens
    if tokens.head?.map JsmnTok.type ≠ some .array then .ok []
    else fileLoop hostKey str tokens .init

/-- The array that `parse_commit_batch` finds in its buffer. -/
def commitInfoText (stack : ℕ → UInt8) (data : Bytes) : Except CFault Bytes := do
  let commitInfo ← stringAt (data ++ ((List.range 8192).map stack).drop data.length)
  return cutCommitInfo commitInfo

/-- `parse_commit_batch` -/
def parseCommitBatch (uncompress : ℕ → Bytes → Option Bytes) (stack : ℕ → UInt8)
    (junk : ℕ → JsmnTok) (content : Bytes) : Except CFault (List Bytes) := do
  let hostKey ← parameterIn (ascii "host_key=") content
  let commitInfo ← parameterIn (ascii "commit_info=") content
  let commitInfo ← decodeUrlEncoding commitInfo
  match uncompress 8192 (base64Decode commitInfo) with
  | none => return []
  | some data => do
    let commitInfo ← commitInfoText stack data
    fileStatements junk hostKey commitInfo

/-- The array that `parse_list` finds in a reply: one character is left out behind the colon. -/
def listText (content : Bytes) : Except CFault Bytes :=
  cutList content (posAdd (find (ascii "\"list\":") content) 8)

/-- `parse_list` -/
def parseList (junk : ℕ → JsmnTok) (req content : Bytes) : Except CFault (List Bytes) := do
  let hostKey ← parameterIn (ascii "host_key=") req
  let list ← listText content
  let statements ← fileStatements junk hostKey list
  if statements.isEmpty then
    -- the statement for an empty list is made, and then nothing is done with it
    let _statement := fileStatement hostKey [] (-1) []
    return statements
  else return statements

/-- The parsers of the Dropbox auditor. -/
def dropboxParsers (uncompress : ℕ → Bytes → Option Bytes) (stack : ℕ → UInt8)
    (junk : ℕ → JsmnTok) : DropboxParsers where
  parseCommitBatch := parseCommitBatch uncompress stack junk
  parseList := parseList junk

/-! ### Exchanges -/

theorem list_lt : 0 < (Auditor.getTables .dropbox).length := by decide

theorem commitBatch_lt : 1 < (Auditor.getTables .dropbox).length := by decide

/-- `insert_stmt_fn(table, result.c_str())`, where the table is 0 or 1. -/
def insertFile (table : ℕ) (t : Bytes) : InsertCall .dropbox :=
  ⟨if table = 0 then ⟨0, list_lt⟩ else ⟨1, commitBatch_lt⟩, .ofBuffer t⟩

/-- `processEventPair` in a thread that is alone: the new counter, and the calls of
`insert_statement`. -/
def eventCalls (P : DropboxParsers) (monotonicCounter : ℕ) (evReq evRsp : Event) :
    Except CFault (ℕ × List (InsertCall .dropbox)) := do
  let (table, statements) ← eventStatements P evReq evRsp
  if statements.isEmpty then return (monotonicCounter, [])
  else
    let monotonicCounter := (monotonicCounter + 1) % 18446744073709551616
    return (monotonicCounter, statements.map fun statement ↦
      insertFile table (fileTuple (toInt32 monotonicCounter) statement))

/-- `libseal_process_log_at_runtime` of the Dropbox auditor. -/
def Dropbox.libsealProcessLogAtRuntime (P : DropboxParsers) (junk : ℕ → UInt8)
    (monotonicCounter : ℕ) (req rsp : Bytes) :
    Except CFault (ℕ × List (InsertCall .dropbox)) := do
  let evReq ← httpToEvent junk req
  let evRsp ← httpToEvent junk rsp
  eventCalls P monotonicCounter evReq evRsp

/-- The call that hands a row over. -/
def TimedRow.call (r : TimedRow) : InsertCall .dropbox := insertFile r.table r.tuple

/-- The loop over the statements, in a thread that is alone: every row has the same time. -/
theorem run_readCounter (P : DropboxParsers) (s : EventTimeState) (event table : ℕ)
    (statements : List Bytes) :
    Config.run (eventSystem P) ⟨s, fun _ ↦ statements.map (.readCounter event table)⟩
        (List.replicate (2 * statements.length) (.step ())) =
      ⟨{ s with inserted := s.inserted ++ statements.map fun statement ↦
        ⟨event, table, toInt32 s.monotonicCounter, statement⟩ }, fun _ ↦ []⟩ := by
  induction statements generalizing s with
  | nil => simp [Config.run]
  | cons statement statements ih =>
    set row : TimedRow := ⟨event, table, toInt32 s.monotonicCounter, statement⟩ with hrow
    have hread : Config.turn (eventSystem P)
        ⟨s, fun _ ↦ (statement :: statements).map (.readCounter event table)⟩ (.step ()) =
        ⟨s, fun _ ↦ .insertStmt row :: statements.map (.readCounter event table)⟩ :=
      Config.turn_step_alone _ _ _ _
    have hinsert : Config.turn (eventSystem P)
        ⟨s, fun _ ↦ .insertStmt row :: statements.map (.readCounter event table)⟩ (.step ()) =
        ⟨{ s with inserted := s.inserted ++ [row] },
          fun _ ↦ statements.map (.readCounter event table)⟩ :=
      Config.turn_step_alone _ _ _ _
    have hcount : 2 * (statement :: statements).length = 2 * statements.length + 1 + 1 := by
      rw [List.length_cons]
      omega
    rw [hcount, List.replicate_succ, List.replicate_succ, Config.run, List.foldl_cons, hread,
      List.foldl_cons, hinsert]
    refine (ih _).trans ?_
    rw [List.map_cons, ← hrow, List.append_assoc]
    rfl

/-- **A thread that is alone** carries the steps of `processEventPair` out as `eventCalls` says. -/
theorem exists_run_of_eventCalls {P : DropboxParsers} {s : EventTimeState} {evReq evRsp : Event}
    {next : ℕ} {calls : List (InsertCall .dropbox)}
    (h : eventCalls P s.monotonicCounter evReq evRsp = .ok (next, calls)) :
    ∃ l n s', processEventPair P evReq evRsp = .ok l ∧
      Config.run (eventSystem P) ⟨s, fun _ ↦ []⟩ (.call () l :: List.replicate n (.step ())) =
        ⟨s', fun _ ↦ []⟩ ∧
      s'.monotonicCounter = next ∧
        ∃ rows, s'.inserted = s.inserted ++ rows ∧ calls = rows.map TimedRow.call := by
  obtain ⟨⟨table, statements⟩, hstatements, h⟩ := CFault.bind_eq_ok.1 h
  rw [processEventPair, hstatements]
  dsimp only at h
  split_ifs at h with hempty
  · cases h
    refine ⟨[], 0, s, ?_, rfl, rfl, [], (List.append_nil _).symm, rfl⟩
    exact congrArg Except.ok (if_pos hempty)
  · obtain ⟨hnext, hcalls⟩ := Prod.mk.inj (Except.ok.inj h)
    set rows : List TimedRow := statements.map fun statement ↦
      ⟨s.events, table, toInt32 next, statement⟩ with hrows
    refine ⟨[.fetchAdd table statements], 2 * statements.length + 1,
      ⟨next, s.events + 1, s.inserted ++ rows⟩, ?_, ?_, rfl, rows, rfl, ?_⟩
    · exact congrArg Except.ok (if_neg hempty)
    · -- the number of the event is taken first, then a row goes in at every two steps
      have hcount : Config.turn (eventSystem P)
          ⟨s, fun _ ↦ [.fetchAdd table statements]⟩ (.step ()) =
          ⟨⟨next, s.events + 1, s.inserted⟩,
            fun _ ↦ statements.map (.readCounter s.events table)⟩ := by
        rw [Config.turn_step_alone, List.append_nil, ← hnext]
        rfl
      rw [Config.run, List.foldl_cons, Config.turn_call_alone, List.replicate_succ,
        List.foldl_cons, hcount]
      exact run_readCounter P ⟨next, s.events + 1, s.inserted⟩ s.events table statements
    · rw [← hcalls, hrows, List.map_map]
      refine List.map_congr_left fun statement _ ↦ ?_
      rw [hnext, Function.comp_apply, TimedRow.call, TimedRow.tuple]

end LibSeal
