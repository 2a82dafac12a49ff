import LibSeal.Git.Advertisement
import LibSeal.Git.Report

/-!
# Pushes are logged exactly

A push is a request with a list of commands — an old id, a new id and a reference — and a reply with
a status report. The commands are collected in a map, joined with the results, written out as a text
and cut apart again; what is logged is one update for each command.

The result (`push_logged_iff`) is that this works exactly when the parser of the report does not
leave the block it reads, and the messages can be stored at all. A reply that is sent by its length
always passes; one that is sent in chunks has no terminator, and passes only by chance.
-/

namespace LibSeal

open Bytes

/-! ### The encoding -/

/-- An id of zeros. -/
def ObjectId.IsZero (id : ObjectId) : Prop := ∀ b ∈ id.bytes, b = '0'.toUInt8

instance (id : ObjectId) : Decidable id.IsZero :=
  inferInstanceAs (Decidable (∀ b ∈ id.bytes, b = '0'.toUInt8))

theorem ObjectId.isZero_iff {id : ObjectId} : id.IsZero ↔ id.bytes = gitZeroId := by
  have hzero : gitZeroId = List.replicate 40 '0'.toUInt8 := by decide
  rw [hzero, List.eq_replicate_iff, and_iff_right id.length_bytes]
  rfl

/-- A command of a push. -/
structure Command where
  old : ObjectId
  new : ObjectId
  name : RefName

namespace Command

variable (c : Command)

/-- The two ids of a command. -/
def ids : Bytes := c.old.bytes ++ ascii " " ++ c.new.bytes

/-- The line of a command. -/
def line : Bytes := c.ids ++ ascii " " ++ c.name.bytes

/-- The entry of a command in the map. -/
def entry : Bytes × Bytes := (c.name.bytes, c.ids)

/-- What the command does: it deletes a reference, creates one or moves it. -/
def type : UpdateType :=
  if c.new.IsZero then .delete else if c.old.IsZero then .create else .update

/-- The type that is logged. -/
theorem updateType_eq : updateType c.old.bytes c.new.bytes = c.type := by
  rw [updateType, type]
  simp only [ObjectId.isZero_iff]

theorem length_ids : c.ids.length = 81 := by
  rw [ids, List.length_append, List.length_append, c.old.length_bytes, c.new.length_bytes]
  rfl

theorem zero_notMem_line : 0 ∉ c.line := by
  have hspace : 0 ∉ ascii " " := by decide
  simp only [line, ids, List.mem_append, c.old.zero_notMem, c.new.zero_notMem,
    c.name.zero_notMem, hspace, or_self, not_false_eq_true]

end Command

/-- The commands of a push, at least one, and what is sent with them. -/
structure CommandList where
  first : Command
  others : List Command
  capabilities : Bytes
  pack : Bytes
  nodup : ((first :: others).map fun c ↦ c.name.bytes).Nodup
  first_fits : (first.line ++ 0 :: capabilities).length + 4 < 65536
  fits : ∀ c ∈ others, c.line.length + 4 < 65536

namespace CommandList

variable (l : CommandList)

/-- All commands. -/
def commands : List Command := l.first :: l.others

/-- The packets of the commands. -/
def packets : Bytes :=
  pktLine (l.first.line ++ 0 :: l.capabilities) ++ l.others.flatMap fun c ↦ pktLine c.line

/-- The body of the request. -/
def payload : Bytes := l.packets ++ (flushPkt ++ l.pack)

end CommandList

/-! ### Parsing -/

/-- A command's line is split again where it was put together. -/
theorem addCommand_line (commands : OrderedMap Bytes Bytes) (c : Command) :
    addCommand commands c.line = .ok (commands.insert c.entry.1 c.entry.2) := by
  have hname : substr c.line 82 none = .ok c.name.bytes := by
    have h := substr_append_none (c.ids ++ ascii " ") c.name.bytes
    rw [List.length_append, c.length_ids] at h
    exact h
  have hids : substr c.line 0 (some 81) = .ok c.ids := by
    have h := substr_append_append [] c.ids (ascii " " ++ c.name.bytes)
    rw [c.length_ids, List.nil_append, ← List.append_assoc] at h
    exact h
  rw [addCommand, hname, hids]
  rfl

/-- The first command is read up to the NUL in front of the capabilities. -/
theorem initFirstCommand_of_memory {l : CommandList} {ptr : CPtr} (hpos : 0 ≤ ptr.pos) {t : Bytes}
    (hmem : ptr.memory = pktLine (l.first.line ++ 0 :: l.capabilities) ++ t) :
    initFirstCommand ptr .empty =
      .ok (ptr.add ((l.first.line ++ 0 :: l.capabilities).length + 4 : ℕ),
        OrderedMap.empty.insert l.first.entry.1 l.first.entry.2) := by
  have hread := intLengthField_of_memory l.first_fits hmem
  have hstring : stringAt (ptr.add 4).memory = .ok l.first.line := by
    rw [memory_add_four hpos hmem, List.append_assoc, List.cons_append]
    exact stringAt_append_zero l.first.zero_notMem_line _
  rw [initFirstCommand, hread]
  simp only [bind, Except.bind, hstring, addCommand_line]
  rw [if_pos (by omega)]
  rfl

/-- **The payload is parsed to a map of all commands.** -/
theorem parseGitReceivePackRequest_of_payload {l : CommandList} {request : Event} {stop : Bytes}
    (hstop : Stops stop) {n : ℕ} (hn : 4 < n)
    (hpayload : request.getParam .http httpHeaderPayload =
      some ⟨.http, httpHeaderPayload, .bytes (l.packets ++ stop) n⟩) :
    parseGitReceivePackRequest request =
      .ok (OrderedMap.empty.insertAll (l.commands.map Command.entry)) := by
  have hget : getHttpPayload request = .ok (some (l.packets ++ stop)) := by
    rw [getHttpPayload, hpayload]
    show Except.ok (if (0 : ℤ) ≤ n ∧ (n : ℤ) ≤ 4 then none else _) = _
    rw [if_neg (by omega)]
    rfl
  set ptr : CPtr := ⟨l.packets ++ stop, 0⟩ with hptr
  have hpos : 0 ≤ ptr.pos := le_rfl
  -- the first line has the capabilities behind its NUL, and the others have nothing
  have hmem : ptr.memory = pktLine (l.first.line ++ 0 :: l.capabilities) ++
      (l.others.flatMap (fun c ↦ pktLine (c.line ++ [])) ++ stop) := by
    show (l.packets ++ stop).drop 0 = _
    rw [List.drop_zero, CommandList.packets, List.append_assoc]
    simp only [List.append_nil]
  have hnext := memory_add_pktLine hpos hmem
  have hpos' := CPtr.pos_add_nonneg hpos ((l.first.line ++ 0 :: l.capabilities).length + 4)
  have hfits : ∀ c ∈ l.others, (c.line ++ []).length + 4 < 65536 := by
    simpa only [List.append_nil] using l.fits
  have htrim : ∀ _ : Command, ([] : Bytes).length + 4 = 4 := fun _ ↦ rfl
  have hothers := walkPackets_of_memory (fun c m ↦ addCommand_line m c) htrim hstop l.others hfits
    (length_lt_of_memory hpos' hnext) hpos' hnext
    (OrderedMap.empty.insert l.first.entry.1 l.first.entry.2)
  rw [parseGitReceivePackRequest, hget]
  simp only [bind, Except.bind, ← hptr, initCommands, initFirstCommand_of_memory hpos hmem,
    initOtherCommands]
  exact hothers

/-! ### Reading the text back -/

/-- The word for a result. -/
def resultWord (ok : Bool) : Bytes := if ok then ascii "ok" else ascii "ng"

/-- The text of a command between the parsers, with its result. -/
def Command.told (accepted : Command → Bool) (c : Command) : Bytes :=
  c.name.bytes ++ ascii " " ++ c.ids ++ ascii " " ++ resultWord (accepted c) ++ ascii ","

/-- The tuple of a command with its result. -/
def Command.tuple (time : ℤ) (repo : Bytes) (accepted : Command → Bool) (c : Command) : Bytes :=
  updateTuple time repo c.name.bytes c.new.bytes c.type (if accepted c then 1 else 0)

/-- **The loop over the commands cuts the text where it was put together**, whatever commas the
names have. -/
theorem updatesOf_told (id : ℤ) (repo : Bytes) (accepted : Command → Bool) (commands : List Command)
    {fuel : ℕ} (hfuel : commands.length < fuel) :
    updatesOf id repo fuel (commands.flatMap (Command.told accepted)) =
      .ok (commands.map (Command.tuple id repo accepted)) := by
  induction commands generalizing fuel with
  | nil =>
    obtain ⟨fuel, rfl⟩ := Nat.exists_eq_succ_of_ne_zero (Nat.ne_zero_of_lt hfuel)
    rfl
  | cons c commands ih =>
    obtain ⟨fuel, rfl⟩ := Nat.exists_eq_succ_of_ne_zero (Nat.ne_zero_of_lt hfuel)
    set rest := commands.flatMap (Command.told accepted) with hrest
    set name := c.name.bytes with hname
    set word := resultWord (accepted c) with hword
    have hlength : word.length = 2 := by
      rw [hword, resultWord]
      split_ifs <;> rfl
    have htext : (c :: commands).flatMap (Command.told accepted) = name ++ ' '.toUInt8 ::
        (c.old.bytes ++ ' '.toUInt8 :: (c.new.bytes ++ ' '.toUInt8 ::
          (word ++ ','.toUInt8 :: rest))) := by
      rw [List.flatMap_cons, ← hrest, Command.told, Command.ids, ← hname, ← hword,
        show ascii " " = [' '.toUInt8] by decide, show ascii "," = [','.toUInt8] by decide]
      simp
    have hcomma : ','.toUInt8 ∈ (c :: commands).flatMap (Command.told accepted) := by
      rw [htext]
      simp
    have hspace : ((c :: commands).flatMap (Command.told accepted)).idxOf? ' '.toUInt8 =
        some name.length := by
      rw [htext, idxOf?_append_cons c.name.space_notMem]
    -- every piece is cut out at the length of what is in front of it
    have hcut : ∀ (s t u : Bytes) (pos n : ℕ), s.length = pos → t.length = n →
        (c :: commands).flatMap (Command.told accepted) = s ++ t ++ u →
        substr ((c :: commands).flatMap (Command.told accepted)) pos (some n) = .ok t := by
      rintro s t u _ _ rfl rfl h
      rw [h]
      exact substr_append_append s t u
    have hbranch := hcut [] name _ 0 name.length rfl rfl htext
    have hold := hcut (name ++ [' '.toUInt8]) c.old.bytes (' '.toUInt8 :: (c.new.bytes ++
      ' '.toUInt8 :: (word ++ ','.toUInt8 :: rest))) (name.length + 1) 40 (by simp)
      c.old.length_bytes (by rw [htext]; simp)
    have hnew := hcut (name ++ [' '.toUInt8] ++ c.old.bytes ++ [' '.toUInt8]) c.new.bytes
      (' '.toUInt8 :: (word ++ ','.toUInt8 :: rest)) (name.length + 42) 40
      (by simp [c.old.length_bytes]) c.new.length_bytes (by rw [htext]; simp)
    have hresult := hcut (name ++ [' '.toUInt8] ++ c.old.bytes ++ [' '.toUInt8] ++ c.new.bytes ++
      [' '.toUInt8]) word (','.toUInt8 :: rest) (name.length + 83) 2
      (by simp [c.old.length_bytes, c.new.length_bytes]) hlength (by rw [htext]; simp)
    -- 86 is what a command has beside its name, the comma included
    have htail : substr ((c :: commands).flatMap (Command.told accepted)) (name.length + 86) none =
        .ok rest := by
      have h := substr_append_none (name ++ [' '.toUInt8] ++ c.old.bytes ++ [' '.toUInt8] ++
        c.new.bytes ++ [' '.toUInt8] ++ word ++ [','.toUInt8]) rest
      have hlen : (name ++ [' '.toUInt8] ++ c.old.bytes ++ [' '.toUInt8] ++ c.new.bytes ++
          [' '.toUInt8] ++ word ++ [','.toUInt8]).length = name.length + 86 := by
        simp [c.old.length_bytes, c.new.length_bytes, hlength]
      rw [hlen] at h
      rw [htext, ← h]
      simp
    have hvalue : (if word = ascii "ok" then (1 : ℤ) else 0) = if accepted c then 1 else 0 := by
      rw [hword, resultWord]
      rcases accepted c with - | -
      · rfl
      · rfl
    rw [updatesOf, if_pos hcomma, hspace]
    simp only [posAdd, hbranch, hold, hnew, hresult, htail, bind, Except.bind,
      ih (show commands.length < fuel by simpa using hfuel), hvalue, c.updateType_eq]
    rfl

theorem length_le_length_commands (accepted : Command → Bool) (commands : List Command) :
    commands.length ≤ (commands.flatMap (Command.told accepted)).length := by
  induction commands with
  | nil => exact le_rfl
  | cons c commands ih =>
    rw [List.flatMap_cons, List.length_append, List.length_cons, Command.told, List.length_append,
      show (ascii ",").length = 1 from rfl]
    omega

/-! ### The exchange -/

/-- A push to a repository. The repository is what `gitGetRepository` takes for it. -/
structure PushRequest where
  message : HttpMessage
  list : CommandList
  repository : Bytes
  post : ascii "POST" <+: message.startLine
  repositoryOf_eq : repositoryOf message.startLine = .ok repository
  contentType : ∃ f ∈ message.fields,
    f.name = httpHeaderContentType ∧ f.value = ascii "application/x-git-receive-pack-request"
  bytes_body : message.body.bytes = list.payload

/-- The reply to a push. -/
structure PushResult where
  message : HttpMessage
  report : StatusReport
  http : ascii "HTTP" <+: message.startLine
  contentType : ∃ f ∈ message.fields,
    f.name = httpHeaderContentType ∧ f.value = ascii "application/x-git-receive-pack-result"
  bytes_body : message.body.bytes = report.payload

/-- The report says that the command was carried out. -/
def PushResult.accepts (rsp : PushResult) (c : Command) : Bool :=
  decide (ReportLine.ok c.name ∈ rsp.report.lines)

/-- There is a NUL behind the last name of the report: the reply was sent by its length, has no
lines, or has a NUL in the last reason or behind the report. -/
def PushResult.IsTerminated (rsp : PushResult) : Prop :=
  rsp.message.body.isTerminated = true ∨ Terminated rsp.report.lines rsp.report.trailing

/-- A stored report is read to its end exactly when it is terminated. -/
theorem PushResult.terminated_stop_iff {rsp : PushResult} {stop : Bytes}
    (hstop : 0 ∈ stop ↔ rsp.message.body.isTerminated = true ∨ 0 ∈ rsp.report.trailing) :
    Terminated rsp.report.lines stop ↔ rsp.IsTerminated := by
  rcases hlast : rsp.report.lines.getLast? with - | l
  · simp [IsTerminated, Terminated, hlast]
  · simp only [IsTerminated, Terminated, hlast, Option.mem_some_iff, forall_eq', List.mem_append,
      hstop]
    tauto

/-- What is added to the events for a push is found there. -/
theorem gitValueString_addReceivePackParams (request result : Event) (repository : Bytes)
    (commands : OrderedMap Bytes Bytes) (results : OrderedMap Bytes Bool) :
    let evs := addReceivePackParams request result repository commands results
    gitValueString evs.1 gitRepository = .ok repository ∧
      gitValueString evs.1 gitWhat = .ok gitWhatRcvreq ∧
      gitValueString evs.1 gitCommands = .ok (strCommands commands results) ∧
      evs.1.getParam .git gitService ≠ none := by
  have hne : gitRepository ≠ gitWhat ∧ gitRepository ≠ gitService ∧ gitService ≠ gitWhat ∧
      gitCommands ≠ gitWhat ∧ gitCommands ≠ gitService ∧ gitCommands ≠ gitRepository := by decide
  obtain ⟨h₁, h₂, h₃, h₄, h₅, h₆⟩ := hne
  refine ⟨?_, ?_, ?_, ?_⟩
  · simp [addReceivePackParams, gitValueString, Event.getParam_add, Param.getValueString, h₆]
  · simp [addReceivePackParams, gitValueString, Event.getParam_add, Param.getValueString, h₁, h₃,
      h₄]
  · simp [addReceivePackParams, gitValueString, Event.getParam_add, Param.getValueString]
  · simp [addReceivePackParams, Event.getParam_add, h₂, h₅]

/-- **From the maps to the rows.** The commands that the parser has collected are logged in the
order of their names. -/
theorem exists_processEvents_of_push (time : ℕ) {evReq evRsp : Event} {req : PushRequest}
    {rsp : PushResult}
    (htransform : transformEvents evReq evRsp = .ok (addReceivePackParams evReq evRsp
      req.repository (OrderedMap.empty.insertAll (req.list.commands.map Command.entry))
      rsp.report.results)) :
    ∃ sorted : List Command, sorted.Perm req.list.commands ∧
      sorted.Pairwise (fun c d ↦ c.name.bytes < d.name.bytes) ∧
      processEvents time evReq evRsp = .ok ((time + 1) % 18446744073709551616, sorted.map fun c ↦
        insertUpdate (c.tuple (toInt32 time) req.repository rsp.accepts)) := by
  obtain ⟨sorted, hperm, hsorted, hlist⟩ :=
    exists_sorted (fun c : Command ↦ c.name.bytes) Command.ids req.list.nodup
  refine ⟨sorted, hperm, hsorted, ?_⟩
  set commands := OrderedMap.empty.insertAll (req.list.commands.map Command.entry) with hcommands
  obtain ⟨hrepo, hwhat, htext, hservice⟩ := gitValueString_addReceivePackParams evReq evRsp
    req.repository commands rsp.report.results
  -- the text between the parsers lists the commands as the map has sorted them
  have htold : strCommands commands rsp.report.results =
      sorted.flatMap (Command.told rsp.accepts) := by
    have hentry : commands.toList = sorted.map fun c ↦ (c.name.bytes, c.ids) := hlist
    rw [strCommands, hentry, List.flatMap_map]
    refine List.flatMap_congr fun c _ ↦ ?_
    show _ ++ (if (rsp.report.results.get? c.name.bytes).getD false = true then _ else _) ++ _ = _
    rw [StatusReport.getD_get?_results]
    rfl
  have hloop := updatesOf_told (toInt32 time) req.repository rsp.accepts sorted
    (Nat.lt_succ_of_le (length_le_length_commands rsp.accepts sorted))
  -- and the loop cuts it back into the commands
  have hpair : eventPair2DslForDB time
      (addReceivePackParams evReq evRsp req.repository commands rsp.report.results).1
      (addReceivePackParams evReq evRsp req.repository commands rsp.report.results).2 =
      .ok ((time + 1) % 18446744073709551616,
        sorted.map (Command.tuple (toInt32 time) req.repository rsp.accepts), []) := by
    rw [eventPair2DslForDB, hrepo, hwhat]
    simp only [bind, Except.bind, htext, htold, hloop]
    rfl
  rw [processEvents_of_transform htransform hservice hpair, List.map_nil, List.append_nil,
    List.map_map]
  rfl

/-- **The exchange is recognised** and parsed, or the parser leaves the block of the report. -/
theorem transformEvents_push {junk : ℕ → UInt8} {req : PushRequest} {rsp : PushResult}
    {evReq evRsp : Event} (hreq : req.message.ParsedTo junk httpHeaderRequest evReq)
    (hrsp : rsp.message.ParsedTo junk httpHeaderResponse evRsp) :
    (rsp.IsTerminated → transformEvents evReq evRsp = .ok (addReceivePackParams evReq evRsp
      req.repository (OrderedMap.empty.insertAll (req.list.commands.map Command.entry))
      rsp.report.results)) ∧
    (¬ rsp.IsTerminated → transformEvents evReq evRsp = .error .outOfBounds) := by
  obtain ⟨stop, hblock, hstop, hzero⟩ := exists_stops_block junk rsp.message.body rsp.bytes_body
  obtain ⟨stop', hblock', hstop', -⟩ := exists_stops_block junk req.message.body req.bytes_body
  have hlong : 4 < rsp.message.body.bytes.length := by
    rw [rsp.bytes_body, StatusReport.payload, StatusReport.leading]
    simp only [List.length_append, pktLength, List.length_cons]
    omega
  have hlong' : 4 < req.message.body.bytes.length := by
    rw [req.bytes_body, CommandList.payload]
    simp only [List.length_append, CommandList.packets, length_pktLine, List.length_cons]
    omega
  obtain ⟨b, hresult⟩ := exists_parseGitReceivePackResult hstop hlong
    (by rw [hrsp.payload, hblock]; rfl)
  have hrequest := parseGitReceivePackRequest_of_payload hstop' hlong'
    (by rw [hreq.payload, hblock']; rfl)
  have hrepo : gitGetRepository evReq = .ok req.repository := by
    rw [gitGetRepository, hreq.startLine]
    exact req.repositoryOf_eq
  have htype : ∀ {m : HttpMessage} {line value : Bytes} {ev : Event}, m.ParsedTo junk line ev →
      (∃ f ∈ m.fields, f.name = httpHeaderContentType ∧ f.value = value) →
      ev.paramIs .http httpHeaderContentType value = true := by
    rintro m line value ev hm ⟨f, hf, hname, hvalue⟩
    have hfield := hm.field f hf (by rw [hname]; decide)
    rw [hname, hvalue] at hfield
    rw [Event.paramIs, hfield]
    exact beq_self_eq_true _
  have hpush : gitIsReceivePackRequest evReq = true := htype hreq req.contentType
  have hanswer : gitIsReceivePackResult evRsp = true := htype hrsp rsp.contentType
  rw [transformEvents, hpush, hanswer, Bool.and_self, if_pos rfl,
    transformGitReceivePackRequestResult, hresult, ← rsp.terminated_stop_iff hzero]
  refine ⟨fun h ↦ ?_, fun h ↦ ?_⟩
  · rw [if_pos h, hrepo, hrequest]
    rfl
  · rw [if_neg h]
    rfl

/-! ### The result -/

/-- One update is logged for each command, in the order of the names and with the result that the
report gives, and nothing else is. -/
def LogsPush (junk : ℕ → UInt8) (time : ℕ) (req : PushRequest) (rsp : PushResult) : Prop :=
  ∃ (sorted : List Command) (calls : List (InsertCall .git)),
    sorted.Perm req.list.commands ∧
    sorted.Pairwise (fun c d ↦ c.name.bytes < d.name.bytes) ∧
    libsealProcessLogAtRuntime junk time req.message.text rsp.message.text =
      .ok (time + 1, calls) ∧
    calls.map (fun c ↦ (c.name.bytes, c.tuple.bytes)) = sorted.map fun c ↦
      (ascii "updates", updateTuple time req.repository c.name.bytes c.new.bytes c.type
        (if ReportLine.ok c.name ∈ rsp.report.lines then 1 else 0))

theorem zero_notMem_tuple {time : ℤ} {repo : Bytes} (hrepo : 0 ∉ repo) (accepted : Command → Bool)
    (c : Command) : 0 ∉ c.tuple time repo accepted := by
  have hdecimal : ∀ i, 0 ∉ toStr i := fun i h ↦ absurd (isDecimal_of_mem_ofInt h) (by decide)
  have h₁ : 0 ∉ ascii ",\"" := by decide
  have h₂ : 0 ∉ ascii "\",\"" := by decide
  have h₃ : 0 ∉ ascii "\"," := by decide
  have htype : 0 ∉ [c.type.char] := by
    rcases c.type with - | - | - <;> decide
  simp only [Command.tuple, updateTuple, List.mem_append, hdecimal, hrepo, c.name.zero_notMem,
    c.new.zero_notMem, htype, h₁, h₂, h₃, or_self, not_false_eq_true]

/-- **A report that is terminated is read**, whatever the time. -/
theorem exists_libsealProcessLogAtRuntime_of_isTerminated (junk : ℕ → UInt8) (time : ℕ)
    {req : PushRequest} {rsp : PushResult} (hreq : req.message.text.length < 2147483648)
    (hrsp : rsp.message.text.length < 2147483648) (hterminated : rsp.IsTerminated) :
    ∃ sorted : List Command, sorted.Perm req.list.commands ∧
      sorted.Pairwise (fun c d ↦ c.name.bytes < d.name.bytes) ∧
      libsealProcessLogAtRuntime junk time req.message.text rsp.message.text =
        .ok ((time + 1) % 18446744073709551616, sorted.map fun c ↦
          insertUpdate (c.tuple (toInt32 time) req.repository rsp.accepts)) := by
  obtain ⟨evReq, hevReq, hparsedReq⟩ :=
    req.message.httpToEvent_text junk (firstLineName_of_post req.post) hreq
  obtain ⟨evRsp, hevRsp, hparsedRsp⟩ :=
    rsp.message.httpToEvent_text junk (firstLineName_of_http rsp.http) hrsp
  obtain ⟨sorted, hperm, hsorted, hprocess⟩ := exists_processEvents_of_push time
    ((transformEvents_push hparsedReq hparsedRsp).1 hterminated)
  refine ⟨sorted, hperm, hsorted, ?_⟩
  rw [libsealProcessLogAtRuntime, hevReq, hevRsp]
  exact hprocess

/-- A push is logged if its report can be read. -/
theorem logsPush_of_isTerminated (junk : ℕ → UInt8) {time : ℕ} (htime : time < 2147483648)
    {req : PushRequest} {rsp : PushResult} (hreq : req.message.text.length < 2147483648)
    (hrsp : rsp.message.text.length < 2147483648) (hrepo : 0 ∉ req.repository)
    (hterminated : rsp.IsTerminated) : LogsPush junk time req rsp := by
  obtain ⟨sorted, hperm, hsorted, hprocess⟩ :=
    exists_libsealProcessLogAtRuntime_of_isTerminated junk time hreq hrsp hterminated
  have hnext : (time + 1) % 18446744073709551616 = time + 1 := Nat.mod_eq_of_lt (by omega)
  rw [toInt32_of_lt htime, hnext] at hprocess
  refine ⟨sorted, _, hperm, hsorted, hprocess, ?_⟩
  rw [List.map_map]
  refine List.map_congr_left fun c _ ↦ ?_
  show (_, cStr _) = (_, _)
  rw [cStr_eq_self (zero_notMem_tuple hrepo rsp.accepts c), Command.tuple, PushResult.accepts]
  simp only [decide_eq_true_eq]
  rfl

/-- What has been logged was short enough to be parsed. -/
theorem LogsPush.length_lt {junk : ℕ → UInt8} {time : ℕ} {req : PushRequest} {rsp : PushResult}
    (h : LogsPush junk time req rsp) (hreq : req.message.text.length < 4294967296)
    (hrsp : rsp.message.text.length < 4294967296) :
    req.message.text.length < 2147483648 ∧ rsp.message.text.length < 2147483648 := by
  obtain ⟨_, _, -, -, hrun, -⟩ := h
  obtain ⟨evReq, evRsp, hevReq, hevRsp, -⟩ := exists_events hrun
  refine ⟨?_, ?_⟩
  · by_contra hle
    rw [HttpMessage.httpToEvent_of_le junk (not_lt.1 hle) hreq] at hevReq
    exact nomatch hevReq
  · by_contra hle
    rw [HttpMessage.httpToEvent_of_le junk (not_lt.1 hle) hrsp] at hevRsp
    exact nomatch hevRsp

/-- A tuple with a NUL does not arrive whole. -/
theorem LogsPush.zero_notMem_repository {junk : ℕ → UInt8} {time : ℕ} {req : PushRequest}
    {rsp : PushResult} (h : LogsPush junk time req rsp) : 0 ∉ req.repository := by
  obtain ⟨sorted, calls, hperm, -, -, hcalls⟩ := h
  intro hrepo
  obtain ⟨c, sorted, rfl⟩ := List.exists_cons_of_ne_nil fun hnil : sorted = [] ↦
    List.cons_ne_nil req.list.first req.list.others (hnil ▸ hperm).nil_eq.symm
  rcases calls with - | ⟨call, calls⟩
  · exact nomatch hcalls
  · rw [List.map_cons, List.map_cons] at hcalls
    have htuple := (Prod.mk.inj (List.cons.inj hcalls).1).2
    refine call.tuple.zero_notMem (htuple ▸ ?_)
    rw [updateTuple]
    simp [hrepo]

/-- **A report that is not terminated is not read.** -/
theorem libsealProcessLogAtRuntime_of_not_isTerminated (junk : ℕ → UInt8) (time : ℕ)
    {req : PushRequest} {rsp : PushResult} (hreq : req.message.text.length < 2147483648)
    (hrsp : rsp.message.text.length < 2147483648) (hterminated : ¬ rsp.IsTerminated) :
    libsealProcessLogAtRuntime junk time req.message.text rsp.message.text =
      .error .outOfBounds := by
  obtain ⟨evReq, hevReq, hparsedReq⟩ :=
    req.message.httpToEvent_text junk (firstLineName_of_post req.post) hreq
  obtain ⟨evRsp, hevRsp, hparsedRsp⟩ :=
    rsp.message.httpToEvent_text junk (firstLineName_of_http rsp.http) hrsp
  rw [libsealProcessLogAtRuntime, hevReq, hevRsp]
  show processEvents time evReq evRsp = _
  rw [processEvents, (transformEvents_push hparsedReq hparsedRsp).2 hterminated]
  rfl

/-- **A push is logged exactly if and only if** its messages can be counted by an `int`, its
repository has no NUL, and there is a NUL behind the last name of the report. The lengths of the two
messages arrive as `unsigned int`. -/
theorem push_logged_iff (junk : ℕ → UInt8) {time : ℕ} (htime : time < 2147483648)
    (req : PushRequest) (rsp : PushResult) (hreq : req.message.text.length < 4294967296)
    (hrsp : rsp.message.text.length < 4294967296) :
    LogsPush junk time req rsp ↔
      req.message.text.length < 2147483648 ∧ rsp.message.text.length < 2147483648 ∧
        0 ∉ req.repository ∧ rsp.IsTerminated := by
  constructor
  · intro h
    obtain ⟨hreq', hrsp'⟩ := h.length_lt hreq hrsp
    refine ⟨hreq', hrsp', h.zero_notMem_repository, ?_⟩
    by_contra hterminated
    obtain ⟨_, _, -, -, hrun, -⟩ := h
    rw [libsealProcessLogAtRuntime_of_not_isTerminated junk time hreq' hrsp' hterminated] at hrun
    exact nomatch hrun
  · rintro ⟨hreq', hrsp', hrepo, hterminated⟩
    exact logsPush_of_isTerminated junk htime hreq' hrsp' hrepo hterminated

/-! ### A push of one reference -/

/-- The command that creates `refs/heads/master`. -/
def createMaster : CommandList where
  first := ⟨zeroId, someId, masterRef⟩
  others := []
  capabilities := ascii "report-status"
  pack := ascii "PACK"
  nodup := List.nodup_singleton _
  first_fits := by decide
  fits := fun _ h ↦ nomatch h

/-- Its request. -/
def pushMaster : PushRequest where
  message := plainMessage (ascii "POST /r.git/git-receive-pack HTTP/1.1")
    (ascii "application/x-git-receive-pack-request") createMaster.payload (by decide) (by decide)
    (by decide)
  list := createMaster
  repository := ascii "/r.git/"
  post := by decide
  repositoryOf_eq := by decide +kernel
  contentType := ⟨_, List.mem_cons_self, rfl, rfl⟩
  bytes_body := rfl

/-- A report that says that it was carried out. -/
def masterReport : StatusReport where
  information := [⟨2, ascii "Resolving deltas", by decide, by decide⟩]
  unpackStatus := ascii "ok"
  lines := [.ok masterRef]
  trailing := flushPkt
  nodup := List.nodup_singleton _
  unpack_fits := by decide
  fits := by decide

/-- The reply with its length. -/
def plainResult : PushResult where
  message := plainMessage (ascii "HTTP/1.1 200 OK") (ascii "application/x-git-receive-pack-result")
    masterReport.payload (by decide) (by decide) (by decide)
  report := masterReport
  http := by decide
  contentType := ⟨_, List.mem_cons_self, rfl, rfl⟩
  bytes_body := rfl

/-- The same reply in one chunk. -/
def chunkedResult : PushResult where
  message := chunkedMessage (ascii "HTTP/1.1 200 OK")
    (ascii "application/x-git-receive-pack-result")
    [⟨pktLength masterReport.payload.length, masterReport.payload, by decide +kernel, by decide,
      by decide +kernel, by decide⟩] (by decide) (by decide) (List.cons_ne_nil _ _)
  report := masterReport
  http := by decide
  contentType := ⟨_, List.mem_cons_self, rfl, rfl⟩
  bytes_body := List.append_nil _

/-- The first is logged. -/
theorem logsPush_plainResult : LogsPush (fun _ ↦ 0) 1 pushMaster plainResult :=
  (push_logged_iff (fun _ ↦ 0) (by decide) pushMaster plainResult (by decide +kernel)
    (by decide +kernel)).2 ⟨by decide +kernel, by decide +kernel, by decide, Or.inl rfl⟩

/-- The second is not: the parser leaves the block. -/
theorem not_logsPush_chunkedResult : ¬ LogsPush (fun _ ↦ 0) 1 pushMaster chunkedResult := by
  rintro ⟨_, _, -, -, hrun, -⟩
  have hnot : ¬ chunkedResult.IsTerminated := by
    unfold PushResult.IsTerminated
    decide +kernel
  rw [libsealProcessLogAtRuntime_of_not_isTerminated _ _ (by decide +kernel) (by decide +kernel)
    hnot] at hrun
  exact nomatch hrun

end LibSeal
