import LibSeal.Auditing.Tuple
import LibSeal.Git.Pack

/-!
# The Git auditor

`libseal_process_log_at_runtime` of `auditors/git/main.cpp`: an exchange is parsed, recognised as a
push or as an advertisement of references, and turned into calls of `insert_statement`. The logical
time is drawn once for each exchange that yields rows, when it is processed.

The rows are cut out of the text that `addEventParams` has written, at fixed distances from the
first space. Both loops go on as long as there is a comma; a search that finds nothing answers
`npos`, which wraps around when a distance is added to it (`posAdd`).
-/

namespace LibSeal

open Bytes

/-- The loop of `eventPair2DslForDB` over the references. -/
def advertisementsOf (id : ℤ) (repo : Bytes) : ℕ → Bytes → Except CFault (List Bytes)
  | 0, _ => .error .diverged
  | fuel + 1, refs =>
    if ','.toUInt8 ∈ refs then do
      let s := refs.idxOf? ' '.toUInt8
      let branch ← substr refs 0 s
      let cid ← substr refs (posAdd s 1) (some 40)
      let refs ← substr refs (posAdd s 42) none
      let advertisements ← advertisementsOf id repo fuel refs
      return advertisementTuple id repo branch cid :: advertisements
    else .ok []

/-- The type of an update. -/
def updateType (ref1 ref2 : Bytes) : UpdateType :=
  if ref2 = gitZeroId then .delete else if ref1 = gitZeroId then .create else .update

/-- The loop of `eventPair2DslForDB` over the commands. -/
def updatesOf (id : ℤ) (repo : Bytes) : ℕ → Bytes → Except CFault (List Bytes)
  | 0, _ => .error .diverged
  | fuel + 1, commands =>
    if ','.toUInt8 ∈ commands then do
      let s := commands.idxOf? ' '.toUInt8
      let branch ← substr commands 0 s
      let ref1 ← substr commands (posAdd s 1) (some 40)
      let ref2 ← substr commands (posAdd s 42) (some 40)
      let result ← substr commands (posAdd s 83) (some 2)
      let commands ← substr commands (posAdd s 86) none
      let updates ← updatesOf id repo fuel commands
      return updateTuple id repo branch ref2 (updateType ref1 ref2)
        (if result = ascii "ok" then 1 else 0) :: updates
    else .ok []

/-- `getParam(GIT, name)->getValueString()` -/
def gitValueString (event : Event) (name : Bytes) : Except CFault Bytes :=
  match event.getParam .git name with
  | none => .error .nullDereference
  | some p => .ok p.getValueString

/-- `eventPair2DslForDB`: the new logical time, the updates and the advertisements. -/
def eventPair2DslForDB (logictime : ℕ) (req rsp : Event) :
    Except CFault (ℕ × List Bytes × List Bytes) := do
  let id := toInt32 logictime
  let logictime := (logictime + 1) % 18446744073709551616
  let repo ← gitValueString req gitRepository
  let what ← gitValueString req gitWhat
  if what = gitWhatAdvreq then
    let refs ← gitValueString rsp gitRefs
    let advertisements ← advertisementsOf id repo (refs.length + 1) refs
    return (logictime, [], advertisements)
  else if what = gitWhatRcvreq then
    let commands ← gitValueString req gitCommands
    let updates ← updatesOf id repo (commands.length + 1) commands
    return (logictime, updates, [])
  else return (logictime, [], [])

/-- The events as the transformation that fits them leaves them. -/
def transformEvents (evReq evRsp : Event) : Except CFault (Event × Event) := do
  if gitIsReceivePackRequest evReq && gitIsReceivePackResult evRsp then
    transformGitReceivePackRequestResult evReq evRsp
  else if (← gitIsReceivePack evReq) && gitIsReceivePackAdvertisement evRsp then
    transformGitPackAdvertisement evReq evRsp
  else if (← gitIsUploadPack evReq) && gitIsUploadPackAdvertisement evRsp then
    transformGitPackAdvertisement evReq evRsp
  else return (evReq, evRsp)

/-- `insert_stmt_fn(0, t.c_str())` -/
def insertUpdate (t : Bytes) : InsertCall .git := ⟨⟨0, updates_lt⟩, .ofBuffer t⟩

/-- `insert_stmt_fn(1, t.c_str())` -/
def insertAdvertisement (t : Bytes) : InsertCall .git := ⟨⟨1, advertisements_lt⟩, .ofBuffer t⟩

/-- `libseal_process_log_at_runtime` behind the parsing of the messages. -/
def processEvents (logictime : ℕ) (evReq evRsp : Event) :
    Except CFault (ℕ × List (InsertCall .git)) := do
  let (evReq, evRsp) ← transformEvents evReq evRsp
  if evReq.getParam .git gitService ≠ none ∨ evRsp.getParam .git gitService ≠ none then
    let (logictime, updates, advertisements) ← eventPair2DslForDB logictime evReq evRsp
    return (logictime, updates.map insertUpdate ++ advertisements.map insertAdvertisement)
  else return (logictime, [])

/-- A pair of events whose request is given a service is logged as `eventPair2DslForDB` says. -/
theorem processEvents_of_transform {time time' : ℕ} {evReq evRsp : Event} {evs : Event × Event}
    {updates advertisements : List Bytes} (htransform : transformEvents evReq evRsp = .ok evs)
    (hservice : evs.1.getParam .git gitService ≠ none)
    (hpair : eventPair2DslForDB time evs.1 evs.2 = .ok (time', updates, advertisements)) :
    processEvents time evReq evRsp =
      .ok (time', updates.map insertUpdate ++ advertisements.map insertAdvertisement) := by
  rw [processEvents, htransform]
  simp only [bind, Except.bind, if_pos (Or.inl hservice), hpair]
  rfl

/-- `libseal_process_log_at_runtime` of the Git auditor: the new logical time, and the calls of
`insert_statement`. -/
def libsealProcessLogAtRuntime (junk : ℕ → UInt8) (logictime : ℕ) (req rsp : Bytes) :
    Except CFault (ℕ × List (InsertCall .git)) := do
  let evReq ← httpToEvent junk req
  let evRsp ← httpToEvent junk rsp
  processEvents logictime evReq evRsp

end LibSeal
