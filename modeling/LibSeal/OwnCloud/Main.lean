import LibSeal.Auditing.HttpForgery
import LibSeal.Auditing.Tuple
import LibSeal.OwnCloud.Docs

/-!
# The ownCloud auditor

`libseal_process_log_at_runtime` of `auditors/owncloud/main.cpp`. The logical time is drawn for
every exchange, before it is known whether there is anything to log, and it is printed as the
`unsigned long long` that it is. An exchange yields one row at most.

A parameter that is not there is a null pointer, and its value is asked for all the same.
-/

namespace LibSeal

open Bytes

/-- `OWNCLOUD_WHAT` -/
def owncloudWhat : Bytes := ascii "what"

/-- `OWNCLOUD_WHAT_POLL` -/
def owncloudWhatPoll : Bytes := ascii "poll"

theorem sync_lt : 0 < (Auditor.getTables .owncloud).length := by decide

/-- `getParam(OWNCLOUD, name)->getValueString()` -/
def owncloudValueString (event : Event) (name : Bytes) : Except CFault Bytes :=
  match event.getParam .owncloud name with
  | none => .error .nullDereference
  | some p => .ok p.getValueString

/-- Who sends the operations of a synchronisation, who receives them, and the operations. -/
def syncFields (evReq evRsp : Event) : Except CFault (Bytes × Bytes × Bytes) := do
  let res ← owncloudValueString evRsp owncloudResult
  if res = owncloudAdded then do
    let sender ← owncloudValueString evReq owncloudMemberid
    let update ← owncloudValueString evReq owncloudUpdate
    return (sender, ascii "0", update)
  else if res = owncloudNewops ∨ res = owncloudConflict then do
    let receiver ← owncloudValueString evReq owncloudMemberid
    let update ← owncloudValueString evRsp owncloudUpdate
    return (ascii "0", receiver, update)
  else return ([], [], [])

/-- `insert_stmt_fn(0, sync.c_str())` -/
def insertSync (t : Bytes) : InsertCall .owncloud := ⟨⟨0, sync_lt⟩, .ofBuffer t⟩

/-- What is logged of a poll, behind `docsPoll`. -/
def syncCalls (id : ℕ) (evReq evRsp : Event) : Except CFault (List (InsertCall .owncloud)) :=
  if evReq.paramIs .owncloud owncloudCommand owncloudSyncops then do
    let (sender, receiver, update) ← syncFields evReq evRsp
    if update ≠ [] then do
      let esid ← owncloudValueString evReq owncloudEsid
      return [insertSync (syncTuple id esid sender receiver update)]
    else return []
  else .ok []

/-- What is logged of an exchange, behind the parsing of the messages. -/
def pollCalls (reqJunk rspJunk : ℕ → JsmnTok) (id : ℕ) (evReq evRsp : Event) :
    Except CFault (List (InsertCall .owncloud)) :=
  if docsIsPoll evReq && owncloudIsOK evRsp then do
    let evReq := evReq.add ⟨.owncloud, owncloudWhat, .string owncloudWhatPoll⟩
    let (evReq, evRsp) ← docsPoll reqJunk rspJunk evReq evRsp
    syncCalls id evReq evRsp
  else .ok []

/-- `libseal_process_log_at_runtime` of the ownCloud auditor: the new logical time, and the calls of
`insert_statement`. -/
def OwnCloud.libsealProcessLogAtRuntime (junk : ℕ → UInt8) (reqJunk rspJunk : ℕ → JsmnTok)
    (logictime : ℕ) (req rsp : Bytes) : Except CFault (ℕ × List (InsertCall .owncloud)) := do
  let evReq ← httpToEvent junk req
  let evRsp ← httpToEvent junk rsp
  let id := logictime
  let logictime := (logictime + 1) % 18446744073709551616
  let calls ← pollCalls reqJunk rspJunk id evReq evRsp
  return (logictime, calls)

/-! ### The row of an exchange -/

/-- The fields are those that `syncOf` puts together. -/
theorem exists_syncOf_of_syncFields {evReq evRsp : Event} {sender receiver update : Bytes}
    (h : syncFields evReq evRsp = .ok (sender, receiver, update)) :
    ∃ res memberid requestUpdate responseUpdate, ∀ id esid,
      syncOf id res esid memberid requestUpdate responseUpdate =
        if update = [] then none else some (syncTuple id esid sender receiver update) := by
  obtain ⟨res, -, h⟩ := CFault.bind_eq_ok.1 h
  split_ifs at h with hadded hserved
  · obtain ⟨memberid, -, h⟩ := CFault.bind_eq_ok.1 h
    obtain ⟨operations, -, h⟩ := CFault.bind_eq_ok.1 h
    cases h
    refine ⟨res, sender, update, [], fun id esid ↦ ?_⟩
    rw [syncOf, if_pos (show res = ascii "added" from hadded)]
  · obtain ⟨memberid, -, h⟩ := CFault.bind_eq_ok.1 h
    obtain ⟨operations, -, h⟩ := CFault.bind_eq_ok.1 h
    cases h
    refine ⟨res, receiver, [], update, fun id esid ↦ ?_⟩
    rw [syncOf, if_neg (show ¬ res = ascii "added" from hadded),
      if_pos (show res = ascii "new_ops" ∨ res = ascii "conflict" from hserved)]
  · cases h
    refine ⟨res, [], [], [], fun id esid ↦ ?_⟩
    rw [syncOf, if_neg (show ¬ res = ascii "added" from hadded),
      if_neg (show ¬ (res = ascii "new_ops" ∨ res = ascii "conflict") from hserved)]

/-- **What is logged of a synchronisation** is the row that `syncOf` makes of its fields, if any. -/
theorem exists_syncOf_of_syncCalls {id : ℕ} {evReq evRsp : Event}
    {calls : List (InsertCall .owncloud)} (h : syncCalls id evReq evRsp = .ok calls) :
    ∃ res esid memberid requestUpdate responseUpdate,
      calls = (syncOf id res esid memberid requestUpdate responseUpdate).toList.map insertSync := by
  rw [syncCalls] at h
  split_ifs at h with hcommand
  · obtain ⟨⟨sender, receiver, update⟩, hfields, h⟩ := CFault.bind_eq_ok.1 h
    obtain ⟨res, memberid, requestUpdate, responseUpdate, hsync⟩ :=
      exists_syncOf_of_syncFields hfields
    dsimp only at h
    split_ifs at h with hupdate
    · obtain ⟨esid, -, h⟩ := CFault.bind_eq_ok.1 h
      cases h
      refine ⟨res, esid, memberid, requestUpdate, responseUpdate, ?_⟩
      rw [hsync, if_neg hupdate]
      rfl
    · cases h
      refine ⟨res, [], memberid, requestUpdate, responseUpdate, ?_⟩
      rw [hsync, if_pos (not_not.1 hupdate)]
      rfl
  · cases h
    exact ⟨[], [], [], [], [], rfl⟩

/-- **What is logged of an exchange** is one row at most, with the logical time that was drawn for
it; and the time moves on in any case. -/
theorem exists_syncOf_of_exchange {junk : ℕ → UInt8} {reqJunk rspJunk : ℕ → JsmnTok}
    {logictime next : ℕ} {req rsp : Bytes} {calls : List (InsertCall .owncloud)}
    (h : OwnCloud.libsealProcessLogAtRuntime junk reqJunk rspJunk logictime req rsp =
      .ok (next, calls)) :
    next = (logictime + 1) % 18446744073709551616 ∧
      ∃ res esid memberid requestUpdate responseUpdate, calls =
        (syncOf logictime res esid memberid requestUpdate responseUpdate).toList.map
          insertSync := by
  obtain ⟨evReq, -, h⟩ := CFault.bind_eq_ok.1 h
  obtain ⟨evRsp, -, h⟩ := CFault.bind_eq_ok.1 h
  obtain ⟨calls', hcalls, h⟩ := CFault.bind_eq_ok.1 h
  cases h
  refine ⟨rfl, ?_⟩
  rw [pollCalls] at hcalls
  split_ifs at hcalls with hpoll
  · obtain ⟨⟨evReq', evRsp'⟩, -, hcalls⟩ := CFault.bind_eq_ok.1 hcalls
    exact exists_syncOf_of_syncCalls hcalls
  · cases hcalls
    exact ⟨[], [], [], [], [], rfl⟩

end LibSeal
