import LibSeal.Dropbox.Completeness
import LibSeal.Dropbox.Entries

/-!
# A listing without files

For a listing in which no file is found `parse_list` makes a statement, with no path and a size of
-1 ("insert an empty message if the list in the list message is empty"), and forgets to push it. So
the exchange leaves nothing in the log (`not_leavesTrace`). The row is what the completeness audit
would need: with it, every commit that the host should have been shown is returned
(`selected_of_emptyListing`), and without a row no host is judged (`not_selected_of_no_listing`).
-/

namespace LibSeal

open Bytes

/-- `getParam(HTTP, HTTP_HEADER_PAYLOAD)->getValueBytes()`, as a string. -/
def payloadString (e : Event) : Except CFault Bytes :=
  match e.getParam .http httpHeaderPayload with
  | none => .error .nullDereference
  | some p =>
    match p.getValueBytes with
    | none => .error .nullDereference
    | some block => stringAt block

/-- The statements that a step inserts, and the table they go to. -/
def EventStep.inserts : EventStep → List (ℕ × Bytes)
  | .fetchAdd table statements => statements.map (table, ·)
  | .readCounter _ table statement => [(table, statement)]
  | .insertStmt row => [(row.table, row.statement)]

/-- **The exchange leaves a trace**: one row in `list`, of the host, with no path and the size
-1. -/
def LeavesTrace (P : DropboxParsers) (evReq evRsp : Event) (hostKey : Bytes) : Prop :=
  ∃ steps, processEventPair P evReq evRsp = .ok steps ∧
    steps.flatMap EventStep.inserts = [(0, fileStatement hostKey [] (-1) [])]

/-- A `/list` exchange yields what `parse_list` finds. -/
theorem processEventPair_list (P : DropboxParsers) {evReq evRsp : Event} {req rsp : Bytes}
    (hrequest : evReq.paramContains .http httpHeaderRequest (ascii "/list") = true)
    (hreq : payloadString evReq = .ok req) (hrsp : payloadString evRsp = .ok rsp) :
    processEventPair P evReq evRsp = (P.parseList req rsp).map fun statements ↦
      if statements.isEmpty then [] else [.fetchAdd 0 statements] := by
  have hstatements : eventStatements P evReq evRsp = (P.parseList req rsp).map fun statements ↦
      (0, statements) := by
    rw [eventStatements, if_pos hrequest]
    show (payloadString evReq >>= fun x ↦ payloadString evRsp >>= fun y ↦
      P.parseList x y >>= fun z ↦ .ok (0, z)) = _
    rw [hreq, CFault.ok_bind, hrsp, CFault.ok_bind]
    cases P.parseList req rsp <;> rfl
  rw [processEventPair, hstatements]
  cases P.parseList req rsp <;> rfl

/-- **A `/list` exchange without files leaves no trace**: no step is taken, and no row inserted. -/
theorem not_leavesTrace (uncompress : ℕ → Bytes → Option Bytes) (stack : ℕ → UInt8)
    (junk : ℕ → JsmnTok) {evReq evRsp : Event} {req rsp hostKey list : Bytes}
    (hrequest : evReq.paramContains .http httpHeaderRequest (ascii "/list") = true)
    (hreq : payloadString evReq = .ok req) (hrsp : payloadString evRsp = .ok rsp)
    (hhost : parameterIn (ascii "host_key=") req = .ok hostKey) (hlist : listText rsp = .ok list)
    (hnone : ∀ rows, fileStatements junk hostKey list = .ok rows → rows = []) :
    (∀ steps, processEventPair (dropboxParsers uncompress stack junk) evReq evRsp = .ok steps →
      steps = []) ∧
    ¬ LeavesTrace (dropboxParsers uncompress stack junk) evReq evRsp hostKey := by
  -- the pair is logged as the rows of the list, of which there are none
  have hsteps : ∀ steps,
      processEventPair (dropboxParsers uncompress stack junk) evReq evRsp = .ok steps →
        steps = [] := by
    intro steps hsteps
    rw [processEventPair_list _ hrequest hreq hrsp] at hsteps
    have hparse : (dropboxParsers uncompress stack junk).parseList req rsp =
        fileStatements junk hostKey list := by
      show parseList junk req rsp = _
      rw [parseList_eq hhost, hlist, CFault.ok_bind]
    rw [hparse] at hsteps
    cases hrows : fileStatements junk hostKey list with
    | error e =>
      rw [hrows] at hsteps
      cases hsteps
    | ok rows =>
      rw [hrows, hnone rows hrows] at hsteps
      exact (Except.ok.inj hsteps).symm
  refine ⟨hsteps, ?_⟩
  rintro ⟨steps, heq, hinserts⟩
  rw [hsteps steps heq] at hinserts
  cases hinserts

/-- The reply with an empty list. -/
def emptyReply : Event :=
  Event.add .empty ⟨.http, httpHeaderPayload, .bytes (ascii "\x7b\"list\": []\x7d" ++ [0, 0]) 13⟩

/-- The empty array has no entries. -/
theorem fileStatements_emptyReply :
    fileStatements (fun _ ↦ ⟨.undefined, 0, 0, 0⟩) (ascii "K") (ascii "[]") = .ok [] := by
  have hentries : FileEntries (ascii "K") (JsonItems.nil []).toList [] :=
    .few (List.forall_mem_nil _) (by decide)
  exact fileStatements_of_entries _ hentries [] []

theorem not_leavesTrace_emptyReply :
    (∀ steps, processEventPair (dropboxParsers (fun _ _ ↦ none) (fun _ ↦ 0)
      fun _ ↦ ⟨.undefined, 0, 0, 0⟩) listRequest emptyReply = .ok steps → steps = []) ∧
    ¬ LeavesTrace (dropboxParsers (fun _ _ ↦ none) (fun _ ↦ 0) fun _ ↦ ⟨.undefined, 0, 0, 0⟩)
      listRequest emptyReply (ascii "K") := by
  have hreq : payloadString listRequest = .ok (ascii "host_key=K&") := by decide +kernel
  have hrsp : payloadString emptyReply = .ok (ascii "\x7b\"list\": []\x7d") := by decide +kernel
  have hnone : ∀ rows, fileStatements (fun _ ↦ ⟨.undefined, 0, 0, 0⟩) (ascii "K") (ascii "[]") =
      .ok rows → rows = [] := by
    intro rows hrows
    rw [fileStatements_emptyReply] at hrows
    exact (Except.ok.inj hrows).symm
  exact not_leavesTrace _ _ _ (by decide +kernel) hreq hrsp (by decide +kernel) (by decide +kernel)
    hnone

/-- The host `K` is shown no file, and the log does not tell. -/
theorem not_leavesTrace_of_empty_list :
    processEventPair (dropboxParsers (fun _ _ ↦ none) (fun _ ↦ 0)
      fun _ ↦ ⟨.undefined, 0, 0, 0⟩) listRequest emptyReply = .ok [] ∧
    ¬ LeavesTrace (dropboxParsers (fun _ _ ↦ none) (fun _ ↦ 0) fun _ ↦ ⟨.undefined, 0, 0, 0⟩)
      listRequest emptyReply (ascii "K") := by
  have hsteps : processEventPair (dropboxParsers (fun _ _ ↦ none) (fun _ ↦ 0)
      fun _ ↦ ⟨.undefined, 0, 0, 0⟩) listRequest emptyReply = .ok [] := by
    decide +kernel
  refine ⟨hsteps, ?_⟩
  rintro ⟨steps, heq, hinserts⟩
  rw [hsteps] at heq
  cases heq
  cases hinserts

/-! ### What the audit makes of a trace -/

namespace DropboxDatabase

variable {db : DropboxDatabase}

/-- A file that has not been deleted is missing from a later listing without files, and the host has
been shown it in no other: then the commit is returned. -/
theorem selected_of_emptyListing (hone : db.SingleAccount) {c l : FileRow}
    (hc : c ∈ db.commitBatch.rows) (hsize : 0 ≤ c.size)
    (hkept : ∀ d ∈ db.commitBatch.rows, ¬ Deletes d c) (hl : l ∈ db.list.rows)
    (hlater : c.time < l.time)
    (hhidden : ∀ l' ∈ db.list.rows, c.time < l'.time → l'.hostKey = l.hostKey → l'.path ≠ c.path) :
    db.Selected c := by
  refine (selected_iff_omittedIn hone hc hsize).2 ⟨l, hl, ⟨hlater, ?_⟩, ?_⟩
  · rintro m ⟨⟨d, hd, hdel, -⟩, -⟩
    exact absurd hdel (hkept d hd)
  · rintro ⟨l', hl', hwindow, hhost, hpath⟩
    exact hhidden l' hl' hwindow.1 hhost hpath

/-- Without a later listing no commit is returned. -/
theorem not_selected_of_no_listing (hone : db.SingleAccount) {c : FileRow}
    (hc : c ∈ db.commitBatch.rows) (hsize : 0 ≤ c.size)
    (hnone : ∀ l ∈ db.list.rows, ¬ c.time < l.time) : ¬ db.Selected c := by
  rw [selected_iff_omittedIn hone hc hsize]
  rintro ⟨l, hl, hwindow, -⟩
  exact hnone l hl hwindow.1

end DropboxDatabase

end LibSeal
