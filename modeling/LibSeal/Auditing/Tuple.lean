import LibSeal.Data.SqlText
import LibSeal.Logpoint.TamperEvidence

/-!
# The tuples of the auditors

Every auditor turns an exchange into rows by pasting the fields it extracted into a text, the
**tuple**, which `insert_statement` completes to an `INSERT`. This file has the pasting expressions
of the three auditors, with the fields as arguments; a `LoggedRow` is one row of one of them.

The fields are arbitrary byte strings. The auditors take them from the wire — a reference name, a
request line, a JSON string with its escapes left in place — and no check stands between the wire
and the tuple, except that the `update` text of an ownCloud row is not empty.
-/

namespace LibSeal

open Bytes SqlText

/-- `to_str` -/
def toStr (i : ℤ) : Bytes := ofInt i

/-! ### Git -/

/-- The kind of an update: the new id is all zero, the old id is, or neither. -/
inductive UpdateType where
  | delete
  | create
  | update
  deriving DecidableEq

/-- The character stored for it. -/
def UpdateType.char : UpdateType → UInt8
  | .delete => 'd'.toUInt8
  | .create => 'c'.toUInt8
  | .update => 'u'.toUInt8

/-- The tuple of an update in `eventPair2DslForDB`. -/
def updateTuple (id : ℤ) (repo branch ref2 : Bytes) (type : UpdateType) (result : ℤ) : Bytes :=
  toStr id ++ ascii ",\"" ++ repo ++ ascii "\",\"" ++ branch ++ ascii "\",\"" ++ ref2 ++
    ascii "\",\"" ++ [type.char] ++ ascii "\"," ++ toStr result

/-- The tuple of an advertised reference in `eventPair2DslForDB`. -/
def advertisementTuple (id : ℤ) (repo branch cid : Bytes) : Bytes :=
  toStr id ++ ascii ",\"" ++ repo ++ ascii "\",\"" ++ branch ++ ascii "\",\"" ++ cid ++ ascii "\""

/-! ### ownCloud -/

/-- The tuple of a synchronisation in ownCloud's `libseal_process_log_at_runtime`. -/
def syncTuple (id : ℕ) (esid sender receiver update : Bytes) : Bytes :=
  ofNat id ++ ascii ",\"" ++ esid ++ ascii "\"," ++ sender ++ ascii "," ++ receiver ++
    ascii ",\"" ++ update ++ ascii "\""

/-- The part of ownCloud's `libseal_process_log_at_runtime` behind the extraction of the fields: who
sent the operations and who receives them depends on the server's answer `res`, and an empty update
is not logged. -/
def syncOf (id : ℕ) (res esid memberid requestUpdate responseUpdate : Bytes) : Option Bytes :=
  let (sender, receiver, update) :=
    if res = ascii "added" then (memberid, ascii "0", requestUpdate)
    else if res = ascii "new_ops" ∨ res = ascii "conflict" then
      (ascii "0", memberid, responseUpdate)
    else ([], [], [])
  if update = [] then none else some (syncTuple id esid sender receiver update)

/-! ### Dropbox -/

/-- The statement that `parse_commit_batch` and `parse_list` build for a file. -/
def fileStatement (hostKey path : Bytes) (size : ℤ) (blocklist : Bytes) : Bytes :=
  ascii "\"8796754824148\", \"" ++ hostKey ++ ascii "\", \"" ++ path ++ ascii "\", " ++
    toStr size ++ ascii ", \"" ++ blocklist ++ ascii "\""

/-- The tuple of a file in `processEventPair`. -/
def fileTuple (counter : ℤ) (statement : Bytes) : Bytes := toStr counter ++ ascii ", " ++ statement

/-! ### Rows -/

/-- A row that an auditor logs, by the data that goes into it. -/
inductive LoggedRow where
  /-- A reference update of a Git push. -/
  | pushed (id : ℤ) (repo branch cid : Bytes) (type : UpdateType) (result : ℤ)
  /-- A reference advertised by a Git server. -/
  | advertised (id : ℤ) (repo branch cid : Bytes)
  /-- ownCloud operations that a member sent to the server. -/
  | added (id : ℕ) (esid memberid update : Bytes)
  /-- ownCloud operations that the server sent to a member. -/
  | served (id : ℕ) (esid memberid update : Bytes)
  /-- A file of a Dropbox listing. -/
  | listed (counter : ℤ) (hostKey path : Bytes) (size : ℤ) (blocklist : Bytes)
  /-- A file of a Dropbox commit. -/
  | committed (counter : ℤ) (hostKey path : Bytes) (size : ℤ) (blocklist : Bytes)

namespace LoggedRow

/-- The table the row goes to. -/
def table : LoggedRow → CString
  | pushed .. => .ofBuffer (ascii "updates")
  | advertised .. => .ofBuffer (ascii "advertisements")
  | added .. | served .. => .ofBuffer (ascii "sync")
  | listed .. => .ofBuffer (ascii "list")
  | committed .. => .ofBuffer (ascii "commit_batch")

/-- The tuple that the auditor hands to `insert_statement`. -/
def tuple : LoggedRow → Bytes
  | pushed id repo branch cid type result => updateTuple id repo branch cid type result
  | advertised id repo branch cid => advertisementTuple id repo branch cid
  | added id esid memberid update => syncTuple id esid memberid (ascii "0") update
  | served id esid memberid update => syncTuple id esid (ascii "0") memberid update
  | listed counter hostKey path size blocklist
  | committed counter hostKey path size blocklist =>
    fileTuple counter (fileStatement hostKey path size blocklist)

/-- The values the row is meant to have: the data as it was extracted. -/
def values : LoggedRow → List SqlValue
  | pushed id repo branch cid type result =>
    [.number (toStr id), .text repo, .text branch, .text cid, .text [type.char],
      .number (toStr result)]
  | advertised id repo branch cid => [.number (toStr id), .text repo, .text branch, .text cid]
  | added id esid memberid update =>
    [.number (ofNat id), .text esid, .number memberid, .number (ascii "0"), .text update]
  | served id esid memberid update =>
    [.number (ofNat id), .text esid, .number (ascii "0"), .number memberid, .text update]
  | listed counter hostKey path size blocklist
  | committed counter hostKey path size blocklist =>
    [.number (toStr counter), .text (ascii "8796754824148"), .text hostKey, .text path,
      .number (toStr size), .text blocklist]

/-- A field that can be put between quotes as it is. -/
def Quotable (s : Bytes) : Prop := quote ∉ s ∧ 0 ∉ s

/-- The condition on the data under which the tuple says what it is meant to say. -/
def Safe : LoggedRow → Prop
  | pushed _ repo branch cid _ _ | advertised _ repo branch cid =>
    Quotable repo ∧ Quotable branch ∧ Quotable cid
  | added _ esid memberid update | served _ esid memberid update =>
    Quotable esid ∧ isNumber memberid = true ∧ Quotable update
  | listed _ hostKey path _ blocklist | committed _ hostKey path _ blocklist =>
    Quotable hostKey ∧ Quotable path ∧ Quotable blocklist

/-! ### The tuple as cells -/

/-- The cells the tuple is pasted together from. -/
def cells : LoggedRow → List Cell
  | pushed id repo branch cid type result =>
    [⟨0, false, toStr id⟩, ⟨0, true, repo⟩, ⟨0, true, branch⟩, ⟨0, true, cid⟩,
      ⟨0, true, [type.char]⟩, ⟨0, false, toStr result⟩]
  | advertised id repo branch cid =>
    [⟨0, false, toStr id⟩, ⟨0, true, repo⟩, ⟨0, true, branch⟩, ⟨0, true, cid⟩]
  | added id esid memberid update =>
    [⟨0, false, ofNat id⟩, ⟨0, true, esid⟩, ⟨0, false, memberid⟩, ⟨0, false, ascii "0"⟩,
      ⟨0, true, update⟩]
  | served id esid memberid update =>
    [⟨0, false, ofNat id⟩, ⟨0, true, esid⟩, ⟨0, false, ascii "0"⟩, ⟨0, false, memberid⟩,
      ⟨0, true, update⟩]
  | listed counter hostKey path size blocklist
  | committed counter hostKey path size blocklist =>
    [⟨0, false, toStr counter⟩, ⟨1, true, ascii "8796754824148"⟩, ⟨1, true, hostKey⟩,
      ⟨1, true, path⟩, ⟨1, false, toStr size⟩, ⟨1, true, blocklist⟩]

theorem map_value_cells (row : LoggedRow) : row.cells.map Cell.value = row.values := by
  rcases row with - | - | - | - | - | - <;> rfl

theorem cells_ne_nil (row : LoggedRow) : row.cells ≠ [] := by
  rcases row with - | - | - | - | - | - <;> exact List.cons_ne_nil _ _

/-- The tuple is the text of its cells. -/
theorem tuple_eq_cellsText (row : LoggedRow) : row.tuple = cellsText row.cells := by
  have h1 : ascii ",\"" = [comma, quote] := by decide
  have h2 : ascii "\",\"" = [quote, comma, quote] := by decide
  have h3 : ascii "\"," = [quote, comma] := by decide
  have h4 : ascii "\"" = [quote] := by decide
  have h5 : ascii "," = [comma] := by decide
  have h6 : ascii "\", \"" = [quote, comma, 32, quote] := by decide
  have h7 : ascii "\", " = [quote, comma, 32] := by decide
  have h8 : ascii ", \"" = [comma, 32, quote] := by decide
  have h9 : ascii ", " = [comma, 32] := by decide
  have h10 : ascii "\"8796754824148\", \"" =
      quote :: (ascii "8796754824148" ++ [quote, comma, 32, quote]) := by decide
  rcases row with - | - | - | - | - | - <;>
    simp [tuple, cells, updateTuple, advertisementTuple, syncTuple, fileTuple, fileStatement,
      cellsText, Cell.text, h1, h2, h3, h4, h5, h6, h7, h8, h9, h10]

/-- A number is a safe bare cell. -/
theorem safe_bare {blanks : ℕ} {s : Bytes} : Cell.Safe ⟨blanks, false, s⟩ ↔ isNumber s = true :=
  ⟨fun h ↦ by simpa [Cell.Safe] using h.2,
    fun h ↦ ⟨notMem_of_isNumber h (by decide), by simpa using h⟩⟩

theorem safe_quoted {blanks : ℕ} {s : Bytes} : Cell.Safe ⟨blanks, true, s⟩ ↔ Quotable s := by
  rw [Cell.Safe, Quotable, if_pos rfl, and_comm]

theorem isNumber_toStr (i : ℤ) : isNumber (toStr i) = true := isNumber_ofInt i

theorem isNumber_ofNat (n : ℕ) : isNumber (ofNat n) = true := isNumber_ofInt n

/-- The cells the auditors make themselves are safe, so only the extracted fields matter. -/
theorem forall_safe_cells (row : LoggedRow) : (∀ c ∈ row.cells, c.Safe) ↔ row.Safe := by
  have htype : ∀ type : UpdateType, Quotable [type.char] := by
    rintro (- | - | -) <;> exact ⟨by decide, by decide⟩
  have hzero : isNumber (ascii "0") = true := by decide
  have hkey : Quotable (ascii "8796754824148") := ⟨by decide, by decide⟩
  have hnil : (∀ c ∈ ([] : List Cell), c.Safe) ↔ True := iff_true_intro (List.forall_mem_nil _)
  rcases row with - | - | - | - | - | - <;>
    simp only [cells, List.forall_mem_cons, hnil, safe_bare, safe_quoted, isNumber_toStr,
      isNumber_ofNat, htype, hzero, hkey, Safe, true_and, and_true]

end LoggedRow

end LibSeal
