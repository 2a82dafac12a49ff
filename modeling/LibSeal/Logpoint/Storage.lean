import LibSeal.Logpoint.ChainHead

/-!
# What the database stores

The way of a row from the auditor to its table: the auditor pastes the row into a tuple,
`insert_statement` completes the tuple to a statement, `execute_stmt_tx` hands the text over, and
SQLite reads values from it again and makes a row of them. A `RowStore` says what the rows and the
tables of an auditor are; its engine executes a text as it reads.

Rows that need no escaping and whose integers fit 64 bits arrive as they were logged, whatever the
build adds to the statement, and `lasthash` ends at the head of the chain of their calls
(`insertCalls_of_safe`).
-/

namespace LibSeal

open Bytes SqlText

/-! ### Rows and tables -/

/-- The rows of an auditor, and the content of its tables. -/
structure RowStore (R D : Type) where
  /-- The row as the auditor logs it. -/
  logged : R → LoggedRow
  /-- The integers of a row are stored as integers. -/
  IntegersFit : R → Prop
  /-- The row that the values of an `INSERT` into a table make. -/
  ofValues : Bytes → List SqlValue → Option R
  /-- The effect of the `INSERT` of a row; it fails if the key is there already. -/
  insert : D → R → Option D
  ofValues_values : ∀ r, IntegersFit r → ofValues (logged r).table.bytes (logged r).values = some r

variable {R D : Type} {A : Auditor}

namespace RowStore

/-- The columns of the auditor. Where the tables have one more for the hash, a row without a value
for it is refused. -/
def columns (addHash : Bool) (values : List SqlValue) : List SqlValue :=
  if addHash then values.dropLast else values

/-- SQLite, as far as single statements that insert a row are concerned. A text that reads as
anything else is one that fails. -/
def engine (B : RowStore R D) (addHash : Bool) : SqlEngine D (Option R) where
  statements text := [(readInsert text).bind fun (table, values) ↦
    B.ofValues table (columns addHash values)]
  step d r := r.bind (B.insert d)

/-- A row is inserted, or refused. -/
def put (B : RowStore R D) (d : D) (r : R) : D := (B.insert d r).getD d

/-- A call is that of a row. -/
structure IsCallOf (B : RowStore R D) (c : InsertCall A) (r : R) : Prop where
  name : c.name = (B.logged r).table
  tuple : c.tuple = .ofBuffer (B.logged r).tuple
  /-- Nothing in the row needs escaping. -/
  safe : (B.logged r).Safe
  integersFit : B.IntegersFit r

end RowStore

/-! ### One row -/

variable {cfg : BuildConfig} {P : Platform} {B : RowStore R D}

/-- **The statement of a row that needs no escaping** is read as it is meant. -/
theorem readInsert_statementText_of_safe (cfg : BuildConfig) (P : Platform) {row : LoggedRow}
    (h : row.Safe) (lasthash : HashText) :
    readInsert (statementText cfg P lasthash row.table (.ofBuffer row.tuple)) =
      some (row.table.bytes, (row.cells ++
        hashCells cfg (nextHash P lasthash row.table (.ofBuffer row.tuple))).map Cell.value) := by
  have hsafe := row.forall_safe_cells.2 h
  have htuple : (CString.ofBuffer row.tuple).bytes = cellsText row.cells := by
    rw [← row.tuple_eq_cellsText]
    refine cStr_eq_self ?_
    rw [row.tuple_eq_cellsText]
    exact zero_notMem_cellsText fun c hc ↦ (hsafe c hc).1
  have hall : ∀ c ∈ row.cells ++ hashCells cfg
      (nextHash P lasthash row.table (.ofBuffer row.tuple)), c.Safe :=
    List.forall_mem_append.2 ⟨hsafe, fun c ↦ safe_of_mem_hashCells⟩
  rw [statementText_eq_insertText cfg P lasthash _ _ row.cells_ne_nil htuple]
  exact (readInsert_insertText (backquote_notMem_table row)
    (List.append_ne_nil_of_left_ne_nil row.cells_ne_nil _) fun c hc ↦ (hall c hc).1).2 hall

/-- The hash is in the column that the build has added for it. -/
theorem columns_append_hashCells (row : LoggedRow) (newhash : HashText) :
    RowStore.columns cfg.addHash ((row.cells ++ hashCells cfg newhash).map Cell.value) =
      row.values := by
  rw [List.map_append, row.map_value_cells, RowStore.columns, hashCells]
  split_ifs
  · exact List.dropLast_concat
  · exact List.append_nil _

/-- **A row is stored as it was logged.** -/
theorem contentAfter_of_isCallOf {c : InsertCall A} {r : R} (h : B.IsCallOf c r)
    (st : LogState D) :
    contentAfter cfg P (B.engine cfg.addHash) st c = B.put st.db.content r := by
  have hread := readInsert_statementText_of_safe cfg P h.safe st.lasthash
  have hrow : (B.engine cfg.addHash).statements (statementText cfg P st.lasthash c.name c.tuple) =
      [some r] := by
    show [(readInsert _).bind _] = _
    rw [h.name, h.tuple, hread, Option.bind_some]
    dsimp only
    rw [columns_append_hashCells, B.ofValues_values r h.integersFit]
  rw [contentAfter, SqlEngine.exec, hrow, SqlEngine.run_singleton]
  rfl

/-! ### Many rows -/

/-- Calls of `insert_statement`, one after the other, each with the outcome of its signature. -/
def insertCalls {S : Type} (cfg : BuildConfig) (P : Platform) (E : SqlEngine D S) :
    LogState D → List (InsertCall A) → (ℕ → Option Signature) → Except CFault (LogState D)
  | st, [], _ => .ok st
  | st, c :: cs, signs => do
    let st ← insertCall cfg P E.session false st c (signs 0)
    insertCalls cfg P E st cs fun n ↦ signs (n + 1)

/-- `lasthash` after some calls. -/
def newLasthashes (cfg : BuildConfig) (P : Platform) (lasthash : HashText)
    (cs : List (InsertCall A)) : HashText :=
  cs.foldl (fun lasthash c ↦ newLasthash cfg P lasthash c.name c.tuple) lasthash

/-- In the builds that chain the rows it is the head of the chain. -/
theorem newLasthashes_eq_head (hadd : cfg.addHash = true) (lasthash : HashText)
    (cs : List (InsertCall A)) :
    newLasthashes cfg P lasthash cs = HashChain.head (sha256 P) chainText lasthash cs := by
  have hstep : (fun lasthash (c : InsertCall A) ↦ newLasthash cfg P lasthash c.name c.tuple) =
      fun lasthash c ↦ sha256 P (chainText lasthash c) := by
    funext lasthash c
    exact if_pos hadd
  rw [newLasthashes, hstep]
  rfl

/-- **Rows that need no escaping are stored** in the order of their calls, each once, and the chain
goes on with each of them. -/
theorem insertCalls_of_safe (hdo : cfg.doInsert = true) {cs : List (InsertCall A)} {rs : List R}
    (h : List.Forall₂ B.IsCallOf cs rs) {signs : ℕ → Option Signature}
    (hsigns : cfg.signs = true → ∀ n, (signs n).isSome = true) {st : LogState D}
    (hst : BetweenCalls st) :
    insertCalls cfg P (B.engine cfg.addHash) st cs signs = .ok { st with
      lasthash := newLasthashes cfg P st.lasthash cs
      db := ⟨rs.foldl B.put st.db.content, none⟩ } := by
  induction h generalizing st signs with
  | nil =>
    obtain ⟨lasthash, lasthashMutex, sqliteMutex, content, saved⟩ := st
    obtain rfl : saved = none := hst.saved
    rfl
  | @cons c r cs rs hc _ ih =>
    have hcall := (insertCall_session_cases (P := P) (E := B.engine cfg.addHash) hdo hst c
      (signs 0)).resolve_left fun hfail ↦ by
        have hsome := hsigns hfail.1 0
        rw [hfail.2.1] at hsome
        exact Bool.noConfusion hsome
    rw [insertCalls, hcall.2, contentAfter_of_isCallOf hc]
    exact ih (fun hs n ↦ hsigns hs (n + 1)) ⟨hst.lasthashMutex, hst.sqliteMutex, rfl⟩

end LibSeal
