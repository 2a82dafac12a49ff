import LibSeal.Auditing.Tuple

/-!
# Logged data and the statement it is put into

What the database is told about a row: the statement that `createInsertStatement` makes of the
auditor's tuple, read as SQLite reads it. Nothing on the way escapes the data, so the statement says
what it is meant to say exactly when the data happens to need no escaping
(`readsAsIntended_iff_safe`). A Git reference may well be named `refs/heads/a"b`; the statement of
its push is no `INSERT` at all (`not_readsAsIntended_quotedPush`).

A NUL byte needs an argument of its own. It ends the tuple early, where `c_str()` is taken, and what
follows — the hash and the closing parenthesis — may complete the stump to a statement. It cannot
complete it to the one intended, because the values of a text that has no NUL byte have none either.
-/

namespace LibSeal

open Bytes SqlText

/-- The statement of a row reads as one `INSERT` into the row's table, with the row's values and, in
the builds that add it, the hash. -/
def ReadsAsIntended (cfg : BuildConfig) (P : Platform) (lasthash : HashText) (row : LoggedRow) :
    Prop :=
  ∃ stmt newhash,
    createInsertStatement cfg P lasthash row.table (.ofBuffer row.tuple) = .ok (stmt, newhash) ∧
      readInsert (cStr stmt) =
        some (row.table.bytes,
          row.values ++ if cfg.addHash then [.text newhash.bytes] else [])

/-! ### The statement as cells -/

/-- The cell that `create_insert_statement` adds. -/
def hashCells (cfg : BuildConfig) (newhash : HashText) : List Cell :=
  if cfg.addHash then [⟨0, true, newhash.bytes⟩] else []

/-- The statement of a tuple of cells is the statement of the cells, with the hash for another. -/
theorem statementText_eq_insertText (cfg : BuildConfig) (P : Platform) (lasthash : HashText)
    (table tuple : CString) {cs : List Cell} (hne : cs ≠ []) (htuple : tuple.bytes = cellsText cs) :
    statementText cfg P lasthash table tuple =
      insertText table.bytes (cs ++ hashCells cfg (nextHash P lasthash table tuple)) := by
  have h1 : ascii "` VALUES (" = values ++ ascii "(" := by decide
  have h2 : ascii "\");" = quote :: ascii ");" := by decide
  have h3 : ascii ",\"" = [comma, quote] := by decide
  rw [statementText, hashCells, insertText, h1]
  split_ifs
  · rw [cellsText_concat hne, insertWithHash, htuple, h2, h3, insertInto]
    simp [Cell.text]
  · rw [List.append_nil, insertWithoutHash, htuple, insertInto]
    simp

/-- What the statement of a row has to be read as. -/
theorem readsAsIntended_iff_readInsert (cfg : BuildConfig) (P : Platform) (lasthash : HashText)
    (row : LoggedRow) :
    ReadsAsIntended cfg P lasthash row ↔
      readInsert (statementText cfg P lasthash row.table (.ofBuffer row.tuple)) =
        some (row.table.bytes, (row.cells ++
          hashCells cfg (nextHash P lasthash row.table (.ofBuffer row.tuple))).map Cell.value) := by
  obtain ⟨rest, hcreate, -⟩ :=
    exists_createInsertStatement cfg P lasthash row.table (.ofBuffer row.tuple)
  have hz := zero_notMem_statementText cfg P lasthash row.table (.ofBuffer row.tuple)
  have hvalues : row.values ++ (if cfg.addHash then
      [.text (newLasthash cfg P lasthash row.table (.ofBuffer row.tuple)).bytes] else []) =
      (row.cells ++ hashCells cfg
        (nextHash P lasthash row.table (.ofBuffer row.tuple))).map Cell.value := by
    rw [List.map_append, row.map_value_cells, hashCells, newLasthash]
    split_ifs <;> rfl
  constructor
  · rintro ⟨stmt, newhash, hstmt, hread⟩
    rw [hcreate] at hstmt
    obtain ⟨rfl, rfl⟩ := Prod.mk.inj (Except.ok.inj hstmt)
    rwa [cStr_append_zero hz, hvalues] at hread
  · intro hread
    refine ⟨_, _, hcreate, ?_⟩
    rwa [cStr_append_zero hz, hvalues]

theorem backquote_notMem_table (row : LoggedRow) : backquote ∉ row.table.bytes := by
  have h : ∀ s ∈ ["updates", "advertisements", "sync", "list", "commit_batch"],
      backquote ∉ (CString.ofBuffer (ascii s)).bytes := by decide
  rcases row with - | - | - | - | - | - <;> exact h _ (by decide)

/-- The hash never needs escaping. -/
theorem safe_of_mem_hashCells {cfg : BuildConfig} {P : Platform} {lasthash : HashText}
    {table tuple : CString} {c : Cell} (h : c ∈ hashCells cfg (nextHash P lasthash table tuple)) :
    c.Safe := by
  rw [hashCells] at h
  split_ifs at h
  · rw [List.mem_singleton.1 h]
    exact LoggedRow.safe_quoted.2 ⟨notMem_hex (by decide), notMem_hex (by decide)⟩
  · exact absurd h List.not_mem_nil

/-! ### Safety -/

/-- If the statement is read as intended, the data has no NUL byte. -/
theorem zero_notMem_of_readsAsIntended {cfg : BuildConfig} {P : Platform} {lasthash : HashText}
    {row : LoggedRow} (h : ReadsAsIntended cfg P lasthash row) : ∀ c ∈ row.cells, 0 ∉ c.data := by
  intro c hc hmem
  have hsub := subset_of_readInsert ((readsAsIntended_iff_readInsert ..).1 h) c.value
    (List.mem_map_of_mem (List.mem_append_left _ hc))
  rw [bytes_value] at hsub
  exact zero_notMem_statementText cfg P lasthash row.table _ (hsub hmem)

/-- **Logged data stays in its place exactly when it needs no escaping**: no quoted field contains a
double quote or a NUL byte, and a field put there bare is a number. -/
theorem readsAsIntended_iff_safe (cfg : BuildConfig) (P : Platform) (lasthash : HashText)
    (row : LoggedRow) : ReadsAsIntended cfg P lasthash row ↔ row.Safe := by
  -- without a NUL byte in the data the tuple arrives whole, and the reader decides
  have hwhole : (∀ c ∈ row.cells, 0 ∉ c.data) →
      (ReadsAsIntended cfg P lasthash row ↔ row.Safe) := by
    intro hz
    have htuple : (CString.ofBuffer row.tuple).bytes = cellsText row.cells := by
      rw [← row.tuple_eq_cellsText]
      refine cStr_eq_self ?_
      rw [row.tuple_eq_cellsText]
      exact zero_notMem_cellsText hz
    rw [readsAsIntended_iff_readInsert,
      statementText_eq_insertText cfg P lasthash _ _ row.cells_ne_nil htuple,
      readInsert_insertText (backquote_notMem_table row)
        (List.append_ne_nil_of_left_ne_nil row.cells_ne_nil _)
        (List.forall_mem_append.2 ⟨hz, fun c hc ↦ (safe_of_mem_hashCells hc).1⟩),
      List.forall_mem_append, row.forall_safe_cells]
    exact and_iff_left fun c ↦ safe_of_mem_hashCells
  constructor
  · exact fun h ↦ (hwhole (zero_notMem_of_readsAsIntended h)).1 h
  · exact fun h ↦ (hwhole fun c hc ↦ ((row.forall_safe_cells).2 h c hc).1).2 h

/-- The row of a push to a reference with a double quote in its name. -/
def quotedPush : LoggedRow :=
  .pushed 1 (ascii "/repo.git/") (ascii "refs/heads/a\"b")
    (ascii "1234567890123456789012345678901234567890") .create 1

/-- The quote ends the literal early, and what is left is no statement. -/
theorem not_readsAsIntended_quotedPush :
    ¬ ReadsAsIntended ⟨true, true, true, true⟩ twoRowPlatform HashText.empty quotedPush := by
  rw [readsAsIntended_iff_readInsert]
  decide +kernel

end LibSeal
