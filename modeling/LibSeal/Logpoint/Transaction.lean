import LibSeal.Logpoint.Insert

/-!
# One transaction around a text

`execute_stmt_tx` puts a text of SQL statements between `begin transaction;` and `end transaction;`.
Each of its three calls of `sqlite3_exec` prints an error and falls through to the next, and none of
them is followed by a rollback. So the transaction is ended in every case, and what is committed is
what the statements before the first failing one have done.

The text is all or nothing exactly when that is nothing, that is, when the failing statement leaves
the content as it was before the text (`isTransaction_iff`). This is so for a text of one statement
(`failsClean_session_singleton`), and for the two statements of the trimming only if the second
cannot fail behind a first that has deleted something (`failsClean_session_pair`).

The statements may be any that a connection executes, transaction control included (`SqlSession`).
-/

namespace LibSeal

open Bytes

variable {D S : Type}

/-- What a transaction makes of the state: all of the text or nothing of it has taken effect, and
nothing is left open or held. -/
structure IsTransaction (B : SqlSession D S) (text : Bytes) (st st' : LogState D) : Prop where
  succeeds : (B.exec st.db.begin.1 text).2 = true →
    st'.db.content = (B.exec st.db.begin.1 text).1.content
  fails : (B.exec st.db.begin.1 text).2 = false → st'.db.content = st.db.content
  saved : st'.db.saved = none
  sqliteMutex : st'.sqliteMutex = false

/-- **`execute_stmt_tx` is a transaction** exactly when a failing text leaves the content as it was,
and SQLite does not refuse to end the transaction while it is open. -/
theorem isTransaction_iff {cfg : BuildConfig} (hdo : cfg.doInsert = true) (B : SqlSession D S)
    (refused : Bool) {st : LogState D} (hmutex : st.sqliteMutex = false) (stmt : Bytes) :
    (∃ st', executeStmtTx cfg B refused st stmt = .ok st' ∧
        IsTransaction B (cStr stmt) st st') ↔
      B.FailsClean st.db.begin.1 (B.statements (cStr stmt)) ∧
        (refused = true → (B.exec st.db.begin.1 (cStr stmt)).1.saved = none) := by
  set c := (B.exec st.db.begin.1 (cStr stmt)).1 with hc
  have hexec := executeStmtTx_eq hdo B refused hmutex stmt
  have hcontent : (c.endTransaction refused).1.content = c.content :=
    SqlConnection.content_endTransaction refused c
  rw [SqlSession.failsClean_iff, SqlConnection.content_begin, ← SqlConnection.saved_endTransaction]
  constructor
  · rintro ⟨st', hst', htx⟩
    rw [hexec] at hst'
    cases hst'
    exact ⟨fun hfail ↦ hcontent.symm.trans (htx.fails hfail), htx.saved⟩
  · rintro ⟨hclean, hclosed⟩
    exact ⟨_, hexec, fun _ ↦ hcontent, fun hfail ↦ hcontent.trans (hclean hfail), hclosed, hmutex⟩

/-! ### The texts of the log -/

/-- A text of one statement, as an insertion is, cannot fail half-way. -/
theorem failsClean_session_singleton (E : SqlEngine D S) (c : SqlConnection D) (s : S) :
    E.session.FailsClean c [s] := by
  rw [SqlSession.failsClean_iff, SqlEngine.run_session, SqlEngine.run_singleton]
  intro hfail
  rw [Option.isSome_eq_false_iff, Option.isNone_iff_eq_none] at hfail
  rw [hfail]
  rfl

/-- A text of two statements, as the trimming is, fails cleanly exactly when the second does not
fail behind a first that has changed something. -/
theorem failsClean_session_pair (E : SqlEngine D S) (c : SqlConnection D) (s t : S) :
    E.session.FailsClean c [s, t] ↔
      ∀ d, E.step c.content s = some d → E.step d t = none → d = c.content := by
  rw [SqlSession.failsClean_iff, SqlEngine.run_session]
  rcases hs : E.step c.content s with - | d
  · simp [SqlEngine.run, hs]
  · rcases ht : E.step d t with - | e <;> simp [SqlEngine.run, hs, ht]

/-! ### A failing second statement -/

/-- A database of tables with the numbers of their rows. Its statements empty a table, which fails
when there is no such table. -/
def deleteEngine : SqlEngine (List (Bytes × ℕ)) Bytes where
  statements text := (text.splitOn ';'.toUInt8).filter (!·.isEmpty)
  step d s :=
    if d.any fun t ↦ ascii "DELETE FROM " ++ t.1 == s then
      some (d.map fun t ↦ if ascii "DELETE FROM " ++ t.1 == s then (t.1, 0) else t)
    else none

/-- A log with two rows. -/
def twoRowState : LogState (List (Bytes × ℕ)) := .init [(ascii "updates", 2)]

/-- The text is a transaction where its first statement is the one that fails. -/
theorem isTransaction_delete_advertisements :
    ∃ st', executeStmtTx ⟨true, true, true, true⟩ deleteEngine.session false twoRowState
        (ascii "DELETE FROM advertisements;DELETE FROM updates;") = .ok st' ∧
      IsTransaction deleteEngine.session
        (cStr (ascii "DELETE FROM advertisements;DELETE FROM updates;")) twoRowState st' := by
  refine (isTransaction_iff rfl _ _ rfl _).2 ⟨?_, fun h ↦ nomatch h⟩
  rw [SqlSession.failsClean_iff]
  intro _
  decide +kernel

/-- The rows stay deleted when the table of the second statement does not exist. -/
theorem not_isTransaction_delete_updates :
    ¬ ∃ st', executeStmtTx ⟨true, true, true, true⟩ deleteEngine.session false twoRowState
        (ascii "DELETE FROM updates;DELETE FROM advertisements;") = .ok st' ∧
      IsTransaction deleteEngine.session
        (cStr (ascii "DELETE FROM updates;DELETE FROM advertisements;")) twoRowState st' := by
  rintro ⟨st', hst', htx⟩
  rw [executeStmtTx_eq rfl _ _ rfl] at hst'
  cases hst'
  exact absurd (htx.fails (by decide +kernel)) (by decide +kernel)

end LibSeal
