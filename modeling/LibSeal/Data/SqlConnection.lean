import LibSeal.Data.Bytes

/-!
# Database connections

The part of a database connection that transactions need: the content as the connection sees it, and
the content to return to while a transaction is open. What a single statement does to the content is
not fixed here — an `SqlEngine` supplies it, together with how a text falls into statements — so
that the rules below hold for every schema and every set of statements.

`exec` is the execution of a text: the statements run in order and the first one that fails ends the
run. A failing statement changes nothing itself; the statements before it keep their effect.

## Statements that act on the transaction

A text may itself begin or end a transaction, and a statement may fail in a way that keeps a part of
its effect or takes the whole open transaction back. An `SqlSession` says what a statement does to
the connection as a whole, and so covers these as well; an `SqlEngine` is the special case in which
no statement touches the transaction (`SqlEngine.session`, `SqlEngine.run_session`). What a failed
run leaves is what its first failing statement leaves (`SqlSession.run_cases`).
-/

variable {D S : Type*}

/-- What the engine does with SQL text and with single statements. -/
structure SqlEngine (D S : Type*) where
  /-- How a text falls into statements. -/
  statements : Bytes → List S
  /-- The effect of one statement on the content; `none` when it fails, which changes nothing. -/
  step : D → S → Option D

namespace SqlEngine

variable (E : SqlEngine D S)

/-- Run statements in order up to the first that fails; the flag says whether all succeeded. -/
def run : D → List S → D × Bool
  | d, [] => (d, true)
  | d, s :: ss =>
    match E.step d s with
    | none => (d, false)
    | some d' => run d' ss

/-- Execute a text. -/
def exec (d : D) (text : Bytes) : D × Bool := E.run d (E.statements text)

/-- A single statement either takes effect or changes nothing. -/
theorem run_singleton (d : D) (s : S) :
    E.run d [s] = ((E.step d s).getD d, (E.step d s).isSome) := by
  rw [run]
  cases E.step d s <;> rfl

end SqlEngine

/-- A connection. -/
structure SqlConnection (D : Type*) where
  /-- The content, including the changes of an open transaction. -/
  content : D
  /-- The content before the open transaction, if one is open. -/
  saved : Option D

namespace SqlConnection

/-- `BEGIN`. Transactions do not nest. -/
def begin (c : SqlConnection D) : SqlConnection D × Bool :=
  match c.saved with
  | some _ => (c, false)
  | none => ({ c with saved := some c.content }, true)

/-- `END`: keep the changes of the open transaction. -/
def commit (c : SqlConnection D) : SqlConnection D × Bool :=
  match c.saved with
  | none => (c, false)
  | some _ => ({ c with saved := none }, true)

/-- `END` while other connections may hold a lock on the database: an open transaction that is
refused its end remains open. -/
def endTransaction (refused : Bool) (c : SqlConnection D) : SqlConnection D × Bool :=
  if refused && c.saved.isSome then (c, false) else c.commit

@[simp]
theorem content_begin (c : SqlConnection D) : c.begin.1.content = c.content := by
  rw [begin]
  cases c.saved <;> rfl

@[simp]
theorem content_endTransaction (refused : Bool) (c : SqlConnection D) :
    (c.endTransaction refused).1.content = c.content := by
  rw [endTransaction, commit]
  split_ifs
  · rfl
  · cases c.saved <;> rfl

/-- No transaction is open behind `END`, unless one was that could not be ended. -/
theorem saved_endTransaction (refused : Bool) (c : SqlConnection D) :
    (c.endTransaction refused).1.saved = none ↔ (refused = true → c.saved = none) := by
  rw [endTransaction, commit]
  rcases refused with - | - <;> rcases hsaved : c.saved with - | d <;> simp [hsaved]

end SqlConnection

/-- What SQL text is to a connection: how it falls into statements, and what a single statement
makes of the connection. The flag says whether the statement succeeded. -/
structure SqlSession (D S : Type*) where
  statements : Bytes → List S
  step : SqlConnection D → S → SqlConnection D × Bool

/-- An engine whose statements leave the transaction alone. -/
def SqlEngine.session (E : SqlEngine D S) : SqlSession D S where
  statements := E.statements
  step c s := ({ c with content := (E.step c.content s).getD c.content },
    (E.step c.content s).isSome)

namespace SqlSession

variable (B : SqlSession D S)

/-- Run statements in order up to the first that fails; the flag says whether all succeeded. -/
def run : SqlConnection D → List S → SqlConnection D × Bool
  | c, [] => (c, true)
  | c, s :: ss =>
    if (B.step c s).2 then run (B.step c s).1 ss else ((B.step c s).1, false)

/-- Execute a text. -/
def exec (c : SqlConnection D) (text : Bytes) : SqlConnection D × Bool :=
  B.run c (B.statements text)

/-- When a statement of the list is the first to fail, the content behind it is the one before the
list. -/
def FailsClean (c : SqlConnection D) (ss : List S) : Prop :=
  ∀ done s rest, ss = done ++ s :: rest → (B.run c done).2 = true →
    (B.step (B.run c done).1 s).2 = false → (B.step (B.run c done).1 s).1.content = c.content

variable {B}

theorem run_append {c : SqlConnection D} {done : List S} (h : (B.run c done).2 = true)
    (ss : List S) : B.run c (done ++ ss) = B.run (B.run c done).1 ss := by
  induction done generalizing c with
  | nil => rfl
  | cons s done ih =>
    rw [run] at h
    rw [List.cons_append, run, run]
    split_ifs at h ⊢ with hs
    exact ih h

/-- Behind the first failing statement nothing is run. -/
theorem run_of_fails {c : SqlConnection D} {done : List S} (h : (B.run c done).2 = true) {s : S}
    (hs : (B.step (B.run c done).1 s).2 = false) (rest : List S) :
    B.run c (done ++ s :: rest) = ((B.step (B.run c done).1 s).1, false) := by
  rw [run_append h, run, if_neg (by rw [hs]; exact Bool.false_ne_true)]

/-- **A run succeeds, or it has a first failing statement.** -/
theorem run_cases (c : SqlConnection D) (ss : List S) :
    (B.run c ss).2 = true ∨ ∃ done s rest, ss = done ++ s :: rest ∧ (B.run c done).2 = true ∧
      (B.step (B.run c done).1 s).2 = false := by
  induction ss generalizing c with
  | nil => exact Or.inl rfl
  | cons s ss ih =>
    rcases hs : (B.step c s).2 with - | -
    · exact Or.inr ⟨[], s, ss, rfl, rfl, hs⟩
    · have hcons : ∀ l, B.run c (s :: l) = B.run (B.step c s).1 l := fun l ↦ by
        rw [run, if_pos hs]
      rcases ih (B.step c s).1 with hok | ⟨done, t, rest, rfl, hdone, ht⟩
      · exact Or.inl (by rw [hcons, hok])
      · exact Or.inr ⟨s :: done, t, rest, rfl, by rw [hcons, hdone], by rw [hcons, ht]⟩

/-- A failed run leaves the content it began with, exactly when it fails cleanly. -/
theorem failsClean_iff {c : SqlConnection D} {ss : List S} :
    B.FailsClean c ss ↔ ((B.run c ss).2 = false → (B.run c ss).1.content = c.content) := by
  constructor
  · intro h hfail
    rcases run_cases (B := B) c ss with hok | ⟨done, s, rest, rfl, hdone, hs⟩
    · rw [hok] at hfail
      exact absurd hfail Bool.noConfusion
    · rw [run_of_fails hdone hs]
      exact h done s rest rfl hdone hs
  · rintro h done s rest rfl hdone hs
    rw [run_of_fails hdone hs] at h
    exact h rfl

end SqlSession

/-- As a session, an engine runs as before and leaves the transaction alone. -/
theorem SqlEngine.run_session (E : SqlEngine D S) (c : SqlConnection D) (ss : List S) :
    E.session.run c ss =
      ({ c with content := (E.run c.content ss).1 }, (E.run c.content ss).2) := by
  induction ss generalizing c with
  | nil => rfl
  | cons s ss ih =>
    rw [SqlSession.run, SqlEngine.run]
    rcases hs : E.step c.content s with - | d
    · simp [session, hs]
    · have hstep : E.session.step c s = (⟨d, c.saved⟩, true) := by simp [session, hs]
      rw [hstep, if_pos rfl, ih]

/-- **A bracketed execution closes its transaction** and leaves what the text did, complete or
not. -/
theorem SqlConnection.endTransaction_exec_begin (E : SqlEngine D S) {c : SqlConnection D}
    (h : c.saved = none) (text : Bytes) :
    ((E.session.exec c.begin.1 text).1.endTransaction false).1 =
      ⟨(E.exec c.content text).1, none⟩ := by
  rw [begin, h, SqlSession.exec, SqlEngine.run_session]
  rfl
