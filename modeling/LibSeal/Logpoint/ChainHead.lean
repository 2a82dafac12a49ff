import LibSeal.Logpoint.SqlSafety

/-!
# The chain head and the stored log

`lasthash` is a copy, in memory, of the hash of the last row in the database. `insertStatement`
advances the copy first and touches the database last, and it takes nothing back when a step in
between fails:

* when `sgx_ecdsa_sign` fails it returns at once, with `lasthash` advanced, no row stored and
  `lasthash_mutex` held, so that the next call waits for ever;
* when SQLite refuses the `INSERT` it prints the error and returns, with `lasthash` advanced and no
  row stored; the next row is then linked to a hash that no row carries;
* when SQLite refuses to end the transaction it prints the error and returns, with `lasthash`
  advanced and the row in a transaction that is still open.

So a call is atomic exactly when its steps succeed (`StepsSucceed`), apart from the case that the
hash of the refused row happens to be the old head. Over runs of such calls the rows stay one chain
from the empty hash to `lasthash` (`ChainInvariant`, `chainInvariant_of_reaches`).

The database is any session with a view `rows` of its content: the calls whose rows are stored, each
with its hash, in the order they were inserted.
-/

namespace LibSeal

open Bytes HashChain

variable {D S : Type} {A : Auditor} (cfg : BuildConfig) (P : Platform) (B : SqlSession D S)
  (E : SqlEngine D S) (rows : D → List (InsertCall A × HashText))

/-- A call of `insert_statement` by an auditor, with the outcome of the signature and of
`end transaction;`. -/
def insertCall (refused : Bool) (st : LogState D) (c : InsertCall A) (sign : Option Signature) :
    Except CFault (LogState D) :=
  insertStatement cfg P B refused A.getTables sign st c.table c.tuple

/-- The connection behind the `INSERT` of a call, before `end transaction;`. -/
def afterInsert (st : LogState D) (c : InsertCall A) : SqlConnection D :=
  (B.exec st.db.begin.1 (statementText cfg P st.lasthash c.name c.tuple)).1

/-- The content the database has after executing the statement of a call. -/
def contentAfter (st : LogState D) (c : InsertCall A) : D :=
  (E.exec st.db.content (statementText cfg P st.lasthash c.name c.tuple)).1

/-- SQLite carries out the `INSERT` of a call: it stores the row, with its hash. -/
def Inserts (st : LogState D) (c : InsertCall A) : Prop :=
  rows (afterInsert cfg P B st c).content =
    rows st.db.content ++ [(c, nextHash P st.lasthash c.name c.tuple)]

/-- SQLite does not refuse to end the transaction that the `INSERT` of a call has left open. -/
def Ends (refused : Bool) (st : LogState D) (c : InsertCall A) : Prop :=
  refused = true → (afterInsert cfg P B st c).saved = none

/-- **The steps of a call succeed**: the signature, if this build signs, the `INSERT` and the end of
the transaction. A build without `SQLITE_DO_INSERT` takes no steps. -/
def StepsSucceed (refused : Bool) (st : LogState D) (c : InsertCall A) (sign : Option Signature) :
    Prop :=
  cfg.doInsert = true →
    (cfg.signs = true → sign.isSome = true) ∧ Inserts cfg P B rows st c ∧ Ends cfg P B refused st c

/-- A call is atomic: it commits its row and leaves its hash in `lasthash`, or changes neither the
rows nor `lasthash`, and it releases the mutex. -/
def CallAtomic (st st' : LogState D) (c : InsertCall A) : Prop :=
  ((st'.db.saved = none ∧ rows st'.db.content = rows st.db.content ++ [(c, st'.lasthash)]) ∨
    (rows st'.db.content = rows st.db.content ∧ st'.lasthash = st.lasthash)) ∧
  st'.lasthashMutex = false

/-- The states reached from an empty log by calls whose steps succeed. -/
inductive Reaches : LogState D → Prop where
  | init (d : D) (h : rows d = []) : Reaches (LogState.init d)
  | call {st st' : LogState D} (c : InsertCall A) (sign : Option Signature) (refused : Bool)
      (h : Reaches st) (hsteps : StepsSucceed cfg P B rows refused st c sign)
      (hcall : insertCall cfg P B refused st c sign = .ok st') : Reaches st'

/-- Between calls nobody holds a mutex and no transaction is open. -/
structure BetweenCalls (st : LogState D) : Prop where
  lasthashMutex : st.lasthashMutex = false
  sqliteMutex : st.sqliteMutex = false
  saved : st.db.saved = none

/-- What holds between calls. -/
structure ChainInvariant (st : LogState D) : Prop extends BetweenCalls st where
  /-- The rows form one chain from the empty hash to `lasthash`. -/
  linked : Linked (sha256 P) chainText HashText.empty (rows st.db.content) st.lasthash

variable {cfg P B E rows}

/-! ### One call -/

theorem insertCall_of_not_doInsert (h : cfg.doInsert = false) (refused : Bool) (st : LogState D)
    (c : InsertCall A) (sign : Option Signature) :
    insertCall cfg P B refused st c sign = .ok st := by
  rw [insertCall, insertStatement, h]
  rfl

theorem insertCall_eq (hdo : cfg.doInsert = true) (refused : Bool) (st : LogState D)
    (c : InsertCall A) (sign : Option Signature) :
    insertCall cfg P B refused st c sign =
      (extendChain cfg P sign st c.name c.tuple).bind fun r ↦
        match r.1 with
        | none => .ok r.2
        | some stmt => executeStmtTx cfg B refused r.2 stmt := by
  have hname : A.getTables[c.table.val]? = some c.name := List.getElem?_eq_getElem c.table.isLt
  rw [insertCall, insertStatement, hdo, hname]
  rfl

/-- **What a call does** when nobody holds the mutexes: the head moves in any case, and then the
call either returns with the mutex held or executes the statement in a transaction. -/
theorem insertCall_cases (hdo : cfg.doInsert = true) (refused : Bool) {st : LogState D}
    (hlasthash : st.lasthashMutex = false) (hsqlite : st.sqliteMutex = false) (c : InsertCall A)
    (sign : Option Signature) :
    (cfg.signs = true ∧ sign = none ∧ insertCall cfg P B refused st c sign = .ok { st with
      lasthash := newLasthash cfg P st.lasthash c.name c.tuple, lasthashMutex := true }) ∨
    ((cfg.signs = true → sign.isSome = true) ∧
      insertCall cfg P B refused st c sign = .ok { st with
        lasthash := newLasthash cfg P st.lasthash c.name c.tuple,
        db := ((afterInsert cfg P B st c).endTransaction refused).1 }) := by
  have hcall := insertCall_eq (P := P) (B := B) hdo refused st c sign
  rcases extendChain_cases cfg P sign hlasthash c.name c.tuple with
    ⟨hsigns, hnone, hext⟩ | ⟨hsome, stmt, htext, hext⟩
  · exact Or.inl ⟨hsigns, hnone, by rw [hcall, hext]; rfl⟩
  · refine Or.inr ⟨hsome, ?_⟩
    rw [hcall, hext]
    show executeStmtTx cfg B refused _ stmt = _
    rw [executeStmtTx_eq hdo, htext]
    · rfl
    · exact hsqlite

/-- Where the statements leave the transaction alone, what is in the database behind a call is what
its statement has made of the content. -/
theorem endTransaction_afterInsert {st : LogState D} (h : st.db.saved = none) (c : InsertCall A) :
    ((afterInsert cfg P E.session st c).endTransaction false).1 =
      ⟨contentAfter cfg P E st c, none⟩ :=
  SqlConnection.endTransaction_exec_begin E h _

theorem insertCall_session_cases (hdo : cfg.doInsert = true) {st : LogState D}
    (hst : BetweenCalls st) (c : InsertCall A) (sign : Option Signature) :
    (cfg.signs = true ∧ sign = none ∧ insertCall cfg P E.session false st c sign = .ok { st with
      lasthash := newLasthash cfg P st.lasthash c.name c.tuple, lasthashMutex := true }) ∨
    ((cfg.signs = true → sign.isSome = true) ∧
      insertCall cfg P E.session false st c sign = .ok { st with
        lasthash := newLasthash cfg P st.lasthash c.name c.tuple,
        db := ⟨contentAfter cfg P E st c, none⟩ }) := by
  rw [← endTransaction_afterInsert hst.saved c]
  exact insertCall_cases hdo false hst.lasthashMutex hst.sqliteMutex c sign

/-- The statement of a call stores its row, whether it is executed in a transaction or not. -/
theorem inserts_session_iff {st : LogState D} {c : InsertCall A} :
    Inserts cfg P E.session rows st c ↔ rows (contentAfter cfg P E st c) =
      rows st.db.content ++ [(c, nextHash P st.lasthash c.name c.tuple)] := by
  rw [Inserts, afterInsert, SqlSession.exec, SqlEngine.run_session, SqlConnection.content_begin]
  rfl

/-- A call whose steps succeed commits its row. -/
theorem insertCall_of_stepsSucceed (hadd : cfg.addHash = true) (hdo : cfg.doInsert = true)
    {refused : Bool} {st : LogState D} (hst : BetweenCalls st) {c : InsertCall A}
    {sign : Option Signature} (hsteps : StepsSucceed cfg P B rows refused st c sign) :
    ∃ st', insertCall cfg P B refused st c sign = .ok st' ∧ BetweenCalls st' ∧
      st'.lasthash = nextHash P st.lasthash c.name c.tuple ∧
      rows st'.db.content =
        rows st.db.content ++ [(c, nextHash P st.lasthash c.name c.tuple)] := by
  obtain ⟨hsome, hinsert, hend⟩ := hsteps hdo
  rcases insertCall_cases (P := P) (B := B) hdo refused hst.lasthashMutex hst.sqliteMutex c sign
    with ⟨hsigns, rfl, -⟩ | ⟨-, hcall⟩
  · exact absurd (hsome hsigns) (by decide)
  · refine ⟨_, hcall, ⟨hst.lasthashMutex, hst.sqliteMutex, ?_⟩, if_pos hadd, ?_⟩
    · exact (SqlConnection.saved_endTransaction _ _).2 hend
    · rw [SqlConnection.content_endTransaction]
      exact hinsert

/-- The state behind such a call, where the statements leave the transaction alone. -/
theorem insertCall_session_of_stepsSucceed (hadd : cfg.addHash = true) (hdo : cfg.doInsert = true)
    {st : LogState D} (hst : BetweenCalls st) {c : InsertCall A} {sign : Option Signature}
    (hsteps : StepsSucceed cfg P E.session rows false st c sign) :
    insertCall cfg P E.session false st c sign = .ok { st with
      lasthash := nextHash P st.lasthash c.name c.tuple,
      db := ⟨contentAfter cfg P E st c, none⟩ } := by
  have hnew : newLasthash cfg P st.lasthash c.name c.tuple =
      nextHash P st.lasthash c.name c.tuple := if_pos hadd
  rcases insertCall_session_cases (E := E) hdo hst c sign with ⟨hsigns, rfl, -⟩ | ⟨-, hcall⟩
  · exact absurd ((hsteps hdo).1 hsigns) (by decide)
  · rw [hcall, hnew]

/-- A call whose steps succeed keeps the invariant and is atomic. -/
theorem ChainInvariant.call (hadd : cfg.addHash = true) {refused : Bool} {st : LogState D}
    (hinv : ChainInvariant P rows st) {c : InsertCall A} {sign : Option Signature}
    (hsteps : StepsSucceed cfg P B rows refused st c sign) :
    ∃ st', insertCall cfg P B refused st c sign = .ok st' ∧ CallAtomic rows st st' c ∧
      ChainInvariant P rows st' := by
  rcases Bool.eq_false_or_eq_true cfg.doInsert with hdo | hdo
  · obtain ⟨st', hcall, hst', hlast, hrows⟩ :=
      insertCall_of_stepsSucceed hadd hdo hinv.toBetweenCalls hsteps
    refine ⟨st', hcall, ⟨Or.inl ⟨hst'.saved, by rw [hrows, hlast]⟩, hst'.lasthashMutex⟩, hst', ?_⟩
    rw [hrows, hlast]
    exact Linked.concat _ _ hinv.linked c
  · exact ⟨st, insertCall_of_not_doInsert hdo refused st c sign,
      ⟨Or.inr ⟨rfl, rfl⟩, hinv.lasthashMutex⟩, hinv⟩

/-- **Nothing less will do**: a call that is atomic although the head moves has had its steps
succeed. -/
theorem stepsSucceed_of_callAtomic (hadd : cfg.addHash = true) {refused : Bool}
    {st st' : LogState D} (hst : BetweenCalls st) {c : InsertCall A} {sign : Option Signature}
    (hmoves : nextHash P st.lasthash c.name c.tuple ≠ st.lasthash)
    (hcall : insertCall cfg P B refused st c sign = .ok st') (h : CallAtomic rows st st' c) :
    StepsSucceed cfg P B rows refused st c sign := by
  intro hdo
  have hnew : newLasthash cfg P st.lasthash c.name c.tuple =
      nextHash P st.lasthash c.name c.tuple := if_pos hadd
  rcases insertCall_cases (P := P) (B := B) hdo refused hst.lasthashMutex hst.sqliteMutex c sign
    with ⟨-, -, hcall'⟩ | ⟨hsome, hcall'⟩
  · -- the mutex is held
    rw [hcall, Except.ok.injEq] at hcall'
    rw [hcall'] at h
    exact absurd h.2 Bool.noConfusion
  · rw [hcall, Except.ok.injEq] at hcall'
    rw [hcall', CallAtomic, hnew, SqlConnection.content_endTransaction,
      SqlConnection.saved_endTransaction] at h
    rcases h.1 with ⟨hend, hinsert⟩ | ⟨-, hsame⟩
    · exact ⟨hsome, hinsert, hend⟩
    · exact absurd hsame hmoves

/-! ### Runs -/

theorem chainInvariant_of_reaches (hadd : cfg.addHash = true) {st : LogState D}
    (h : Reaches cfg P B rows st) : ChainInvariant P rows st := by
  induction h with
  | init d h => exact ⟨⟨rfl, rfl, rfl⟩, by rw [LogState.init, h]; rfl⟩
  | call c sign refused _ hsteps hcall ih =>
    obtain ⟨st'', hcall', -, hinv⟩ := ih.call hadd hsteps
    rw [hcall, Except.ok.injEq] at hcall'
    exact hcall' ▸ hinv

/-- **The log stays one chain while the steps succeed.** In every state reached by calls whose steps
succeed, the rows form one chain from the empty hash to `lasthash`, all of them are committed and
the mutex is free, and a further call is atomic if its steps succeed — and only then, unless the
hash of its row is the old head. -/
theorem callAtomic_iff_stepsSucceed (hadd : cfg.addHash = true) {st : LogState D}
    (h : Reaches cfg P B rows st) :
    Linked (sha256 P) chainText HashText.empty (rows st.db.content) st.lasthash ∧
      st.db.saved = none ∧ st.lasthashMutex = false ∧
      ∀ (c : InsertCall A) (sign : Option Signature) (refused : Bool),
        (StepsSucceed cfg P B rows refused st c sign →
          ∃ st', insertCall cfg P B refused st c sign = .ok st' ∧ CallAtomic rows st st' c) ∧
        (nextHash P st.lasthash c.name c.tuple ≠ st.lasthash →
          (∃ st', insertCall cfg P B refused st c sign = .ok st' ∧ CallAtomic rows st st' c) →
            StepsSucceed cfg P B rows refused st c sign) := by
  have hinv := chainInvariant_of_reaches hadd h
  refine ⟨hinv.linked, hinv.saved, hinv.lasthashMutex, fun c sign refused ↦ ⟨fun hsteps ↦ ?_, ?_⟩⟩
  · obtain ⟨st', hcall, hatomic, -⟩ := hinv.call hadd hsteps
    exact ⟨st', hcall, hatomic⟩
  · rintro hmoves ⟨st', hcall, hatomic⟩
    exact stepsSucceed_of_callAtomic hadd hinv.toBetweenCalls hmoves hcall hatomic

/-! ### A concrete database -/

/-- The row that a statement text stores, if it reads as an `INSERT` into a Git table. -/
def rowOfText (text : Bytes) : Option (InsertCall .git × HashText) :=
  (SqlText.readInsert text).map fun (table, _) ↦
    (⟨if table = ascii "updates" then ⟨0, updates_lt⟩ else ⟨1, advertisements_lt⟩,
        .ofBuffer ((text.drop (table.length + 23)).take (text.length - (table.length + 92)))⟩,
      .ofBuffer ((text.drop (text.length - 67)).take 64))

/-- A database that stores the rows of the statements it can read and refuses the others. It does
not check keys. -/
def gitEngine : SqlEngine (List (InsertCall .git × HashText))
    (Option (InsertCall .git × HashText)) where
  statements text := [rowOfText text]
  step d row := row.map fun r ↦ d ++ [r]

/-- The state after the row of a push has been stored in the empty log. -/
def pushedState : LogState (List (InsertCall .git × HashText)) where
  lasthash := nextHash twoRowPlatform HashText.empty pushCall.name pushCall.tuple
  lasthashMutex := false
  sqliteMutex := false
  db := ⟨contentAfter ⟨true, true, true, false⟩ twoRowPlatform gitEngine (LogState.init [])
    pushCall, none⟩

theorem betweenCalls_init (d : D) : BetweenCalls (LogState.init d) := ⟨rfl, rfl, rfl⟩

/-- The steps of a call succeed where the statement stores the row and nothing else goes wrong. -/
theorem stepsSucceed_session {st : LogState D} {c : InsertCall A} {sign : Option Signature}
    (hsign : cfg.signs = true → sign.isSome = true)
    (hrows : rows (contentAfter cfg P E st c) =
      rows st.db.content ++ [(c, nextHash P st.lasthash c.name c.tuple)]) :
    StepsSucceed cfg P E.session rows false st c sign :=
  fun _ ↦ ⟨hsign, inserts_session_iff.2 hrows, fun h ↦ nomatch h⟩

theorem reaches_pushedState :
    Reaches ⟨true, true, true, false⟩ twoRowPlatform gitEngine.session id pushedState := by
  have hsteps : StepsSucceed ⟨true, true, true, false⟩ twoRowPlatform gitEngine.session id false
      (LogState.init []) pushCall none := stepsSucceed_session (by decide) (by decide +kernel)
  exact Reaches.call pushCall none false (Reaches.init [] rfl) hsteps
    (insertCall_session_of_stepsSucceed rfl rfl (betweenCalls_init []) hsteps)

/-- An advertisement is logged behind a push. -/
theorem callAtomic_advertisementCall :
    ∃ st', insertCall ⟨true, true, true, false⟩ twoRowPlatform gitEngine.session false pushedState
        advertisementCall none = .ok st' ∧ CallAtomic id pushedState st' advertisementCall :=
  ((callAtomic_iff_stepsSucceed rfl reaches_pushedState).2.2.2 advertisementCall none false).1
    (stepsSucceed_session (by decide) (by decide +kernel))

/-- The call for a push to a reference with a double quote in its name. -/
def quotedCall : InsertCall .git := ⟨⟨0, updates_lt⟩, .ofBuffer quotedPush.tuple⟩

/-- The head moves without a row where SQLite refuses the statement, where the signature fails, and
where SQLite refuses to end the transaction. -/
theorem not_callAtomic_of_failed_step :
    (¬ ∃ st', insertCall ⟨true, true, true, false⟩ twoRowPlatform gitEngine.session false
        (LogState.init []) quotedCall none = .ok st' ∧
        CallAtomic id (LogState.init []) st' quotedCall) ∧
      (¬ ∃ st', insertCall ⟨true, true, true, true⟩ twoRowPlatform gitEngine.session false
        (LogState.init []) pushCall none = .ok st' ∧
        CallAtomic id (LogState.init []) st' pushCall) ∧
      ¬ ∃ st', insertCall ⟨true, true, true, false⟩ twoRowPlatform gitEngine.session true
        (LogState.init []) pushCall none = .ok st' ∧
        CallAtomic id (LogState.init []) st' pushCall := by
  refine ⟨?_, ?_, ?_⟩
  · rintro ⟨st', hcall, hatomic⟩
    have hsteps := stepsSucceed_of_callAtomic rfl (betweenCalls_init []) (by decide +kernel) hcall
      hatomic
    exact absurd (inserts_session_iff.1 (hsteps rfl).2.1) (by decide +kernel)
  · rintro ⟨st', hcall, hatomic⟩
    have hsteps := stepsSucceed_of_callAtomic rfl (betweenCalls_init []) (by decide +kernel) hcall
      hatomic
    exact absurd ((hsteps rfl).1 rfl) (by decide)
  · rintro ⟨st', hcall, hatomic⟩
    have hsteps := stepsSucceed_of_callAtomic rfl (betweenCalls_init []) (by decide +kernel) hcall
      hatomic
    exact absurd ((hsteps rfl).2.2 rfl) (by decide +kernel)

end LibSeal
